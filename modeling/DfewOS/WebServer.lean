import Mathlib.Data.List.Basic
import Mathlib.Data.List.TakeWhile
import Mathlib.Data.Nat.Notation
import Mathlib.Logic.Function.Basic
import Mathlib.Tactic.ByContra
import Mathlib.Tactic.SplitIfs

/-!
# Text files as web pages

What `T_web_server_start` of `webserver.c` sends for a text file between `html_start` and
`html_end`. `yaffs_read` delivers the file in chunks, and an answer of 0 or less ends it. The
first chunk is read behind a `|`. `sendContext` is as long as need be here, and the indices at
which it is written are kept.
-/

namespace DfewOS.WebServer

structure SendBuffer where
  sendContext : ℕ → UInt8
  sendByte : ℕ
  stores : List ℕ

/-- `send_context[send_byte++] = c` -/
def SendBuffer.put (s : SendBuffer) (c : UInt8) : SendBuffer where
  sendContext := Function.update s.sendContext s.sendByte c
  sendByte := s.sendByte + 1
  stores := s.stores ++ [s.sendByte]

def SendBuffer.escape (s : SendBuffer) (c : UInt8) : SendBuffer :=
  if c = '\n'.toUInt8 then
    ((((s.put '<'.toUInt8).put 'B'.toUInt8).put 'R'.toUInt8).put '>'.toUInt8).put '|'.toUInt8
  else if c = '<'.toUInt8 then ((s.put '&'.toUInt8).put 'l'.toUInt8).put 't'.toUInt8
  else if c = '&'.toUInt8 then
    (((s.put '&'.toUInt8).put 'a'.toUInt8).put 'm'.toUInt8).put 'p'.toUInt8
  else if c = '"'.toUInt8 then
    ((((s.put '&'.toUInt8).put 'q'.toUInt8).put 'u'.toUInt8).put 'o'.toUInt8).put 't'.toUInt8
  else s.put c

def SendBuffer.text (s : SendBuffer) : List UInt8 := (List.range s.sendByte).map s.sendContext

structure Serving where
  buffer : SendBuffer
  readBytes : List ℕ
  sent : List (List UInt8)

def Serving.send (w : Serving) (fileContext : List UInt8) : Serving :=
  let buffer := fileContext.foldl SendBuffer.escape { w.buffer with sendByte := 0 }
  { w with buffer := buffer, sent := w.sent ++ [buffer.text] }

/-- The `while`-loop, where `fileContext` has been read and `reads` are still to come. -/
def Serving.loop (w : Serving) (fileContext : List UInt8) (reads : List (List UInt8)) : Serving :=
  let w := { w with readBytes := w.readBytes ++ [fileContext.length] }
  if fileContext.length > 1 then
    match reads with
    | [] => { w.send fileContext with readBytes := w.readBytes ++ [0] }
    | chunk :: reads => (w.send fileContext).loop chunk reads
  else w

def serveText (sendContext : ℕ → UInt8) (reads : List (List UInt8)) : Serving :=
  let w : Serving := ⟨⟨sendContext, 0, []⟩, [], []⟩
  match reads with
  | [] => w.loop ['|'.toUInt8] []
  | chunk :: reads => w.loop ('|'.toUInt8 :: chunk) reads

/-! ## The translation of a text -/

def translated (c : UInt8) : List UInt8 :=
  if c = '\n'.toUInt8 then ['<', 'B', 'R', '>', '|'].map Char.toUInt8
  else if c = '<'.toUInt8 then ['&', 'l', 't'].map Char.toUInt8
  else if c = '&'.toUInt8 then ['&', 'a', 'm', 'p'].map Char.toUInt8
  else if c = '"'.toUInt8 then ['&', 'q', 'u', 'o', 't'].map Char.toUInt8
  else [c]

def translate (text : List UInt8) : List UInt8 := text.flatMap translated

/-- A line starts with `|`, also the first one of a file with anything in it. -/
def page (file : List UInt8) : List UInt8 :=
  if file = [] then [] else translate ('|'.toUInt8 :: file)

structure Delivered (chunks : List (List UInt8)) : Prop where
  nonempty : ∀ chunk ∈ chunks, chunk ≠ []
  first : ∀ chunk ∈ chunks.head?, chunk.length ≤ 1023
  later : ∀ chunk ∈ chunks.tail, chunk.length ≤ 1024

structure Served (chunks : List (List UInt8)) (w : Serving) : Prop where
  stores : ∀ i ∈ w.buffer.stores, i < 2048
  readBytes : ∀ n ∈ w.readBytes, n ≤ 1024
  sent : w.sent.flatten = page chunks.flatten

/-- What is read into `file_context`, with the `|` in front. -/
def contexts : List (List UInt8) → List (List UInt8)
  | [] => []
  | chunk :: chunks => ('|'.toUInt8 :: chunk) :: chunks

variable {s : SendBuffer} {w : Serving} {c : UInt8} {bs text fileContext : List UInt8}
  {chunks reads : List (List UInt8)}

def SendBuffer.putAll (s : SendBuffer) (bs : List UInt8) : SendBuffer := bs.foldl SendBuffer.put s

theorem escape_eq : s.escape c = s.putAll (translated c) := by
  rw [SendBuffer.escape, translated]
  split_ifs <;> rfl

theorem foldl_escape : text.foldl SendBuffer.escape s = s.putAll (translate text) := by
  induction text generalizing s with
  | nil => rfl
  | cons c text ih =>
    rw [List.foldl_cons, ih, escape_eq]
    exact (List.foldl_append ..).symm

theorem put_text : (s.put c).text = s.text ++ [c] := by
  have hkept : (List.range s.sendByte).map (Function.update s.sendContext s.sendByte c) = s.text :=
    List.map_congr_left fun i hi => Function.update_of_ne (Nat.ne_of_lt (List.mem_range.mp hi)) _ _
  have hlast : Function.update s.sendContext s.sendByte c s.sendByte = c := Function.update_self ..
  rw [SendBuffer.text, SendBuffer.put]
  simp only [List.range_succ, List.map_append, hkept, List.map_singleton, hlast]

theorem putAll_text : (s.putAll bs).text = s.text ++ bs := by
  induction bs generalizing s with
  | nil => exact (List.append_nil _).symm
  | cons c bs ih =>
    have hrest := ih (s := s.put c)
    rw [put_text, List.append_assoc] at hrest
    exact hrest

theorem putAll_stores :
    (s.putAll bs).stores = s.stores ++ List.range' s.sendByte bs.length := by
  induction bs generalizing s with
  | nil => exact (List.append_nil _).symm
  | cons c bs ih =>
    have hrest := ih (s := s.put c)
    rw [SendBuffer.put, List.append_assoc] at hrest
    exact hrest

theorem send_sent : (w.send fileContext).sent = w.sent ++ [translate fileContext] := by
  rw [Serving.send, foldl_escape, putAll_text]
  rfl

theorem send_stores : (w.send fileContext).buffer.stores =
    w.buffer.stores ++ List.range (translate fileContext).length := by
  rw [Serving.send, foldl_escape, List.range_eq_range']
  exact putAll_stores

def reached (chunks : List (List UInt8)) : List (List UInt8) :=
  chunks.takeWhile fun chunk => 1 < chunk.length

theorem reached_of_long (h : 1 < fileContext.length) :
    reached (fileContext :: reads) = fileContext :: reached reads :=
  List.takeWhile_cons_of_pos (decide_eq_true h)

theorem reached_of_short (h : ¬ 1 < fileContext.length) : reached (fileContext :: reads) = [] :=
  List.takeWhile_cons_of_neg fun hlong => h (of_decide_eq_true hlong)

theorem loop_of_short (h : ¬ 1 < fileContext.length) : w.loop fileContext reads =
    { w with readBytes := w.readBytes ++ [fileContext.length] } := by
  rw [Serving.loop.eq_def, if_neg h]

theorem loop_sent : (w.loop fileContext reads).sent =
    w.sent ++ (reached (fileContext :: reads)).map translate := by
  induction reads generalizing w fileContext with
  | nil =>
    by_cases hlong : 1 < fileContext.length
    · rw [Serving.loop, if_pos hlong, reached_of_long hlong]
      exact send_sent
    · rw [loop_of_short hlong, reached_of_short hlong, List.map_nil, List.append_nil]
  | cons chunk reads ih =>
    by_cases hlong : 1 < fileContext.length
    · rw [Serving.loop, if_pos hlong, reached_of_long hlong, ih, send_sent, List.append_assoc]
      rfl
    · rw [loop_of_short hlong, reached_of_short hlong, List.map_nil, List.append_nil]

theorem loop_stores : (w.loop fileContext reads).buffer.stores = w.buffer.stores ++
    (reached (fileContext :: reads)).flatMap fun chunk => List.range (translate chunk).length := by
  induction reads generalizing w fileContext with
  | nil =>
    by_cases hlong : 1 < fileContext.length
    · rw [Serving.loop, if_pos hlong, reached_of_long hlong]
      exact send_stores.trans (congrArg _ (List.append_nil _).symm)
    · rw [loop_of_short hlong, reached_of_short hlong, List.flatMap_nil, List.append_nil]
  | cons chunk reads ih =>
    by_cases hlong : 1 < fileContext.length
    · rw [Serving.loop, if_pos hlong, reached_of_long hlong, ih, send_stores, List.flatMap_cons,
        List.append_assoc]
    · rw [loop_of_short hlong, reached_of_short hlong, List.flatMap_nil, List.append_nil]

theorem loop_readBytes {size : ℕ} (hw : ∀ n ∈ w.readBytes, n ≤ size)
    (hchunks : ∀ chunk ∈ fileContext :: reads, chunk.length ≤ size) :
    ∀ n ∈ (w.loop fileContext reads).readBytes, n ≤ size := by
  have hhere : ∀ n ∈ w.readBytes ++ [fileContext.length], n ≤ size := by
    intro n hn
    rcases List.mem_append.mp hn with hold | hnew
    · exact hw n hold
    · rw [List.mem_singleton.mp hnew]
      exact hchunks fileContext List.mem_cons_self
  induction reads generalizing w fileContext with
  | nil =>
    by_cases hlong : 1 < fileContext.length
    · intro n hn
      rw [Serving.loop, if_pos hlong] at hn
      rcases List.mem_append.mp hn with hold | hend
      · exact hhere n hold
      · rw [List.mem_singleton.mp hend]
        exact Nat.zero_le size
    · rw [loop_of_short hlong]
      exact hhere
  | cons chunk reads ih =>
    by_cases hlong : 1 < fileContext.length
    · rw [Serving.loop, if_pos hlong]
      have hrest : ∀ c ∈ chunk :: reads, c.length ≤ size := fun c hc =>
        hchunks c (List.mem_cons_of_mem _ hc)
      refine ih hhere hrest fun n hn => ?_
      rcases List.mem_append.mp hn with hold | hnew
      · exact hhere n hold
      · rw [List.mem_singleton.mp hnew]
        exact hrest chunk List.mem_cons_self
    · rw [loop_of_short hlong]
      exact hhere

theorem translated_ne_nil : translated c ≠ [] := by
  rw [translated]
  split_ifs <;> exact List.cons_ne_nil _ _

theorem translate_ne_nil (h : text ≠ []) : translate text ≠ [] := by
  obtain ⟨c, rest, rfl⟩ := List.exists_cons_of_ne_nil h
  rw [translate, List.flatMap_cons]
  exact List.append_ne_nil_of_left_ne_nil translated_ne_nil _

theorem reached_iff (hempty : ∀ chunk ∈ chunks, chunk ≠ []) :
    ((reached chunks).map translate).flatten = translate chunks.flatten ↔
      ∀ chunk ∈ chunks, chunk.length ≠ 1 := by
  induction chunks with
  | nil => exact iff_of_true rfl fun chunk hchunk => absurd hchunk List.not_mem_nil
  | cons chunk chunks ih =>
    obtain ⟨hne, hrest⟩ := List.forall_mem_cons.mp hempty
    have hpos := List.length_pos_of_ne_nil hne
    rw [List.forall_mem_cons, List.flatten_cons]
    by_cases hlong : 1 < chunk.length
    · rw [reached_of_long hlong, List.map_cons, List.flatten_cons, translate, translate,
        List.flatMap_append, List.append_cancel_left_eq]
      exact (ih hrest).trans (iff_and_self.mpr fun _ => Nat.ne_of_gt hlong)
    · rw [reached_of_short hlong]
      refine iff_of_false (fun hnone => ?_) fun h => h.1 (by omega)
      exact translate_ne_nil (List.append_ne_nil_of_left_ne_nil hne _) hnone.symm

theorem reached_whole (hempty : ∀ chunk ∈ chunks, chunk ≠ [])
    (hsingle : ∀ chunk ∈ chunks, chunk.length ≠ 1) : reached chunks = chunks := by
  refine List.takeWhile_eq_self_iff.mpr fun chunk hchunk => decide_eq_true ?_
  have hpos := List.length_pos_of_ne_nil (hempty chunk hchunk)
  have hne := hsingle chunk hchunk
  omega

theorem stores_iff {size : ℕ} :
    (∀ i ∈ chunks.flatMap fun chunk => List.range (translate chunk).length, i < size) ↔
      ∀ chunk ∈ chunks, (translate chunk).length ≤ size := by
  constructor
  · intro h chunk hchunk
    by_contra hlong
    have hmem : size ∈ chunks.flatMap fun chunk => List.range (translate chunk).length :=
      List.mem_flatMap.mpr ⟨chunk, hchunk, List.mem_range.mpr (by omega)⟩
    exact absurd (h size hmem) (Nat.lt_irrefl size)
  · intro h i hi
    obtain ⟨chunk, hchunk, hrange⟩ := List.mem_flatMap.mp hi
    exact Nat.lt_of_lt_of_le (List.mem_range.mp hrange) (h chunk hchunk)

theorem contexts_empty (h : ∀ chunk ∈ chunks, chunk ≠ []) : ∀ chunk ∈ contexts chunks, chunk ≠ [] := by
  cases chunks with
  | nil => exact h
  | cons chunk chunks =>
    exact List.forall_mem_cons.mpr ⟨List.cons_ne_nil _ _, (List.forall_mem_cons.mp h).2⟩

theorem contexts_single (h : ∀ chunk ∈ chunks, chunk ≠ []) :
    (∀ chunk ∈ contexts chunks, chunk.length ≠ 1) ↔ ∀ chunk ∈ chunks.tail, chunk.length ≠ 1 := by
  cases chunks with
  | nil => rfl
  | cons chunk chunks =>
    have hpos := List.length_pos_of_ne_nil (List.forall_mem_cons.mp h).1
    have hlong : ('|'.toUInt8 :: chunk).length ≠ 1 := Nat.ne_of_gt (Nat.succ_lt_succ hpos)
    rw [contexts, List.forall_mem_cons, and_iff_right hlong, List.tail_cons]

theorem serveText_sent {sendContext : ℕ → UInt8} (h : ∀ chunk ∈ chunks, chunk ≠ []) :
    (serveText sendContext chunks).sent.flatten = page chunks.flatten ↔
      ∀ chunk ∈ chunks.tail, chunk.length ≠ 1 := by
  rw [← contexts_single h, ← reached_iff (contexts_empty h)]
  cases chunks with
  | nil => exact iff_of_true rfl rfl
  | cons chunk chunks =>
    have hpage : page (chunk :: chunks).flatten = translate (contexts (chunk :: chunks)).flatten :=
      if_neg (List.append_ne_nil_of_left_ne_nil (List.forall_mem_cons.mp h).1 _)
    rw [serveText, loop_sent, hpage]
    rfl

theorem serveText_stores {sendContext : ℕ → UInt8} : (serveText sendContext chunks).buffer.stores =
    (reached (contexts chunks)).flatMap fun chunk => List.range (translate chunk).length := by
  cases chunks with
  | nil => rfl
  | cons chunk chunks =>
    rw [serveText, loop_stores]
    rfl

theorem serveText_readBytes {sendContext : ℕ → UInt8} (h : Delivered chunks) :
    ∀ n ∈ (serveText sendContext chunks).readBytes, n ≤ 1024 := by
  cases chunks with
  | nil =>
    intro n hn
    rw [List.mem_singleton.mp hn]
    decide
  | cons chunk chunks =>
    have hfirst : ('|'.toUInt8 :: chunk).length ≤ 1024 := Nat.succ_le_succ (h.first chunk rfl)
    exact loop_readBytes nofun (List.forall_mem_cons.mpr ⟨hfirst, h.later⟩)

/-- The page comes out whole, within the buffers, just if no expansion is longer than
`send_context` and no chunk behind the first is a single byte. -/
theorem serveText_iff {sendContext : ℕ → UInt8} (h : Delivered chunks) :
    Served chunks (serveText sendContext chunks) ↔
      (∀ chunk ∈ contexts chunks, (translate chunk).length ≤ 2048) ∧
        ∀ chunk ∈ chunks.tail, chunk.length ≠ 1 := by
  have hsent : (serveText sendContext chunks).sent.flatten = page chunks.flatten ↔
      ∀ chunk ∈ chunks.tail, chunk.length ≠ 1 := serveText_sent h.nonempty
  have hwhole (hlonger : ∀ chunk ∈ chunks.tail, chunk.length ≠ 1) :
      (serveText sendContext chunks).buffer.stores =
        (contexts chunks).flatMap fun chunk => List.range (translate chunk).length := by
    rw [serveText_stores,
      reached_whole (contexts_empty h.nonempty) ((contexts_single h.nonempty).mpr hlonger)]
  constructor
  · intro hserved
    have hlonger := hsent.mp hserved.sent
    have hbound := hserved.stores
    rw [hwhole hlonger] at hbound
    exact ⟨stores_iff.mp hbound, hlonger⟩
  · rintro ⟨hexpand, hlonger⟩
    refine ⟨?_, serveText_readBytes h, hsent.mpr hlonger⟩
    rw [hwhole hlonger]
    exact stores_iff.mpr hexpand

/-- A page of two chunks, the first of them with a sign that is expanded. -/
theorem serveText_iff_chunks :
    Served [['a', '<', '\n'].map Char.toUInt8, ['b', '\n'].map Char.toUInt8]
      (serveText (fun _ => 0) [['a', '<', '\n'].map Char.toUInt8, ['b', '\n'].map Char.toUInt8]) :=
  (serveText_iff ⟨by decide, by decide, by decide⟩).mpr (by decide)

/-- Of a file of 1024 bytes, which is read as 1023 bytes and one more, the last byte is lost. -/
theorem serveText_last_lost :
    ¬ Served [List.replicate 1023 'a'.toUInt8, ['a'.toUInt8]]
      (serveText (fun _ => 0) [List.replicate 1023 'a'.toUInt8, ['a'.toUInt8]]) := by
  intro h
  have hempty : ∀ chunk ∈ [List.replicate 1023 'a'.toUInt8, ['a'.toUInt8]], chunk ≠ [] :=
    List.forall_mem_cons.mpr ⟨List.cons_ne_nil _ _, by decide⟩
  exact (serveText_sent hempty).mp h.sent ['a'.toUInt8] (List.mem_singleton.mpr rfl) rfl

end DfewOS.WebServer
