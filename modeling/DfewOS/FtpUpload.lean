import DfewOS.FtpTransferSpec
import DfewOS.Words

/-!
# Uploads

`_ftps_cmd_STOR` over every sequence of answers of `recv` and `yaffs_write`. Both transfer modes
hand the received bytes over piece by piece until a write falls short: in binary mode a piece is a
chunk, in text mode what stands between the CRs of a chunk. Behind the loops `iN` is the last
answer of `recv` or, after a short write, the length of the chunk.
-/

namespace DfewOS.Ftp
open Words (words words_sep words_append_sep words_free words_flatten)

/-! ## Handing over pieces -/

section Pieces
variable {sink : Sink} {pieces rest : List (List UInt8)} {out : List Handed}

def Handed.Complete (h : Handed) : Prop := h.answer = h.bytes.length

/-- The pieces one after the other, up to the first that is not taken over as a whole. -/
def Sink.handAll (sink : Sink) : List (List UInt8) → List Handed → Bool × List Handed
  | [], out => (true, out)
  | piece :: pieces, out =>
      if sink out.length piece = piece.length then sink.handAll pieces (sink.hand out piece)
      else (false, sink.hand out piece)

/-- Some call of the sink would take less than its piece. -/
def Sink.Short (sink : Sink) (pieces : List (List UInt8)) : Prop :=
  ∃ k piece, pieces[k]? = some piece ∧ sink k piece ≠ piece.length

theorem handAll_full {piece : List UInt8} (h : sink out.length piece = piece.length) :
    sink.handAll (piece :: pieces) out = sink.handAll pieces (sink.hand out piece) := if_pos h

theorem handAll_stop {piece : List UInt8} (h : sink out.length piece ≠ piece.length) :
    sink.handAll (piece :: pieces) out = (false, sink.hand out piece) := if_neg h

theorem handAll_append : sink.handAll (pieces ++ rest) out =
    if (sink.handAll pieces out).1 then sink.handAll rest (sink.handAll pieces out).2
    else sink.handAll pieces out := by
  induction pieces generalizing out with
  | nil => rfl
  | cons piece pieces ih =>
    rw [List.cons_append]
    by_cases hfull : sink out.length piece = piece.length
    · rw [handAll_full hfull, handAll_full hfull]
      exact ih
    · rw [handAll_stop hfull, handAll_stop hfull]
      rfl

theorem hand_complete (hout : ∀ h ∈ out, h.Complete) {piece : List UInt8} :
    (∀ h ∈ sink.hand out piece, h.Complete) ↔ sink out.length piece = piece.length := by
  rw [Sink.hand]
  constructor
  · exact fun h => h _ (List.mem_append_right _ (List.mem_singleton.mpr rfl))
  · intro hfull h hmem
    rcases List.mem_append.mp hmem with hold | hnew
    · exact hout h hold
    · rw [List.mem_singleton.mp hnew]
      exact hfull

theorem handAll_complete (hout : ∀ h ∈ out, h.Complete) :
    (∀ h ∈ (sink.handAll pieces out).2, h.Complete) ↔ (sink.handAll pieces out).1 = true := by
  induction pieces generalizing out with
  | nil => exact iff_of_true hout rfl
  | cons piece pieces ih =>
    by_cases hfull : sink out.length piece = piece.length
    · rw [handAll_full hfull]
      exact ih ((hand_complete hout).mpr hfull)
    · rw [handAll_stop hfull]
      exact iff_of_false (fun h => hfull ((hand_complete hout).mp h)) Bool.false_ne_true

theorem delivered_handAll (h : (sink.handAll pieces out).1 = true) :
    delivered (sink.handAll pieces out).2 = delivered out ++ pieces.flatten := by
  induction pieces generalizing out with
  | nil => exact (List.append_nil _).symm
  | cons piece pieces ih =>
    by_cases hfull : sink out.length piece = piece.length
    · rw [handAll_full hfull] at h ⊢
      rw [ih h, Sink.hand, delivered, List.flatMap_append, List.flatten_cons, ← List.append_assoc]
      simp [delivered, hfull]
    · rw [handAll_stop hfull] at h
      exact absurd h Bool.false_ne_true

theorem handAll_short_from (k : ℕ) (hk : out.length = k) : (sink.handAll pieces out).1 = false ↔
    ∃ i piece, pieces[i]? = some piece ∧ sink (k + i) piece ≠ piece.length := by
  induction pieces generalizing out k with
  | nil =>
    refine iff_of_false (fun h => absurd h (by simp [Sink.handAll])) ?_
    rintro ⟨i, piece, hpiece, -⟩
    exact absurd hpiece (by simp)
  | cons first pieces ih =>
    subst hk
    by_cases hfull : sink out.length first = first.length
    · rw [handAll_full hfull, ih (out.length + 1) (List.length_append ..)]
      constructor
      · rintro ⟨i, piece, hpiece, hshort⟩
        exact ⟨i + 1, piece, hpiece, by rwa [show out.length + (i + 1) = out.length + 1 + i by omega]⟩
      · rintro ⟨i, piece, hpiece, hshort⟩
        cases i with
        | zero =>
          obtain rfl := Option.some.inj hpiece
          exact absurd hfull hshort
        | succ i =>
          exact ⟨i, piece, hpiece, by rwa [show out.length + 1 + i = out.length + (i + 1) by omega]⟩
    · rw [handAll_stop hfull]
      exact iff_of_true rfl ⟨0, first, rfl, hfull⟩

theorem handAll_short : (sink.handAll pieces []).1 = false ↔ sink.Short pieces := by
  rw [handAll_short_from 0 rfl]
  simp only [Nat.zero_add]
  rfl

end Pieces

/-! ## What the loops hand over -/

section Loops
variable {write : Sink} {buf old : ℕ → UInt8} {out : List Handed} {c : Chunk} {cs : List Chunk}
  {last : Int}

def isCr (b : UInt8) : Bool := b = cr

theorem handAll_line {line : List UInt8} (h : cr ∉ line) :
    write.handAll (words isCr line) out =
      if 0 < line.length ∧ write out.length line ≠ line.length then
        (false, if 0 < line.length then write.hand out line else out)
      else (true, if 0 < line.length then write.hand out line else out) := by
  have hfree : ∀ b ∈ line, isCr b = false := fun b hb => decide_eq_false fun heq => h (heq ▸ hb)
  rw [words_free hfree]
  by_cases hnil : line = []
  · subst hnil
    rfl
  · have hpos := List.length_pos_iff.mpr hnil
    rw [if_neg hnil, if_pos hpos]
    by_cases hfull : write out.length line = line.length
    · rw [handAll_full hfull, if_neg fun h => h.2 hfull]
      rfl
    · rw [handAll_stop hfull, if_pos ⟨hpos, hfull⟩]

theorem storLines_eq (iN e iCounter : ℕ) (out : List Handed) :
    storLines write buf iN e iCounter out =
      write.handAll (words isCr (Scan.slice buf e (iN - iCounter))) out := by
  induction hn : iN - iCounter using Nat.strongRecOn generalizing e iCounter out with
  | ind n ih =>
    have hline : cr ∉ Scan.slice buf e (Scan.upTo cr buf e n).1 := Scan.not_mem_slice_upTo e n
    have hhand : write.handAll (words isCr (Scan.slice buf e (Scan.upTo cr buf e n).1)) out = _ :=
      handAll_line hline
    rw [Scan.slice_length] at hhand
    rw [storLines]
    simp only [hn]
    by_cases hcr : (Scan.upTo cr buf e n).2 = true
    · have hlt := Scan.upTo_lt hcr
      rw [Scan.slice_upTo hcr, words_append_sep (show isCr cr = true from rfl), handAll_append, hhand]
      generalize Scan.upTo cr buf e n = r at *
      generalize (if 0 < r.1 then _ else out) = out₁
      simp only [hcr, if_true]
      by_cases hshort : 0 < r.1 ∧ write out.length (Scan.slice buf e r.1) ≠ r.1
      · rw [if_pos hshort, if_pos hshort, if_neg Bool.false_ne_true]
      · rw [if_neg hshort, if_neg hshort, if_pos rfl]
        by_cases hmore : iCounter + (r.1 + 1) < iN
        · rw [if_pos hmore]
          exact ih (n - (r.1 + 1)) (by omega) (e + r.1 + 1) (iCounter + (r.1 + 1)) _ (by omega)
        · rw [if_neg hmore, show n - (r.1 + 1) = 0 by omega]
          rfl
    · have hall := Scan.upTo_not_found (Bool.eq_false_iff.mpr hcr)
      rw [hall] at hhand ⊢
      rw [hhand, if_neg hcr, if_neg (show ¬ iCounter + (n + 0) < iN by omega)]

/-- The chunks as the loop of a mode hands them over. -/
def pieces : TransMode → List Chunk → List (List UInt8)
  | .bin, cs => cs.map Chunk.bytes
  | .ascii, cs => cs.flatMap fun c => words isCr c.bytes
  | .ebcdic, _ | .own, _ => []

/-- Both loops over the chunks hand their pieces over and end with the last answer of `recv`, or,
after a short write, with a positive number. -/
def Hands (write : Sink) (last : Int) (pieces : List (List UInt8)) (out : List Handed)
    (r : Int × List Handed) : Prop :=
  r.2 = (write.handAll pieces out).2 ∧
    if (write.handAll pieces out).1 then r.1 = last else 0 < r.1

theorem storBin_hands (cs : List Chunk) (out : List Handed) :
    Hands write last (pieces .bin cs) out (storBin write last cs out) := by
  induction cs generalizing out with
  | nil => exact ⟨rfl, rfl⟩
  | cons c cs ih =>
    rw [storBin]
    by_cases hfull : write out.length c.bytes = c.bytes.length
    · rw [if_pos hfull]
      have hrest := ih (write.hand out c.bytes)
      rw [Hands, ← handAll_full hfull] at hrest
      exact hrest
    · have hstop : write.handAll (pieces .bin (c :: cs)) out = _ := handAll_stop hfull
      rw [if_neg hfull, Hands, hstop]
      exact ⟨rfl, Int.natCast_pos.mpr (List.length_pos_iff.mpr c.nonempty)⟩

theorem storAscii_hands (cs : List Chunk) (old : ℕ → UInt8) (out : List Handed) :
    Hands write last (pieces .ascii cs) out (storAscii write last cs old out) := by
  induction cs generalizing old out with
  | nil => exact ⟨rfl, rfl⟩
  | cons c cs ih =>
    have hlines : storLines write (c.fill old) c.bytes.length 0 0 out =
        write.handAll (words isCr c.bytes) out := by
      rw [storLines_eq, Nat.sub_zero, slice_fill]
    have happ : write.handAll (pieces .ascii (c :: cs)) out = _ := handAll_append
    rw [storAscii, hlines, Hands, happ]
    by_cases hdone : (write.handAll (words isCr c.bytes) out).1 = true
    · simp only [if_pos hdone]
      exact ih (c.fill old) _
    · simp only [if_neg hdone]
      exact ⟨trivial, Int.natCast_pos.mpr (List.length_pos_iff.mpr c.nonempty)⟩

def stored : TransMode → List UInt8 → List UInt8
  | .ascii, d => ofWire d
  | _, d => d

theorem ofWire_flatten (cs : List Chunk) :
    ofWire (cs.map Chunk.bytes).flatten = (pieces .ascii cs).flatten := by
  induction cs with
  | nil => rfl
  | cons c cs ih =>
    have hwords : ofWire c.bytes = (words isCr c.bytes).flatten := by
      rw [words_flatten, ofWire]
      exact List.filter_congr fun b _ => decide_not
    rw [List.map_cons, List.flatten_cons, ofWire_append, ih, hwords]
    exact List.flatten_append.symm

theorem pieces_flatten {mode : TransMode} (h : mode = .bin ∨ mode = .ascii) (f : Feed) :
    (pieces mode f.chunks).flatten = stored mode f.bytes := by
  rcases h with rfl | rfl
  · rfl
  · exact (ofWire_flatten f.chunks).symm

end Loops

/-! ## The command -/

section Command
variable {mode : TransMode} {a : StorAnswers}

theorem storData_hands (h : mode = .bin ∨ mode = .ascii) :
    Hands a.write a.net.last (pieces mode a.net.chunks) [] (storData mode a) := by
  rcases h with rfl | rfl
  · exact storBin_hands ..
  · exact storAscii_hands ..

/-- Both sides were reached, `recv` ended with 0 and every write was complete. -/
structure Whole (a : StorAnswers) (t : StorTrace) : Prop where
  connected : 0 ≤ a.sock
  opened : 0 ≤ a.fd
  ended : a.net.failed = false
  written : ∀ h ∈ t.written, h.Complete

def storErrors : List (ℕ × String) :=
  [(550, "Error creating data link."), (550, "Error creating file."), (551, "File write error.")]

/-- What an upload is to come to. -/
structure KeepsWhole (mode : TransMode) (a : StorAnswers) (t : StorTrace) : Prop where
  kept : Whole a t → t.replies = [modeReply mode, (226, "Transfer complete.")] ∧
    t.unlinked = false ∧ delivered t.written = stored mode a.net.bytes
  refused : ¬Whole a t → (∃ error ∈ storErrors, t.replies = [modeReply mode, error]) ∧
    (0 ≤ a.sock → 0 ≤ a.fd → t.unlinked = true)
  closed : t.closes = if 0 ≤ a.sock ∧ 0 ≤ a.fd then 1 else 0
  freed : t.frees = if 0 ≤ a.sock ∧ 0 ≤ a.fd ∧ a.malloc then 1 else 0
  sockClosed : t.sockCloses = if 0 ≤ a.sock then 1 else 0

theorem keepsWhole_refused (h : a.sock < 0 ∨ a.fd < 0) : KeepsWhole mode a (ftpsCmdSTOR mode a) := by
  have hnot : ∀ t, ¬Whole a t := fun t hwhole => by
    have hconnected := hwhole.connected
    have hopened := hwhole.opened
    omega
  rw [ftpsCmdSTOR]
  by_cases hsock : a.sock < 0
  · rw [if_pos hsock]
    refine ⟨fun hwhole => absurd hwhole (hnot _), fun _ => ⟨⟨_, .head _, rfl⟩, fun hle => ?_⟩, ?_, ?_, ?_⟩
    · omega
    · rw [if_neg (by omega)]
    · rw [if_neg (by omega)]
    · rw [if_neg (by omega)]
  · rw [if_neg hsock, if_pos (by omega)]
    refine ⟨fun hwhole => absurd hwhole (hnot _),
      fun _ => ⟨⟨_, .tail _ (.head _), rfl⟩, fun _ hle => ?_⟩, ?_, ?_, ?_⟩
    · omega
    · rw [if_neg (by omega)]
    · rw [if_neg (by omega)]
    · rw [if_pos (by omega)]

/-- The trace of an upload to a file that could be opened: success is read off `iN`. -/
theorem ftpsCmdSTOR_opened (hsock : 0 ≤ a.sock) (hfd : 0 ≤ a.fd) : ftpsCmdSTOR mode a =
    ⟨[modeReply mode, if (storData mode a).1 ≤ 0 then (226, "Transfer complete.")
        else (551, "File write error.")],
      (storData mode a).2, 1, !decide ((storData mode a).1 ≤ 0), if a.malloc then 1 else 0, 1⟩ := by
  rw [ftpsCmdSTOR, if_neg (by omega), if_neg (by omega)]
  by_cases hdone : (storData mode a).1 ≤ 0
  · simp only [if_pos hdone, decide_eq_true hdone, Bool.not_true]
  · simp only [if_neg hdone, decide_eq_false hdone, Bool.not_false]

theorem keepsWhole_opened (hmode : mode = .bin ∨ mode = .ascii) (hsock : 0 ≤ a.sock)
    (hfd : 0 ≤ a.fd) : KeepsWhole mode a (ftpsCmdSTOR mode a) ↔
      a.net.failed = false ∨ a.write.Short (pieces mode a.net.chunks) := by
  obtain ⟨hwritten, hlast⟩ := storData_hands (a := a) hmode
  have hcomplete : (∀ h ∈ (storData mode a).2, h.Complete) ↔ _ :=
    hwritten ▸ handAll_complete (fun h hmem => absurd hmem List.not_mem_nil)
  have hwhole : Whole a (ftpsCmdSTOR mode a) ↔
      a.net.failed = false ∧ (a.write.handAll (pieces mode a.net.chunks) []).1 = true := by
    rw [← hcomplete, ftpsCmdSTOR_opened hsock hfd]
    exact ⟨fun h => ⟨h.ended, h.written⟩, fun h => ⟨hsock, hfd, h.1, h.2⟩⟩
  have hopened : 0 ≤ a.sock ∧ 0 ≤ a.fd := ⟨hsock, hfd⟩
  rw [← handAll_short]
  cases hall : (a.write.handAll (pieces mode a.net.chunks) []).1 with
  | true =>
    rw [hall] at hwhole
    rw [if_pos hall] at hlast
    have hdelivered : delivered (storData mode a).2 = stored mode a.net.bytes := by
      rw [hwritten, delivered_handAll hall, pieces_flatten hmode]
      rfl
    have hend : (storData mode a).1 ≤ 0 := hlast ▸ last_nonpos a.net
    rw [or_iff_left (by decide)]
    constructor
    · intro hkeeps
      by_contra hfailed
      have hunlinked := (hkeeps.refused fun h => hfailed (hwhole.mp h).1).2 hsock hfd
      rw [ftpsCmdSTOR_opened hsock hfd, decide_eq_true hend] at hunlinked
      exact absurd hunlinked Bool.false_ne_true
    · intro hended
      refine ⟨fun _ => ?_, fun hnot => absurd (hwhole.mpr ⟨hended, rfl⟩) hnot, ?_, ?_, ?_⟩ <;>
        rw [ftpsCmdSTOR_opened hsock hfd]
      · simp only [if_pos hend, decide_eq_true hend, Bool.not_true]
        exact ⟨trivial, trivial, hdelivered⟩
      · rw [if_pos hopened]
      · simp only [hsock, hfd, true_and]
      · rw [if_pos hsock]
  | false =>
    rw [hall] at hwhole
    rw [if_neg (by rw [hall]; exact Bool.false_ne_true)] at hlast
    have hnot : ¬Whole a (ftpsCmdSTOR mode a) := fun h => absurd (hwhole.mp h).2 Bool.false_ne_true
    have hend : ¬(storData mode a).1 ≤ 0 := by omega
    refine iff_of_true ⟨fun h => absurd h hnot, fun _ => ?_, ?_, ?_, ?_⟩ (Or.inr rfl) <;>
      rw [ftpsCmdSTOR_opened hsock hfd]
    · simp only [if_neg hend, decide_eq_false hend, Bool.not_false]
      exact ⟨⟨_, .tail _ (.tail _ (.head _)), rfl⟩, fun _ _ => trivial⟩
    · rw [if_pos hopened]
    · simp only [hsock, hfd, true_and]
    · rw [if_pos hsock]

/-- An upload comes to what it should unless `recv` fails after writes that were all complete:
the negative answer behind the last chunk counts as its end. -/
theorem stor_keeps_whole (mode : TransMode) (a : StorAnswers) (hmode : mode = .bin ∨ mode = .ascii) :
    KeepsWhole mode a (ftpsCmdSTOR mode a) ↔
      a.sock < 0 ∨ a.fd < 0 ∨ a.net.failed = false ∨ a.write.Short (pieces mode a.net.chunks) := by
  by_cases hrefused : a.sock < 0 ∨ a.fd < 0
  · exact iff_of_true (keepsWhole_refused hrefused) (hrefused.imp_right Or.inl)
  · rw [keepsWhole_opened hmode (by omega) (by omega), ← or_assoc, or_iff_right hrefused]

def netChunk : Chunk := ⟨[65, 13, 66], List.cons_ne_nil _ _⟩

def oneChunk (failed : Bool) : StorAnswers :=
  ⟨5, 3, true, ⟨[netChunk], failed⟩, fun _ bytes => bytes.length, fun _ => 0⟩

theorem stor_keeps_whole_chunk : KeepsWhole .ascii (oneChunk false) (ftpsCmdSTOR .ascii (oneChunk false)) :=
  (stor_keeps_whole .ascii (oneChunk false) (Or.inr rfl)).mpr (Or.inr (Or.inr (Or.inl rfl)))

/-- The connection is reset after a chunk. -/
theorem stor_keeps_reset : ¬KeepsWhole .bin (oneChunk true) (ftpsCmdSTOR .bin (oneChunk true)) := by
  intro h
  have hkept : (ftpsCmdSTOR .bin (oneChunk true)).unlinked = false := rfl
  have hunlinked := (h.refused fun hwhole => absurd hwhole.ended (by decide)).2 (by decide) (by decide)
  exact absurd (hkept.symm.trans hunlinked) (by decide)

end Command

end DfewOS.Ftp
