import Mathlib.Data.List.Basic
import DfewOS.FtpTransfer

/-!
# Text transfer

RETR puts a CR in front of every LF and STOR drops every CR. Both work line by line on the
chunks they read; over complete sends and writes what they hand over depends on the bytes
of the chunks only.
-/

namespace DfewOS.Ftp

/-- The text on the wire: CR LF for each LF. -/
def toWire (c : List UInt8) : List UInt8 := c.flatMap fun b => if b = lf then crlf else [b]

/-- The text in the file: the bytes but the CRs. -/
def ofWire (d : List UInt8) : List UInt8 := d.filter (· ≠ cr)

theorem toWire_append (c d : List UInt8) : toWire (c ++ d) = toWire c ++ toWire d :=
  List.flatMap_append

theorem toWire_of_not_mem {c : List UInt8} (h : lf ∉ c) : toWire c = c := by
  induction c with
  | nil => rfl
  | cons b c ih =>
    simp only [List.mem_cons, not_or] at h
    have hb : ¬ b = lf := fun hb => h.1 hb.symm
    have ih' : c.flatMap (fun b => if b = lf then crlf else [b]) = c := ih h.2
    simp only [toWire, List.flatMap_cons, if_neg hb, ih', List.singleton_append]

theorem toWire_cons_lf (c : List UInt8) : toWire (lf :: c) = crlf ++ toWire c := rfl

theorem ofWire_append (c d : List UInt8) : ofWire (c ++ d) = ofWire c ++ ofWire d :=
  List.filter_append ..

theorem ofWire_of_not_mem {d : List UInt8} (h : cr ∉ d) : ofWire d = d := by
  apply List.filter_eq_self.mpr
  intro b hb
  have : b ≠ cr := fun hbc => h (hbc ▸ hb)
  simpa using this

theorem ofWire_cons_cr (d : List UInt8) : ofWire (cr :: d) = ofWire d := rfl

theorem ofWire_toWire {c : List UInt8} (h : cr ∉ c) : ofWire (toWire c) = c := by
  induction c with
  | nil => rfl
  | cons b c ih =>
    simp only [List.mem_cons, not_or] at h
    have hwire : toWire (b :: c) = (if b = lf then crlf else [b]) ++ toWire c := rfl
    rw [hwire, ofWire_append, ih h.2]
    by_cases hb : b = lf
    · subst hb
      rfl
    · have hcr : cr ∉ [b] := by simpa using h.1
      rw [if_neg hb, ofWire_of_not_mem hcr]
      rfl

/-! ## Complete sends and writes -/

def Sink.Complete (sink : Sink) : Prop := ∀ k bytes, sink k bytes = bytes.length

theorem delivered_hand {sink : Sink} (h : sink.Complete) (out : List Handed)
    (bytes : List UInt8) : delivered (sink.hand out bytes) = delivered out ++ bytes := by
  simp [delivered, Sink.hand, h out.length bytes]

theorem slice_fill (c : Chunk) (old : ℕ → UInt8) :
    Scan.slice (c.fill old) 0 c.bytes.length = c.bytes :=
  Scan.slice_filled c.bytes old

/-! ## RETR -/

section Retr

variable {send : Sink} (hsend : send.Complete)

include hsend

theorem retrLines_spec (buf : ℕ → UInt8) (e iReset : ℕ) (out : List Handed) :
    (retrLines send buf e iReset out).1 = 0 ∧
      delivered (retrLines send buf e iReset out).2 =
        delivered out ++ toWire (Scan.slice buf e iReset) := by
  induction iReset using Nat.strongRecOn generalizing e out with
  | ind iReset ih =>
    have hline : lf ∉ Scan.slice buf e (Scan.upTo lf buf e iReset).1 :=
      Scan.not_mem_slice_upTo e iReset
    rw [retrLines]
    simp only [hsend _ _, Scan.slice_length, ne_eq, not_true_eq_false, if_false]
    by_cases hlf : (Scan.upTo lf buf e iReset).2 = true
    · have hlt := Scan.upTo_lt hlf
      have hsplit := Scan.slice_upTo hlf
      generalize Scan.upTo lf buf e iReset = r at *
      have hsent : delivered (send.hand (send.hand out (Scan.slice buf e r.1)) crlf) =
          delivered out ++ (Scan.slice buf e r.1 ++ crlf) := by
        rw [delivered_hand hsend, delivered_hand hsend, List.append_assoc]
      rw [dif_pos hlf, if_neg (by simp [crlf]), hsplit, toWire_append, toWire_of_not_mem hline,
        toWire_cons_lf]
      split
      · rename_i hpos
        obtain ⟨hzero, hdel⟩ := ih (iReset - (r.1 + 1)) (by omega) (e + r.1 + 1)
          (send.hand (send.hand out (Scan.slice buf e r.1)) crlf)
        exact ⟨hzero, by rw [hdel, hsent]; simp only [List.append_assoc]⟩
      · have hend : iReset - (r.1 + 1) = 0 := by omega
        rw [hend, hsent]
        simp [Scan.slice, toWire]
    · have hall := Scan.upTo_not_found (Bool.eq_false_iff.mpr hlf)
      rw [hall] at hline ⊢
      rw [dif_neg hlf, if_neg (by omega)]
      refine ⟨Nat.sub_self _, ?_⟩
      rw [delivered_hand hsend, toWire_of_not_mem hline]

theorem retrAscii_spec (last : Int) (chunks : List Chunk) (old : ℕ → UInt8)
    (out : List Handed) :
    (retrAscii send last chunks old out).1 = last ∧
      delivered (retrAscii send last chunks old out).2 =
        delivered out ++ toWire (chunks.map Chunk.bytes).flatten := by
  induction chunks generalizing old out with
  | nil => simp [retrAscii, toWire]
  | cons c cs ih =>
    obtain ⟨hzero, hdel⟩ := retrLines_spec hsend (c.fill old) 0 c.bytes.length out
    obtain ⟨hlast, hrest⟩ :=
      ih (c.fill old) (retrLines send (c.fill old) 0 c.bytes.length out).2
    simp only [retrAscii, if_pos hzero, List.map_cons, List.flatten_cons]
    refine ⟨hlast, ?_⟩
    rw [hrest, hdel, slice_fill, toWire_append, List.append_assoc]

end Retr

/-! ## STOR -/

section Stor

variable {write : Sink} (hwrite : write.Complete)

include hwrite

theorem storLine_spec (out : List Handed) (line : List UInt8) :
    (¬ (0 < line.length ∧ write out.length line ≠ line.length)) ∧
      delivered (if 0 < line.length then write.hand out line else out) =
        delivered out ++ line := by
  refine ⟨fun h => h.2 (hwrite ..), ?_⟩
  split
  · exact delivered_hand hwrite out line
  · rename_i h
    simp [List.length_eq_zero_iff.mp (show line.length = 0 by omega)]

theorem storLines_spec (buf : ℕ → UInt8) (iN e iCounter : ℕ) (out : List Handed) :
    (storLines write buf iN e iCounter out).1 = true ∧
      delivered (storLines write buf iN e iCounter out).2 =
        delivered out ++ ofWire (Scan.slice buf e (iN - iCounter)) := by
  induction hn : iN - iCounter using Nat.strongRecOn generalizing e iCounter out with
  | ind n ih =>
    have hline : cr ∉ Scan.slice buf e (Scan.upTo cr buf e n).1 := Scan.not_mem_slice_upTo e n
    have hspec := storLine_spec hwrite out (Scan.slice buf e (Scan.upTo cr buf e n).1)
    rw [Scan.slice_length] at hspec
    rw [storLines]
    simp only [hn, if_neg hspec.1]
    by_cases hcr : (Scan.upTo cr buf e n).2 = true
    · have hlt := Scan.upTo_lt hcr
      rw [Scan.slice_upTo hcr, ofWire_append, ofWire_of_not_mem hline, ofWire_cons_cr]
      generalize Scan.upTo cr buf e n = r at *
      simp only [hcr, if_true]
      split
      · obtain ⟨htrue, hdel⟩ := ih (n - (r.1 + 1)) (by omega) (e + r.1 + 1)
          (iCounter + (r.1 + 1)) _ (by omega)
        refine ⟨htrue, ?_⟩
        rw [hdel, hspec.2, List.append_assoc]
      · have hend : n - (r.1 + 1) = 0 := by omega
        rw [hend]
        simp [hspec.2, Scan.slice, ofWire]
    · have hall := Scan.upTo_not_found (Bool.eq_false_iff.mpr hcr)
      rw [hall] at hline hspec ⊢
      simp only [Bool.eq_false_iff.mpr hcr]
      rw [if_neg (by simp; omega)]
      refine ⟨rfl, ?_⟩
      rw [hspec.2, ofWire_of_not_mem hline]

theorem storAscii_spec (last : Int) (chunks : List Chunk) (old : ℕ → UInt8)
    (out : List Handed) :
    (storAscii write last chunks old out).1 = last ∧
      delivered (storAscii write last chunks old out).2 =
        delivered out ++ ofWire (chunks.map Chunk.bytes).flatten := by
  induction chunks generalizing old out with
  | nil => simp [storAscii, ofWire]
  | cons c cs ih =>
    obtain ⟨htrue, hdel⟩ := storLines_spec hwrite (c.fill old) c.bytes.length 0 0 out
    obtain ⟨hlast, hrest⟩ :=
      ih (c.fill old) (storLines write (c.fill old) c.bytes.length 0 0 out).2
    simp only [storAscii, if_pos htrue, List.map_cons, List.flatten_cons]
    refine ⟨hlast, ?_⟩
    rw [hrest, hdel, Nat.sub_zero, slice_fill, ofWire_append, List.append_assoc]

end Stor

/-! ## The commands -/

/-- RETR gets hold of a file with content `c`, and every `send` succeeds. -/
structure RetrAnswers.Serves (a : RetrAnswers) (c : List UInt8) : Prop where
  opened : 0 ≤ a.fd
  sized : a.stat = some c.length
  connected : 0 ≤ a.sock
  content : a.file.bytes = c
  complete : a.send.Complete

/-- STOR receives the bytes `d` into a file, and every write succeeds. -/
structure StorAnswers.Takes (b : StorAnswers) (d : List UInt8) : Prop where
  connected : 0 ≤ b.sock
  opened : 0 ≤ b.fd
  content : b.net.bytes = d
  complete : b.write.Complete

section Commands

variable {a : RetrAnswers} {b : StorAnswers} {c d : List UInt8}

theorem retrData_ascii (h : a.Serves c) :
    (retrData .ascii a c.length).1 = (if c = [] then 0 else a.file.last) ∧
      delivered (retrData .ascii a c.length).2 = toWire c := by
  cases c with
  | nil => exact ⟨rfl, rfl⟩
  | cons x c =>
    obtain ⟨hlast, hdel⟩ :=
      retrAscii_spec h.complete a.file.last a.file.chunks a.localBuffer []
    have hcontent : (a.file.chunks.map Chunk.bytes).flatten = x :: c := h.content
    refine ⟨hlast, ?_⟩
    rw [hcontent] at hdel
    exact hdel

theorem ftpsCmdRETR_sent (mode : TransMode) (h : a.Serves c) :
    (ftpsCmdRETR mode a).sent = (retrData mode a c.length).2 := by
  have hopened := h.opened
  have hconnected := h.connected
  simp only [ftpsCmdRETR, h.sized, if_neg (show ¬ a.fd < 0 by omega),
    if_neg (show ¬ a.sock < 0 by omega)]
  split
  · split <;> rfl
  · rfl

theorem delivered_retr (h : a.Serves c) :
    delivered (ftpsCmdRETR .ascii a).sent = toWire c := by
  rw [ftpsCmdRETR_sent .ascii h]
  exact (retrData_ascii h).2

theorem retr_complete (h : a.Serves c) (hread : a.file.failed = false) (hclose : a.close = 0) :
    (ftpsCmdRETR .ascii a).replies =
        [(150, "Opening ASCII mode data connection."), (226, "Transfer complete.")] ∧
      (ftpsCmdRETR .ascii a).closes = 1 := by
  have hopened := h.opened
  have hconnected := h.connected
  have hend : (retrData .ascii a c.length).1 = 0 := by
    rw [(retrData_ascii h).1, Feed.last, hread]
    simp
  simp [ftpsCmdRETR, h.sized, show ¬ a.fd < 0 by omega, show ¬ a.sock < 0 by omega, hend, hclose,
    modeReply]

theorem storData_ascii (h : b.Takes d) :
    (storData .ascii b).1 = b.net.last ∧ delivered (storData .ascii b).2 = ofWire d := by
  obtain ⟨hlast, hdel⟩ :=
    storAscii_spec h.complete b.net.last b.net.chunks b.transBuffer []
  have hcontent : (b.net.chunks.map Chunk.bytes).flatten = d := h.content
  rw [hcontent] at hdel
  exact ⟨hlast, hdel⟩

theorem last_nonpos (f : Feed) : f.last ≤ 0 := by
  unfold Feed.last
  split <;> decide

theorem ftpsCmdSTOR_ascii (h : b.Takes d) :
    ftpsCmdSTOR .ascii b =
      ⟨[modeReply .ascii, (226, "Transfer complete.")], (storData .ascii b).2, 1, false,
        if b.malloc then 1 else 0, 1⟩ := by
  have hopened := h.opened
  have hconnected := h.connected
  have hend : (storData .ascii b).1 ≤ 0 := by
    rw [(storData_ascii h).1]
    exact last_nonpos b.net
  simp only [ftpsCmdSTOR, if_neg (show ¬ b.sock < 0 by omega),
    if_neg (show ¬ b.fd < 0 by omega), if_pos hend]

theorem delivered_stor (h : b.Takes d) :
    delivered (ftpsCmdSTOR .ascii b).written = ofWire d := by
  rw [ftpsCmdSTOR_ascii h]
  exact (storData_ascii h).2

end Commands

/-- RETR sends each LF as CR LF and STOR drops each CR, however the reads and receives
split the data; so storing what was retrieved gives the file back. -/
theorem text_transfer :
    (∀ (a : RetrAnswers) (c : List UInt8), a.Serves c →
      delivered (ftpsCmdRETR .ascii a).sent = toWire c) ∧
    (∀ (b : StorAnswers) (d : List UInt8), b.Takes d →
      delivered (ftpsCmdSTOR .ascii b).written = ofWire d) ∧
    ∀ (a : RetrAnswers) (b : StorAnswers) (c : List UInt8), cr ∉ c → a.Serves c →
      b.Takes (delivered (ftpsCmdRETR .ascii a).sent) →
      delivered (ftpsCmdSTOR .ascii b).written = c := by
  refine ⟨fun a c h => delivered_retr h, fun b d h => delivered_stor h, ?_⟩
  intro a b c hc ha hb
  rw [delivered_stor hb, delivered_retr ha, ofWire_toWire hc]

/-- A file of two lines read in two chunks, with the LF last in the first one; the bytes
on the wire come in two other chunks. -/
theorem text_transfer_lines :
    let a : RetrAnswers :=
      { fd := 3, stat := some 4, sock := 5,
        file := ⟨[⟨[65, 10], by decide⟩, ⟨[66, 10], by decide⟩], false⟩,
        send := fun _ bytes => bytes.length, close := 0, localBuffer := fun _ => 0 }
    let b : StorAnswers :=
      { sock := 5, fd := 3, malloc := true,
        net := ⟨[⟨[65, 13], by decide⟩, ⟨[10, 66, 13, 10], by decide⟩], false⟩,
        write := fun _ bytes => bytes.length, transBuffer := fun _ => 0 }
    delivered (ftpsCmdRETR .ascii a).sent = [65, 13, 10, 66, 13, 10] ∧
      delivered (ftpsCmdSTOR .ascii b).written = [65, 10, 66, 10] := by
  intro a b
  have ha : a.Serves [65, 10, 66, 10] :=
    ⟨by decide, rfl, by decide, rfl, fun _ _ => rfl⟩
  have hsent : delivered (ftpsCmdRETR .ascii a).sent = [65, 13, 10, 66, 13, 10] :=
    text_transfer.1 a _ ha
  have hb : b.Takes (delivered (ftpsCmdRETR .ascii a).sent) :=
    ⟨by decide, by decide, hsent.symm, fun _ _ => rfl⟩
  exact ⟨hsent, text_transfer.2.2 a b [65, 10, 66, 10] (by decide) ha hb⟩

end DfewOS.Ftp
