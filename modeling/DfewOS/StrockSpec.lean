import DfewOS.MemHSpec
import DfewOS.Strock
import Mathlib.Algebra.BigOperators.Intervals
import Mathlib.Algebra.Group.Int.Defs

/-!
# The bounds of the recognition

A segment ends at the first sharp turn behind its second direction: a turn by two eighths of a
circle or more while the segment has been straight, or against the way in which it has turned by
more than one. `rec_strock` has room for 40 segments, and looks at the direction two in front of
the NUL.
-/

namespace DfewOS.Cal
open MemH (sub32 sub32_of_le)
open Memory (Looked fresh)
open NulText (Text)
open Walk (Lies Grows skipWhile skipWhile_end skipWhile_grows pairWalk pairWalk_inv pairWalk_text)

variable {s : List UInt8} {m : Memory} {A : Set ℕ} {fuel p k n : ℕ}

def IsDirection (c : UInt8) : Prop := 97 ≤ c.toNat ∧ c.toNat ≤ 104

/-! ## Turns -/

/-- The turn at the direction `j`, in eighths of a circle, clockwise. -/
def bend (s : List UInt8) (j : ℕ) : ℤ :=
  (((s.getD j 0).toNat : ℤ) - (s.getD (j - 1) 0).toNat).bmod 8

/-- How far a segment has turned in front of the direction `k`. -/
def turnAt (s : List UInt8) (k : ℕ) : ℤ := ∑ j ∈ Finset.Ico 2 k, bend s j

def Sharp (s : List UInt8) (k : ℕ) : Prop :=
  2 ≤ |bend s k| ∧
    (turnAt s k = 0 ∨ (turnAt s k < -1 ∧ 0 < bend s k) ∨ (1 < turnAt s k ∧ bend s k < 0))

structure SegmentEnd (s : List UInt8) (k : ℕ) : Prop where
  two_le : 2 ≤ k
  le : k ≤ s.length
  before : ∀ j, 2 ≤ j → j < k → ¬ Sharp s j
  sharp : k < s.length → Sharp s k

/-- `n` segments end in front of more than two directions. -/
def Cuts : ℕ → List UInt8 → Prop
  | 0, s => 2 < s.length
  | n + 1, s => ∃ k, SegmentEnd s k ∧ Cuts n (s.drop k)

theorem SegmentEnd.unique (h : SegmentEnd s k) (h' : SegmentEnd s n) : k = n := by
  rcases Nat.lt_trichotomy k n with hlt | heq | hgt
  · exact absurd (h.sharp (hlt.trans_le h'.le)) (h'.before k h.two_le hlt)
  · exact heq
  · exact absurd (h'.sharp (hgt.trans_le h.le)) (h.before n h'.two_le hgt)

theorem not_cuts_of_short (h : s.length ≤ 2) (n : ℕ) : ¬ Cuts n s := by
  induction n generalizing s with
  | zero => exact not_lt_of_ge h
  | succ n ih =>
    rintro ⟨k, hk, hcuts⟩
    have hdrop : (s.drop k).length ≤ 2 := by
      rw [List.length_drop]
      omega
    exact ih hdrop hcuts

theorem Cuts.length_lt (h : Cuts n s) : 2 * n + 2 < s.length := by
  induction n generalizing s with
  | zero => exact h
  | succ n ih =>
    obtain ⟨k, hk, hcuts⟩ := h
    have hrest := ih hcuts
    have htwo := hk.two_le
    rw [List.length_drop] at hrest
    omega

theorem cuts_succ (h : SegmentEnd s k) : Cuts (n + 1) s ↔ Cuts n (s.drop k) := by
  constructor
  · rintro ⟨j, hj, hcuts⟩
    rwa [hj.unique h] at hcuts
  · exact fun hcuts => ⟨k, h, hcuts⟩

def zigzag {α : Type*} : ℕ → α → α → List α
  | 0, a, _ => [a, a, a]
  | n + 1, a, b => a :: a :: zigzag n b a

theorem zigzag_eq {α : Type*} (n : ℕ) (a b : α) : ∃ rest, zigzag n a b = a :: a :: rest := by
  cases n with
  | zero => exact ⟨[a], rfl⟩
  | succ n => exact ⟨_, rfl⟩

theorem cuts_zigzag {a b : UInt8} (hab : 2 ≤ |((b.toNat : ℤ) - a.toNat).bmod 8|)
    (hba : 2 ≤ |((a.toNat : ℤ) - b.toNat).bmod 8|) (n : ℕ) : Cuts n (zigzag n a b) := by
  induction n generalizing a b with
  | zero => exact Nat.lt_succ_self 2
  | succ n ih =>
    obtain ⟨rest, hrest⟩ := zigzag_eq n b a
    have hcuts := ih hba hab
    rw [zigzag, hrest]
    rw [hrest] at hcuts
    refine ⟨2, ⟨le_rfl, by simp, fun j hj hlt => absurd hlt (not_lt_of_ge hj), fun _ => ?_⟩, hcuts⟩
    exact ⟨hab, Or.inl (Finset.sum_eq_zero fun j hj => absurd hj (by simp))⟩

theorem turnAt_succ (hk : 2 ≤ k) : turnAt s (k + 1) = turnAt s k + bend s k :=
  Finset.sum_Ico_succ_top hk _

theorem exists_bend (h : turnAt s k ≠ 0) : ∃ j, 2 ≤ j ∧ j < k ∧ s.getD j 0 ≠ s.getD (j - 1) 0 := by
  obtain ⟨j, hj, hne⟩ := Finset.exists_ne_zero_of_sum_ne_zero h
  rw [Finset.mem_Ico] at hj
  refine ⟨j, hj.1, hj.2, fun heq => hne ?_⟩
  rw [bend, heq, sub_self]
  rfl

/-! ## One step -/

theorem dirDiff_of_directions {a b : UInt8} (ha : IsDirection a) (hb : IsDirection b) :
    0 ≤ dirDiff a b ∧ dirDiff a b < 8 ∧
      ((b.toNat : ℤ) - a.toNat).bmod 8 = if dirDiff a b < 4 then dirDiff a b else dirDiff a b - 8 := by
  obtain ⟨ha, ha'⟩ := ha
  obtain ⟨hb, hb'⟩ := hb
  rw [dirDiff, Int.tmod_eq_emod_of_nonneg (by omega), Int.bmod_def]
  omega

theorem add_degree (t : Turn) (a b : UInt8) :
    (t.add a b).degree = t.degree + if dirDiff a b < 4 then dirDiff a b else dirDiff a b - 8 := by
  rw [Turn.add]
  split_ifs <;> simp_all

theorem breaks_iff {turn diff : ℤ} (hpos : 0 ≤ diff) (hlt : diff < 8) {b : ℤ}
    (hb : b = if diff < 4 then diff else diff - 8) :
    breaks turn diff = true ↔ 2 ≤ |b| ∧ (turn = 0 ∨ (turn < -1 ∧ 0 < b) ∨ (1 < turn ∧ b < 0)) := by
  rw [breaks]
  split_ifs at hb ⊢ with hzero hlt4 hlt4
  · subst hb
    simp [hzero]
  · omega
  · rw [decide_eq_true_iff, abs_of_nonneg (by omega)]
    omega
  · rw [decide_eq_true_iff, abs_of_neg (by omega)]
    omega

theorem directions_getD (hdirs : ∀ c ∈ s, IsDirection c) (hk : k < s.length) :
    IsDirection (s.getD k 0) := by
  rw [List.getD_eq_getElem?_getD, List.getElem?_eq_getElem hk, Option.getD_some]
  exact hdirs _ (List.getElem_mem hk)

theorem bend_eq (hdirs : ∀ c ∈ s, IsDirection c) (hpos : 0 < k) (hk : k < s.length) :
    bend s k = if dirDiff (s.getD (k - 1) 0) (s.getD k 0) < 4 then
      dirDiff (s.getD (k - 1) 0) (s.getD k 0) else dirDiff (s.getD (k - 1) 0) (s.getD k 0) - 8 :=
  (dirDiff_of_directions (directions_getD hdirs (by omega)) (directions_getD hdirs hk)).2.2

theorem breaks_iff_sharp (hdirs : ∀ c ∈ s, IsDirection c) (hpos : 0 < k) (hk : k < s.length) :
    breaks (turnAt s k) (dirDiff (s.getD (k - 1) 0) (s.getD k 0)) = true ↔ Sharp s k := by
  obtain ⟨hnonneg, hlt, _⟩ :=
    dirDiff_of_directions (directions_getD hdirs (k := k - 1) (by omega)) (directions_getD hdirs hk)
  exact breaks_iff hnonneg hlt (bend_eq hdirs hpos hk)

/-! ## The segments -/

theorem recSegment_short (maxTurn : ℤ) (h : Text m.byte p s) (hA : Lies A p s) (hlen : s.length ≤ 2)
    (hfuel : s.length < fuel) :
    ∃ m', recSegment fuel m p maxTurn = some ⟨m', .none, maxTurn, p⟩ ∧ Looked m m' A ∧
      Grows (m.touch p) m' := by
  obtain ⟨m', hskip, hlook⟩ := skipWhile_end h hA hfuel
  refine ⟨m', ?_, hlook, skipWhile_grows hskip⟩
  rw [recSegment, hskip]
  exact if_pos (by omega)

theorem recSegment_text (maxTurn : ℤ) (h : Text m.byte p s) (hA : Lies A p s)
    (hdirs : ∀ c ∈ s, IsDirection c) (hlen : 2 < s.length) (hfuel : s.length < fuel) :
    ∃ m' k max, recSegment fuel m p maxTurn = some ⟨m', kindOf (turnAt s k), max, p + k⟩ ∧
      Looked m m' A ∧ SegmentEnd s k := by
  obtain ⟨m', hskip, hlook⟩ := skipWhile_end h hA hfuel
  let Inv (n : ℕ) (t : Turn) : Prop :=
    2 ≤ n ∧ t.degree = turnAt s n ∧ ∀ j, 2 ≤ j → j < n → ¬ Sharp s j
  have hstep : ∀ n (t : Turn), 0 < n → n < s.length → Inv n t →
      t.stop (s.getD (n - 1) 0) (s.getD n 0) = false →
      Inv (n + 1) (t.add (s.getD (n - 1) 0) (s.getD n 0)) := by
    rintro n t hpos hn ⟨hge, hturn, hbefore⟩ hgo
    refine ⟨by omega, ?_, fun j hj hlt => ?_⟩
    · rw [add_degree, hturn, turnAt_succ hge, bend_eq hdirs hpos hn]
    · obtain hlt | rfl := Nat.lt_succ_iff_lt_or_eq.mp hlt
      · exact hbefore j hj hlt
      · rw [Turn.stop, hturn] at hgo
        rw [← breaks_iff_sharp hdirs hpos hn, hgo]
        exact Bool.false_ne_true
  have hstart : Inv 2 ⟨0, 0⟩ := ⟨le_rfl, by simp [turnAt], fun j hj hlt => by omega⟩
  obtain ⟨m'', k, t, hwalk, hlook', hk, hle, ⟨_, hturn, hbefore⟩, hstop⟩ :=
    pairWalk_inv (hlook.byte.symm ▸ h : Text m'.byte p s) hA hstep Nat.two_pos hlen.le
      (Nat.lt_of_le_of_lt (Nat.sub_le s.length 2) hfuel) hstart
  refine ⟨m'', k, t.maxTurn, ?_, hlook.trans hlook', hk, hle, hbefore, fun hlt => ?_⟩
  · have hsome : recSegment fuel m p maxTurn = some ⟨m'', kindOf t.degree, t.maxTurn, p + k⟩ := by
      rw [recSegment, hskip]
      refine (if_neg (by omega)).trans ?_
      rw [hwalk]
      rfl
    rw [hsome, hturn]
  · rw [← breaks_iff_sharp hdirs (by omega) hlt, ← hturn]
    exact hstop hlt

structure CutAt (p : ℕ) (s : List UInt8) (c : Cutting) (k : ℕ) : Prop where
  dirStr : c.dirStr = p + k
  le : k ≤ s.length
  text : Text c.memory.byte p s
  stored : ∀ x, x ∈ c.stored ↔ x < c.i
  returned : ∀ r ∈ c.returned, r.1 < r.2 ∧ r.2 ≤ p + s.length
  bent : 0 < c.i → c.segs 0 = .antiClockwise → ∃ j, 2 ≤ j ∧ j < s.length ∧ s.getD j 0 ≠ s.getD (j - 1) 0

theorem kindOf_ne_none (turnDegree : ℤ) : kindOf turnDegree ≠ .none := by
  rw [kindOf]
  split_ifs <;> exact nofun

theorem kindOf_antiClockwise {turnDegree : ℤ} (h : kindOf turnDegree = .antiClockwise) :
    turnDegree ≠ 0 := by
  rintro rfl
  exact absurd h (by decide)

theorem CutAt.push {c : Cutting} {seg : Segment} (h : CutAt p s c k)
    (hlook : Looked c.memory seg.memory A) (hend : SegmentEnd (s.drop k) n)
    (hkind : seg.kind = kindOf (turnAt (s.drop k) n)) (hdir : seg.dirStr = p + k + n) :
    CutAt p s (c.push seg) (k + n) := by
  have htwo := hend.two_le
  have hn : k + n ≤ s.length := by
    have hle := hend.le
    have hk := h.le
    rw [List.length_drop] at hle
    omega
  constructor
  · exact hdir.trans (Nat.add_assoc p k n)
  · exact hn
  · exact hlook.byte.symm ▸ h.text
  · intro x
    rw [Cutting.push_stored, Cutting.push_i, List.mem_cons, h.stored, Nat.lt_succ_iff_lt_or_eq, or_comm]
  · intro r hr
    rcases List.mem_cons.mp hr with rfl | hold
    · have hstart := h.dirStr
      exact ⟨by omega, by omega⟩
    · exact h.returned r hold
  · intro _ hseg
    rw [Cutting.push_segs] at hseg
    rcases Nat.eq_zero_or_pos c.i with hzero | hpos
    · rw [hzero, Function.update_self, hkind] at hseg
      obtain ⟨j, hj, hlt, hne⟩ := exists_bend (kindOf_antiClockwise hseg)
      refine ⟨k + j, by omega, by omega, ?_⟩
      rw [Nat.add_sub_assoc (by omega)]
      simpa only [List.getD_eq_getElem?_getD, List.getElem?_drop] using hne
    · rw [Function.update_of_ne hpos.ne] at hseg
      exact h.bent hpos hseg

theorem cutLoop_text (hA : Lies A p s) (hdirs : ∀ c ∈ s, IsDirection c) (hfuel : s.length < fuel)
    {rounds : ℕ} {c : Cutting} (h : CutAt p s c k) (hrounds : s.length - k < rounds) :
    ∃ c' k', cutLoop fuel rounds c = some c' ∧ CutAt p s c' k' ∧ Looked c.memory c'.memory A ∧
      c.i ≤ c'.i ∧ ∀ n, c.i + n < c'.i ↔ Cuts n (s.drop k) := by
  induction rounds generalizing c k with
  | zero => exact absurd hrounds (Nat.not_lt_zero _)
  | succ rounds ih =>
    have hrest : Text c.memory.byte (p + k) (s.drop k) := h.text.drop h.le
    have hlength : (s.drop k).length = s.length - k := List.length_drop
    have hrestfuel : (s.drop k).length < fuel := by omega
    rw [cutLoop, h.dirStr]
    rcases Nat.lt_or_ge 2 (s.length - k) with hlong | hshort
    · obtain ⟨m', n, max, hrec, hlook, hend⟩ :=
        recSegment_text c.maxTurn hrest (hA.drop h.le)
          (fun d hd => hdirs d (List.mem_of_mem_drop hd)) (hlong.trans_eq hlength.symm) hrestfuel
      have htwo := hend.two_le
      have hpush : CutAt p s (c.push ⟨m', kindOf (turnAt (s.drop k) n), max, p + k + n⟩) (k + n) :=
        h.push hlook hend rfl rfl
      obtain ⟨c', k', hloop, hcut, hlook', hi, hcuts⟩ := ih hpush (by omega)
      refine ⟨c', k', ?_, hcut, hlook.trans hlook', Nat.le_of_succ_le hi, fun j => ?_⟩
      · rw [hrec]
        exact (if_neg (kindOf_ne_none _)).trans hloop
      · cases j with
        | zero => exact iff_of_true (Nat.lt_of_succ_le hi) (hlong.trans_eq hlength.symm)
        | succ j =>
          rw [cuts_succ hend, List.drop_drop, ← hcuts j, Nat.add_comm j 1, ← Nat.add_assoc]
          rfl
    · obtain ⟨m', hrec, hlook, _⟩ :=
        recSegment_short c.maxTurn hrest (hA.drop h.le) (hlength.trans_le hshort) hrestfuel
      refine ⟨{ c with memory := m', dirStr := p + k }, k, ?_, ?_, hlook, le_rfl, fun n => ?_⟩
      · rw [hrec]
        rfl
      · exact ⟨rfl, h.le, hlook.byte.symm ▸ h.text, h.stored, h.returned, h.bent⟩
      · have hnot : ¬ Cuts n (s.drop k) := not_cuts_of_short (hlength.trans_le hshort) n
        exact iff_of_false (Nat.not_lt.mpr (Nat.le_add_right c.i n)) hnot

/-! ## The character -/

theorem bendLoop_text {next : ℤ → ℤ → ℤ} {enough : ℤ → Bool} {turn : ℤ} (h : Text m.byte p s)
    (hA : Lies A p s) (hlen : 2 ≤ s.length) (hfuel : s.length < fuel) :
    ∃ m' stopped, bendLoop next enough turn fuel m p = some (m', stopped) ∧ Looked m m' A := by
  obtain ⟨m', n, y, hwalk, hlook, hn⟩ :=
    pairWalk_text (x := turn) h hA Nat.two_pos hlen (Nat.lt_of_le_of_lt (Nat.sub_le s.length 2) hfuel)
  refine ⟨m'.touch (p + n), decide (m'.byte (p + n) ≠ 0), ?_, hlook.trans (.touch m' (hA n hn))⟩
  rw [bendLoop, hwalk]
  rfl

theorem sub32_add {i j : ℕ} (h : j ≤ i) (hend : p + i < 2 ^ 32) : sub32 (p + i) j = p + (i - j) := by
  rw [sub32_of_le (by omega) hend, Nat.add_sub_assoc h]

theorem backLoop_text (h : Text m.byte p s) (hA : Lies A p s) (hend : p + s.length < 2 ^ 32)
    {j last : ℕ} (hj : 2 ≤ j) (hlast : j ≤ last) (hlen : last < s.length)
    (hne : s.getD j 0 ≠ s.getD (j - 1) 0) (hfuel : last < fuel) :
    ∃ m' q, backLoop fuel m (p + last) = some (m', q) ∧ Looked m m' A := by
  induction fuel generalizing m last with
  | zero => exact absurd hfuel (Nat.not_lt_zero _)
  | succ fuel ih =>
    have hback : sub32 (p + last) 1 = p + (last - 1) := sub32_add (by omega) (by omega)
    have htouch : Looked m ((m.touch (p + last)).touch (p + (last - 1))) A :=
      (Looked.touch m (hA last hlen.le)).trans (.touch _ (hA (last - 1) (by omega)))
    rw [backLoop, hback, h.getD hlen.le, h.getD (by omega)]
    by_cases heq : s.getD last 0 = s.getD (last - 1) 0
    · have hlt : j ≠ last := by
        rintro rfl
        exact hne heq
      obtain ⟨m', q, hloop, hlook⟩ :=
        ih (m := (m.touch (p + last)).touch (p + (last - 1))) h (Nat.le_sub_one_of_lt (by omega : j < last))
          (by omega) (by omega)
      exact ⟨m', q, (if_pos heq).trans hloop, htouch.trans hlook⟩
    · exact ⟨_, _, if_neg heq, htouch⟩

theorem longEnd_text (h : Text m.byte p s) (hA : Lies A p s) (hend : p + s.length < 2 ^ 32)
    (hfuel : s.length < fuel) {j : ℕ} (hj : 2 ≤ j) (hlt : j < s.length)
    (hne : s.getD j 0 ≠ s.getD (j - 1) 0) :
    ∃ m' long, longEnd fuel m p = some (m', long) ∧ Looked m m' A := by
  obtain ⟨m₁, hskip, hlook₁⟩ := skipWhile_end h hA hfuel
  obtain ⟨m₂, q, hback, hlook₂⟩ :=
    backLoop_text (hlook₁.byte.symm ▸ h) hA hend hj (Nat.le_sub_one_of_lt hlt) (by omega) hne
      (Nat.lt_of_le_of_lt (Nat.sub_le s.length 1) hfuel)
  have hlook := hlook₁.trans hlook₂
  obtain ⟨m₃, hskip', hlook₃⟩ := skipWhile_end (hlook.byte.symm ▸ h) hA hfuel
  rw [← sub32_add (by omega) hend] at hback
  rw [longEnd, hskip, Option.bind_some, hback, Option.bind_some, hskip']
  exact ⟨m₃, _, rfl, hlook.trans hlook₃⟩

theorem recOne_text (h : Text m.byte p s) (hA : Lies A p s) (hend : p + s.length < 2 ^ 32)
    (hlen : 2 ≤ s.length) (hfuel : s.length < fuel) (closed : Bool) (turn maxTurn : ℤ) {seg : SegmentType}
    (hbent : seg = .antiClockwise → ∃ j, 2 ≤ j ∧ j < s.length ∧ s.getD j 0 ≠ s.getD (j - 1) 0) :
    ∃ m' ch, recOne fuel m p closed turn seg maxTurn = some (m', ch) ∧ Looked m m' A := by
  cases seg with
  | none => exact ⟨m, _, rfl, .refl m A⟩
  | line => exact ⟨m, _, rfl, .refl m A⟩
  | clockwise =>
    rw [recOne]
    split_ifs
    · obtain ⟨m', stopped, hloop, hlook⟩ := bendLoop_text h hA hlen hfuel
      rw [hloop]
      exact ⟨m', _, rfl, hlook⟩
    · exact ⟨m, _, rfl, .refl m A⟩
    · exact ⟨m, _, rfl, .refl m A⟩
  | antiClockwise =>
    rw [recOne]
    split_ifs
    · obtain ⟨m', stopped, hloop, hlook⟩ := bendLoop_text h hA hlen hfuel
      rw [hloop]
      exact ⟨m', _, rfl, hlook⟩
    · exact ⟨m, _, rfl, .refl m A⟩
    · obtain ⟨j, hj, hlt, hne⟩ := hbent rfl
      obtain ⟨m', long, hloop, hlook⟩ := longEnd_text h hA hend hfuel hj hlt hne
      rw [hloop]
      exact ⟨m', _, rfl, hlook⟩
    · exact ⟨m, _, rfl, .refl m A⟩

/-- The accesses that `rec_strock` may make to a string of `len` directions at `p`. -/
structure Strock.InBounds (t : Strock) (p len : ℕ) : Prop where
  segs : ∀ x ∈ t.cutting.stored, x < 40
  returned : ∀ r ∈ t.cutting.returned, r.1 < r.2 ∧ r.2 ≤ p + len
  reads : ∀ x ∈ t.memory.reads, p ≤ x ∧ x ≤ p + len

variable {byte : ℕ → UInt8} (closed : Bool) (turn : ℤ)

theorem lies_text (p : ℕ) (s : List UInt8) : Lies (Set.Icc p (p + s.length)) p s :=
  fun i hi => ⟨Nat.le_add_right p i, Nat.add_le_add_left hi p⟩

theorem recStrock_text (h : Text byte p s) (hdirs : ∀ c ∈ s, IsDirection c) (hend : p + s.length < 2 ^ 32)
    (hlen : 2 ≤ s.length) (hfuel : s.length < fuel) :
    ∃ t k, recStrock fuel closed turn (fresh byte) p = some t ∧ CutAt p s t.cutting k ∧
      (∀ x ∈ t.memory.reads, x ∈ Set.Icc p (p + s.length)) ∧ ∀ n, n < t.cutting.i ↔ Cuts n s := by
  have hA := lies_text p s
  obtain ⟨m, hskip, hlook⟩ :=
    skipWhile_end (m := (fresh byte).touch (p + 1)) h hA hfuel
  have htouch : Looked (fresh byte) ((fresh byte).touch (p + 1)) (Set.Icc p (p + s.length)) :=
    .touch _ (hA 1 (by omega))
  have htouch' : Looked m (m.touch (sub32 (p + s.length) 2)) (Set.Icc p (p + s.length)) := by
    rw [sub32_add hlen hend]
    exact .touch m (hA _ (Nat.sub_le s.length 2))
  have hbefore := (htouch.trans hlook).trans htouch'
  have hstart : CutAt p s ⟨m.touch (sub32 (p + s.length) 2), p, 0, fun _ => .none, 0, [], []⟩ 0 :=
    ⟨rfl, Nat.zero_le _, hbefore.byte.symm ▸ h, by simp, by simp, fun hpos => absurd hpos (lt_irrefl 0)⟩
  obtain ⟨c, k, hloop, hcut, hlook', _, hcuts⟩ := cutLoop_text hA hdirs hfuel hstart hfuel
  have hreads : ∀ {m' : Memory}, Looked (fresh byte) m' (Set.Icc p (p + s.length)) →
      ∀ x ∈ m'.reads, x ∈ Set.Icc p (p + s.length) :=
    fun hall x hx => (hall.reads x hx).resolve_left List.not_mem_nil
  simp only [Nat.zero_add, List.drop_zero] at hcuts
  rw [recStrock, hskip, Option.bind_some, hloop, Option.bind_some]
  by_cases hone : c.i = 1
  · obtain ⟨m', ch, hrec, hlook''⟩ :=
      recOne_text hcut.text hA hend hlen hfuel closed turn c.maxTurn (hcut.bent (hone ▸ Nat.one_pos))
    rw [if_pos hone, hrec]
    exact ⟨_, k, rfl, hcut, hreads ((hbefore.trans hlook').trans hlook''), hcuts⟩
  · rw [if_neg hone]
    exact ⟨_, k, rfl, hcut, hreads (hbefore.trans hlook'), hcuts⟩

theorem recStrock_single (h : Text byte p s) (hlen : s.length = 1) (hfuel : s.length < fuel) :
    ∃ t, recStrock fuel closed turn (fresh byte) p = some t ∧ sub32 (p + 1) 2 ∈ t.memory.reads := by
  have hA := lies_text p s
  obtain ⟨m, hskip, hlook⟩ :=
    skipWhile_end (m := (fresh byte).touch (p + 1)) h hA hfuel
  obtain ⟨fuel, rfl⟩ : ∃ f, fuel = f + 1 := ⟨fuel - 1, by omega⟩
  obtain ⟨m', hrec, _, hgrows⟩ :=
    recSegment_short (m := m.touch (sub32 (p + s.length) 2)) 0 (hlook.byte.symm ▸ h) hA
      (by omega) hfuel
  rw [recStrock, hskip, Option.bind_some, cutLoop, hrec]
  refine ⟨_, rfl, hgrows _ (List.mem_cons_of_mem _ ?_)⟩
  rw [hlen]
  exact List.mem_cons_self

theorem direction_mem (dx dy : ℤ) : IsDirection (direction dx dy).toUInt8 := by
  rw [direction, quadrant, quadrant, quadrant, quadrant]
  split_ifs <;> exact ⟨by decide, by decide⟩

/-- Each coordinate behind the first one has recorded a direction at most. -/
structure Drawing.Recorded (d : Drawing) : Prop where
  dirs : ∀ c ∈ d.dirs, IsDirection c
  length_lt : d.dirs.length < d.coors.length
  le : d.coors.length ≤ maxCoorNum

theorem Drawing.Recorded.drag {d : Drawing} (h : d.Recorded) (offset : Coor) :
    (calCbDrag d offset).Recorded := by
  have hlt := h.length_lt
  rw [calCbDrag]
  split_ifs with hfull hfar
  · exact h
  · refine ⟨fun c hc => ?_, ?_, Nat.succ_le_of_lt (Nat.not_le.mp hfull)⟩
    · rcases List.mem_append.mp hc with hold | hnew
      · exact h.dirs c hold
      · rw [List.mem_singleton.mp hnew]
        exact direction_mem _ _
    · rw [List.length_append]
      exact Nat.succ_lt_succ hlt
  · exact ⟨h.dirs, Nat.lt_succ_of_lt hlt, Nat.succ_le_of_lt (Nat.not_le.mp hfull)⟩

theorem record_recorded (d : Drawing) (coor : Coor) (offsets : List Coor) :
    (record d coor offsets).Recorded := by
  have hpress : (calCbPress d coor).Recorded := ⟨nofun, Nat.one_pos, Nat.le_of_ble_eq_true rfl⟩
  rw [record]
  induction offsets using List.reverseRecOn with
  | nil => exact hpress
  | append_singleton offsets offset ih =>
    rw [List.foldl_append]
    exact ih.drag offset

theorem drag_far {d : Drawing} {offset : Coor} (hroom : d.coors.length < maxCoorNum)
    (hsum : d.coors.length = 1 ∨ d.sumOffset = ⟨0, 0⟩) (hfar : offset.far = true) :
    calCbDrag d offset =
      { coors := (d.coors.headD ⟨0, 0⟩).add offset :: d.coors
        sumOffset := ⟨0, 0⟩
        dirs := d.dirs ++ [(direction offset.x (-offset.y)).toUInt8] } := by
  have hzero : (if d.coors.length = 1 then ⟨0, 0⟩ else d.sumOffset) = (⟨0, 0⟩ : Coor) := by
    split_ifs with hone
    · rfl
    · exact hsum.resolve_left hone
  have hadd : d.sum offset = offset := by
    rw [Drawing.sum, hzero, Coor.add, zero_add, zero_add]
  have htaken : d.taken offset = offset := by rw [Drawing.taken, hadd, ite_self]
  rw [calCbDrag, if_neg (Nat.not_le.mpr hroom), htaken, if_pos hfar]

theorem drags_far {offsets : List Coor} {d : Drawing} (hfar : ∀ o ∈ offsets, o.far = true)
    (hroom : d.coors.length + offsets.length ≤ maxCoorNum)
    (hsum : d.coors.length = 1 ∨ d.sumOffset = ⟨0, 0⟩) :
    (offsets.foldl calCbDrag d).dirs =
      d.dirs ++ offsets.map fun o => (direction o.x (-o.y)).toUInt8 := by
  induction offsets generalizing d with
  | nil => exact (List.append_nil d.dirs).symm
  | cons o offsets ih =>
    rw [List.length_cons] at hroom
    rw [List.foldl_cons, drag_far (by omega) hsum (hfar o List.mem_cons_self),
      ih (fun o ho => hfar o (List.mem_cons_of_mem _ ho)) _ (Or.inr rfl)]
    · rw [List.append_assoc]
      rfl
    · rw [List.length_cons]
      omega

theorem exists_offset {c : UInt8} (h : IsDirection c) :
    ∃ o : Coor, o.far = true ∧ (direction o.x (-o.y)).toUInt8 = c := by
  have hcases : c = 97 ∨ c = 98 ∨ c = 99 ∨ c = 100 ∨ c = 101 ∨ c = 102 ∨ c = 103 ∨ c = 104 := by
    obtain ⟨hge, hle⟩ := h
    simp only [← UInt8.toNat_inj]
    simp
    omega
  rcases hcases with rfl | rfl | rfl | rfl | rfl | rfl | rfl | rfl
  · exact ⟨⟨0, -9⟩, by decide, by decide⟩
  · exact ⟨⟨9, -9⟩, by decide, by decide⟩
  · exact ⟨⟨9, 0⟩, by decide, by decide⟩
  · exact ⟨⟨9, 9⟩, by decide, by decide⟩
  · exact ⟨⟨0, 9⟩, by decide, by decide⟩
  · exact ⟨⟨-9, 9⟩, by decide, by decide⟩
  · exact ⟨⟨-9, 0⟩, by decide, by decide⟩
  · exact ⟨⟨-9, -9⟩, by decide, by decide⟩

theorem exists_record (d : Drawing) (coor : Coor) (hdirs : ∀ c ∈ s, IsDirection c)
    (hlen : s.length < maxCoorNum) : ∃ offsets, (record d coor offsets).dirs = s := by
  have hoffsets : ∃ offsets : List Coor, (∀ o ∈ offsets, o.far = true) ∧
      offsets.map (fun o => (direction o.x (-o.y)).toUInt8) = s := by
    clear hlen
    induction s with
    | nil => exact ⟨[], nofun, rfl⟩
    | cons c s ih =>
      obtain ⟨o, hfar, hdir⟩ := exists_offset (hdirs c List.mem_cons_self)
      obtain ⟨offsets, hall, hmap⟩ := ih fun c hc => hdirs c (List.mem_cons_of_mem _ hc)
      exact ⟨o :: offsets, List.forall_mem_cons.mpr ⟨hfar, hall⟩, by rw [List.map_cons, hdir, hmap]⟩
  obtain ⟨offsets, hfar, hmap⟩ := hoffsets
  refine ⟨offsets, ?_⟩
  have hlength : offsets.length = s.length := by rw [← hmap, List.length_map]
  rw [record, drags_far hfar _ (Or.inl rfl), hmap]
  · rfl
  · rw [calCbPress, List.length_singleton]
    omega

theorem rec_strock_in_bounds (h : Text byte p s) (hne : s ≠ []) (hdirs : ∀ c ∈ s, IsDirection c)
    (hend : p + s.length < 2 ^ 32) (hfuel : s.length < fuel) :
    ∃ t, recStrock fuel closed turn (fresh byte) p = some t ∧
      (t.InBounds p s.length ↔ 2 ≤ s.length ∧ ¬ Cuts 40 s) := by
  rcases Nat.lt_or_ge 1 s.length with hlong | hshort
  · have htwo : 2 ≤ s.length := hlong
    obtain ⟨t, k, hrec, hcut, hreads, hcuts⟩ := recStrock_text closed turn h hdirs hend htwo hfuel
    refine ⟨t, hrec, ?_⟩
    rw [and_iff_right htwo, ← hcuts 40]
    constructor
    · intro hin hlt
      exact absurd (hin.segs 40 ((hcut.stored 40).mpr hlt)) (lt_irrefl 40)
    · intro hle
      refine ⟨fun x hx => ?_, hcut.returned, hreads⟩
      exact ((hcut.stored x).mp hx).trans_le (Nat.not_lt.mp hle)
  · have hlen : s.length = 1 := le_antisymm hshort (List.length_pos_iff.mpr hne)
    obtain ⟨t, hrec, hread⟩ := recStrock_single closed turn h hlen hfuel
    refine ⟨t, hrec, iff_of_false (fun hin => ?_) fun hlong => by omega⟩
    obtain ⟨hge, hle⟩ := hin.reads _ hread
    rw [sub32] at hge hle
    omega

theorem rec_strock_in_bounds_four :
    ∃ t, recStrock 5 false 0 (fresh fun x => [97, 97, 99, 99].getD (x - 4096) 0) 4096 = some t ∧
      t.InBounds 4096 4 := by
  obtain ⟨t, hrec, hiff⟩ := rec_strock_in_bounds false 0 (s := [97, 97, 99, 99])
    (Text.of_list (p := 4096) (by decide)) (by decide) (by simp [IsDirection]) (by decide)
    (Nat.lt_succ_self 4)
  exact ⟨t, hrec, hiff.mpr ⟨by decide, fun hcuts => absurd hcuts.length_lt (by decide)⟩⟩

/-- A drawing with a sharp turn at every second direction. -/
theorem rec_strock_overrun : ∃ offsets t,
    (record ⟨[], ⟨0, 0⟩, []⟩ ⟨0, 0⟩ offsets).dirs = zigzag 40 97 99 ∧
      recStrock 84 false 0 (fresh fun x => (zigzag 40 97 99).getD (x - 4096) 0) 4096 = some t ∧
      ¬ t.InBounds 4096 83 := by
  have hdirs : ∀ c ∈ zigzag 40 (97 : UInt8) 99, IsDirection c := by
    simp [zigzag, IsDirection]
  obtain ⟨offsets, hrecord⟩ := exists_record ⟨[], ⟨0, 0⟩, []⟩ ⟨0, 0⟩ hdirs (by decide)
  obtain ⟨t, k, hrec, hcut, _, hcuts⟩ :=
    recStrock_text false 0 (Text.of_list (p := 4096) (s := zigzag 40 97 99) (by decide)) hdirs (by decide)
      (by decide) (by decide : 83 < 84)
  have hlt : 40 < t.cutting.i := (hcuts 40).mpr (cuts_zigzag (by decide) (by decide) 40)
  refine ⟨offsets, t, hrecord, hrec, fun hin => ?_⟩
  exact absurd (hin.segs 40 ((hcut.stored 40).mpr hlt)) (lt_irrefl 40)

end DfewOS.Cal
