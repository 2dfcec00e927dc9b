import DfewOS.DoubleByte
import DfewOS.Reader
import Mathlib.Data.List.Induction

/-!
# The pages of a text

A screen has 50 lines of 75 cells. It takes less than the buffer holds, so that the end of what
was delivered is only met at the end of the file: there a first byte without a second one is the
only character that the screen can go wrong with.
-/

namespace DfewOS.Reader
open DoubleByte (chars Cut Boundary starts chars_cons cut_nil starts_add starts_append)
open Memory (fresh)

variable {r : List UInt8} {p : List UInt8} {cs : List (List UInt8)} {i fuel : ℕ} {m : Memory}

def isDouble (c d : UInt8) : Bool := (c = 13 ∧ d = 10) ∨ isHan c

def isNewline (p : List UInt8) : Bool := p.headD 0 = 13 ∨ p.headD 0 = 10

def cells (p : List UInt8) : ℕ := if isHan (p.headD 0) then 2 else 1

/-- The line and the cell behind a character, from those behind the one in front of it. -/
def place (pos : ℕ × ℕ) (p : List UInt8) : ℕ × ℕ :=
  if isNewline p then (pos.1 + 1, 0)
  else if 75 < pos.2 + cells p then (pos.1 + 1, cells p)
  else (pos.1, pos.2 + cells p)

def layout (cs : List (List UInt8)) : ℕ × ℕ := cs.foldl place (0, 0)

/-- All of a text is shown on one screen. -/
def Fits (r : List UInt8) : Prop := (layout (chars isDouble r)).1 < 50

/-- A text ends in a first byte without a second one. -/
def EndsInHalf (r : List UInt8) : Prop := ∃ c, [c] ∈ chars isDouble r ∧ isHan c = true

theorem layout_append (cs : List (List UInt8)) (p : List UInt8) :
    layout (cs ++ [p]) = place (layout cs) p :=
  List.foldl_append

theorem place_fst_le (pos : ℕ × ℕ) (p : List UInt8) : pos.1 ≤ (place pos p).1 := by
  rw [place]
  split_ifs
  · exact Nat.le_succ _
  · exact Nat.le_succ _
  · exact le_rfl

theorem layout_mono (cs ds : List (List UInt8)) : (layout cs).1 ≤ (layout (cs ++ ds)).1 := by
  induction ds using List.reverseRecOn with
  | nil => rw [List.append_nil]
  | append_singleton ds d ih =>
    rw [← List.append_assoc, layout_append]
    exact ih.trans (place_fst_le _ _)

structure Bounded (pos : ℕ × ℕ) (i : ℕ) : Prop where
  used : pos.2 ≤ 75
  some : pos.2 ≤ i
  most : i ≤ 77 * pos.1 + pos.2

theorem Bounded.newline {pos : ℕ × ℕ} (h : Bounded pos i) (hp : isNewline p = true)
    (hlen : p.length ≤ 2) : Bounded (place pos p) (i + p.length) := by
  obtain ⟨hused, _, hmost⟩ := h
  rw [place, if_pos hp]
  exact ⟨Nat.zero_le _, Nat.zero_le _, by simp only; omega⟩

theorem cells_le (p : List UInt8) : cells p ≤ 2 := by
  rw [cells]
  split_ifs
  · exact le_rfl
  · exact Nat.le_succ 1

theorem Bounded.pos {pos : ℕ × ℕ} (h : Bounded pos i) (hp : ¬ isNewline p = true) (hpos : pos.1 < 50)
    (hbehind : 50 ≤ (place pos p).1) : 0 < i := by
  have htwo := cells_le p
  have hsome := h.some
  rw [place, if_neg hp] at hbehind
  split_ifs at hbehind with hfull
  · omega
  · exact absurd hpos (Nat.not_lt.mpr hbehind)

theorem Bounded.char {pos : ℕ × ℕ} (h : Bounded pos i) (hp : ¬ isNewline p = true)
    (hlen : p.length = cells p) : Bounded (place pos p) (i + p.length) := by
  have htwo := cells_le p
  obtain ⟨hused, hsome, hmost⟩ := h
  rw [place, if_neg hp]
  split_ifs
  · exact ⟨by simp only; omega, by simp only; omega, by simp only; omega⟩
  · exact ⟨by simp only; omega, by simp only; omega, by simp only; omega⟩

/-! ## Pixels -/

def coorOf (which_scr : ℤ) (pos : ℕ × ℕ) : Coor := ⟨which_scr * 800 + 16 * pos.1, 599 - 8 * pos.2⟩

variable (which_scr : ℤ)

theorem nextLine_coorOf (pos : ℕ × ℕ) :
    (coorOf which_scr pos).nextLine = coorOf which_scr (pos.1 + 1, 0) := by
  simp only [coorOf, Coor.nextLine, guiFontHeight, graScrH, Coor.mk.injEq]
  omega

theorem behind_coorOf (pos : ℕ × ℕ) : (coorOf which_scr pos).behind which_scr = true ↔ 50 ≤ pos.1 := by
  rw [Coor.behind, decide_eq_true_iff, coorOf, graScrW]
  simp only
  omega

theorem txtWidth_head (c : UInt8) (p : List UInt8) : txtWidth c = 8 * cells (c :: p) := by
  rw [txtWidth, cells, List.headD_cons, guiFontWidth]
  split_ifs <;> rfl

theorem full_coorOf (pos : ℕ × ℕ) (c : UInt8) (p : List UInt8) :
    (coorOf which_scr pos).full c = true ↔ 75 < pos.2 + cells (c :: p) := by
  rw [Coor.full, decide_eq_true_iff, txtWidth_head c p, coorOf]
  simp only
  omega

theorem moveRight_coorOf (pos : ℕ × ℕ) {c : UInt8} {p : List UInt8} (h : ¬ isNewline (c :: p) = true) :
    ((coorOf which_scr pos).room c).moveRight c = coorOf which_scr (place pos (c :: p)) := by
  rw [Coor.room, place, if_neg h, Coor.moveRight, txtWidth_head c p]
  simp only [full_coorOf which_scr pos c p, nextLine_coorOf]
  split_ifs
  · simp only [coorOf, Coor.mk.injEq, true_and]
    omega
  · simp only [coorOf, Coor.mk.injEq, true_and]
    omega

theorem behind_iff {pos : ℕ × ℕ} (hpos : pos.1 < 50) {c : UInt8} {p : List UInt8}
    (h : ¬ isNewline (c :: p) = true) :
    ((coorOf which_scr pos).full c = true ∧ ((coorOf which_scr pos).room c).behind which_scr = true) ↔
      50 ≤ (place pos (c :: p)).1 := by
  rw [Coor.room, place, if_neg h]
  simp only [full_coorOf which_scr pos c p, nextLine_coorOf]
  split_ifs with hfull
  · rw [behind_coorOf, and_iff_right hfull]
  · exact iff_of_false (fun hboth => hfull hboth.1) (Nat.not_le.mpr hpos)

/-! ## The loop -/

/-- The bytes up to `i` have been read, and the characters `cs` of the rest `r` of the file are
shown; `d` has been delivered. -/
structure Read (r d : List UInt8) (m : Memory) (i : ℕ) (cs : List (List UInt8)) : Prop where
  cut : Cut isDouble r cs
  index : i = cs.flatten.length
  whole : ∀ c, [c] ∈ cs → isHan c = false
  byte : ∀ k < d.length, m.byte k = d.getD k 0
  reads : ∀ k ∈ m.reads, k < d.length
  le : i ≤ d.length

/-- The next character belongs to this screen if there is room in its line. -/
structure At (r d : List UInt8) (m : Memory) (i : ℕ) (cs : List (List UInt8)) : Prop extends
    Read r d m i cs where
  onScreen : (layout cs).1 < 50
  bounded : Bounded (layout cs) i

/-- What a screen does that shows whole characters only. -/
structure Shows (r d : List UInt8) (t : Screen) : Prop where
  le : t.count ≤ d.length
  reads : ∀ k ∈ t.memory.reads, k < d.length
  chars : ∃ cs, Cut isDouble r cs ∧ t.count = cs.flatten.length ∧ t.shown = starts 0 cs
  advances : r ≠ [] → 0 < t.count

variable {d : List UInt8}

theorem Read.shows (h : Read r d m i cs) (hpos : r ≠ [] → 0 < i) (isReachEnd : Bool) :
    Shows r d ⟨m, i, starts 0 cs, isReachEnd⟩ :=
  ⟨h.le, h.reads, ⟨cs, h.cut, h.index, rfl⟩, hpos⟩

theorem Read.touch (h : Read r d m i cs) (hi : i < d.length) : Read r d (m.touch i) i cs :=
  ⟨h.cut, h.index, h.whole, h.byte, List.forall_mem_cons.mpr ⟨hi, h.reads⟩, h.le⟩

theorem Read.next {m' : Memory} (h : Read r d m i cs)
    (hp : chars isDouble (r.drop i) = p :: chars isDouble ((r.drop i).drop p.length))
    (hwhole : ∀ c, p = [c] → isHan c = false) (hbyte : m'.byte = m.byte)
    (hreads : ∀ k ∈ m'.reads, k < d.length) (hle : i + p.length ≤ d.length) :
    Read r d m' (i + p.length) (cs ++ [p]) where
  cut := by
    obtain rfl := h.index
    exact h.cut.snoc hp
  index := by rw [List.flatten_append, List.length_append, List.flatten_singleton, h.index]
  whole c hc := by
    rcases List.mem_append.mp hc with hold | hnew
    · exact h.whole c hold
    · exact hwhole c (List.mem_singleton.mp hnew).symm
  byte := hbyte.symm ▸ h.byte
  reads := hreads
  le := hle

theorem Read.chars_eq (h : Read r d m i cs) : chars isDouble r = cs ++ chars isDouble (r.drop i) := by
  obtain rfl := h.index
  exact h.cut

theorem Read.shown_next (h : Read r d m i cs) (p : List UInt8) :
    starts 0 (cs ++ [p]) = starts 0 cs ++ [i] := by
  rw [starts_append, Nat.zero_add, ← h.index]
  rfl

theorem Read.not_fits (h : Read r d m i cs)
    (hp : chars isDouble (r.drop i) = p :: chars isDouble ((r.drop i).drop p.length))
    (hbehind : 50 ≤ (place (layout cs) p).1) : ¬ Fits r := by
  rw [Fits, h.chars_eq, hp, ← List.singleton_append, ← List.append_assoc]
  exact Nat.not_lt.mpr ((layout_append cs p ▸ hbehind).trans (layout_mono _ _))

theorem At.delivered (h : At r d m i cs) (hd : d = r.take readerBufferSize) :
    i + 2 ≤ d.length ∨ d = r := by
  obtain ⟨hused, _, hmost⟩ := h.bounded
  have hline := h.onScreen
  rcases Nat.lt_or_ge r.length readerBufferSize with hshort | hfull
  · exact Or.inr (hd.trans (List.take_of_length_le hshort.le))
  · left
    rw [hd, List.length_take, Nat.min_eq_left hfull, readerBufferSize]
    omega

theorem At.drop_eq (h : At r d m i cs) (hd : d = r.take readerBufferSize) {k : ℕ} (hk : k < d.length) :
    r.drop k = m.byte k :: r.drop (k + 1) := by
  have hkr : k < r.length := by
    rw [hd, List.length_take] at hk
    omega
  rw [List.drop_eq_getElem_cons hkr, h.byte k hk, List.getD_eq_getElem?_getD, List.getElem?_eq_getElem hk,
    Option.getD_some]
  simp only [hd, List.getElem_take]

inductive Stands (d : List UInt8) (m : Memory) (i : ℕ) : List UInt8 → Prop
  | half (han : isHan (m.byte i) = true) (last : i + 1 = d.length) : Stands d m i [m.byte i]
  | two (double : isDouble (m.byte i) (m.byte (i + 1)) = true) (whole : i + 2 ≤ d.length) :
    Stands d m i [m.byte i, m.byte (i + 1)]
  | one (ascii : isHan (m.byte i) = false)
    (single : i + 1 < d.length → isDouble (m.byte i) (m.byte (i + 1)) = false) : Stands d m i [m.byte i]

theorem At.stands (h : At r d m i cs) (hd : d = r.take readerBufferSize) (hi : i < d.length) :
    ∃ p, chars isDouble (r.drop i) = p :: chars isDouble ((r.drop i).drop p.length) ∧ Stands d m i p := by
  have hle : d.length ≤ r.length := by
    rw [hd, List.length_take]
    exact Nat.min_le_right _ _
  rw [h.drop_eq hd hi]
  obtain ⟨p, hchars, hone | htwo⟩ := chars_cons isDouble (m.byte i) (r.drop (i + 1))
  · obtain ⟨rfl, hsingle⟩ := hone
    refine ⟨_, hchars, ?_⟩
    cases hhan : isHan (m.byte i) with
    | true =>
      refine .half hhan ?_
      by_contra hne
      rw [h.drop_eq hd (by omega : i + 1 < d.length)] at hsingle
      have hfalse := hsingle _ rfl
      rw [isDouble, hhan] at hfalse
      simp at hfalse
    | false =>
      refine .one hhan fun hlt => ?_
      rw [h.drop_eq hd hlt] at hsingle
      exact hsingle _ rfl
  · obtain ⟨e, t, ht, hdouble, rfl⟩ := htwo
    have hwhole : i + 2 ≤ d.length := by
      rcases h.delivered hd with hroom | rfl
      · exact hroom
      · have hlen := congrArg List.length ht
        rw [List.length_drop, List.length_cons] at hlen
        omega
    rw [h.drop_eq hd hwhole] at ht
    obtain ⟨rfl, -⟩ := List.cons.inj ht
    exact ⟨_, hchars, .two hdouble hwhole⟩

theorem At.finished (h : At r d m i cs) (hd : d = r.take readerBufferSize) (hi : d.length ≤ i) :
    Shows r d ⟨m, i, starts 0 cs, true⟩ ∧ ¬ EndsInHalf r := by
  obtain rfl : d = r := (h.delivered hd).resolve_left (by omega)
  refine ⟨h.toRead.shows (fun hne => ?_) true, ?_⟩
  · exact (List.length_pos_iff.mpr hne).trans_le hi
  · rintro ⟨c, hc, hhan⟩
    rw [h.chars_eq, List.drop_of_length_le hi, chars, List.append_nil] at hc
    rw [h.whole c hc] at hhan
    exact Bool.false_ne_true hhan

theorem isHan_of_newline {c : UInt8} (h : c = 13 ∨ c = 10) : isHan c = false := by
  rcases h with rfl | rfl
  · decide
  · decide

theorem lineEnd_stands (h : Read r d m i cs) (hs : Stands d m i p) (hi : i < d.length)
    (hline : m.byte i = 13 ∨ m.byte i = 10) :
    (lineEnd m d.length i).2 = i + p.length ∧ (lineEnd m d.length i).1.byte = m.byte ∧
      (∀ k ∈ (lineEnd m d.length i).1.reads, k < d.length) ∧ isNewline p = true ∧
      (∀ c, p = [c] → isHan c = false) ∧ p.length ≤ 2 ∧ i + p.length ≤ d.length := by
  have hhan := isHan_of_newline hline
  have hread : ∀ k ∈ (m.touch i).reads, k < d.length := List.forall_mem_cons.mpr ⟨hi, h.reads⟩
  have hreads : i + 1 < d.length → ∀ k ∈ ((m.touch i).touch (i + 1)).reads, k < d.length :=
    fun hlt => List.forall_mem_cons.mpr ⟨hlt, hread⟩
  have hnewline : ∀ t, isNewline (m.byte i :: t) = true := fun t => decide_eq_true hline
  have hpair : ∀ c, [m.byte i, m.byte (i + 1)] = [c] → isHan c = false := by simp
  cases hs with
  | half han last =>
    rw [hhan] at han
    exact absurd han Bool.false_ne_true
  | two double whole =>
    have hboth : m.byte i = 13 ∧ m.byte (i + 1) = 10 := by simpa [isDouble, hhan] using double
    rw [lineEnd, if_pos ⟨hboth.1, whole⟩, if_pos hboth.2]
    exact ⟨rfl, rfl, hreads whole, hnewline _, hpair, le_rfl, whole⟩
  | one ascii single =>
    have hone : ∀ c, [m.byte i] = [c] → isHan c = false := fun c hc => (List.cons.inj hc).1 ▸ hhan
    rw [lineEnd]
    split_ifs with hcr hlf
    · have hsingle := single hcr.2
      rw [isDouble, hcr.1, hlf] at hsingle
      exact absurd hsingle (by decide)
    · exact ⟨rfl, rfl, hreads hcr.2, hnewline _, hone, Nat.le_succ 1, hi⟩
    · exact ⟨rfl, rfl, hread, hnewline _, hone, Nat.le_succ 1, hi⟩

theorem drawChar_stands (h : Read r d m i cs) (hs : Stands d m i p) (hi : i < d.length)
    (hline : ¬ (m.byte i = 13 ∨ m.byte i = 10)) :
    (isHan (m.byte i) = true ∧ p = [m.byte i] ∧ i + 1 = d.length) ∨
      ((if isHan (m.byte i) then i + 2 else i + 1) = i + p.length ∧ (drawChar m i).byte = m.byte ∧
        (∀ k ∈ (drawChar m i).reads, k < d.length) ∧ p.length = cells p ∧
        (∀ c, p = [c] → isHan c = false) ∧ i + p.length ≤ d.length) := by
  have hread : ∀ k ∈ (m.touch i).reads, k < d.length := List.forall_mem_cons.mpr ⟨hi, h.reads⟩
  have hpair : ∀ c, [m.byte i, m.byte (i + 1)] = [c] → isHan c = false := by simp
  cases hs with
  | half han last => exact Or.inl ⟨han, rfl, last⟩
  | two double whole =>
    have hhan : isHan (m.byte i) = true := by
      have hcr : ¬ m.byte i = 13 := fun hcr => hline (Or.inl hcr)
      simpa [isDouble, hcr] using double
    refine Or.inr ?_
    rw [drawChar, if_pos hhan, if_pos hhan, cells, List.headD_cons, if_pos hhan]
    exact ⟨rfl, rfl, List.forall_mem_cons.mpr ⟨whole, hread⟩, rfl, hpair, whole⟩
  | one ascii single =>
    have hhan : ¬ isHan (m.byte i) = true := ascii ▸ Bool.false_ne_true
    refine Or.inr ?_
    rw [drawChar, if_neg hhan, if_neg hhan, cells, List.headD_cons, if_neg hhan]
    exact ⟨rfl, rfl, hread, rfl, fun c hc => (List.cons.inj hc).1 ▸ ascii, hi⟩

/-- How a screen ends: with whole characters, or behind a first byte that has no second one. -/
def Ends (r d : List UInt8) (t : Screen) : Prop :=
  (Shows r d t ∧ ¬ (EndsInHalf r ∧ Fits r)) ∨ (t.count = d.length + 1 ∧ EndsInHalf r ∧ Fits r)

theorem place_newline (pos : ℕ × ℕ) (h : isNewline p = true) : place pos p = (pos.1 + 1, 0) := by
  rw [place, if_pos h]

theorem At.half (h : At r d m i cs) (hd : d = r.take readerBufferSize) {c : UInt8} (hhan : isHan c = true)
    (hlast : i + 1 = d.length) (hp : chars isDouble (r.drop i) = [c] :: chars isDouble ((r.drop i).drop 1))
    (hplace : (place (layout cs) [c]).1 < 50) : EndsInHalf r ∧ Fits r := by
  obtain rfl : d = r := (h.delivered hd).resolve_left (by omega)
  have hall : chars isDouble d = cs ++ [[c]] := by
    rw [h.chars_eq, hp, List.drop_drop, List.drop_of_length_le hlast.ge, chars]
  refine ⟨⟨c, ?_, hhan⟩, ?_⟩
  · rw [hall]
    exact List.mem_append_right _ List.mem_cons_self
  · rwa [Fits, hall, layout_append]

theorem readLoop_done {n : ℕ} {txt : Coor} {shown : List ℕ} (hfuel : 0 < fuel) (hi : n ≤ i) :
    readLoop which_scr n fuel m i txt shown = some ⟨m, i, shown, true⟩ := by
  obtain ⟨fuel, rfl⟩ : ∃ f, fuel = f + 1 := ⟨fuel - 1, by omega⟩
  rw [readLoop, if_pos hi]

theorem readLoop_ends (hd : d = r.take readerBufferSize) (h : At r d m i cs)
    (hfuel : d.length - i < fuel) :
    ∃ t, readLoop which_scr d.length fuel m i (coorOf which_scr (layout cs)) (starts 0 cs) = some t ∧
      Ends r d t := by
  induction fuel generalizing m i cs with
  | zero => exact absurd hfuel (Nat.not_lt_zero _)
  | succ fuel ih =>
    rw [readLoop]
    by_cases hi : d.length ≤ i
    · obtain ⟨hshows, hhalf⟩ := h.finished hd hi
      exact ⟨_, if_pos hi, Or.inl ⟨hshows, fun hboth => hhalf hboth.1⟩⟩
    have hlt : i < d.length := Nat.not_le.mp hi
    obtain ⟨p, hp, hstands⟩ := h.stands hd hlt
    obtain ⟨t, rfl⟩ : ∃ t, p = m.byte i :: t := by
      cases hstands <;> exact ⟨_, rfl⟩
    rw [if_neg hi]
    by_cases hline : m.byte i = 13 ∨ m.byte i = 10
    · rw [if_pos hline]
      obtain ⟨hindex, hbyte, hreads, hnewline, hwhole, htwo, hle⟩ :=
        lineEnd_stands h.toRead hstands hlt hline
      have hnext := h.toRead.next hp hwhole hbyte hreads hle
      have hplace := place_newline (layout cs) hnewline
      simp only [nextLine_coorOf, hindex, ← h.shown_next (m.byte i :: t)]
      split_ifs with hbehind
      · refine ⟨_, rfl, Or.inl ⟨hnext.shows (fun _ => ?_) false, fun hboth => ?_⟩⟩
        · exact Nat.lt_add_left i (Nat.succ_pos t.length)
        · refine h.not_fits hp ?_ hboth.2
          rw [hplace]
          exact (behind_coorOf which_scr _).mp hbehind
      · rw [behind_coorOf, ← hplace, Nat.not_le, ← layout_append] at hbehind
        rw [← hplace, ← layout_append]
        refine ih ⟨hnext, hbehind, ?_⟩ (by rw [List.length_cons]; omega)
        rw [layout_append]
        exact h.bounded.newline hnewline htwo
    · rw [if_neg hline]
      have hnewline : ¬ isNewline (m.byte i :: t) = true := by
        rw [isNewline, List.headD_cons, decide_eq_true_iff]
        exact hline
      simp only [behind_iff which_scr h.onScreen hnewline, moveRight_coorOf which_scr _ hnewline,
        ← h.shown_next (m.byte i :: t)]
      by_cases hbehind : 50 ≤ (place (layout cs) (m.byte i :: t)).1
      · rw [if_pos hbehind]
        have hpos := h.bounded.pos hnewline h.onScreen hbehind
        exact ⟨_, rfl, Or.inl ⟨(h.toRead.touch hlt).shows (fun _ => hpos) false,
          fun hboth => h.not_fits hp hbehind hboth.2⟩⟩
      rw [if_neg hbehind]
      have hon : (place (layout cs) (m.byte i :: t)).1 < 50 := Nat.not_le.mp hbehind
      rcases drawChar_stands h.toRead hstands hlt hline with ⟨hhan, hone, hlast⟩ | hwhole
      · obtain rfl : t = [] := (List.cons.inj hone).2
        rw [if_pos hhan, readLoop_done which_scr (by omega) (by omega)]
        exact ⟨_, rfl, Or.inr ⟨by simp only; omega, h.half hd hhan hlast hp hon⟩⟩
      · obtain ⟨hindex, hbyte, hreads, hcells, hsingle, hle⟩ := hwhole
        rw [hindex, ← layout_append]
        refine ih ⟨h.toRead.next hp hsingle hbyte hreads hle, ?_, ?_⟩ (by rw [List.length_cons]; omega)
        · rwa [layout_append]
        · rw [layout_append]
          exact h.bounded.char hnewline hcells

/-! ## Screens -/

variable {file : List UInt8} {start last : ℕ} {shown : List ℕ}

theorem readAScreen_ends (file : List UInt8) (rest : ℕ → UInt8) (start : ℕ) :
    ∃ t, readAScreen file rest which_scr start = some t ∧
      Ends (file.drop start) (yaffsPread file readerBufferSize start) t := by
  have hlen : (yaffsPread file readerBufferSize start).length ≤ readerBufferSize := by
    rw [yaffsPread, List.length_take]
    exact Nat.min_le_left _ _
  have hstart : (coorOf which_scr (layout [])) = ⟨which_scr * graScrW, graScrH - 1⟩ := by
    simp [coorOf, layout, graScrW, graScrH]
  let d := yaffsPread file readerBufferSize start
  have hat : At (file.drop start) d (fresh fun i => if i < d.length then d.getD i 0 else rest i) 0 [] :=
    { cut := cut_nil isDouble _
      index := rfl
      whole := nofun
      byte := fun k hk => if_pos hk
      reads := nofun
      le := Nat.zero_le _
      onScreen := by decide
      bounded := ⟨by decide, le_rfl, le_rfl⟩ }
  have hfuel : d.length - 0 < readerBufferSize + 2 := Nat.lt_add_right 1 (Nat.lt_succ_of_le hlen)
  obtain ⟨t, hread, hends⟩ := readLoop_ends which_scr rfl hat hfuel
  rw [hstart] at hread
  exact ⟨t, hread, hends⟩

/-- What a screen that begins at a boundary leaves. -/
structure Partitions (file : List UInt8) (start : ℕ) (t : Screen) : Prop extends
    Shows (file.drop start) (yaffsPread file readerBufferSize start) t where
  boundary : Boundary isDouble file (start + t.count)

/-- The rest of the file ends in a first byte without a second one, and that comes on this screen. -/
def ShowsHalf (file : List UInt8) (start : ℕ) : Prop :=
  EndsInHalf (file.drop start) ∧ Fits (file.drop start)

theorem partitions_iff (hstart : Boundary isDouble file start) {t : Screen}
    (h : Ends (file.drop start) (yaffsPread file readerBufferSize start) t) :
    Partitions file start t ↔ ¬ ShowsHalf file start := by
  rcases h with ⟨hshows, hhalf⟩ | ⟨hcount, hhalf⟩
  · refine iff_of_true ⟨hshows, ?_⟩ hhalf
    obtain ⟨cs, hcut, hlen, _⟩ := hshows.chars
    rw [hlen]
    exact hstart.append hcut
  · refine iff_of_false (fun hp => ?_) (not_not_intro hhalf)
    have hle := hp.le
    omega

/-- Screens that follow each other, with the positions of the characters they show. -/
inductive Pages (file : List UInt8) : ℕ → List ℕ → ℕ → Prop
  | nil (start : ℕ) : Pages file start [] start
  | cons {start last : ℕ} {t : Screen} {shown : List ℕ} (rest : ℕ → UInt8) (which_scr : ℤ)
    (read : readAScreen file rest which_scr start = some t) (whole : ¬ ShowsHalf file start)
    (pages : Pages file (start + t.count) shown last) :
    Pages file start (t.shown.map (start + ·) ++ shown) last

theorem Pages.shown_eq (h : Pages file start shown last) (hstart : Boundary isDouble file start) :
    ∃ cs, Cut isDouble (file.drop start) cs ∧ last = start + cs.flatten.length ∧
      shown = starts start cs := by
  induction h with
  | nil start => exact ⟨[], cut_nil _ _, rfl, rfl⟩
  | @cons start last t shown rest which_scr read whole pages ih =>
    obtain ⟨t', hread, hends⟩ := readAScreen_ends which_scr file rest start
    obtain rfl : t = t' := Option.some.inj (read.symm.trans hread)
    have hpart := (partitions_iff hstart hends).mpr whole
    obtain ⟨cs, hcut, hcount, hshown⟩ := hpart.chars
    obtain ⟨ds, hcut', hlast, hshown'⟩ := ih hpart.boundary
    rw [hcount] at hcut' hlast hshown'
    refine ⟨cs ++ ds, hcut.append ?_, ?_, ?_⟩
    · rwa [List.drop_drop]
    · rw [hlast, List.flatten_append, List.length_append, Nat.add_assoc]
    · rw [hshown, hshown', starts_append, ← starts_add, Nat.add_zero]

/-- A screen shows whole characters unless it shows half of one, and screens that do not show
half of one show each character once. -/
theorem read_a_screen_partitions (hstart : Boundary isDouble file start) (rest : ℕ → UInt8) :
    (∃ t, readAScreen file rest which_scr start = some t ∧
      (Partitions file start t ↔ ¬ ShowsHalf file start)) ∧
    ∀ shown last, Pages file start shown last →
      ∃ cs, Cut isDouble (file.drop start) cs ∧ last = start + cs.flatten.length ∧
        shown = starts start cs := by
  refine ⟨?_, fun shown last hpages => hpages.shown_eq hstart⟩
  obtain ⟨t, hread, hends⟩ := readAScreen_ends which_scr file rest start
  exact ⟨t, hread, partitions_iff hstart hends⟩

theorem read_a_screen_partitions_line :
    ∃ t, readAScreen [65, 10, 66] (fun _ => 0) 0 2 = some t ∧ Partitions [65, 10, 66] 2 t := by
  have hstart : Boundary isDouble [65, 10, 66] 2 := ⟨[[65], [10]], by rw [Cut]; decide, rfl⟩
  obtain ⟨t, hread, hiff⟩ := (read_a_screen_partitions 0 hstart fun _ => 0).1
  refine ⟨t, hread, hiff.mpr fun hhalf => ?_⟩
  obtain ⟨c, hc, hhan⟩ := hhalf.1
  obtain rfl : c = 66 := by simpa [chars] using hc
  exact absurd hhan (by decide)

/-- A file of a letter and the first byte of a han zi. -/
theorem read_a_screen_half :
    ∃ t, readAScreen [97, 176] (fun _ => 0) 0 0 = some t ∧ t.count = 3 ∧ ¬ Partitions [97, 176] 0 t := by
  obtain ⟨t, hread, hends⟩ := readAScreen_ends 0 [97, 176] (fun _ => 0) 0
  have hhalf : ShowsHalf [97, 176] 0 := by
    have hchars : chars isDouble [97, 176] = [[97], [176]] := by decide
    refine ⟨⟨176, ?_, by decide⟩, ?_⟩
    · rw [List.drop_zero, hchars]
      exact List.mem_cons_of_mem _ List.mem_cons_self
    · rw [List.drop_zero, Fits, hchars]
      decide
  rcases hends with ⟨_, hwhole⟩ | ⟨hcount, _⟩
  · exact absurd hhalf hwhole
  · refine ⟨t, hread, hcount, fun hp => ?_⟩
    have hle := hp.le
    rw [hcount] at hle
    exact absurd hle (Nat.not_succ_le_self _)

end DfewOS.Reader
