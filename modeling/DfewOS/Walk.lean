import DfewOS.Memory
import DfewOS.NulText
import Mathlib.Data.List.TakeWhile

/-!
# Walking along a text

`while (test (*p)) ++p` in a memory that logs its accesses, on a text that ends with a NUL. The
walk ends at the first character that does not pass the test, and looks at nothing behind the NUL
if that does not pass it.
-/

namespace Walk
open Memory (Looked)
open NulText (Text)

def skipWhile (test : UInt8 → Bool) : ℕ → Memory → ℕ → Option (Memory × ℕ)
  | 0, _, _ => none
  | fuel + 1, m, p =>
    if test (m.byte p) then skipWhile test fuel (m.touch p) (p + 1) else some (m.touch p, p)

variable {m m' m'' : Memory} {A : Set ℕ} {s : List UInt8} {p fuel : ℕ} {test : UInt8 → Bool}

def Lies (A : Set ℕ) (p : ℕ) (s : List UInt8) : Prop := ∀ i ≤ s.length, p + i ∈ A

theorem Lies.drop (h : Lies A p s) {n : ℕ} (hn : n ≤ s.length) : Lies A (p + n) (s.drop n) := by
  intro i hi
  rw [List.length_drop] at hi
  rw [Nat.add_assoc]
  exact h (n + i) (by omega)

theorem Lies.tail {c : UInt8} (h : Lies A p (c :: s)) : Lies A (p + 1) s :=
  h.drop (Nat.succ_le_succ (Nat.zero_le s.length))

theorem Lies.right {a b : List UInt8} (h : Lies A p (a ++ b)) : Lies A (p + a.length) b := by
  have hdrop := h.drop (List.length_append ▸ Nat.le_add_right a.length b.length)
  rwa [List.drop_left] at hdrop

theorem skipWhile_text (h : Text m.byte p s) (hA : Lies A p s) (htest : test 0 = false)
    (hfuel : s.length < fuel) :
    ∃ m', skipWhile test fuel m p = some (m', p + (s.takeWhile test).length) ∧ Looked m m' A := by
  induction s generalizing m p fuel with
  | nil =>
    obtain ⟨fuel, rfl⟩ : ∃ f, fuel = f + 1 := ⟨fuel - 1, by omega⟩
    have hnul : m.byte p = 0 := h
    refine ⟨m.touch p, ?_, .touch m (hA 0 le_rfl)⟩
    rw [skipWhile, hnul, if_neg (by rw [htest]; exact Bool.false_ne_true)]
    rfl
  | cons c s ih =>
    obtain ⟨fuel, rfl⟩ : ∃ f, fuel = f + 1 := ⟨fuel - 1, by omega⟩
    have htouch : Looked m (m.touch p) A := .touch m (hA 0 (Nat.zero_le _))
    rw [skipWhile, h.1]
    cases hc : test c with
    | true =>
      obtain ⟨m', hskip, hlook⟩ :=
        ih (show Text (m.touch p).byte (p + 1) s from h.2.2) hA.tail (Nat.lt_of_succ_lt_succ hfuel)
      refine ⟨m', ?_, htouch.trans hlook⟩
      rw [if_pos rfl, hskip, List.takeWhile_cons_of_pos hc, List.length_cons]
      congr 2
      omega
    | false =>
      refine ⟨m.touch p, ?_, htouch⟩
      rw [if_neg Bool.false_ne_true, List.takeWhile_cons_of_neg (by rw [hc]; exact Bool.false_ne_true)]
      rfl

theorem skipWhile_rest (h : Text m.byte p s) (hA : Lies A p s) (htest : test 0 = false)
    (hfuel : s.length < fuel) :
    ∃ m' q, skipWhile test fuel m p = some (m', q) ∧ Looked m m' A ∧
      q = p + (s.takeWhile test).length ∧ Text m'.byte q (s.dropWhile test) ∧
      Lies A q (s.dropWhile test) := by
  obtain ⟨m', hskip, hlook⟩ := skipWhile_text h hA htest hfuel
  have hsplit : s.takeWhile test ++ s.dropWhile test = s := List.takeWhile_append_dropWhile
  rw [← hsplit] at h hA
  exact ⟨m', _, hskip, hlook, rfl, hlook.byte.symm ▸ h.right, hA.right⟩

theorem skipWhile_end (h : Text m.byte p s) (hA : Lies A p s) (hfuel : s.length < fuel) :
    ∃ m', skipWhile (fun c => c ≠ 0) fuel m p = some (m', p + s.length) ∧ Looked m m' A := by
  obtain ⟨m', hskip, hlook⟩ : ∃ m', skipWhile (fun c => c ≠ 0) fuel m p = some (m', _) ∧ Looked m m' A :=
    skipWhile_text h hA (by decide) hfuel
  have hall : s.takeWhile (fun c => decide (c ≠ 0)) = s := List.takeWhile_eq_self_iff.mpr fun c hc =>
    decide_eq_true fun hzero => h.not_nul (hzero ▸ hc)
  rw [hall] at hskip
  exact ⟨m', hskip, hlook⟩

def Grows (m m' : Memory) : Prop := ∀ x ∈ m.reads, x ∈ m'.reads

theorem Grows.refl (m : Memory) : Grows m m := fun _ hx => hx

theorem Grows.trans (h : Grows m m') (h' : Grows m' m'') : Grows m m'' := fun x hx => h' x (h x hx)

theorem Grows.touch (m : Memory) (p : ℕ) : Grows m (m.touch p) := fun _ hx => List.mem_cons_of_mem _ hx

theorem Grows.store (m : Memory) (p : ℕ) (value : UInt8) : Grows m (m.store p value) := .refl m

theorem skipWhile_grows {r : Memory × ℕ} (h : skipWhile test fuel m p = some r) :
    Grows (m.touch p) r.1 := by
  induction fuel generalizing m p with
  | zero => exact absurd h (by simp [skipWhile])
  | succ fuel ih =>
    rw [skipWhile] at h
    split_ifs at h with htest
    · exact (Grows.touch _ _).trans (ih h)
    · obtain rfl := Option.some.inj h
      exact .refl _

/-! ## Neighbours -/

/-- Looks at each character up to the NUL together with the one in front of it. -/
def pairWalk {σ : Type*} (stop : σ → UInt8 → UInt8 → Bool) (next : σ → UInt8 → UInt8 → σ) :
    ℕ → Memory → ℕ → σ → Option (Memory × ℕ × σ)
  | 0, _, _, _ => none
  | fuel + 1, m, p, x =>
    if m.byte p = 0 then some (m.touch p, p, x)
    else if stop x (m.byte (p - 1)) (m.byte p) then some ((m.touch p).touch (p - 1), p, x)
    else
      pairWalk stop next fuel ((m.touch p).touch (p - 1)) (p + 1) (next x (m.byte (p - 1)) (m.byte p))

section Neighbours
variable {σ : Type*} {stop : σ → UInt8 → UInt8 → Bool} {next : σ → UInt8 → UInt8 → σ}
  {Inv : ℕ → σ → Prop} {x : σ} {k : ℕ}

/-- A walk that goes on while an invariant is kept ends at the NUL or where it is stopped. -/
theorem pairWalk_inv (h : Text m.byte p s) (hA : Lies A p s)
    (hstep : ∀ n y, 0 < n → n < s.length → Inv n y → stop y (s.getD (n - 1) 0) (s.getD n 0) = false →
      Inv (n + 1) (next y (s.getD (n - 1) 0) (s.getD n 0)))
    (hpos : 0 < k) (hk : k ≤ s.length) (hfuel : s.length - k < fuel) (hinv : Inv k x) :
    ∃ m' n y, pairWalk stop next fuel m (p + k) x = some (m', p + n, y) ∧ Looked m m' A ∧
      k ≤ n ∧ n ≤ s.length ∧ Inv n y ∧
      (n < s.length → stop y (s.getD (n - 1) 0) (s.getD n 0) = true) := by
  induction fuel generalizing m k x with
  | zero => exact absurd hfuel (Nat.not_lt_zero _)
  | succ fuel ih =>
    have hcur : m.byte (p + k) = s.getD k 0 := h.getD hk
    have hback : m.byte (p + k - 1) = s.getD (k - 1) 0 := by
      rw [Nat.add_sub_assoc hpos]
      exact h.getD (by omega)
    have htouch : Looked m (m.touch (p + k)) A := .touch m (hA k hk)
    have htouch' : Looked m ((m.touch (p + k)).touch (p + k - 1)) A := by
      rw [Nat.add_sub_assoc hpos]
      exact htouch.trans (.touch _ (hA _ (by omega)))
    rw [pairWalk, hcur, hback]
    obtain hlt | rfl := Nat.lt_or_eq_of_le hk
    · rw [if_neg (h.getD_ne hlt)]
      cases hstop : stop x (s.getD (k - 1) 0) (s.getD k 0) with
      | true => exact ⟨_, k, x, if_pos rfl, htouch', le_rfl, hk, hinv, fun _ => hstop⟩
      | false =>
        rw [if_neg Bool.false_ne_true]
        obtain ⟨m', n, y, hwalk, hlook, hn, hrest⟩ :=
          ih (show Text ((m.touch (p + k)).touch (p + k - 1)).byte p s from h) (Nat.succ_pos k) hlt
            (by omega) (hstep k x hpos hlt hinv hstop)
        exact ⟨m', n, y, hwalk, htouch'.trans hlook, Nat.le_of_succ_le hn, hrest⟩
    · rw [if_pos (hcur.symm.trans h.terminator)]
      exact ⟨_, s.length, x, rfl, htouch, le_rfl, le_rfl, hinv, fun hlt => absurd hlt (lt_irrefl _)⟩

theorem pairWalk_text (h : Text m.byte p s) (hA : Lies A p s) (hpos : 0 < k) (hk : k ≤ s.length)
    (hfuel : s.length - k < fuel) :
    ∃ m' n y, pairWalk stop next fuel m (p + k) x = some (m', p + n, y) ∧ Looked m m' A ∧
      n ≤ s.length := by
  let Inv (_ : ℕ) (_ : σ) : Prop := True
  have hstep : ∀ n y, 0 < n → n < s.length → Inv n y → stop y (s.getD (n - 1) 0) (s.getD n 0) = false →
      Inv (n + 1) (next y (s.getD (n - 1) 0) (s.getD n 0)) := fun _ _ _ _ _ _ => trivial
  obtain ⟨m', n, y, hwalk, hlook, _, hn, _⟩ := pairWalk_inv h hA hstep hpos hk hfuel (trivial : Inv k x)
  exact ⟨m', n, y, hwalk, hlook, hn⟩

end Neighbours

end Walk
