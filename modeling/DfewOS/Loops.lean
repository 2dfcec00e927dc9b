import Mathlib.Data.Nat.Notation

/-!
# Loops that need not end

A `while`-loop runs for as many rounds as its fuel allows, and is `none` when that does not
suffice. More fuel changes no result. A loop whose rounds can be counted returns
(`loop_rounds`), one that does the same as a loop that returns does so too (`loop_follows`),
and one whose test holds in every state it comes to never does (`loop_never`).
-/

namespace Loops

variable {σ : Type*}

/-- `while (test) body`, for less than `fuel` rounds. -/
def loop (test : σ → Bool) (body : σ → σ) : ℕ → σ → Option σ
  | 0, _ => none
  | fuel + 1, s => if test s then loop test body fuel (body s) else some s

variable {test : σ → Bool} {body : σ → σ} {fuel : ℕ} {s t : σ}

theorem loop_of_true (h : test s = true) :
    loop test body (fuel + 1) s = loop test body fuel (body s) := by
  rw [loop, if_pos h]

theorem loop_of_false (h : test s = false) : loop test body (fuel + 1) s = some s := by
  rw [loop, if_neg (by rw [h]; exact Bool.false_ne_true)]

theorem loop_mono (h : loop test body fuel s = some t) {more : ℕ} (hle : fuel ≤ more) :
    loop test body more s = some t := by
  induction fuel generalizing s more with
  | zero => exact absurd h (by simp [loop])
  | succ fuel ih =>
    cases more with
    | zero => omega
    | succ more =>
      cases htest : test s with
      | true =>
        rw [loop_of_true htest] at h ⊢
        exact ih h (by omega)
      | false =>
        rw [loop_of_false htest] at h ⊢
        exact h

theorem loop_rounds (inv : ℕ → σ → Prop) {post : σ → Prop} (k : ℕ)
    (hstep : ∀ k s, inv (k + 1) s → test s = true ∧ inv k (body s))
    (hend : ∀ s, inv 0 s → test s = false ∧ post s) (hs : inv k s) (hfuel : k < fuel) :
    ∃ t, loop test body fuel s = some t ∧ post t := by
  induction k generalizing fuel s with
  | zero =>
    obtain ⟨fuel, rfl⟩ : ∃ f, fuel = f + 1 := ⟨fuel - 1, by omega⟩
    obtain ⟨htest, hpost⟩ := hend s hs
    exact ⟨s, loop_of_false htest, hpost⟩
  | succ k ih =>
    obtain ⟨fuel, rfl⟩ : ∃ f, fuel = f + 1 := ⟨fuel - 1, by omega⟩
    obtain ⟨htest, hnext⟩ := hstep k s hs
    rw [loop_of_true htest]
    exact ih hnext (by omega)

theorem loop_follows {τ : Type*} {test' : τ → Bool} {body' : τ → τ} {u v : τ} (R : σ → τ → Prop)
    (htest : ∀ s u, R s u → test s = test' u)
    (hbody : ∀ s u, R s u → test' u = true → R (body s) (body' u)) (hs : R s u)
    (h : loop test' body' fuel u = some v) : ∃ t, loop test body fuel s = some t ∧ R t v := by
  induction fuel generalizing s u with
  | zero => exact absurd h (by simp [loop])
  | succ fuel ih =>
    have hsame := htest s u hs
    cases hu : test' u with
    | true =>
      rw [loop_of_true hu] at h
      rw [loop_of_true (hsame.trans hu)]
      exact ih (hbody s u hs hu) h
    | false =>
      rw [loop_of_false hu] at h
      obtain rfl := Option.some.inj h
      exact ⟨s, loop_of_false (hsame.trans hu), hs⟩

theorem loop_never (inv : σ → Prop) (hstep : ∀ s, inv s → test s = true ∧ inv (body s))
    (hs : inv s) : loop test body fuel s = none := by
  induction fuel generalizing s with
  | zero => rfl
  | succ fuel ih =>
    obtain ⟨htest, hnext⟩ := hstep s hs
    rw [loop_of_true htest]
    exact ih hnext

end Loops
