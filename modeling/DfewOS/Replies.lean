import Mathlib.Data.Nat.Notation

/-!
# Calls and their replies

A component serves one call after the other. It refines another one if it gives the
same replies to every list of calls; a call without a result has left the memory of the
component.
-/

namespace Replies

variable {σ θ γ ρ : Type*} {exec : σ → γ → Option (σ × ρ)} {s : σ}

/-- The state behind a list of calls and their replies. -/
def run (exec : σ → γ → Option (σ × ρ)) (s : σ) : List γ → Option (σ × List ρ)
  | [] => some (s, [])
  | c :: cs => (exec s c).bind fun r => (run exec r.1 cs).map fun r' => (r'.1, r.2 :: r'.2)

def serve (spec : θ → γ → θ × ρ) (q : θ) : List γ → θ × List ρ
  | [] => (q, [])
  | c :: cs => ((serve spec (spec q c).1 cs).1, (spec q c).2 :: (serve spec (spec q c).1 cs).2)

theorem run_snoc (cs : List γ) (c : γ) :
    run exec s (cs ++ [c]) = (run exec s cs).bind fun r =>
      (exec r.1 c).map fun r' => (r'.1, r.2 ++ [r'.2]) := by
  induction cs generalizing s with
  | nil =>
    simp only [List.nil_append, run, Option.bind_some]
    cases exec s c <;> rfl
  | cons c' cs ih =>
    simp only [List.cons_append, run]
    cases exec s c' with
    | none => rfl
    | some r =>
      simp only [Option.bind_some, ih]
      cases run exec r.1 cs with
      | none => rfl
      | some r₁ =>
        simp only [Option.bind_some, Option.map_some]
        cases exec r₁.1 c <;> rfl

theorem serve_snoc (spec : θ → γ → θ × ρ) (q : θ) (cs : List γ) (c : γ) :
    serve spec q (cs ++ [c]) = ((spec (serve spec q cs).1 c).1,
      (serve spec q cs).2 ++ [(spec (serve spec q cs).1 c).2]) := by
  induction cs generalizing q with
  | nil => rfl
  | cons c' cs ih => simp only [List.cons_append, serve, ih]

theorem run_snoc_serve {spec : θ → γ → θ × ρ} {q : θ} {cs : List γ} {c : γ} {s' : σ}
    (h : run exec s (cs ++ [c]) = some (s', (serve spec q (cs ++ [c])).2)) :
    ∃ s₁, run exec s cs = some (s₁, (serve spec q cs).2) ∧
      exec s₁ c = some (s', (spec (serve spec q cs).1 c).2) := by
  rw [run_snoc, serve_snoc] at h
  cases hrun : run exec s cs with
  | none =>
    rw [hrun] at h
    cases h
  | some r =>
    rw [hrun, Option.bind_some] at h
    cases hexec : exec r.1 c with
    | none =>
      rw [hexec] at h
      cases h
    | some r₁ =>
      rw [hexec, Option.map_some, Option.some.injEq, Prod.mk.injEq] at h
      obtain ⟨hrs, hr⟩ := List.append_inj' h.2 rfl
      refine ⟨r.1, ?_, ?_⟩
      · rw [← hrs]
      · rw [hexec, ← h.1, ← (List.cons.inj hr).1]

theorem run_refines {spec : θ → γ → θ × ρ} {R : σ → θ → Prop} {ok : γ → Prop}
    (hstep : ∀ s q c, R s q → ok c →
      ∃ s', exec s c = some (s', (spec q c).2) ∧ R s' (spec q c).1)
    {q : θ} (h : R s q) (cs : List γ) (hcs : ∀ c ∈ cs, ok c) :
    ∃ s', run exec s cs = some (s', (serve spec q cs).2) ∧ R s' (serve spec q cs).1 := by
  induction cs generalizing s q with
  | nil => exact ⟨s, rfl, h⟩
  | cons c cs ih =>
    obtain ⟨s₁, hexec, h₁⟩ := hstep s q c h (hcs c List.mem_cons_self)
    obtain ⟨s₂, hrun, h₂⟩ := ih h₁ fun c' hc' => hcs c' (List.mem_cons_of_mem c hc')
    refine ⟨s₂, ?_, h₂⟩
    rw [run, hexec, Option.bind_some, hrun]
    rfl

end Replies
