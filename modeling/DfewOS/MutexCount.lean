import DfewOS.EffectSpec

/-!
# Counting the takes of a mutex

`held` counts, beside the kernel, the takes that the owner of a mutex has not
given back; a hand-over is the first of them. `semM_give` hands a mutex over
without setting `take_count`, so the two agree as long as no mutex is handed
over and no count wraps.
-/

namespace DfewOS
open Transition (Reachable System)

def Act.ByOwner (k : Kernel) : Act → Prop
  | .call (.semMGive m) => (k.semM m).ownerTcb = k.curTcb
  | _ => True

/-- A nested take does not wrap the count, and the outermost give meets no waiter. -/
def Act.KeepsCount (k : Kernel) : Act → Prop
  | .call (.semMTake m _) => (k.semM m).ownerTcb = k.curTcb → (k.semM m).takeCount ≠ uint32Max
  | .call (.semMGive m) => (k.semM m).takeCount = 1 → k.ts.members (.semM m) = []
  | _ => True

instance (k : Kernel) : (a : Act) → Decidable (a.ByOwner k)
  | .call (.semMGive m) => inferInstanceAs (Decidable ((k.semM m).ownerTcb = k.curTcb))
  | .call (.taskCreate ..) | .call (.taskDelete _) | .call (.delayQDelay _)
  | .call (.semBInit _) | .call (.semBTake ..) | .call (.semBGive _) | .call (.semBFlush _)
  | .call (.semBDelete _) | .call (.semCInit ..) | .call (.semCTake ..) | .call (.semCGive _)
  | .call (.semCFlush _) | .call (.semCDelete _) | .call (.semMInit _) | .call (.semMTake ..)
  | .call (.msgQInit ..) | .call (.msgQSend ..) | .call (.msgQReceive ..) | .call (.msgQDelete _)
  | .resume | .go | .tick | .exit | .boot _ | .load => isTrue trivial

instance (k : Kernel) : (a : Act) → Decidable (a.KeepsCount k)
  | .call (.semMTake m _) => inferInstanceAs
      (Decidable ((k.semM m).ownerTcb = k.curTcb → (k.semM m).takeCount ≠ uint32Max))
  | .call (.semMGive m) =>
    inferInstanceAs (Decidable ((k.semM m).takeCount = 1 → k.ts.members (.semM m) = []))
  | .call (.taskCreate ..) | .call (.taskDelete _) | .call (.delayQDelay _)
  | .call (.semBInit _) | .call (.semBTake ..) | .call (.semBGive _) | .call (.semBFlush _)
  | .call (.semBDelete _) | .call (.semCInit ..) | .call (.semCTake ..) | .call (.semCGive _)
  | .call (.semCFlush _) | .call (.semCDelete _) | .call (.semMInit _)
  | .call (.msgQInit ..) | .call (.msgQSend ..) | .call (.msgQReceive ..) | .call (.msgQDelete _)
  | .resume | .go | .tick | .exit | .boot _ | .load => isTrue trivial

def Act.takes (m : ObjPtr) : Act → Bool
  | .call (.semMTake m' _) => m' = m
  | _ => false

def Act.gives (m : ObjPtr) : Act → Bool
  | .call (.semMGive m') => m' = m
  | _ => false

/-- The takes of the owner of each mutex that are not given back, after a step. -/
def heldAfter (k : Kernel) (e : Event) (k' : Kernel) (held : ObjPtr → ℕ) (m : ObjPtr) : ℕ :=
  if (k'.semM m).ownerTcb = none then 0
  else if (k'.semM m).ownerTcb ≠ (k.semM m).ownerTcb then 1
  else if (k.semM m).ownerTcb = k.curTcb ∧ e.act.takes m then held m + 1
  else if (k.semM m).ownerTcb = k.curTcb ∧ e.act.gives m then held m - 1
  else held m

def countedSystem : System (Kernel × (ObjPtr → ℕ)) Event := system.withGhost (fun _ => 0) heldAfter

structure CountOk (k : Kernel) (held : ObjPtr → ℕ) (m : ObjPtr) : Prop where
  free : (k.semM m).ownerTcb = none ↔ (k.semM m).takeCount = 0
  count : (k.semM m).takeCount = held m

variable {k k' : Kernel} {e : Event} {held : ObjPtr → ℕ} {m : ObjPtr}

theorem Act.uses_of_takes {a : Act} (h : a.takes m = true) : a.Uses m := by
  cases a with
  | call c => cases c <;> simp_all [takes, Uses]
  | _ => exact absurd h (by simp [takes])

theorem Act.uses_of_gives {a : Act} (h : a.gives m = true) : a.Uses m := by
  cases a with
  | call c => cases c <;> simp_all [gives, Uses]
  | _ => exact absurd h (by simp [gives])

theorem heldAfter_free (ho : (k'.semM m).ownerTcb = none) : heldAfter k e k' held m = 0 :=
  if_pos ho

theorem heldAfter_same (ho : (k'.semM m).ownerTcb = (k.semM m).ownerTcb)
    (hown : (k.semM m).ownerTcb ≠ none)
    (huse : e.act.Uses m → (k.semM m).ownerTcb ≠ k.curTcb) : heldAfter k e k' held m = held m := by
  have htake : ¬ ((k.semM m).ownerTcb = k.curTcb ∧ e.act.takes m = true) := fun hc =>
    huse (Act.uses_of_takes hc.2) hc.1
  have hgive : ¬ ((k.semM m).ownerTcb = k.curTcb ∧ e.act.gives m = true) := fun hc =>
    huse (Act.uses_of_gives hc.2) hc.1
  rw [heldAfter, if_neg (by rwa [ho]), if_neg (not_not.mpr ho), if_neg htake, if_neg hgive]

theorem CountOk.step (h : CountOk k held m) (ht : k.Turn e.act m (k'.semM m))
    (hown : e.act.ByOwner k) (hkeep : e.act.KeepsCount k) :
    CountOk k' (heldAfter k e k' held) m := by
  cases ht with
  | same ho hc huse =>
    refine ⟨by rw [ho, hc]; exact h.free, ?_⟩
    by_cases hnone : (k.semM m).ownerTcb = none
    · rw [heldAfter_free (ho.trans hnone), hc]
      exact h.free.mp hnone
    · rw [heldAfter_same ho hnone huse, hc, h.count]
  | acquired hcur hnone ho hc =>
    refine ⟨by rw [ho, hc]; simp, ?_⟩
    rw [heldAfter, ho, hc, hnone]
    simp
  | @nested timeout hact hne hcur ho hc =>
    rw [hact] at hkeep
    have hmax : (k.semM m).takeCount ≠ uint32Max := hkeep hcur
    have hinc : inc32 (k.semM m).takeCount = (k.semM m).takeCount + 1 := if_neg hmax
    have hnone : (k'.semM m).ownerTcb ≠ none := by rwa [ho]
    have htakes : e.act.takes m = true := by rw [hact]; exact decide_eq_true rfl
    refine ⟨iff_of_false hnone (by rw [hc, hinc]; omega), ?_⟩
    rw [heldAfter, if_neg hnone, if_neg (not_not.mpr ho), if_pos ⟨hcur, htakes⟩, hc, hinc, h.count]
  | counted hact hsome hd ho hc =>
    rw [hact] at hown
    have hcur : (k.semM m).ownerTcb = k.curTcb := hown
    have htakes : ¬ ((k.semM m).ownerTcb = k.curTcb ∧ e.act.takes m = true) := by
      rw [hact]
      simp [Act.takes]
    have hgives : e.act.gives m = true := by rw [hact]; exact decide_eq_true rfl
    have hnone : (k.semM m).ownerTcb ≠ none := by rwa [hcur]
    have hpos : (k.semM m).takeCount ≠ 0 := fun hz => hnone (h.free.mpr hz)
    have hdec : dec32 (k.semM m).takeCount = (k.semM m).takeCount - 1 := if_neg hpos
    refine ⟨iff_of_false (by rwa [ho]) (by rwa [hc]), ?_⟩
    rw [heldAfter, if_neg (by rwa [ho]), if_neg (not_not.mpr ho), if_neg htakes,
      if_pos ⟨hcur, hgives⟩, hc, hdec, h.count]
  | given hact _ hd ho hc =>
    rw [hact] at hkeep
    have hone : (k.semM m).takeCount = 1 := by
      by_cases hz : (k.semM m).takeCount = 0
      · rw [hz] at hd
        exact absurd hd (by decide)
      · rw [dec32, if_neg hz] at hd
        omega
    have hnil : k.ts.members (.semM m) = [] := hkeep hone
    rw [hnil] at ho
    exact ⟨iff_of_true ho hc, by rw [heldAfter_free ho, hc]⟩
  | freed _ _ ho hc => exact ⟨iff_of_true ho hc, by rw [heldAfter_free ho, hc]⟩

/-- A safe step that keeps the counts, the gives made by owners. -/
def CountsTakes (k : Kernel) (e : Event) : Prop :=
  Safe k e ∧ e.act.ByOwner k ∧ e.act.KeepsCount k

theorem countOk_reachable
    (h : Reachable countedSystem (fun s e => CountsTakes s.1 e) (k, held)) (m : ObjPtr) :
    CountOk k held m := by
  have hknown : ∀ s, Reachable countedSystem (fun s e => CountsTakes s.1 e) s → s.1.Inv :=
    fun s hs => reachable_inv (hs.of_ghost.mono fun _ _ hok => hok.1)
  have hinit : ∀ s, countedSystem.init s → CountOk s.1 s.2 m := by
    rintro s ⟨hinit, hzero⟩
    have hsem : s.1.semM m = ⟨none, 0, 0⟩ := by rw [Kernel.init_eq hinit, Kernel.initial_semM]
    rw [hzero]
    exact ⟨by simp [hsem], by rw [hsem]⟩
  have hstep : ∀ s e s', s.1.Inv → s'.1.Inv → CountOk s.1 s.2 m → CountsTakes s.1 e →
      countedSystem.step s e s' → CountOk s'.1 s'.2 m := by
    rintro s e s' hinv - hok ⟨hsafe, hown, hkeep⟩ ⟨hs, hheld⟩
    obtain ⟨r, heff, hk', -⟩ := (Kernel.exec_sound hinv hs.1 hsafe hs.2).1
    have hsem : s'.1.semM = r.1.semM := by rw [hk']
    have hturn := heff.turn hinv.toCore m
    rw [← hsem] at hturn
    rw [hheld]
    exact hok.step hturn hown hkeep
  exact h.invariant_rel hknown hinit hstep

/-- In a run that hands no mutex over and wraps no count: `take_count` counts the takes of the
owner, and his outermost give passes the mutex to the first waiter or sets it free. -/
theorem mutex_counting (h : Reachable countedSystem (fun s e => CountsTakes s.1 e) (k, held))
    (m : ObjPtr) :
    ((k.semM m).ownerTcb = none ↔ (k.semM m).takeCount = 0) ∧ (k.semM m).takeCount = held m ∧
    ∀ e k', system.step k e k' → e.act = .call (.semMGive m) → (k.semM m).ownerTcb = k.curTcb →
      held m = 1 → (k'.semM m).ownerTcb = (k.ts.members (.semM m)).head? ∧
        ((k'.semM m).ownerTcb = none → ∀ t timeout, ∃ k'', k'.semMTake t m timeout =
          some (k'', .ret (.status .ok)) ∧ (k''.semM m).ownerTcb = some t) := by
  have hok := countOk_reachable h m
  have hinv := reachable_inv (h.of_ghost.mono fun _ _ hok => hok.1)
  refine ⟨hok.free, hok.count, fun e k' hs hact hown hheld => ⟨?_, fun hfree t timeout => ?_⟩⟩
  · have hsafe : Safe k e := by
      rw [Safe, hact]
      exact True.intro
    obtain ⟨r, heff, hk', -⟩ := (Kernel.exec_sound hinv hs.1 hsafe hs.2).1
    have hsem : k'.semM = r.1.semM := by rw [hk']
    have hone : dec32 (k.semM m).takeCount = 0 := by rw [hok.count, hheld]; rfl
    rw [hsem]
    cases heff.turn hinv.toCore m with
    | same _ _ huse => exact absurd hown (huse (by rw [hact]; rfl))
    | acquired hcur hnone _ _ => rw [hown, hcur] at hnone; exact absurd hnone (by simp)
    | nested htake _ _ _ _ => rw [hact] at htake; exact absurd htake (by simp)
    | counted _ _ hd _ _ => exact absurd hone hd
    | given _ _ _ ho _ => exact ho
    | freed _ hnil ho _ => rw [ho, hnil]; rfl
  · refine ⟨_, by rw [Kernel.semMTake, if_pos hfree], ?_⟩
    simp [Kernel.setSemM]

theorem mutex_counting_nested : ∃ k held, Reachable countedSystem (fun s e => CountsTakes s.1 e)
    (k, held) ∧ (k.semM 0).ownerTcb = some 1 ∧ (k.semM 0).takeCount = 2 ∧ held 0 = 2 := by
  obtain ⟨⟨es, k⟩, hk, hfact⟩ := Option.map_eq_some_iff.mp (show
    (replay (fun k e => e.act.isPlain && decide (e.act.ByOwner k ∧ e.act.KeepsCount k)) .initial
      [.boot (.semMInit 0), .boot (.taskCreate 1024 2), .load, .call (.semMTake 0 0),
        .call (.semMTake 0 0), .call (.semMTake 0 0), .call (.semMGive 0)]).map
      (fun s => s.2.semM 0) = some ⟨some 1, 2, 255⟩ by decide)
  have hreach : Reachable system CountsTakes k := by
    refine replay_reachable (fun k e he => ?_) hk
    obtain ⟨hplain, hcounts⟩ := Bool.and_eq_true_iff.mp he
    exact ⟨Act.safe_of_isPlain hplain, of_decide_eq_true hcounts⟩
  obtain ⟨held, hcounted⟩ : ∃ held, Reachable countedSystem (fun s e => CountsTakes s.1 e)
      (k, held) := hreach.exists_ghost
  obtain ⟨-, hcount, -⟩ := mutex_counting hcounted 0
  rw [hfact] at hcount
  exact ⟨k, held, hcounted, by rw [hfact], by rw [hfact], hcount.symm⟩

/-- Task 1 gives the mutex to the waiting task 2, which then owns it with no take counted. -/
theorem handedOver_uncounted : ∃ k, Reachable system (fun k e => Safe k e ∧ e.act.ByOwner k) k ∧
    0 ∈ k.semMList ∧ (k.semM 0).ownerTcb = some 2 ∧ (k.semM 0).takeCount = 0 := by
  obtain ⟨⟨es, k⟩, hk, hfact⟩ := Option.map_eq_some_iff.mp (show
    (replay (fun k e => e.act.isPlain && decide (e.act.ByOwner k)) .initial
      [.boot (.semMInit 0), .boot (.taskCreate 1024 3), .boot (.taskCreate 1024 2), .load,
        .call (.delayQDelay 1), .call (.semMTake 0 0), .tick, .resume, .call (.semMTake 0 5),
        .call (.semMGive 0)]).map (fun s => (s.2.semMList, s.2.semM 0)) =
      some ([0], ⟨some 2, 0, 255⟩) by decide +kernel)
  obtain ⟨hlist, hsem⟩ := Prod.mk.inj hfact
  refine ⟨k, replay_reachable (fun k e he => ?_) hk, by rw [hlist]; simp, by rw [hsem], by rw [hsem]⟩
  obtain ⟨hplain, hown⟩ := Bool.and_eq_true_iff.mp he
  exact ⟨Act.safe_of_isPlain hplain, of_decide_eq_true hown⟩

end DfewOS
