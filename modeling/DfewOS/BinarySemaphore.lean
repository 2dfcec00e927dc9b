import DfewOS.Waiting

/-!
# Wake-ups of a binary semaphore

`semB_give` clears the owner and pops one task, which takes the semaphore when
it runs unless somebody was faster. As long as one of the popped tasks is left,
the free semaphore is asked for. `task_delete` takes no notice of the wake-up a
ready task carries.
-/

namespace DfewOS
open Transition (Run Reachable System)

def gaveB (s : ObjPtr) : Option (Call × Result) → Bool
  | some (.semBGive s', .status .ok) => s' = s
  | _ => false

def tookB (s : ObjPtr) : Option (Call × Result) → Bool
  | some (.semBTake s' _, .status .ok) => s' = s
  | _ => false

/-- The semaphore `s` is neither flushed nor deleted. -/
def Event.KeepsSemB (s : ObjPtr) (e : Event) : Prop :=
  e.act ≠ .call (.semBFlush s) ∧ e.act ≠ .call (.semBDelete s) ∧
    ∀ d ∈ e.done, d.1 ≠ .semBDelete s

instance (s : ObjPtr) (e : Event) : Decidable (e.KeepsSemB s) :=
  inferInstanceAs (Decidable (_ ∧ _ ∧ ∀ d ∈ e.done, d.1 ≠ .semBDelete s))

/-- What the call `c` does to the semaphore `s` in the section `r`. -/
inductive OwnerEffect (s : ObjPtr) (k : Kernel) (c : Call) (r : Kernel × Outcome) : Prop
  | take {timeout : ℕ} {t : TcbPtr} : c = .semBTake s timeout → (k.semB s).ownerTcb = none →
      r.2 = .ret (.status .ok) → (r.1.semB s).ownerTcb = some t → OwnerEffect s k c r
  | give : c = .semBGive s → r.2 = .ret (.status .ok) → (r.1.semB s).ownerTcb = none →
      r.1.ts = k.ts.wakeFirst (.semB s) → OwnerEffect s k c r
  | idle : r.1.semB s = k.semB s → gaveB s (r.2.result.map fun x => (c, x)) = false →
      tookB s (r.2.result.map fun x => (c, x)) = false → OwnerEffect s k c r

inductive OwnerStep (s : ObjPtr) (k : Kernel) (a : Act) (d : Option (Call × Result)) (k' : Kernel) :
    Prop
  | take {t : TcbPtr} : (k.semB s).ownerTcb = none → gaveB s d = false → tookB s d = true →
      (k'.semB s).ownerTcb = some t → OwnerStep s k a d k'
  | give : a = .call (.semBGive s) → gaveB s d = true → tookB s d = false →
      (k'.semB s).ownerTcb = none → k'.ts = k.ts.wakeFirst (.semB s) → OwnerStep s k a d k'
  | idle : k'.semB s = k.semB s → gaveB s d = false → tookB s d = false → OwnerStep s k a d k'

namespace Kernel

variable {k k' : Kernel} {cur t : TcbPtr} {s : ObjPtr} {a : Act} {c : Call} {r : Kernel × Outcome}
  {d : Option (Call × Result)}

theorem OwnerEffect.other (hv : r.1.semB s = k.semB s)
    (hgive : c ≠ .semBGive s) (htake : ∀ timeout, c ≠ .semBTake s timeout) :
    OwnerEffect s k c r := by
  refine .idle hv ?_ ?_
  · cases r.2.result with
    | none => rfl
    | some x =>
      cases c
      case semBGive s' =>
        have hne : s' ≠ s := fun he => hgive (by rw [he])
        cases x with
        | status y => cases y <;> simp [gaveB, hne]
        | _ => rfl
      all_goals rfl
  · cases r.2.result with
    | none => rfl
    | some x =>
      cases c
      case semBTake s' timeout =>
        have hne : s' ≠ s := fun he => htake timeout (by rw [he])
        cases x with
        | status y => cases y <;> simp [tookB, hne]
        | _ => rfl
      all_goals rfl

theorem semBTake_owner (timeout₀ timeout : ℕ) {s' : ObjPtr} (h : k.semBTake cur s' timeout = r) :
    OwnerEffect s k (.semBTake s' timeout₀) r ∧ r.1.semBList = k.semBList := by
  by_cases hs : s' = s
  · subst hs
    simp only [semBTake] at h
    split_ifs at h with hc ht
    · rw [← h]
      exact ⟨.take (t := cur) rfl hc rfl (by simp [setSemB]), rfl⟩
    · rw [← h]
      exact ⟨.idle rfl rfl rfl, rfl⟩
    · rw [← h]
      exact ⟨.idle rfl rfl rfl, rfl⟩
  · simp only [semBTake] at h
    split_ifs at h <;> rw [← h]
    · refine ⟨OwnerEffect.other ?_ (by simp) fun t => ?_, rfl⟩
      · simp [setSemB, Ne.symm hs]
      · simp [hs]
    · exact ⟨.idle rfl rfl rfl, rfl⟩
    · exact ⟨.idle rfl rfl rfl, rfl⟩

theorem semBGive_owner {s' : ObjPtr} (h : k.semBGive s' = r) :
    OwnerEffect s k (.semBGive s') r ∧ r.1.semBList = k.semBList := by
  by_cases hs : s' = s
  · subst hs
    rw [← h]
    exact ⟨.give rfl rfl (by simp [semBGive, setSemB]) rfl, rfl⟩
  · rw [← h]
    refine ⟨OwnerEffect.other ?_ (by simp [hs]) (by simp), rfl⟩
    simp [semBGive, setSemB, Ne.symm hs]

theorem ownerEffect_congr (hc : ¬ c.OnSemB) (hlist : s ∈ k.semBList)
    (h : r.1.semB = k.semB ∧ r.1.semBList = k.semBList) :
    OwnerEffect s k c r ∧ s ∈ r.1.semBList := by
  refine ⟨OwnerEffect.other (by rw [h.1]) ?_ ?_, by rw [h.2]; exact hlist⟩
  · rintro rfl
    exact hc trivial
  · rintro timeout rfl
    exact hc trivial

theorem enter_owner (hlist : s ∈ k.semBList) (hok : k.callOk c) (hflush : c ≠ .semBFlush s)
    (hdel : c ≠ .semBDelete s) (he : k.enter cur c = some r) :
    OwnerEffect s k c r ∧ s ∈ r.1.semBList := by
  by_cases hc : c.OnSemB
  · cases c <;> simp only [Call.OnSemB] at hc <;> simp only [enter, Option.some.injEq] at he
    case semBInit s' =>
      have hne : s ≠ s' := by
        rintro rfl
        exact hok.2.1.1 hlist
      rw [← he]
      exact ⟨OwnerEffect.other (by simp [semBInit, setSemB, hne]) (by simp) (by simp),
        List.mem_append_left _ hlist⟩
    case semBTake s' timeout =>
      obtain ⟨howner, hl⟩ := semBTake_owner (s := s) timeout timeout he
      exact ⟨howner, by rw [hl]; exact hlist⟩
    case semBGive s' =>
      obtain ⟨howner, hl⟩ := semBGive_owner (s := s) he
      exact ⟨howner, by rw [hl]; exact hlist⟩
    case semBFlush s' =>
      have hne : s ≠ s' := by
        rintro rfl
        exact hflush rfl
      obtain ⟨ts, -, hk⟩ := Option.map_eq_some_iff.mp (flush_some he).1
      refine ⟨OwnerEffect.other ?_ (by simp) (by simp), by rw [← hk]; exact hlist⟩
      rw [← hk]
      exact Function.update_of_ne hne ..
    case semBDelete s' =>
      have hne : s ≠ s' := by
        rintro rfl
        exact hdel rfl
      obtain ⟨ts, -, hk⟩ := Option.map_eq_some_iff.mp (flush_some he).1
      refine ⟨OwnerEffect.other ?_ (by simp) (by simp), by rw [← hk]; exact hlist⟩
      rw [← hk]
      exact Function.update_of_ne hne ..
  · exact ownerEffect_congr hc hlist (enter_sameSemB hc he)

theorem resume_owner (hlist : s ∈ k.semBList) (he : k.resume cur c = some r) :
    OwnerEffect s k c r ∧ s ∈ r.1.semBList := by
  rcases resume_cases he with ⟨hretry, -, hent⟩ | ⟨-, -, rfl⟩ | ⟨-, ho, ts, x, rfl⟩
  · by_cases hc : c.OnSemB
    · cases c <;> simp only [Call.OnSemB] at hc <;> simp only [Call.Retries] at hretry
      case semBTake s' timeout =>
        obtain ⟨howner, hl⟩ := semBTake_owner (s := s) timeout _ (Option.some.inj hent)
        exact ⟨howner, by rw [hl]; exact hlist⟩
    · have hc' : ¬ (c.retry (k.ts.tcb cur).delayTicks).OnSemB := by
        cases c <;> exact hc
      exact ownerEffect_congr hc hlist (enter_sameSemB hc' hent)
  · refine ⟨.idle rfl ?_ ?_, hlist⟩
    · cases c <;> rfl
    · cases c <;> rfl
  · refine ownerEffect_congr (fun hc => ho ?_) hlist ⟨rfl, rfl⟩
    cases c <;> first | exact hc.elim | trivial

theorem go_owner {x : Rest} (hlist : s ∈ k.semBList) (hx : x.Of c)
    (hdel : ∀ d ∈ (k.go x).2.result.map fun y => (c, y), d.1 ≠ .semBDelete s) :
    OwnerEffect s k c (k.go x) ∧ s ∈ (k.go x).1.semBList := by
  cases c <;> simp only [Rest.Of] at hx
  case taskCreate => exact ownerEffect_congr (fun hc => hc) hlist (k.go_objects hx).1
  case semCDelete s' =>
    rw [hx]
    exact ownerEffect_congr (fun hc => hc) hlist ⟨rfl, rfl⟩
  case semBDelete s' =>
    rw [hx] at hdel ⊢
    have hne : s' ≠ s := fun he => hdel _ rfl (by rw [he])
    exact ⟨OwnerEffect.other rfl (by simp) (by simp), (List.mem_erase_of_ne hne.symm).mpr hlist⟩

theorem ActsOn.givesB (hof : UnlockedOf k) (h : ActsOn k a (.semBGive s) r) :
    a = .call (.semBGive s) := by
  rcases h with ⟨cur, hcur, hsec⟩ | ⟨-, -, x, -, hb⟩
  · generalize hc : Call.semBGive s = c at hsec
    cases hsec with
    | call => rfl
    | resume _ hres =>
      rw [← hc] at hres
      exact absurd hres (by simp [resume])
    | go hpc =>
      rw [← hc] at hpc
      exact (hof _ _ _ hpc).elim
  · exact absurd hb (by simp [bootCall])

theorem exec_owner (hof : UnlockedOf k) (hlist : s ∈ k.semBList) (hdef : k.defined a)
    (hkeep : Event.KeepsSemB s ⟨a, d⟩) (he : k.exec a = some (k', d)) :
    s ∈ k'.semBList ∧ OwnerStep s k a d k' := by
  rcases exec_objects hof he with ⟨⟨k₁, hsame, hk'⟩, hd⟩ | ⟨c, r, hc, hacts, hk', hd⟩
  · have hsem : k'.semB = k.semB ∧ k'.semBList = k.semBList := by
      rw [hk']
      exact hsame.1
    refine ⟨by rw [hsem.2]; exact hlist, .idle (by rw [hsem.1]) ?_ ?_⟩
    · cases d with
      | none => rfl
      | some x =>
        obtain ⟨c, x⟩ := x
        have hno := hd c x rfl
        cases c <;> first | rfl | exact absurd trivial hno
    · cases d with
      | none => rfl
      | some x =>
        obtain ⟨c, x⟩ := x
        have hno := hd c x rfl
        cases c <;> first | rfl | exact absurd trivial hno
  · obtain ⟨hflush, hdel, hdone⟩ := hkeep
    have heff : OwnerEffect s k c r ∧ s ∈ r.1.semBList := by
      rcases hacts with ⟨cur, hcur, hsec⟩ | ⟨hcur, rfl, x, ho, hb⟩
      · cases hsec with
        | call _ hent =>
          refine enter_owner hlist hdef.2 ?_ ?_ hent
          · exact fun hc => hflush (by rw [hc])
          · exact fun hc => hdel (by rw [hc])
        | resume _ hres => exact resume_owner hlist hres
        | go hpc =>
          refine go_owner hlist (hof _ _ _ hpc) ?_
          rw [← hd]
          exact hdone
      · have hent := bootCall_enter hc hb
        obtain ⟨k₁, o⟩ := r
        obtain rfl : o = .ret x := ho
        refine enter_owner hlist hdef ?_ ?_ hent
        · rintro rfl
          exact absurd hb (by simp [bootCall])
        · rintro rfl
          exact absurd hb (by simp [bootCall])
    obtain ⟨howner, hlist'⟩ := heff
    refine ⟨by rw [hk']; exact hlist', ?_⟩
    have hsem : k'.semB s = r.1.semB s := by rw [hk']
    cases howner with
    | take hc hfree ho hv =>
      rw [ho, hc] at hd
      refine .take hfree (by rw [hd]; rfl) ?_ (by rw [hsem, hv])
      rw [hd]
      simp [Outcome.result, tookB]
    | give hc ho hv hts =>
      subst hc
      rw [ho] at hd
      refine .give (hacts.givesB hof) ?_ (by rw [hd]; rfl) (by rw [hsem, hv]) (by rw [hk', ← hts])
      rw [hd]
      simp [Outcome.result, gaveB]
    | idle hv hg ht => exact .idle (by rw [hsem, hv]) (by rw [hd, hg]) (by rw [hd, ht])

theorem runs_joins_semB (h : Runs k t c r a) (ho : r.2 = .switch)
    (hc : c.waitList = some (.semB s)) : (k.semB s).ownerTcb ≠ none := by
  have htake : ∀ {timeout : ℕ}, k.semBTake t s timeout = r → (k.semB s).ownerTcb ≠ none := by
    intro timeout h
    rw [semBTake] at h
    split_ifs at h with hz
    · rw [← h] at ho
      exact absurd ho (by simp)
    · exact hz
    · rw [← h] at ho
      exact absurd ho (by simp)
  cases c <;> simp only [Call.waitList, Option.some.injEq, reduceCtorEq] at hc
  case semBTake s' timeout =>
    obtain rfl := QueueId.semB.inj hc
    cases h with
    | enter _ he => exact htake (Option.some.inj he)
    | resume _ he =>
      rcases resume_cases he with ⟨-, -, hent⟩ | ⟨-, -, rfl⟩ | ⟨hno, -⟩
      · exact htake (Option.some.inj hent)
      · exact absurd ho (by simp)
      · exact absurd trivial hno

end Kernel

/-- The successful takes since the last give of a semaphore, and the tasks popped by `semB_give`
that have not tested `owner_tcb` again. -/
structure GiveLog where
  takes : ℕ
  woken : Finset TcbPtr

def GiveLog.after (s : ObjPtr) (k : Kernel) (e : Event) (_ : Kernel) (g : GiveLog) : GiveLog where
  takes := if gaveB s e.done then 0 else g.takes + (tookB s e.done).toNat
  woken := wokenAfter (.semB s) (gaveB s e.done) k e g.woken

def giveSystem (s : ObjPtr) : System (Kernel × GiveLog) Event :=
  system.withGhost ⟨0, ∅⟩ (GiveLog.after s)

/-- While `s` is free and somebody waits for it, a live task popped from its list is ready and
goes on with its `semB_take`. -/
def Asked (s : ObjPtr) (k : Kernel) (g : GiveLog) : Prop :=
  (k.semB s).ownerTcb = none → k.ts.members (.semB s) ≠ [] →
    ∃ t ∈ g.woken, ∃ timeout, Woken k (.semBTake s timeout) t

/-- A deleted task is not the last one on its way to `s` while others wait for the free `s`. -/
def KeepsWakeup (s : ObjPtr) (k : Kernel) (g : GiveLog) (e : Event) : Prop :=
  ∀ t, e.act = .call (.taskDelete t) → (k.semB s).ownerTcb = none →
    (k.ts.members (.semB s)).erase t ≠ [] → ∃ u ∈ g.woken, u ≠ t

structure OnceOk (s : ObjPtr) (k : Kernel) (g : GiveLog) : Prop where
  listed : s ∈ k.semBList
  once : g.takes ≤ 1
  free : (k.semB s).ownerTcb = none → g.takes = 0
  woken : AllWoken k (.semB s) g.woken

variable {s : ObjPtr} {k k' : Kernel} {g : GiveLog} {e : Event}

theorem semBInit_done {k₀ : Kernel} (h₀ : Reachable system Safe k₀) (hs : system.step k₀ e k)
    (hdone : e.done = some (.semBInit s, .obj (some s))) :
    Safe k₀ e ∧ s ∈ k.semBList ∧ k.ts.members (.semB s) = [] := by
  have hinv := reachable_inv h₀
  have hexec := hs.2
  rw [hdone] at hexec
  obtain ⟨hact, hok, cur, r, hent, ho, hk⟩ := exec_init (c := .semBInit s)
    (unlocked_of h₀) hs.1 trivial (fun _ => rfl) (fun _ hf => hf) hexec
  have hr : k₀.semBInit s = r := Option.some.inj hent
  refine ⟨?_, ?_, ?_⟩
  · rcases hact with ha | ha <;> rw [Safe, ha] <;> exact True.intro
  · rw [hk, ← hr]
    exact List.mem_append_right _ List.mem_cons_self
  · have hmem : k.ts.members = k₀.ts.members := by
      rw [hk, ← hr]
      exact Kernel.members_of_linked (hinv.linked.dlistInit hok.2.1.2)
    rw [hmem]
    exact hok.2.1.2

theorem AllWoken.semBTake {woken : Finset TcbPtr} {t : TcbPtr} (h : AllWoken k (.semB s) woken)
    (ht : t ∈ woken) : ∃ timeout, Woken k (.semBTake s timeout) t := by
  obtain ⟨c, hw, hc⟩ := h t ht
  cases c <;> simp only [Call.waitList, Option.some.injEq, reduceCtorEq] at hc
  obtain rfl := QueueId.semB.inj hc
  exact ⟨_, hw⟩

theorem Woken.takes {t : TcbPtr} {timeout : ℕ} (h : Woken k (.semBTake s timeout) t)
    (hs : system.step k e k') (hcur : k.curTcb = some t) (hfree : (k.semB s).ownerTcb = none) :
    e.done = some (.semBTake s timeout, .status .ok) := by
  obtain ⟨r, hent, hdone⟩ := h.retries trivial hs hcur
  have hr : k.semBTake t s (k.ts.tcb t).delayTicks = r := Option.some.inj hent
  apply hdone
  rw [← hr, Kernel.semBTake, if_pos hfree]

theorem OnceOk.step (h : OnceOk s k g) (hreach : Reachable system Safe k) (hsafe : Safe k e)
    (hkeep : e.KeepsSemB s) (hs : system.step k e k') : OnceOk s k' (g.after s k e k') := by
  have hinv := reachable_inv hreach
  have hready : ¬ (QueueId.semB s).IsReady := fun hr => hr
  obtain ⟨hlist, hstep⟩ := Kernel.exec_owner (unlocked_of hreach) h.listed hs.1 hkeep hs.2
  have hwoken : AllWoken k' (.semB s) (g.after s k e k').woken := by
    refine h.woken.step hinv (reachable_parked hreach) hsafe hs hready fun hg => ?_
    cases hstep with
    | take _ hno => rw [hno] at hg; exact absurd hg (by decide)
    | give _ _ _ _ hts => exact hts
    | idle _ hno => rw [hno] at hg; exact absurd hg (by decide)
  cases hstep with
  | take hfree hgave htook hv =>
    have htakes : (g.after s k e k').takes = 1 := by simp [GiveLog.after, hgave, htook, h.free hfree]
    refine ⟨hlist, by rw [htakes], fun hno => ?_, hwoken⟩
    rw [hv] at hno
    exact absurd hno (by simp)
  | give _ hgave _ _ _ =>
    have htakes : (g.after s k e k').takes = 0 := by simp [GiveLog.after, hgave]
    exact ⟨hlist, by rw [htakes]; exact Nat.zero_le 1, fun _ => htakes, hwoken⟩
  | idle hv hgave htook =>
    have htakes : (g.after s k e k').takes = g.takes := by simp [GiveLog.after, hgave, htook]
    exact ⟨hlist, by rw [htakes]; exact h.once, fun hno => by rw [htakes]; exact h.free (hv ▸ hno),
      hwoken⟩

def freeUnits (k : Kernel) (s : ObjPtr) : ℕ := if (k.semB s).ownerTcb = none then 1 else 0

theorem asked_iff (h : AllWoken k (.semB s) g.woken) :
    Asked s k g ↔ Covered k (.semB s) (freeUnits k s) g.woken := by
  constructor
  · intro hasked hne
    rw [freeUnits]
    split_ifs with hfree
    · obtain ⟨t, ht, -⟩ := hasked hfree hne
      exact Finset.card_pos.mpr ⟨t, ht⟩
    · exact Nat.zero_le _
  · intro hcovered hfree hne
    have hcard := hcovered hne
    rw [freeUnits, if_pos hfree] at hcard
    obtain ⟨t, ht⟩ := Finset.card_pos.mp hcard
    exact ⟨t, ht, h.semBTake ht⟩

theorem exec_taskDelete {t : TcbPtr} (hinv : k.Inv) (hsafe : Safe k e) (hs : system.step k e k')
    (ha : e.act = .call (.taskDelete t)) :
    k'.ts.members (.semB s) = (k.ts.members (.semB s)).erase t ∧ k'.semB = k.semB := by
  obtain ⟨hdef, hexec⟩ := hs
  rw [Safe, ha] at hsafe
  rw [ha] at hdef hexec
  obtain ⟨k₁, hrun, hterm⟩ := Kernel.taskDelete_terminates hinv.toCore hdef.2.2.2.1 hsafe.2
  rcases Kernel.exec_cases hexec with ⟨cur, c, r, -, hsec, hf⟩ | ⟨_, _, -, hno, -⟩ |
    ⟨_, -, hno, -⟩ | ⟨_, _, -, hno, -⟩ | ⟨-, hno, -⟩
  · cases hsec with
    | call _ hent =>
      obtain rfl : (k₁, .ret (.status .ok)) = r := Option.some.inj (hrun.symm.trans hent)
      rcases Kernel.finish_cases hf with ⟨-, hk', -⟩ | ⟨ho, -, -⟩
      · have hsem : k₁.semB = k.semB := by rw [hterm.fields]
        rw [hk']
        exact ⟨hterm.lists _ fun hr => hr, hsem⟩
      · exact absurd ho (by simp)
  all_goals exact absurd hno (by simp)

/-- One step keeps the free semaphore asked for if and only if it is none of the deletions. -/
theorem Asked.step (h : Asked s k g) (hok : OnceOk s k g) (hreach : Reachable system Safe k)
    (hsafe : Safe k e) (hkeep : e.KeepsSemB s) (hs : system.step k e k') :
    Asked s k' (g.after s k e k') ↔ KeepsWakeup s k g e := by
  have hinv := reachable_inv hreach
  have hinv' := (Kernel.exec_sound hinv hs.1 hsafe hs.2).2
  have hready : ¬ (QueueId.semB s).IsReady := fun hr => hr
  have hok' := hok.step hreach hsafe hkeep hs
  have hbefore := waiters_before hinv hinv' hsafe hs hready
  have hstep := (Kernel.exec_owner (unlocked_of hreach) hok.listed hs.1 hkeep hs.2).2
  have hcovered := (asked_iff hok.woken).mp h
  constructor
  · intro hasked t ha hfree hne
    obtain ⟨hmem, hsem⟩ := exec_taskDelete (s := s) hinv hsafe hs ha
    obtain ⟨u, hu, -⟩ := hasked (by rw [hsem]; exact hfree) (by rw [hmem]; exact hne)
    have hgave : gaveB s e.done = false := by
      cases hstep with
      | take _ hno => exact hno
      | give hact => rw [ha] at hact; exact absurd hact (by simp)
      | idle _ hno => exact hno
    have hleft : u ∈ g.woken \ {t} := by
      simpa [GiveLog.after, wokenAfter, hgave, leaving, ha] using hu
    obtain ⟨hin, hnot⟩ := Finset.mem_sdiff.mp hleft
    exact ⟨u, hin, fun heq => hnot (by rw [heq]; exact Finset.mem_singleton_self t)⟩
  · intro hdel
    rw [asked_iff hok'.woken]
    cases hstep with
    | take hfree hgave _ hv =>
      have hunits : freeUnits k' s = 0 := by rw [freeUnits, hv, if_neg (by simp)]
      intro _
      rw [hunits]
      exact Nat.zero_le _
    | give hact hgave _ hv hts =>
      have hunits : freeUnits k' s ≤ freeUnits k s + 1 := by
        rw [freeUnits]
        rw [if_pos hv]
        exact Nat.le_add_left 1 _
      rw [GiveLog.after, hgave]
      refine hcovered.give hok.woken hinv hready (by rw [leaving, hact]) ?_ hunits
      refine fun hne => (hbefore hne).resolve_right ?_
      rintro ⟨t, c, r, hruns, -, hc⟩
      exact hruns.act_ne hc rfl hact
    | idle hv hgave htook =>
      have hunits : freeUnits k' s = freeUnits k s := by rw [freeUnits, hv, freeUnits]
      rw [GiveLog.after, hgave, hunits]
      refine hcovered.idle (fun hne => (hbefore hne).imp_right ?_) fun t ht hl hne => ?_
      · rintro ⟨t, c, r, hruns, ho, hc⟩
        rw [freeUnits, if_neg (Kernel.runs_joins_semB hruns ho hc)]
      · rw [freeUnits]
        split_ifs with hfree
        · by_cases ha : e.act = .call (.taskDelete t)
          · -- another woken task is left
            obtain ⟨u, hu, hut⟩ := hdel t ha hfree (by
              rw [← (exec_taskDelete hinv hsafe hs ha).1]
              exact hne)
            exact Finset.card_pos.mpr ⟨u, Finset.mem_erase.mpr ⟨hut, hu⟩⟩
          · -- a woken task ran and took the semaphore
            obtain ⟨timeout, hw⟩ := hok.woken.semBTake ht
            rw [hw.takes hs (leaving_runs hl ha) hfree] at htook
            simp [tookB] at htook
        · exact Nat.zero_le _

/-- Between two gives of `s` one take at most succeeds, and a popped task that finds `s` free
takes it. A free `s` somebody waits for is asked for in all runs whose deletions spare the last
task on its way to it, and a deletion that does not breaks this at once. -/
theorem semB_wakeup {k₀ k₁ : Kernel} {e₀ : Event} {as : List Event}
    (h₀ : Reachable system Safe k₀) (hinit : system.step k₀ e₀ k₁)
    (hdone : e₀.done = some (.semBInit s, .obj (some s)))
    (hrun : Run (giveSystem s) (fun x e => Safe x.1 e ∧ e.KeepsSemB s) (k₁, ⟨0, ∅⟩) as (k, g)) :
    g.takes ≤ 1 ∧
    (∀ t timeout, Woken k (.semBTake s timeout) t → ∀ e k', system.step k e k' →
      k.curTcb = some t → (k.semB s).ownerTcb = none →
      e.done = some (.semBTake s timeout, .status .ok)) ∧
    (Run (giveSystem s) (fun x e => (Safe x.1 e ∧ e.KeepsSemB s) ∧ KeepsWakeup s x.1 x.2 e)
        (k₁, ⟨0, ∅⟩) as (k, g) →
      Asked s k g ∧ ∀ e k', system.step k e k' → Safe k e → e.KeepsSemB s →
        (Asked s k' (g.after s k e k') ↔ KeepsWakeup s k g e)) := by
  obtain ⟨hsafe₀, hlist, hnil⟩ := semBInit_done h₀ hinit hdone
  have hnone : AllWoken k₁ (.semB s) ∅ := fun t ht => absurd ht (Finset.notMem_empty t)
  have hstart : OnceOk s k₁ ⟨0, ∅⟩ := ⟨hlist, Nat.zero_le 1, fun _ => rfl, hnone⟩
  have hstep : ∀ x e y, (Reachable system Safe x.1 ∧ OnceOk s x.1 x.2) →
      (Safe x.1 e ∧ e.KeepsSemB s) → (giveSystem s).step x e y →
      Reachable system Safe y.1 ∧ OnceOk s y.1 y.2 := by
    rintro x e y ⟨hreach, honce⟩ ⟨hsafe, hkeep⟩ ⟨hs, hg⟩
    rw [hg]
    exact ⟨hreach.step hsafe hs, honce.step hreach hsafe hkeep hs⟩
  have hbegin := And.intro (h₀.step hsafe₀ hinit) hstart
  obtain ⟨hreach, honce⟩ := hrun.invariant hstep hbegin
  refine ⟨honce.once, fun t timeout hw e k' hs => hw.takes hs, fun hspares => ?_⟩
  have hasked : (Reachable system Safe k ∧ OnceOk s k g) ∧ Asked s k g := by
    refine hspares.invariant (I := fun x => (Reachable system Safe x.1 ∧ OnceOk s x.1 x.2) ∧
      Asked s x.1 x.2) ?_ ⟨hbegin, fun _ hne => absurd hnil hne⟩
    intro x e y hx hok hs
    refine ⟨hstep x e y hx.1 hok.1 hs, ?_⟩
    rw [hs.2]
    exact (hx.2.step hx.1.2 hx.1.1 hok.1.1 hok.1.2 hs.1).mpr hok.2
  exact ⟨hasked.2, fun e k' hs hsafe hkeep => hasked.2.step honce hreach hsafe hkeep hs⟩

/-- A plain step, or the deletion of another task while there is no mutex. -/
def Event.withoutMutex (k : Kernel) (e : Event) : Bool :=
  match e.act with
  | .call (.taskDelete t) => decide (k.semMList = [] ∧ k.curTcb ≠ some t)
  | a => a.isPlain

theorem Event.safe_of_withoutMutex (hinv : k.Inv) (h : e.withoutMutex k = true) : Safe k e := by
  rw [Event.withoutMutex] at h
  split at h
  · rename_i t ha
    obtain ⟨hlist, hcur⟩ := of_decide_eq_true h
    rw [Safe, ha]
    refine ⟨hcur, fun m ho => ?_⟩
    have hm : m ∈ k.semMList := hinv.owned m (by rw [ho]; simp)
    rw [hlist] at hm
    exact absurd hm List.not_mem_nil
  · exact Act.safe_of_isPlain h

/-- Task 1 owns the semaphore, waits for it again and is deleted when task 3 has given it: task 2
waits for a free semaphore that nobody is on the way to. -/
theorem delete_losesWakeup : ∃ k, Reachable system Safe k ∧ (k.semB 0).ownerTcb = none ∧
    k.ts.members (.semB 0) = [2] ∧ ∀ t timeout, ¬ Woken k (.semBTake 0 timeout) t := by
  obtain ⟨⟨es, k⟩, hk, hfact⟩ := Option.map_eq_some_iff.mp (show
    (replay (fun k e => e.withoutMutex k) .initial
      [.boot (.semBInit 0), .boot (.taskCreate 1024 3), .boot (.taskCreate 1024 4),
        .boot (.taskCreate 1024 5), .load, .call (.semBTake 0 0), .call (.semBTake 0 9),
        .call (.semBTake 0 9), .call (.semBGive 0), .call (.taskDelete 1)]).map
      (fun s => ((s.2.semB 0).ownerTcb, s.2.ts.members (.semB 0),
        decide (∀ t : TcbPtr, s.2.ts.live t = true → (s.2.ts.tcb t).status = .ready →
          (s.2.pc t).switchedIn = none))) = some (none, [2], true) by set_option maxRecDepth 4000 in decide)
  simp only [Prod.mk.injEq] at hfact
  obtain ⟨hfree, hmem, hnone⟩ := hfact
  have hreach : Reachable system Safe k :=
    replay_reachable_inv (fun k e hinv he => e.safe_of_withoutMutex hinv he)
      (fun k e hinv he => e.safe_of_withoutMutex hinv he) hk
  refine ⟨k, hreach, hfree, hmem, fun t timeout hw => ?_⟩
  have hno := of_decide_eq_true hnone t hw.live hw.ready
  rw [hw.pc] at hno
  exact absurd hno (by simp [Pc.switchedIn])

/-- Task 2 is deleted while task 1 owns the semaphore; after the give of task 4 task 3 waits for
the free semaphore and task 1 is on its way to it. -/
theorem semB_wakeup_asked : ∃ (k : Kernel) (g : GiveLog), (k.semB 0).ownerTcb = none ∧
    k.ts.members (.semB 0) = [3] ∧ g.takes ≤ 1 ∧ ∃ t timeout, Woken k (.semBTake 0 timeout) t := by
  obtain ⟨⟨k₁, d⟩, h₁, hnext⟩ := Option.bind_eq_some_iff.mp (show
    ((Kernel.initial.exec (.boot (.semBInit 0))).bind fun r =>
      (replay (fun k e => e.withoutMutex k && decide (e.KeepsSemB 0) &&
          (e.act.isPlain || decide ((k.semB 0).ownerTcb ≠ none))) r.1
        [.boot (.taskCreate 1024 3), .boot (.taskCreate 1024 4), .boot (.taskCreate 1024 5),
          .boot (.taskCreate 1024 6), .load, .call (.semBTake 0 0), .call (.semBTake 0 9),
          .call (.semBTake 0 9), .call (.semBTake 0 9), .call (.taskDelete 2),
          .call (.semBGive 0)]).map fun s =>
        (r.2, (s.2.semB 0).ownerTcb, s.2.ts.members (.semB 0))) =
      some (some (.semBInit 0, .obj (some 0)), none, [3]) by decide)
  obtain ⟨⟨as, k⟩, hreplay, hfact⟩ := Option.map_eq_some_iff.mp hnext
  simp only [Prod.mk.injEq] at hfact
  obtain ⟨rfl, hfree, hmem⟩ := hfact
  have hinit : system.step .initial ⟨.boot (.semBInit 0), some (.semBInit 0, .obj (some 0))⟩ k₁ :=
    ⟨by decide, h₁⟩
  have hstart := initial_reachable Safe
  have hsafe₀ : Safe .initial ⟨.boot (.semBInit 0), some (.semBInit 0, .obj (some 0))⟩ := True.intro
  have hreach₁ : Reachable system Safe k₁ := hstart.step hsafe₀ hinit
  have hsteps : Run system (fun k e => (e.withoutMutex k = true ∧ e.KeepsSemB 0) ∧
      (e.act.isPlain = true ∨ (k.semB 0).ownerTcb ≠ none)) k₁ as k := by
    refine replay_run (fun k e he => ?_) hreplay
    obtain ⟨hfirst, hlast⟩ := Bool.and_eq_true_iff.mp he
    obtain ⟨hno, hkeep⟩ := Bool.and_eq_true_iff.mp hfirst
    exact ⟨⟨hno, of_decide_eq_true hkeep⟩,
      (Bool.or_eq_true_iff.mp hlast).imp_right of_decide_eq_true⟩
  have hsafes : Run system (fun k e => (Safe k e ∧ e.KeepsSemB 0) ∧
      (e.act.isPlain = true ∨ (k.semB 0).ownerTcb ≠ none)) k₁ as k := by
    refine hsteps.strengthen (I := Kernel.Inv) (fun k e k' hk he hs => ?_) (fun k e hk he => ?_)
      (reachable_inv hreach₁)
    · exact (Kernel.exec_sound hk hs.1 (e.safe_of_withoutMutex hk he.1.1) hs.2).2
    · exact ⟨⟨e.safe_of_withoutMutex hk he.1.1, he.1.2⟩, he.2⟩
  obtain ⟨g, hghost⟩ : ∃ g, Run (giveSystem 0) (fun x e => (Safe x.1 e ∧ e.KeepsSemB 0) ∧
      (e.act.isPlain = true ∨ (x.1.semB 0).ownerTcb ≠ none)) (k₁, ⟨0, ∅⟩) as (k, g) :=
    hsafes.exists_ghost (⟨0, ∅⟩ : GiveLog)
  have hkeeps : Run (giveSystem 0) (fun x e => (Safe x.1 e ∧ e.KeepsSemB 0) ∧
      KeepsWakeup 0 x.1 x.2 e) (k₁, ⟨0, ∅⟩) as (k, g) := by
    refine hghost.mono fun x e he => ⟨he.1, fun t ha hno _ => ?_⟩
    rcases he.2 with hp | howned
    · have hfalse : (Act.call (.taskDelete t)).isPlain = false := rfl
      exact absurd (hfalse.symm.trans (ha ▸ hp)) Bool.false_ne_true
    · exact absurd hno howned
  obtain ⟨honce, -, hasked⟩ := semB_wakeup hstart hinit rfl (hkeeps.mono fun _ _ he => he.1)
  obtain ⟨t, -, hw⟩ := (hasked hkeeps).1 hfree (by rw [hmem]; simp)
  exact ⟨k, g, hfree, hmem, honce, t, hw⟩

end DfewOS
