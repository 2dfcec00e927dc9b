import DfewOS.Waiting

/-!
# A counting semaphore keeps its units

`UnitLog` counts the successful gives and takes since `semC_init`, and the tasks
that `semC_give` has popped and that have not tested `count` again. `semC_give`
raises the count and pops a task in one section, and a popped task lowers the
one and leaves the other, so while somebody waits the units are covered by tasks
that are going to ask for them.
-/

namespace DfewOS
open Transition (Run Reachable System)

def gaveC (s : ObjPtr) : Option (Call × Result) → Bool
  | some (.semCGive s', .status .ok) => s' = s
  | _ => false

def tookC (s : ObjPtr) : Option (Call × Result) → Bool
  | some (.semCTake s' _, .status .ok) => s' = s
  | _ => false

/-- The semaphore `s` is neither flushed nor deleted. -/
def Event.KeepsSemC (s : ObjPtr) (e : Event) : Prop :=
  e.act ≠ .call (.semCFlush s) ∧ e.act ≠ .call (.semCDelete s) ∧
    ∀ d ∈ e.done, d.1 ≠ .semCDelete s

instance (s : ObjPtr) (e : Event) : Decidable (e.KeepsSemC s) :=
  inferInstanceAs (Decidable (_ ∧ _ ∧ ∀ d ∈ e.done, d.1 ≠ .semCDelete s))

/-- What the call `c` does to the semaphore `s` in the section `r`. -/
inductive CountEffect (s : ObjPtr) (k : Kernel) (c : Call) (r : Kernel × Outcome) : Prop
  | take {timeout : ℕ} : c = .semCTake s timeout → 0 < (k.semC s).count →
      r.2 = .ret (.status .ok) →
      r.1.semC s = { k.semC s with count := (k.semC s).count - 1 } → CountEffect s k c r
  | give : c = .semCGive s → (k.semC s).count < (k.semC s).maxCount → r.2 = .ret (.status .ok) →
      r.1.semC s = { k.semC s with count := (k.semC s).count + 1 } →
      r.1.ts = k.ts.wakeFirst (.semC s) → CountEffect s k c r
  | idle : r.1.semC s = k.semC s → gaveC s (r.2.result.map fun x => (c, x)) = false →
      tookC s (r.2.result.map fun x => (c, x)) = false → CountEffect s k c r

inductive CountStep (s : ObjPtr) (k : Kernel) (a : Act) (d : Option (Call × Result)) (k' : Kernel) :
    Prop
  | take : 0 < (k.semC s).count → gaveC s d = false → tookC s d = true →
      k'.semC s = { k.semC s with count := (k.semC s).count - 1 } → CountStep s k a d k'
  | give : a = .call (.semCGive s) → (k.semC s).count < (k.semC s).maxCount → gaveC s d = true →
      tookC s d = false → k'.semC s = { k.semC s with count := (k.semC s).count + 1 } →
      k'.ts = k.ts.wakeFirst (.semC s) → CountStep s k a d k'
  | idle : k'.semC s = k.semC s → gaveC s d = false → tookC s d = false → CountStep s k a d k'

namespace Kernel

variable {k k' : Kernel} {cur t : TcbPtr} {s : ObjPtr} {a : Act} {c : Call} {r : Kernel × Outcome}
  {d : Option (Call × Result)}

theorem CountEffect.other (hv : r.1.semC s = k.semC s)
    (hgive : c ≠ .semCGive s) (htake : ∀ timeout, c ≠ .semCTake s timeout) :
    CountEffect s k c r := by
  refine .idle hv ?_ ?_
  · cases r.2.result with
    | none => rfl
    | some x =>
      cases c
      case semCGive s' =>
        have hne : s' ≠ s := fun he => hgive (by rw [he])
        cases x with
        | status y => cases y <;> simp [gaveC, hne]
        | _ => rfl
      all_goals rfl
  · cases r.2.result with
    | none => rfl
    | some x =>
      cases c
      case semCTake s' timeout =>
        have hne : s' ≠ s := fun he => htake timeout (by rw [he])
        cases x with
        | status y => cases y <;> simp [tookC, hne]
        | _ => rfl
      all_goals rfl

theorem semCTake_count (timeout₀ timeout : ℕ) {s' : ObjPtr} (h : k.semCTake cur s' timeout = r) :
    CountEffect s k (.semCTake s' timeout₀) r ∧ r.1.semCList = k.semCList := by
  by_cases hs : s' = s
  · subst hs
    simp only [semCTake] at h
    split_ifs at h with hc ht
    · rw [← h]
      exact ⟨.take rfl hc rfl (by simp [setSemC]), rfl⟩
    · rw [← h]
      exact ⟨.idle rfl rfl rfl, rfl⟩
    · rw [← h]
      exact ⟨.idle rfl rfl rfl, rfl⟩
  · simp only [semCTake] at h
    split_ifs at h <;> rw [← h]
    · refine ⟨CountEffect.other ?_ (by simp) fun t => ?_, rfl⟩
      · simp [setSemC, Ne.symm hs]
      · simp [hs]
    · exact ⟨.idle rfl rfl rfl, rfl⟩
    · exact ⟨.idle rfl rfl rfl, rfl⟩

theorem semCGive_count {s' : ObjPtr} (h : k.semCGive s' = r) :
    CountEffect s k (.semCGive s') r ∧ r.1.semCList = k.semCList := by
  by_cases hs : s' = s
  · subst hs
    simp only [semCGive] at h
    split_ifs at h with hc
    · rw [← h]
      exact ⟨.give rfl hc rfl (by simp [setSemC]) rfl, rfl⟩
    · rw [← h]
      exact ⟨.idle rfl rfl rfl, rfl⟩
  · simp only [semCGive] at h
    split_ifs at h <;> rw [← h]
    · refine ⟨CountEffect.other ?_ (by simp [hs]) (by simp), rfl⟩
      simp [setSemC, Ne.symm hs]
    · exact ⟨.idle rfl rfl rfl, rfl⟩

theorem countEffect_congr (hc : ¬ c.OnSemC) (hlist : s ∈ k.semCList)
    (h : r.1.semC = k.semC ∧ r.1.semCList = k.semCList) :
    CountEffect s k c r ∧ s ∈ r.1.semCList := by
  refine ⟨CountEffect.other (by rw [h.1]) ?_ ?_, by rw [h.2]; exact hlist⟩
  · rintro rfl
    exact hc trivial
  · rintro timeout rfl
    exact hc trivial

theorem enter_count (hlist : s ∈ k.semCList) (hok : k.callOk c) (hflush : c ≠ .semCFlush s)
    (hdel : c ≠ .semCDelete s) (he : k.enter cur c = some r) :
    CountEffect s k c r ∧ s ∈ r.1.semCList := by
  by_cases hc : c.OnSemC
  · cases c <;> simp only [Call.OnSemC] at hc <;> simp only [enter, Option.some.injEq] at he
    case semCInit s' i n =>
      have hne : s ≠ s' := by
        rintro rfl
        exact hok.2.1.1 hlist
      rw [semCInit] at he
      split_ifs at he <;> rw [← he]
      · exact ⟨CountEffect.other rfl (by simp) (by simp), hlist⟩
      · exact ⟨CountEffect.other (by simp [setSemC, hne]) (by simp) (by simp),
          List.mem_append_left _ hlist⟩
    case semCTake s' timeout =>
      obtain ⟨hcount, hl⟩ := semCTake_count (s := s) timeout timeout he
      exact ⟨hcount, by rw [hl]; exact hlist⟩
    case semCGive s' =>
      obtain ⟨hcount, hl⟩ := semCGive_count (s := s) he
      exact ⟨hcount, by rw [hl]; exact hlist⟩
    case semCFlush s' =>
      have hne : s ≠ s' := by
        rintro rfl
        exact hflush rfl
      obtain ⟨ts, -, hk⟩ := Option.map_eq_some_iff.mp (flush_some he).1
      refine ⟨CountEffect.other ?_ (by simp) (by simp), by rw [← hk]; exact hlist⟩
      rw [← hk]
      exact Function.update_of_ne hne ..
    case semCDelete s' =>
      have hne : s ≠ s' := by
        rintro rfl
        exact hdel rfl
      obtain ⟨ts, -, hk⟩ := Option.map_eq_some_iff.mp (flush_some he).1
      refine ⟨CountEffect.other ?_ (by simp) (by simp), by rw [← hk]; exact hlist⟩
      rw [← hk]
      exact Function.update_of_ne hne ..
  · exact countEffect_congr hc hlist (enter_sameSemC hc he)

theorem resume_count (hlist : s ∈ k.semCList) (he : k.resume cur c = some r) :
    CountEffect s k c r ∧ s ∈ r.1.semCList := by
  rcases resume_cases he with ⟨hretry, -, hent⟩ | ⟨-, -, rfl⟩ | ⟨-, ho, ts, x, rfl⟩
  · by_cases hc : c.OnSemC
    · cases c <;> simp only [Call.OnSemC] at hc <;> simp only [Call.Retries] at hretry
      case semCTake s' timeout =>
        obtain ⟨hcount, hl⟩ := semCTake_count (s := s) timeout _ (Option.some.inj hent)
        exact ⟨hcount, by rw [hl]; exact hlist⟩
    · have hc' : ¬ (c.retry (k.ts.tcb cur).delayTicks).OnSemC := by
        cases c <;> exact hc
      exact countEffect_congr hc hlist (enter_sameSemC hc' hent)
  · refine ⟨.idle rfl ?_ ?_, hlist⟩
    · cases c <;> rfl
    · cases c <;> rfl
  · refine countEffect_congr (fun hc => ho ?_) hlist ⟨rfl, rfl⟩
    cases c <;> first | exact hc.elim | trivial

theorem go_count {x : Rest} (hlist : s ∈ k.semCList) (hx : x.Of c)
    (hdel : ∀ d ∈ (k.go x).2.result.map fun y => (c, y), d.1 ≠ .semCDelete s) :
    CountEffect s k c (k.go x) ∧ s ∈ (k.go x).1.semCList := by
  cases c <;> simp only [Rest.Of] at hx
  case taskCreate => exact countEffect_congr (fun hc => hc) hlist (k.go_objects hx).2.1
  case semBDelete s' =>
    rw [hx]
    exact countEffect_congr (fun hc => hc) hlist ⟨rfl, rfl⟩
  case semCDelete s' =>
    rw [hx] at hdel ⊢
    have hne : s' ≠ s := fun he => hdel _ rfl (by rw [he])
    exact ⟨CountEffect.other rfl (by simp) (by simp), (List.mem_erase_of_ne hne.symm).mpr hlist⟩

theorem ActsOn.gives (hof : UnlockedOf k) (h : ActsOn k a (.semCGive s) r) :
    a = .call (.semCGive s) := by
  rcases h with ⟨cur, hcur, hsec⟩ | ⟨-, -, x, -, hb⟩
  · generalize hc : Call.semCGive s = c at hsec
    cases hsec with
    | call => rfl
    | resume _ hres =>
      rw [← hc] at hres
      exact absurd hres (by simp [resume])
    | go hpc =>
      rw [← hc] at hpc
      exact (hof _ _ _ hpc).elim
  · exact absurd hb (by simp [bootCall])

theorem exec_count (hof : UnlockedOf k) (hlist : s ∈ k.semCList) (hdef : k.defined a)
    (hkeep : Event.KeepsSemC s ⟨a, d⟩) (he : k.exec a = some (k', d)) :
    s ∈ k'.semCList ∧ CountStep s k a d k' := by
  rcases exec_objects hof he with ⟨⟨k₁, hsame, hk'⟩, hd⟩ | ⟨c, r, hc, hacts, hk', hd⟩
  · have hsem : k'.semC = k.semC ∧ k'.semCList = k.semCList := by
      rw [hk']
      exact hsame.2.1
    refine ⟨by rw [hsem.2]; exact hlist, .idle (by rw [hsem.1]) ?_ ?_⟩
    · cases d with
      | none => rfl
      | some x =>
        obtain ⟨c, x⟩ := x
        have hno := hd c x rfl
        cases c <;> first | rfl | exact absurd trivial hno
    · cases d with
      | none => rfl
      | some x =>
        obtain ⟨c, x⟩ := x
        have hno := hd c x rfl
        cases c <;> first | rfl | exact absurd trivial hno
  · obtain ⟨hflush, hdel, hdone⟩ := hkeep
    have heff : CountEffect s k c r ∧ s ∈ r.1.semCList := by
      rcases hacts with ⟨cur, hcur, hsec⟩ | ⟨hcur, rfl, x, ho, hb⟩
      · cases hsec with
        | call _ hent =>
          refine enter_count hlist hdef.2 ?_ ?_ hent
          · exact fun hc => hflush (by rw [hc])
          · exact fun hc => hdel (by rw [hc])
        | resume _ hres => exact resume_count hlist hres
        | go hpc =>
          refine go_count hlist (hof _ _ _ hpc) ?_
          rw [← hd]
          exact hdone
      · have hent := bootCall_enter hc hb
        obtain ⟨k₁, o⟩ := r
        obtain rfl : o = .ret x := ho
        refine enter_count hlist hdef ?_ ?_ hent
        · rintro rfl
          exact absurd hb (by simp [bootCall])
        · rintro rfl
          exact absurd hb (by simp [bootCall])
    obtain ⟨hcount, hlist'⟩ := heff
    refine ⟨by rw [hk']; exact hlist', ?_⟩
    have hsem : k'.semC s = r.1.semC s := by rw [hk']
    cases hcount with
    | @take timeout hc hpos ho hv =>
      rw [ho, hc] at hd
      refine .take hpos (by rw [hd]; rfl) ?_ (by rw [hsem, hv])
      rw [hd]
      simp [Outcome.result, tookC]
    | give hc hlt ho hv hts =>
      subst hc
      rw [ho] at hd
      refine .give (hacts.gives hof) hlt ?_ (by rw [hd]; rfl) (by rw [hsem, hv]) (by rw [hk', ← hts])
      rw [hd]
      simp [Outcome.result, gaveC]
    | idle hv hg ht => exact .idle (by rw [hsem, hv]) (by rw [hd, hg]) (by rw [hd, ht])

theorem runs_joins_semC (h : Runs k t c r a) (ho : r.2 = .switch)
    (hc : c.waitList = some (.semC s)) : (k.semC s).count = 0 := by
  have htake : ∀ {timeout : ℕ}, k.semCTake t s timeout = r → (k.semC s).count = 0 := by
    intro timeout h
    simp only [semCTake] at h
    split_ifs at h with hz
    · rw [← h] at ho
      exact absurd ho (by simp)
    · omega
    · rw [← h] at ho
      exact absurd ho (by simp)
  cases c <;> simp only [Call.waitList, Option.some.injEq, reduceCtorEq] at hc
  case semCTake s' timeout =>
    obtain rfl := QueueId.semC.inj hc
    cases h with
    | enter _ he => exact htake (Option.some.inj he)
    | resume _ he =>
      rcases resume_cases he with ⟨-, -, hent⟩ | ⟨-, -, rfl⟩ | ⟨hno, -⟩
      · exact htake (Option.some.inj hent)
      · exact absurd ho (by simp)
      · exact absurd trivial hno

end Kernel

/-- The units given to and taken from a semaphore since `semC_init`, and the tasks popped by
`semC_give` that have not tested `count` again. -/
structure UnitLog where
  gives : ℕ
  takes : ℕ
  woken : Finset TcbPtr

def UnitLog.after (s : ObjPtr) (k : Kernel) (e : Event) (_ : Kernel) (g : UnitLog) : UnitLog where
  gives := g.gives + (gaveC s e.done).toNat
  takes := g.takes + (tookC s e.done).toNat
  woken := wokenAfter (.semC s) (gaveC s e.done) k e g.woken

def unitSystem (s : ObjPtr) : System (Kernel × UnitLog) Event :=
  system.withGhost ⟨0, 0, ∅⟩ (UnitLog.after s)

/-- A safe step that neither flushes nor deletes `s` nor deletes a task on its way to `count`. -/
def KeepsUnits (s : ObjPtr) (k : Kernel) (g : UnitLog) (e : Event) : Prop :=
  Safe k e ∧ e.KeepsSemC s ∧ ∀ t ∈ g.woken, e.act ≠ .call (.taskDelete t)

structure UnitsOk (s : ObjPtr) (initCount maxCount : ℕ) (k : Kernel) (g : UnitLog) : Prop where
  listed : s ∈ k.semCList
  max : (k.semC s).maxCount = maxCount
  bound : (k.semC s).count ≤ maxCount
  sum : (k.semC s).count + g.takes = initCount + g.gives
  woken : AllWoken k (.semC s) g.woken
  enough : k.ts.members (.semC s) ≠ [] → (k.semC s).count ≤ g.woken.card

variable {s : ObjPtr} {initCount maxCount : ℕ} {k k' : Kernel} {g : UnitLog} {e : Event}

theorem semCInit_done {k₀ : Kernel} (h₀ : Reachable system Safe k₀) (hs : system.step k₀ e k)
    (hdone : e.done = some (.semCInit s initCount maxCount, .obj (some s))) :
    Safe k₀ e ∧ k.semC s = ⟨initCount, maxCount⟩ ∧ s ∈ k.semCList ∧
      k.ts.members (.semC s) = [] := by
  have hinv := reachable_inv h₀
  have hexec := hs.2
  rw [hdone] at hexec
  obtain ⟨hact, hok, cur, r, hent, ho, hk⟩ := exec_init (c := .semCInit s initCount maxCount)
    (unlocked_of h₀) hs.1 trivial (fun _ => rfl) (fun _ hf => hf) hexec
  have hsafe : Safe k₀ e := by
    rcases hact with ha | ha <;> rw [Safe, ha] <;> exact True.intro
  have hr : k₀.semCInit s initCount maxCount = r := Option.some.inj hent
  rw [Kernel.semCInit] at hr
  split_ifs at hr <;> rw [← hr] at ho hk
  · exact absurd ho (by simp)
  · refine ⟨hsafe, ?_, ?_, ?_⟩
    · rw [hk]
      simp [Kernel.setSemC]
    · rw [hk]
      exact List.mem_append_right _ List.mem_cons_self
    · have hmem : k.ts.members = k₀.ts.members := by
        rw [hk]
        exact Kernel.members_of_linked (hinv.linked.dlistInit hok.2.1.2)
      rw [hmem]
      exact hok.2.1.2

theorem Woken.tests {t : TcbPtr} {timeout : ℕ} (h : Woken k (.semCTake s timeout) t)
    (hs : system.step k e k') (hcur : k.curTcb = some t) (htook : tookC s e.done = false) :
    (k.semC s).count = 0 := by
  obtain ⟨r, hent, hdone⟩ := h.retries trivial hs hcur
  have hr : k.semCTake t s (k.ts.tcb t).delayTicks = r := Option.some.inj hent
  by_contra hne
  have hout : r.2 = .ret (.status .ok) := by
    rw [← hr, Kernel.semCTake]
    simp only
    rw [if_pos (by omega)]
  rw [hdone _ hout] at htook
  simp [tookC] at htook

theorem AllWoken.semCTake {woken : Finset TcbPtr} {t : TcbPtr} (h : AllWoken k (.semC s) woken)
    (ht : t ∈ woken) : ∃ timeout, Woken k (.semCTake s timeout) t := by
  obtain ⟨c, hw, hc⟩ := h t ht
  cases c <;> simp only [Call.waitList, Option.some.injEq, reduceCtorEq] at hc
  obtain rfl := QueueId.semC.inj hc
  exact ⟨_, hw⟩

theorem UnitsOk.step (h : UnitsOk s initCount maxCount k g) (hreach : Reachable system Safe k)
    (hkeep : KeepsUnits s k g e) (hs : system.step k e k') :
    UnitsOk s initCount maxCount k' (g.after s k e k') := by
  obtain ⟨hsafe, hsem, hdel⟩ := hkeep
  have hinv := reachable_inv hreach
  have hinv' := (Kernel.exec_sound hinv hs.1 hsafe hs.2).2
  have hready : ¬ (QueueId.semC s).IsReady := fun hr => hr
  obtain ⟨hlist, hstep⟩ := Kernel.exec_count (unlocked_of hreach) h.listed hs.1 hsem hs.2
  have hwoken : AllWoken k' (.semC s) (g.after s k e k').woken := by
    refine h.woken.step hinv (reachable_parked hreach) hsafe hs hready fun hg => ?_
    cases hstep with
    | take _ hno => rw [hno] at hg; exact absurd hg (by decide)
    | give _ _ _ _ _ hts => exact hts
    | idle _ hno => rw [hno] at hg; exact absurd hg (by decide)
  have hbefore := waiters_before hinv hinv' hsafe hs hready
  have hcovered : Covered k (.semC s) (k.semC s).count g.woken := h.enough
  have hb := h.bound
  have hm := h.max
  have hsum := h.sum
  cases hstep with
  | take hpos hgave htook hv =>
    have henough : Covered k' (.semC s) (k'.semC s).count (g.after s k e k').woken := by
      rw [UnitLog.after, hgave, hv]
      have hunits : (k.semC s).count - 1 + 1 = (k.semC s).count := by omega
      rw [← hunits] at hcovered
      refine hcovered.take fun hne => (hbefore hne).resolve_right ?_
      rintro ⟨t, c, r, hruns, ho, hc⟩
      have hz := Kernel.runs_joins_semC hruns ho hc
      omega
    refine ⟨hlist, by rw [hv]; exact hm, ?_, ?_, hwoken, henough⟩
    · rw [hv]
      simp only
      omega
    · rw [hv]
      simp only [UnitLog.after, hgave, htook, Bool.toNat_true, Bool.toNat_false]
      omega
  | give hact hlt hgave htook hv hts =>
    have henough : Covered k' (.semC s) (k'.semC s).count (g.after s k e k').woken := by
      rw [UnitLog.after, hgave, hv]
      refine hcovered.give h.woken hinv hready (by rw [leaving, hact]) ?_ le_rfl
      refine fun hne => (hbefore hne).resolve_right ?_
      rintro ⟨t, c, r, hruns, -, hc⟩
      exact hruns.act_ne hc rfl hact
    refine ⟨hlist, by rw [hv]; exact hm, ?_, ?_, hwoken, henough⟩
    · rw [hv]
      simp only
      omega
    · rw [hv]
      simp only [UnitLog.after, hgave, htook, Bool.toNat_true, Bool.toNat_false]
      omega
  | idle hv hgave htook =>
    have henough : Covered k' (.semC s) (k'.semC s).count (g.after s k e k').woken := by
      rw [UnitLog.after, hgave, hv]
      refine hcovered.idle (fun hne => (hbefore hne).imp_right ?_) fun t ht hl _ => ?_
      · rintro ⟨t, c, r, hruns, ho, hc⟩
        exact Kernel.runs_joins_semC hruns ho hc
      · -- a woken task ran and took nothing
        obtain ⟨timeout, hw⟩ := h.woken.semCTake ht
        have hcur : k.curTcb = some t := leaving_runs hl (hdel t ht)
        rw [hw.tests hs hcur htook]
        exact Nat.zero_le _
    refine ⟨hlist, by rw [hv]; exact hm, by rw [hv]; exact hb, ?_, hwoken, henough⟩
    rw [hv]
    simp only [UnitLog.after, hgave, htook, Bool.toNat_false]
    exact hsum

/-- Since its `semC_init` the semaphore `s` has its units: those it started with and was given
less those taken. While somebody waits they are no more than the tasks that will test `count`
again, and an `OS_STATUS_ERROR` changes nothing. -/
theorem semC_conservation {k₀ k₁ : Kernel} {e₀ : Event} {as : List Event}
    (h₀ : Reachable system Safe k₀) (hinit : system.step k₀ e₀ k₁)
    (hdone : e₀.done = some (.semCInit s initCount maxCount, .obj (some s)))
    (hle : initCount ≤ maxCount)
    (hrun : Run (unitSystem s) (fun x e => KeepsUnits s x.1 x.2 e) (k₁, ⟨0, 0, ∅⟩) as (k, g)) :
    (k.semC s).count ≤ maxCount ∧ (k.semC s).count + g.takes = initCount + g.gives ∧
    (k.ts.members (.semC s) ≠ [] → (k.semC s).count ≤ g.woken.card) ∧
    (∀ t ∈ g.woken, ∃ timeout, Woken k (.semCTake s timeout) t) ∧
    (0 < (k.semC s).count → k.ts.members (.semC s) ≠ [] →
      ∃ t timeout, Woken k (.semCTake s timeout) t) ∧
    ∀ e k', system.step k e k' → KeepsUnits s k g e →
      (e.done = some (.semCGive s, .status .error) ∨
        ∃ timeout, e.done = some (.semCTake s timeout, .status .error)) → k'.semC s = k.semC s := by
  obtain ⟨hsafe₀, hsem, hlist, hnil⟩ := semCInit_done h₀ hinit hdone
  have hstart : UnitsOk s initCount maxCount k₁ ⟨0, 0, ∅⟩ := by
    refine ⟨hlist, by rw [hsem], by rw [hsem]; exact hle, by rw [hsem], ?_, fun hne => ?_⟩
    · exact fun t ht => absurd ht (Finset.notMem_empty t)
    · exact absurd hnil hne
  have hok : Reachable system Safe k ∧ UnitsOk s initCount maxCount k g := by
    refine hrun.invariant (I := fun x => Reachable system Safe x.1 ∧
      UnitsOk s initCount maxCount x.1 x.2) ?_ ⟨h₀.step hsafe₀ hinit, hstart⟩
    rintro x e y ⟨hreach, hunits⟩ hkeep ⟨hs, hg⟩
    rw [hg]
    exact ⟨hreach.step hkeep.1 hs, hunits.step hreach hkeep hs⟩
  obtain ⟨hreach, hunits⟩ := hok
  have hwoken : ∀ t ∈ g.woken, ∃ timeout, Woken k (.semCTake s timeout) t :=
    fun t ht => hunits.woken.semCTake ht
  refine ⟨hunits.bound, hunits.sum, hunits.enough, hwoken, fun hpos hne => ?_,
    fun e k' hs hkeep herr => ?_⟩
  · have hcard := hunits.enough hne
    obtain ⟨t, ht⟩ := Finset.card_pos.mp (show 0 < g.woken.card by omega)
    exact ⟨t, hwoken t ht⟩
  · cases (Kernel.exec_count (unlocked_of hreach) hunits.listed hs.1 hkeep.2.1 hs.2).2 with
    | take _ _ htook _ =>
      rcases herr with hd | ⟨timeout, hd⟩ <;> rw [hd] at htook <;> exact absurd htook (by simp [tookC])
    | give _ _ hgave _ _ _ =>
      rcases herr with hd | ⟨timeout, hd⟩ <;> rw [hd] at hgave <;> exact absurd hgave (by simp [gaveC])
    | idle hv _ _ => exact hv

/-- Tasks 1 and 2 wait and task 3 has given a unit: task 1 is on its way to it. -/
theorem semC_conservation_woken : ∃ (k : Kernel) (g : UnitLog), (k.semC 0).count = 1 ∧
    k.ts.members (.semC 0) = [2] ∧ 1 + g.takes = 0 + g.gives ∧ 1 ≤ g.woken.card ∧
    ∃ t timeout, Woken k (.semCTake 0 timeout) t := by
  obtain ⟨⟨k₁, d⟩, h₁, hnext⟩ := Option.bind_eq_some_iff.mp (show
    ((Kernel.initial.exec (.boot (.semCInit 0 0 2))).bind fun r =>
      (replay (fun _ e => e.act.isPlain && decide (e.KeepsSemC 0)) r.1
        [.boot (.taskCreate 1024 3), .boot (.taskCreate 1024 4), .boot (.taskCreate 1024 5), .load,
          .call (.semCTake 0 9), .call (.semCTake 0 9), .call (.semCGive 0)]).map fun s =>
        (r.2, (s.2.semC 0).count, s.2.ts.members (.semC 0))) =
      some (some (.semCInit 0 0 2, .obj (some 0)), 1, [2]) by decide)
  obtain ⟨⟨as, k⟩, hreplay, hfact⟩ := Option.map_eq_some_iff.mp hnext
  simp only [Prod.mk.injEq] at hfact
  obtain ⟨rfl, hcount, hmem⟩ := hfact
  have hinit : system.step .initial ⟨.boot (.semCInit 0 0 2), some (.semCInit 0 0 2, .obj (some 0))⟩
      k₁ := ⟨by decide, h₁⟩
  have hplain : Run system (fun _ e => e.act.isPlain = true ∧ e.KeepsSemC 0) k₁ as k := by
    refine replay_run (fun _ e he => ?_) hreplay
    obtain ⟨hp, hk⟩ := Bool.and_eq_true_iff.mp he
    exact ⟨hp, of_decide_eq_true hk⟩
  obtain ⟨g, hghost⟩ : ∃ g, Run (unitSystem 0)
      (fun x e => e.act.isPlain = true ∧ e.KeepsSemC 0) (k₁, ⟨0, 0, ∅⟩) as (k, g) :=
    hplain.exists_ghost (⟨0, 0, ∅⟩ : UnitLog)
  have hrun : Run (unitSystem 0) (fun x e => KeepsUnits 0 x.1 x.2 e) (k₁, ⟨0, 0, ∅⟩) as (k, g) := by
    refine hghost.mono fun x e he => ⟨Act.safe_of_isPlain he.1, he.2, fun t _ ha => ?_⟩
    have hfalse : (Act.call (.taskDelete t)).isPlain = false := rfl
    exact Bool.false_ne_true (hfalse.symm.trans (ha ▸ he.1))
  obtain ⟨-, hsum, henough, -, htest, -⟩ :=
    semC_conservation (initial_reachable Safe) hinit rfl (Nat.zero_le 2) hrun
  rw [hcount] at hsum henough htest
  have hne : k.ts.members (.semC 0) ≠ [] := by rw [hmem]; simp
  exact ⟨k, g, hcount, hmem, hsum, henough hne, htest (by decide) hne⟩

end DfewOS
