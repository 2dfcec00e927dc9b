import DfewOS.Waiting

/-!
# Calls on an object that is deleted

`semB_delete`, `semC_delete` and `msgQ_delete` release an object in their last
section. A call that waits for the object, or was woken and has not run since,
is left behind. It goes back to the object if it has ticks left, since nobody
tells it that the object is gone. `looseSystem` is the kernel where this may
happen: it asks no caller to see to it.
-/

namespace DfewOS
open Transition (Run Reachable System)

inductive Object
  | semB (s : ObjPtr)
  | semC (s : ObjPtr)
  | msgQ (q : ObjPtr)
  deriving DecidableEq

def Call.object : Call → Option Object
  | .semBTake s _ => some (.semB s)
  | .semCTake s _ => some (.semC s)
  | .msgQSend q _ _ _ | .msgQReceive q _ _ _ => some (.msgQ q)
  | _ => none

def Rest.releasing : Rest → Option Object
  | .unlistSemB s => some (.semB s)
  | .unlistSemC s => some (.semC s)
  | _ => none

/-- The object that a step takes off the list of its module and frees. -/
def Kernel.releasing (k : Kernel) : Act → Option Object
  | .call (.msgQDelete q) => some (.msgQ q)
  | .go => k.curTcb.bind fun cur => (k.pc cur).unlockedAt.bind Rest.releasing
  | _ => none

/-- The tasks inside a blocking call on `o`. -/
def Kernel.inside (k : Kernel) (o : Object) : Finset TcbPtr :=
  Finset.univ.filter fun t => k.ts.live t = true ∧ (k.pc t).switchedIn.bind Call.object = some o

/-- What is asked of the callers, without what the calls on a deleted object would need. -/
def Kernel.enabled (k : Kernel) : Act → Prop
  | .resume | .go => True
  | a => k.defined a

def looseSystem : System Kernel Event where
  init := system.init
  step k e k' := k.enabled e.act ∧ k.exec e.act = some (k', e.done)

/-- A released object has left every task inside a call on it ready and with no ticks left.
`msgQ_delete` itself sees to the only task of a wait list. -/
def SparesCalls (k : Kernel) (e : Event) : Prop :=
  ∀ o ∈ k.releasing e.act, ∀ t ∈ k.inside o,
    ((k.ts.tcb t).status = .ready ∧ (k.ts.tcb t).delayTicks = 0) ∨
    ∃ q, e.act = .call (.msgQDelete q) ∧
      (k.ts.members (.msgSend q) = [t] ∨ k.ts.members (.msgRecv q) = [t])

namespace Kernel

variable {k k' : Kernel} {cur t : TcbPtr} {s : ObjPtr} {a : Act} {c c' : Call} {o : Object}
  {r : Kernel × Outcome} {d : Option (Call × Result)} {ts : Tasks} {seq : QueueId → List TcbPtr}
  {l : QueueId}

theorem mem_inside : t ∈ k.inside o ↔ k.ts.live t = true ∧ ∃ c, k.pc t = .switched c ∧
    c.object = some o := by
  rw [inside, Finset.mem_filter]
  constructor
  · rintro ⟨-, hl, hb⟩
    obtain ⟨c, hc, ho⟩ := Option.bind_eq_some_iff.mp hb
    exact ⟨hl, c, Pc.switchedIn_eq_some.mp hc, ho⟩
  · rintro ⟨hl, c, hc, ho⟩
    refine ⟨Finset.mem_univ t, hl, ?_⟩
    rw [Pc.switchedIn_eq_some.mpr hc]
    exact ho

section Lists

theorem againInUse_of_none (h : c.object = none) : k.againInUse c := by
  cases c <;> simp only [Call.object, reduceCtorEq] at h <;> trivial

theorem againInUse_congr (hB : k'.semBList = k.semBList) (hC : k'.semCList = k.semCList)
    (hQ : k'.msgQList = k.msgQList) (h : k.againInUse c) : k'.againInUse c := by
  cases c <;> simp only [againInUse] at h ⊢
  case semBTake => rw [hB]; exact h
  case semCTake => rw [hC]; exact h
  case msgQSend => rw [hQ]; exact h
  case msgQReceive => rw [hQ]; exact h

theorem enter_againInUse (he : k.enter cur c' = some r) (h : k.againInUse c)
    (hrel : ∀ q, c' = .msgQDelete q → c.object ≠ some (.msgQ q)) : r.1.againInUse c := by
  by_cases hc : c'.OnObject
  · cases c' <;> simp only [enter, Option.some.injEq] at he
    case semBInit s =>
      rw [← he]
      cases c <;> first | exact h | exact List.mem_append_left _ h
    case semBTake s timeout =>
      rw [← he, semBTake]
      split_ifs <;> exact againInUse_congr rfl rfl rfl h
    case semBGive s =>
      rw [← he]
      exact againInUse_congr rfl rfl rfl h
    case semBFlush s =>
      obtain ⟨ts, -, hk⟩ := Option.map_eq_some_iff.mp (flush_some he).1
      rw [← hk]
      exact againInUse_congr rfl rfl rfl h
    case semBDelete s =>
      obtain ⟨ts, -, hk⟩ := Option.map_eq_some_iff.mp (flush_some he).1
      rw [← hk]
      exact againInUse_congr rfl rfl rfl h
    case semCInit s i n =>
      rw [← he, semCInit]
      split_ifs
      · exact h
      · cases c <;> first | exact h | exact List.mem_append_left _ h
    case semCTake s timeout =>
      rw [← he]
      simp only [semCTake]
      split_ifs <;> exact againInUse_congr rfl rfl rfl h
    case semCGive s =>
      rw [← he]
      simp only [semCGive]
      split_ifs <;> exact againInUse_congr rfl rfl rfl h
    case semCFlush s =>
      obtain ⟨ts, -, hk⟩ := Option.map_eq_some_iff.mp (flush_some he).1
      rw [← hk]
      exact againInUse_congr rfl rfl rfl h
    case semCDelete s =>
      obtain ⟨ts, -, hk⟩ := Option.map_eq_some_iff.mp (flush_some he).1
      rw [← hk]
      exact againInUse_congr rfl rfl rfl h
    case msgQInit q n m =>
      rw [← he, msgQInit]
      split_ifs
      · exact h
      · cases c <;> first | exact h | exact List.mem_append_left _ h
    case msgQSend q buffer bufLen timeout =>
      rw [← he]
      simp only [msgQSend]
      split_ifs <;> exact againInUse_congr rfl rfl rfl h
    case msgQReceive q buffer bufLen timeout =>
      simp only [msgQReceive] at he
      split_ifs at he
      · cases hm : (k.msgQ q).msgList <;> rw [hm] at he
        · exact absurd he (by simp)
        · rw [← Option.some.inj he]
          exact againInUse_congr rfl rfl rfl h
      · rw [← Option.some.inj he]
        exact againInUse_congr rfl rfl rfl h
      · rw [← Option.some.inj he]
        exact h
    case msgQDelete q =>
      have hne := hrel q rfl
      rw [← he]
      cases c <;> simp only [againInUse] at h ⊢ <;> try exact h
      all_goals
        refine (List.mem_erase_of_ne fun heq => hne ?_).mpr h
        rw [heq]
        rfl
    all_goals exact hc.elim
  · obtain ⟨hB, hC, hQ⟩ := enter_objects hc he
    exact againInUse_congr hB.2 hC.2 hQ.2.1 h

theorem resume_againInUse (he : k.resume cur c' = some r) (h : k.againInUse c) :
    r.1.againInUse c := by
  rcases resume_cases he with ⟨hretry, -, hent⟩ | ⟨-, -, rfl⟩ | ⟨-, -, ts, x, rfl⟩
  · refine enter_againInUse hent h fun q hq => ?_
    cases c' <;> first | exact hretry.elim | exact absurd hq (by simp [Call.retry])
  · exact h
  · exact againInUse_congr rfl rfl rfl h

theorem go_againInUse {x : Rest} (hrel : x.releasing ≠ c.object) (h : k.againInUse c) :
    (k.go x).1.againInUse c := by
  by_cases hx : x.OnObject
  · cases x <;> simp only [Rest.OnObject] at hx
    case unlistSemB s =>
      cases c <;> try exact h
      case semBTake s' _ =>
        refine (List.mem_erase_of_ne fun heq => hrel ?_).mpr h
        rw [heq]
        rfl
    case unlistSemC s =>
      cases c <;> try exact h
      case semCTake s' _ =>
        refine (List.mem_erase_of_ne fun heq => hrel ?_).mpr h
        rw [heq]
        rfl
  · obtain ⟨hB, hC, hQ⟩ := k.go_objects hx
    exact againInUse_congr hB.2 hC.2 hQ.2.1 h

theorem exec_againInUse (hof : UnlockedOf k) (he : k.exec a = some (k', d))
    (hrel : ∀ o ∈ c.object, k.releasing a ≠ some o) (h : k.againInUse c) : k'.againInUse c := by
  rcases exec_objects hof he with ⟨⟨k₁, hsame, hk'⟩, -⟩ | ⟨c', r, hc, hacts, hk', -⟩
  · rw [hk']
    exact againInUse_congr hsame.1.2 hsame.2.1.2 hsame.2.2.2.1 h
  · have hr : r.1.againInUse c := by
      rcases hacts with ⟨cur, hcur, hsec⟩ | ⟨hcur, rfl, x, ho, hb⟩
      · cases hsec with
        | call _ hent =>
          refine enter_againInUse hent h fun q hq ho => ?_
          rw [hq] at hrel
          exact hrel _ ho rfl
        | resume _ hres => exact resume_againInUse hres h
        | @go _ x hpc =>
          cases ho : c.object with
          | none => exact againInUse_of_none ho
          | some o =>
            refine go_againInUse (fun heq => hrel o ho ?_) h
            rw [releasing, hcur, Option.bind_some, Pc.unlockedAt_eq_some.mpr ⟨_, hpc⟩,
              Option.bind_some, heq, ho]
      · have hent := bootCall_enter hc hb
        obtain ⟨k₁, o⟩ := r
        obtain rfl : o = .ret x := ho
        refine enter_againInUse hent h fun q hq => ?_
        rw [hq] at hb
        exact absurd hb (by simp [bootCall])
    rw [hk']
    exact againInUse_congr rfl rfl rfl hr

end Lists

theorem popWaiters_tcb_of_ne {x : Option TcbPtr} (h : Tasks.Linked ts seq x) {l : QueueId}
    (hne : (seq l).head? ≠ some t) : (popWaiters ts l).tcb t = ts.tcb t := by
  cases hc : seq l with
  | nil => rw [popWaiters, h.dlistGet_nil hc]
  | cons p rest =>
    have htcb : (popWaiters ts l).tcb = (((ts.dlistGet l).1.setDelay p 0).readyQPut p).tcb := by
      rw [popWaiters, h.dlistGet_cons hc]
      rfl
    have ht : t ≠ p := by
      rintro rfl
      exact hne (by rw [hc]; rfl)
    rw [htcb, Tasks.readyQPut_tcb, Function.update_of_ne ht]
    exact Function.update_of_ne ht ..

theorem popWaiters_tcb (h : Tasks.Linked ts seq none) (l : QueueId) (t : TcbPtr) :
    ((popWaiters ts l).tcb t = ts.tcb t ∧ (seq l).head? ≠ some t) ∨
      (((popWaiters ts l).tcb t).status = .ready ∧ ((popWaiters ts l).tcb t).delayTicks = 0) := by
  by_cases hne : (seq l).head? ≠ some t
  · exact Or.inl ⟨popWaiters_tcb_of_ne h hne, hne⟩
  · right
    obtain ⟨rest, hc⟩ := List.head?_eq_some_iff.mp (not_not.mp hne)
    have htcb : (popWaiters ts l).tcb = (((ts.dlistGet l).1.setDelay t 0).readyQPut t).tcb := by
      rw [popWaiters, h.dlistGet_cons hc]
      rfl
    rw [htcb, Tasks.readyQPut_tcb, Function.update_self]
    have hset : ((ts.dlistGet l).1.setDelay t 0).tcb t =
        { ts.tcb t with delayTicks := 0 } := Function.update_self ..
    rw [hset]
    exact ⟨rfl, rfl⟩

theorem msgQDelete_only {q : ObjPtr} (h : Tasks.Linked k.ts k.ts.members none)
    (hsend : (k.ts.members (.msgSend q)).length ≤ 1)
    (ht : k.ts.members (.msgSend q) = [t] ∨ k.ts.members (.msgRecv q) = [t]) :
    ((k.msgQDelete q).1.ts.tcb t).status = .ready ∧
      ((k.msgQDelete q).1.ts.tcb t).delayTicks = 0 := by
  have hmoves : ∃ seq', Tasks.Linked (popWaiters k.ts (.msgSend q)) seq' none ∧
      Tasks.Quiet none (fun _ => True) k.ts k.ts.members (popWaiters k.ts (.msgSend q)) seq' ∧
      seq' (.msgSend q) = [] ∧
      ∀ k', ¬ k'.IsReady → k' ≠ .msgSend q → seq' k' = k.ts.members k' :=
    Tasks.popWaiters_moves h trivial hsend
  obtain ⟨seq₁, hlink₁, -, -, hother⟩ := hmoves
  have hrecv : seq₁ (.msgRecv q) = k.ts.members (.msgRecv q) :=
    hother _ (fun hr => hr) (by simp)
  have hts : (k.msgQDelete q).1.ts = popWaiters (popWaiters k.ts (.msgSend q)) (.msgRecv q) := rfl
  rw [hts]
  rcases popWaiters_tcb hlink₁ (.msgRecv q) t with ⟨hsame, hhead⟩ | hready
  · rw [hsame]
    refine (popWaiters_tcb h (.msgSend q) t).resolve_left ?_
    rintro ⟨-, hno⟩
    rcases ht with hs | hr
    · rw [hs] at hno
      exact hno rfl
    · rw [hrecv, hr] at hhead
      exact hhead rfl
  · exact hready

/-- A section of a take, send or receive that switches leaves the task where the call waits. -/
theorem runs_pends (h : Runs k t c r a) (ho : r.2 = .switch) (hc : c.object ≠ none) :
    (r.1.ts.tcb t).home = c.waitList := by
  cases h with
  | resume _ he => exact resume_home he ho
  | enter _ he =>
    cases c <;> simp only [Call.object, ne_eq, not_true_eq_false] at hc <;>
      simp only [enter, Option.some.injEq] at he
    case semBTake s timeout => exact semBTake_home he ho
    case semCTake s timeout => exact semCTake_home he ho
    case msgQSend q buffer bufLen timeout => exact msgQSend_home he ho
    case msgQReceive q buffer bufLen timeout => exact msgQReceive_home he ho

end Kernel

def Heeded (k : Kernel) : Prop :=
  ∀ t c, k.ts.live t = true → k.pc t = .switched c → (k.ts.tcb t).delayTicks ≠ 0 → k.againInUse c

variable {k k' : Kernel} {t : TcbPtr} {e : Event} {c : Call} {o : Object}

theorem Parked.againInUse (hpark : Parked k) (hinv : k.Inv) (hl : k.ts.live t = true)
    (hne : (k.ts.tcb t).status ≠ .ready) (hpc : k.pc t = .switched c) : k.againInUse c := by
  obtain ⟨c', hpc', hhome⟩ := hpark t hl hne
  obtain rfl := Pc.switched.inj (hpc.symm.trans hpc')
  cases c
  case semBTake s timeout => exact hinv.registered t (.semB s) hl hhome
  case semCTake s timeout => exact hinv.registered t (.semC s) hl hhome
  case msgQSend q buffer bufLen timeout => exact hinv.registered t (.msgSend q) hl hhome
  case msgQReceive q buffer bufLen timeout => exact hinv.registered t (.msgRecv q) hl hhome
  all_goals trivial

theorem SparesCalls.nobody (h : SparesCalls k e) (hinv : k.Inv) (hpark : Parked k)
    {l : QueueId} (hl : ¬ l.IsReady) (ho : k.releasing e.act = some o) (hgo : e.act = .go)
    (hobj : ∀ c : Call, c.waitList = some l → c.object = some o) : k.ts.members l = [] := by
  by_contra hne
  obtain ⟨t, ht⟩ := List.exists_mem_of_ne_nil _ hne
  have hhome := hinv.linked.home_of_mem ht
  have hlive := hinv.linked.live_of_mem ht
  have hwait : (k.ts.tcb t).status ≠ .ready := fun hr => hl ((OsTcb.status_of_home hhome).mp hr)
  obtain ⟨c, hpc, hc⟩ := hpark t hlive hwait
  have hin : t ∈ k.inside o := Kernel.mem_inside.mpr ⟨hlive, c, hpc, hobj c (by rw [← hc, hhome])⟩
  rcases h o ho t hin with ⟨hr, -⟩ | ⟨q, hact, -⟩
  · exact hwait hr
  · rw [hgo] at hact
    exact absurd hact (by simp)

theorem SparesCalls.defined (h : SparesCalls k e) (hinv : k.Inv) (hpark : Parked k)
    (hheed : Heeded k) (hen : k.enabled e.act) : k.defined e.act := by
  cases ha : e.act with
  | resume =>
    intro cur c hcur hpc hd
    exact hheed cur c (hinv.running cur hcur).1 hpc hd
  | go =>
    intro cur c x hcur hpc
    have hrel : k.releasing e.act = x.releasing := by
      rw [ha, Kernel.releasing, hcur, Option.bind_some, Pc.unlockedAt_eq_some.mpr ⟨c, hpc⟩,
        Option.bind_some]
    cases x <;> simp only [Kernel.restOk]
    case unlistSemB s =>
      refine h.nobody hinv hpark (fun hr => hr) hrel ha fun c hc => ?_
      cases c <;> simp only [Call.waitList, Option.some.injEq, reduceCtorEq] at hc
      rw [QueueId.semB.inj hc]
      rfl
    case unlistSemC s =>
      refine h.nobody hinv hpark (fun hr => hr) hrel ha fun c hc => ?_
      cases c <;> simp only [Call.waitList, Option.some.injEq, reduceCtorEq] at hc
      rw [QueueId.semC.inj hc]
      rfl
  | _ =>
    rw [ha] at hen
    exact hen

theorem releasing_runs (ho : k.releasing e.act = some o) (hs : k.exec e.act = some (k', e.done))
    (hin : t ∈ k.inside o) : k.curTcb ≠ some t ∧ ∀ u, e.act ≠ .call (.taskDelete u) := by
  obtain ⟨-, c, hpc, -⟩ := Kernel.mem_inside.mp hin
  constructor
  · intro hcur
    cases ha : e.act with
    | call c' =>
      rw [ha] at hs
      simp only [Kernel.exec, hcur, Option.bind_eq_bind, Option.bind_some] at hs
      rw [hpc] at hs
      exact absurd hs (by simp)
    | go =>
      rw [ha, Kernel.releasing, hcur, Option.bind_some, hpc] at ho
      exact absurd ho (by simp [Pc.unlockedAt])
    | _ =>
      rw [ha] at ho
      exact absurd ho (by simp [Kernel.releasing])
  · intro u ha
    rw [ha] at ho
    exact absurd ho (by simp [Kernel.releasing])

/-- A released object has left the tasks inside a call on it ready with no ticks left. -/
theorem SparesCalls.leaves (h : SparesCalls k e) (hinv : k.Inv) (hsafe : Safe k e)
    (hs : system.step k e k') (ho : k.releasing e.act = some o) (ht : t ∈ k.inside o) :
    k'.ts.live t = true ∧ (k'.ts.tcb t).status = .ready ∧ k'.pc t = k.pc t ∧
      (k'.ts.tcb t).delayTicks = 0 := by
  obtain ⟨hcur, hdel⟩ := releasing_runs ho hs.2 ht
  obtain ⟨hlive, -⟩ := Kernel.mem_inside.mp ht
  rcases h o ho t ht with ⟨hr, hd⟩ | ⟨q, ha, hone⟩
  · obtain ⟨hl', hr', hpc', hd'⟩ := ready_stays hlive hr hinv hsafe hs hcur (hdel t)
    exact ⟨hl', hr', hpc', by rw [hd', hd]⟩
  · have hexec := hs.2
    rw [Safe, ha] at hsafe
    rw [ha] at hexec
    obtain ⟨seq', -, hq⟩ :=
      (Kernel.msgQDelete_calm hinv.linked hsafe.1 hsafe.2 : Kernel.Calm none _ _ _).moves
    obtain ⟨hr, hd⟩ := Kernel.msgQDelete_only hinv.linked hsafe.1 hone
    rcases Kernel.exec_cases hexec with ⟨cur, c, r, hc, hsec, hf⟩ | ⟨_, _, -, hno, -⟩ |
      ⟨_, -, hno, -⟩ | ⟨_, _, -, hno, -⟩ | ⟨-, hno, -⟩
    · cases hsec with
      | call _ hent =>
        obtain rfl : k.msgQDelete q = r := Option.some.inj hent
        rcases Kernel.finish_cases hf with ⟨-, hk', -⟩ | ⟨hno, -, -⟩
        · have hne : t ≠ cur := fun heq => hcur (by rw [hc, heq])
          have hts : k'.ts = (k.msgQDelete q).1.ts := by rw [hk']; rfl
          have hpc : k'.pc t = k.pc t := by rw [hk']; exact Function.update_of_ne hne ..
          rw [hts, hq.live]
          exact ⟨hlive, hr, hpc, hd⟩
        · exact absurd hno (by simp [Kernel.msgQDelete])
    all_goals exact absurd hno (by simp)

theorem switched_before (hinv : k.Inv) (hsafe : Safe k e) (hs : system.step k e k')
    (hl : k'.ts.live t = true) (hpc : k'.pc t = .switched c) :
    (∃ r, k.curTcb = some t ∧ Kernel.Runs k t c r e.act ∧ r.2 = .switch ∧ k'.ts = r.1.ts) ∨
      (k.curTcb ≠ some t ∧ k.ts.live t = true ∧ k.pc t = .switched c) := by
  by_cases hcur : k.curTcb = some t
  · obtain ⟨r, hruns, ho, hk'⟩ := Kernel.exec_switched hs.2 hcur hpc
    exact Or.inl ⟨r, hcur, hruns, ho, by rw [hk']⟩
  · obtain ⟨r, hdoes⟩ := (Kernel.exec_sound hinv hs.1 hsafe hs.2).1
    have hpcr : r.1.pc t = .switched c := by rw [← hdoes.pc t hcur, hpc]
    have hlr : r.1.ts.live t = true := by
      rw [hdoes.state] at hl
      exact hl
    have hlk := hdoes.effect.live hlr (by rw [hpcr]; simp)
    exact Or.inr ⟨hcur, hlk, by rw [← hdoes.effect.pc_live hlk, hpcr]⟩

theorem Heeded.step (h : Heeded k) (hreach : Reachable system Safe k) (hsafe : Safe k e)
    (hspare : SparesCalls k e) (hs : system.step k e k') : Heeded k' := by
  have hinv := reachable_inv hreach
  have hreach' := hreach.step hsafe hs
  have hinv' := reachable_inv hreach'
  intro t c hl hpc hd
  by_cases hr : (k'.ts.tcb t).status = .ready
  · rcases switched_before hinv hsafe hs hl hpc with ⟨r, hcur, hruns, ho, hts⟩ | ⟨hcur, hlk, hpck⟩
    · -- a task that goes into such a call waits
      cases hobj : c.object with
      | none => exact Kernel.againInUse_of_none hobj
      | some o =>
        have hhome := Kernel.runs_pends hruns ho (by rw [hobj]; simp)
        rw [← hts, OsTcb.home_of_ready hr] at hhome
        cases c <;> simp only [Call.waitList, Option.some.injEq, reduceCtorEq] at hhome
    · have hdel : e.act ≠ .call (.taskDelete t) := by
        intro ha
        obtain ⟨hdef, hexec⟩ := hs
        rw [Safe, ha] at hsafe
        rw [ha] at hdef hexec
        rw [Kernel.exec_delete hinv hdef hsafe hexec] at hl
        exact absurd hl (by decide)
      have hin : ∀ o ∈ c.object, k.releasing e.act ≠ some o := by
        intro o hobj hrel
        have hmem : t ∈ k.inside o := Kernel.mem_inside.mpr ⟨hlk, c, hpck, hobj⟩
        obtain ⟨-, -, -, hz⟩ := hspare.leaves hinv hsafe hs hrel hmem
        exact hd hz
      apply Kernel.exec_againInUse (unlocked_of hreach) hs.2 hin
      by_cases hrk : (k.ts.tcb t).status = .ready
      · obtain ⟨-, -, -, hdk⟩ := ready_stays hlk hrk hinv hsafe hs hcur hdel
        exact h t c hlk hpck (by rw [← hdk]; exact hd)
      · exact (reachable_parked hreach).againInUse hinv hlk hrk hpck
  · exact (reachable_parked hreach').againInUse hinv' hl hr hpc

/-- `t` is ready inside a call on an object, with no ticks left to go back to it. -/
structure Dismissed (k : Kernel) (t : TcbPtr) : Prop where
  live : k.ts.live t = true
  ready : (k.ts.tcb t).status = .ready
  delay : (k.ts.tcb t).delayTicks = 0
  inside : ∃ c, k.pc t = .switched c ∧ c.object ≠ none

/-- The tasks that were inside a call on an object when it was released and have not run since. -/
def leftAfter (k : Kernel) (e : Event) (_ : Kernel) (left : Finset TcbPtr) : Finset TcbPtr :=
  left \ leaving k e ∪ match k.releasing e.act with
    | some o => k.inside o
    | none => ∅

def deleteSystem : System (Kernel × Finset TcbPtr) Event := looseSystem.withGhost ∅ leftAfter

/-- The kernel with other contents of the objects and of all lists. -/
def Kernel.withObjects (k : Kernel) (semB : ObjPtr → SemBin) (semC : ObjPtr → SemCnt)
    (msgQ : ObjPtr → MsgQue) (dl : ListHeap.Heap QueueId TcbPtr) : Kernel :=
  { k with semB := semB, semC := semC, msgQ := msgQ, ts := { k.ts with dl := dl } }

/-- The step neither reads nor writes an object or its wait lists. -/
def Ignores (k : Kernel) (e : Event) (k' : Kernel) : Prop :=
  ∀ semB semC msgQ dl, (k.withObjects semB semC msgQ dl).exec e.act =
    some (k'.withObjects semB semC msgQ dl, e.done)

theorem Kernel.exec_resume_fails (hcur : k.curTcb = some t) (hpc : k.pc t = .switched c)
    (hc : c.object ≠ none) (hd : (k.ts.tcb t).delayTicks = 0) :
    k.exec .resume = some (k.setPc t .user, some (c, c.failure)) := by
  have hres : k.resume t c = some (k, .ret c.failure) := by
    cases c <;> simp only [Call.object, ne_eq, not_true_eq_false] at hc
    case semBTake s timeout => simp [resume, semBResume, hd, Call.failure]
    case semCTake s timeout => simp [resume, semCResume, hd, Call.failure]
    case msgQSend q buffer bufLen timeout => simp [resume, msgQSendResume, hd, Call.failure]
    case msgQReceive q buffer bufLen timeout => simp [resume, msgQReceiveResume, hd, Call.failure]
  simp [exec, hcur, hpc, hres, finish]

theorem Dismissed.step (h : Dismissed k t) (hinv : k.Inv) (hsafe : Safe k e)
    (hs : system.step k e k') (hstay : t ∉ leaving k e) : Dismissed k' t := by
  obtain ⟨c, hpc, hc⟩ := h.inside
  have hcur : k.curTcb ≠ some t := by
    intro hcur
    apply hstay
    rw [leaving, Kernel.exec_switched_resumes hs.2 hcur hpc, hcur]
    simp
  have hdel : e.act ≠ .call (.taskDelete t) := by
    intro hact
    apply hstay
    rw [leaving, hact]
    simp
  obtain ⟨hl, hr, hpc', hd⟩ := ready_stays h.live h.ready hinv hsafe hs hcur hdel
  exact ⟨hl, hr, by rw [hd, h.delay], c, hpc'.trans hpc, hc⟩

/-- Where every deletion finds the tasks inside calls on its object ready and out of ticks, no
call goes back to an object that is gone, and all of them fail. -/
theorem no_use_after_delete {left : Finset TcbPtr}
    (h : Reachable deleteSystem (fun x e => Safe x.1 e ∧ SparesCalls x.1 e) (k, left)) :
    (∀ t ∈ left, Dismissed k t) ∧
    ∀ e k', looseSystem.step k e k' → ∀ t ∈ left, k.curTcb = some t →
      ∃ c, k.pc t = .switched c ∧ e.done = some (c, c.failure) ∧ Ignores k e k' := by
  have hinit : ∀ x, deleteSystem.init x →
      Reachable system Safe x.1 ∧ Heeded x.1 ∧ ∀ t ∈ x.2, Dismissed x.1 t := by
    rintro ⟨k, left⟩ ⟨hk, hleft⟩
    obtain rfl : left = ∅ := hleft
    refine ⟨.init hk, fun t c _ hpc _ => ?_, fun t ht => absurd ht (Finset.notMem_empty t)⟩
    rw [Kernel.init_eq hk, Kernel.initial_pc] at hpc
    exact absurd hpc (by simp)
  have hstep : ∀ x e y, (Reachable system Safe x.1 ∧ Heeded x.1 ∧ ∀ t ∈ x.2, Dismissed x.1 t) →
      (Safe x.1 e ∧ SparesCalls x.1 e) → deleteSystem.step x e y →
      Reachable system Safe y.1 ∧ Heeded y.1 ∧ ∀ t ∈ y.2, Dismissed y.1 t := by
    rintro ⟨k, left⟩ e ⟨k', left'⟩ ⟨hreach, hheed, hleft⟩ ⟨hsafe, hspare⟩ ⟨⟨hen, hexec⟩, hghost⟩
    obtain rfl : left' = leftAfter k e k' left := hghost
    have hinv := reachable_inv hreach
    have hs : system.step k e k' :=
      ⟨hspare.defined hinv (reachable_parked hreach) hheed hen, hexec⟩
    refine ⟨hreach.step hsafe hs, hheed.step hreach hsafe hspare hs, fun t ht => ?_⟩
    rcases Finset.mem_union.mp ht with hold | hnew
    · obtain ⟨hin, hstay⟩ := Finset.mem_sdiff.mp hold
      exact (hleft t hin).step hinv hsafe hs hstay
    · split at hnew
      · rename_i o ho
        obtain ⟨-, c, hpc, hc⟩ := Kernel.mem_inside.mp hnew
        obtain ⟨hl, hr, hpc', hd⟩ := hspare.leaves hinv hsafe hs ho hnew
        exact ⟨hl, hr, hd, c, hpc'.trans hpc, by rw [hc]; simp⟩
      · exact absurd hnew (Finset.notMem_empty t)
  obtain ⟨-, -, hleft⟩ := h.invariant hinit hstep
  refine ⟨hleft, fun e k' hs t ht hcur => ?_⟩
  obtain ⟨c, hpc, hc⟩ := (hleft t ht).inside
  have hd := (hleft t ht).delay
  have hexec := hs.2
  have hact := Kernel.exec_switched_resumes hexec hcur hpc
  rw [hact, Kernel.exec_resume_fails hcur hpc hc hd] at hexec
  obtain ⟨hk', hdone⟩ := Prod.mk.inj (Option.some.inj hexec)
  refine ⟨c, hpc, hdone.symm, fun semB semC msgQ dl => ?_⟩
  rw [hact, ← hk', ← hdone]
  exact Kernel.exec_resume_fails (k := k.withObjects semB semC msgQ dl) hcur hpc hc hd

theorem Kernel.enabled_of_defined {a : Act} (h : k.defined a) : k.enabled a := by
  cases a <;> first | exact trivial | exact h

theorem left_of_release {P : Kernel → Event → Prop} {k₁ k₂ : Kernel}
    {d₁ d₂ : Option (Call × Result)} (h : Reachable system P k) (h₁ : k.exec .go = some (k₁, d₁))
    (h₂ : k₁.exec .tick = some (k₂, d₂)) (hP₁ : P k ⟨.go, d₁⟩) (hP₂ : P k₁ ⟨.tick, d₂⟩)
    (ho : k.releasing .go = some o) (ht : t ∈ k.inside o) :
    ∃ left, Reachable deleteSystem (fun x e => P x.1 e) (k₂, left) ∧ t ∈ left := by
  have hloose : Reachable looseSystem P k := by
    refine h.invariant (fun k hk => .init hk) fun k e k' hk hok hs => ?_
    exact hk.step hok ⟨Kernel.enabled_of_defined hs.1, hs.2⟩
  obtain ⟨left, hleft⟩ :
      ∃ left, Reachable deleteSystem (fun x e => P x.1 e) (k, left) := hloose.exists_ghost
  have hgo : deleteSystem.step (k, left) ⟨.go, d₁⟩ (k₁, leftAfter k ⟨.go, d₁⟩ k₁ left) :=
    ⟨⟨trivial, h₁⟩, rfl⟩
  have hin : t ∈ leftAfter k ⟨.go, d₁⟩ k₁ left := by
    rw [leftAfter, ho]
    exact Finset.mem_union_right _ ht
  have htick : deleteSystem.step (k₁, leftAfter k ⟨.go, d₁⟩ k₁ left) ⟨.tick, d₂⟩
      (k₂, leftAfter k₁ ⟨.tick, d₂⟩ k₂ (leftAfter k ⟨.go, d₁⟩ k₁ left)) :=
    ⟨⟨trivial, h₂⟩, rfl⟩
  refine ⟨_, (hleft.step hP₁ hgo).step hP₂ htick, Finset.mem_union_left _ ?_⟩
  exact Finset.mem_sdiff.mpr ⟨hin, Finset.notMem_empty t⟩

/-- Task 1 waits for a semaphore, task 2 gives it and deletes it; task 1 then takes it. -/
theorem takes_after_delete : ∃ (k k' : Kernel) (left : Finset TcbPtr) (e : Event),
    Reachable deleteSystem (fun x e => Safe x.1 e) (k, left) ∧ 1 ∈ left ∧ k.curTcb = some 1 ∧
    0 ∉ k.semBList ∧ looseSystem.step k e k' ∧ e.done = some (.semBTake 0 9, .status .ok) ∧
    k'.semB 0 ≠ k.semB 0 := by
  obtain ⟨⟨es, k⟩, hk, hnext⟩ := Option.bind_eq_some_iff.mp (show
    ((replay (fun _ e => e.act.isPlain) .initial
      [.boot (.semBInit 0), .boot (.taskCreate 1024 3), .boot (.taskCreate 1024 4), .load,
        .call (.semBTake 0 0), .call (.semBTake 0 9), .call (.semBGive 0),
        .call (.semBDelete 0)]).bind fun s => (s.2.exec .go).bind fun r₁ =>
      (r₁.1.exec .tick).bind fun r₂ => (r₂.1.exec .resume).map fun r₃ =>
        (decide (s.2.releasing .go = some (.semB 0) ∧ 1 ∈ s.2.inside (.semB 0) ∧
          r₂.1.curTcb = some 1 ∧ r₂.1.semBList = [] ∧ (r₂.1.semB 0).ownerTcb = none ∧
          (r₃.1.semB 0).ownerTcb = some 1), r₃.2)) =
      some (true, some (.semBTake 0 9, .status .ok)) by decide)
  obtain ⟨⟨k₁, d₁⟩, h₁, hnext⟩ := Option.bind_eq_some_iff.mp hnext
  obtain ⟨⟨k₂, d₂⟩, h₂, hnext⟩ := Option.bind_eq_some_iff.mp hnext
  obtain ⟨⟨k₃, d₃⟩, h₃, hfact⟩ := Option.map_eq_some_iff.mp hnext
  simp only [Prod.mk.injEq] at hfact
  obtain ⟨htrue, rfl⟩ := hfact
  obtain ⟨ho, hin, hcur, hlist, hfree, howned⟩ := of_decide_eq_true htrue
  have hreach : Reachable system Safe k :=
    replay_reachable (fun k e he => Act.safe_of_isPlain he) hk
  obtain ⟨left, hleft, hmem⟩ :=
    left_of_release hreach h₁ h₂ trivial trivial ho hin
  refine ⟨k₂, k₃, left, ⟨.resume, _⟩, hleft, hmem, hcur, by rw [hlist]; simp, ⟨trivial, h₃⟩, rfl,
    fun heq => ?_⟩
  rw [heq, hfree] at howned
  exact absurd howned (by simp)

/-- The same without the give: the take fails and leaves the deleted semaphore alone. -/
theorem no_use_after_delete_waiting : ∃ (k k' : Kernel) (left : Finset TcbPtr) (e : Event),
    1 ∈ left ∧ looseSystem.step k e k' ∧ e.done = some (.semBTake 0 9, .status .error) ∧
    Ignores k e k' := by
  obtain ⟨⟨es, k⟩, hk, hnext⟩ := Option.bind_eq_some_iff.mp (show
    ((replay (fun k e => e.act.isPlain && decide (∀ o ∈ k.releasing e.act, ∀ t ∈ k.inside o,
        (k.ts.tcb t).status = .ready ∧ (k.ts.tcb t).delayTicks = 0)) .initial
      [.boot (.semBInit 0), .boot (.taskCreate 1024 3), .boot (.taskCreate 1024 4), .load,
        .call (.semBTake 0 0), .call (.semBTake 0 9), .call (.semBDelete 0)]).bind fun s =>
      (s.2.exec .go).bind fun r₁ => (r₁.1.exec .tick).bind fun r₂ =>
        (r₂.1.exec .resume).map fun r₃ =>
        (s.2.releasing .go, decide (1 ∈ s.2.inside (.semB 0)),
          decide (∀ t ∈ s.2.inside (.semB 0),
            (s.2.ts.tcb t).status = .ready ∧ (s.2.ts.tcb t).delayTicks = 0),
          r₂.1.curTcb, (r₂.1.pc 1).switchedIn)) =
      some (some (.semB 0), true, true, some 1, some (.semBTake 0 9)) by decide +kernel)
  obtain ⟨⟨k₁, d₁⟩, h₁, hnext⟩ := Option.bind_eq_some_iff.mp hnext
  obtain ⟨⟨k₂, d₂⟩, h₂, hnext⟩ := Option.bind_eq_some_iff.mp hnext
  obtain ⟨⟨k₃, d₃⟩, h₃, hfact⟩ := Option.map_eq_some_iff.mp hnext
  simp only [Prod.mk.injEq] at hfact
  obtain ⟨ho, hin, hspared, hcur, hpc⟩ := hfact
  have hreach : Reachable system (fun k e => Safe k e ∧ SparesCalls k e) k := by
    refine replay_reachable (fun k e he => ?_) hk
    obtain ⟨hplain, hdec⟩ := Bool.and_eq_true_iff.mp he
    exact ⟨Act.safe_of_isPlain hplain, fun o ho t ht => Or.inl (of_decide_eq_true hdec o ho t ht)⟩
  obtain ⟨left, hleft, hmem⟩ := left_of_release hreach h₁ h₂
    ⟨trivial, fun o' ho' t ht => Or.inl (of_decide_eq_true hspared t (by
      obtain rfl := Option.some.inj (ho.symm.trans ho')
      exact ht))⟩
    ⟨trivial, fun o' ho' => absurd ho' (by simp [Kernel.releasing])⟩ ho (of_decide_eq_true hin)
  have hs : looseSystem.step k₂ ⟨.resume, d₃⟩ k₃ := ⟨trivial, h₃⟩
  obtain ⟨-, hfails⟩ := no_use_after_delete hleft
  obtain ⟨c, hc, hdone, hignores⟩ := hfails _ _ hs 1 hmem hcur
  obtain rfl : c = .semBTake 0 9 :=
    Pc.switched.inj (hc.symm.trans (Pc.switchedIn_eq_some.mp hpc))
  exact ⟨k₂, k₃, left, _, hmem, hs, hdone, hignores⟩

end DfewOS
