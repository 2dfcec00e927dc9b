import DfewOS.TickSpec

/-!
# Every safe step keeps the invariant

`Keeps` is what a critical section that neither creates nor ends a task leaves
to `finish`; the sections of `task.c` change the set of tasks and have their own
lemmas. `Inv` of all states that safe steps reach is the result.
-/

namespace DfewOS
open Tasks (Linked)
open Transition (Run Reachable)

def Outcome.pc (c : Call) : Outcome → Pc
  | .ret _ => .user
  | .switch => .switched c
  | .unlock x => .unlocked c x

def Outcome.result : Outcome → Option Result
  | .ret x => some x
  | _ => none

namespace Kernel

variable {k k' k₁ : Kernel} {cur t p : TcbPtr} {c : Call} {o : Outcome} {d : Option (Call × Result)}

structure Keeps (cur : Option TcbPtr) (k : Kernel) (r : Kernel × Outcome) : Prop where
  core : r.1.Core
  curTcb : r.1.curTcb = k.curTcb
  live : r.1.ts.live = k.ts.live
  tcbMap : r.1.tcbMap = k.tcbMap
  pc : r.1.pc = k.pc
  dead : ∀ t, k.ts.live t = false → r.1.ts.tcb t = k.ts.tcb t
  running : r.2 ≠ .switch → ∀ t, cur = some t → (r.1.ts.tcb t).status = .ready

theorem Calm.core {cur : Option TcbPtr} {r : Kernel × Outcome} (h : k.Core)
    (hc : Calm cur k k.ts.members r) (hcur : cur ≠ some idle) : r.1.Core := by
  obtain ⟨seq', hlink, hq⟩ := hc.moves
  have hmem := members_of_linked hlink
  have hidle : r.1.ts.tcb idle = k.ts.tcb idle := by
    apply hq.kept
    · exact fun he => hcur he.symm
    · rw [h.idle.2]
      exact fun ho => ho
  refine ⟨by rw [hmem]; exact hlink, hc.objects h.objects, ?_, ?_, ?_, ?_, ?_⟩
  · rw [hidle, hq.live]
    exact h.idle
  · intro m t ho
    rw [hc.semM] at ho
    rw [hq.live]
    exact h.owner m t ho
  · intro m hm
    rw [hmem, hq.waiters] at hm
    rw [hc.semM]
    exact h.waited m hm
  · intro m ho
    rw [hc.semM] at ho
    rw [hc.semMList]
    exact h.owned m ho
  · intro t l hl hh
    have hl' : k.ts.live t = true := by rw [← hq.live, hl]
    have hreg : k.Registered l := by
      rcases hq.wait t with he | hr | ⟨-, l', hg, hh'⟩
      · exact h.registered t l hl' (by rw [← he, hh])
      · rw [OsTcb.home_of_ready hr] at hh
        obtain rfl := Option.some.inj hh
        trivial
      · rw [hh'] at hh
        obtain rfl := Option.some.inj hh
        exact hg.2
    rcases hc.registered l hreg with hreg' | hno
    · exact hreg'
    · exact absurd hh (hno t hl)

theorem Calm.keeps {cur : Option TcbPtr} {r : Kernel × Outcome} (h : k.Core)
    (hc : Calm cur k k.ts.members r) (hcur : cur ≠ some idle)
    (hs : ∀ t, cur = some t → (k.ts.tcb t).status = .ready) : Keeps cur k r := by
  obtain ⟨seq', hlink, hq⟩ := hc.moves
  refine ⟨hc.core h hcur, hc.curTcb, hq.live, hc.tcbMap, hc.pc, hq.dead, fun hne t ht => ?_⟩
  rcases hq.wait t with he | hr | ⟨-, l, hg, -⟩
  · rw [OsTcb.home_of_ready (hs t ht)] at he
    exact (OsTcb.status_of_home he).mpr trivial
  · exact hr
  · exact absurd hg.1 hne

theorem Pool.keep (h : k.Pool) (hmap : k'.tcbMap = k.tcbMap) (hlive : k'.ts.live = k.ts.live)
    (hpc : ∀ t p, k'.creating t = some p → k.creating t = some p)
    (hdead : ∀ t, k.ts.live t = false → k'.ts.tcb t = k.ts.tcb t) : k'.Pool := by
  refine ⟨?_, ?_, ?_, ?_, ?_⟩
  · intro t ht
    rw [hlive] at ht
    rw [hmap]
    exact h.live t ht
  · intro t p hp
    rw [hmap]
    exact h.taken t p (hpc t p hp)
  · intro t p hp
    rw [hlive]
    exact h.dead t p (hpc t p hp)
  · intro t p hp
    rw [hdead p (h.dead t p (hpc t p hp))]
    exact h.unborn t p (hpc t p hp)
  · intro t u p ht hu
    exact h.distinct t u p (hpc t p ht) (hpc u p hu)

theorem creating_setPc (k : Kernel) (cur t : TcbPtr) (pc : Pc) :
    (k.setPc cur pc).creating t = if t = cur then pc.creating else k.creating t := by
  by_cases ht : t = cur
  · subst ht
    simp [creating, setPc]
  · simp [creating, setPc, ht]

theorem creating_setPc_of_none {pc : Pc} (hpc : pc.creating = none)
    (h : (k.setPc cur pc).creating t = some p) : k.creating t = some p := by
  rw [creating_setPc] at h
  split_ifs at h
  · rw [hpc] at h
    exact absurd h (by simp)
  · exact h

/-- `finish` records where the task is; after `CONTEXT_SWITCH` another task may run. -/
theorem finish_cases {r : Kernel × Outcome} (h : finish cur c r = some (k', d)) :
    (r.2 ≠ .switch ∧ k' = r.1.setPc cur (r.2.pc c) ∧ d = r.2.result.map fun x => (c, x)) ∨
    (r.2 = .switch ∧ (r.1.setPc cur (r.2.pc c)).loadHighestTask = some k' ∧ d = none) := by
  obtain ⟨k₁, o⟩ := r
  cases o with
  | ret x =>
    simp only [finish, Option.some.injEq, Prod.mk.injEq] at h
    exact Or.inl ⟨by simp, h.1.symm, h.2.symm⟩
  | switch =>
    simp only [finish, Option.map_eq_some_iff, Prod.mk.injEq] at h
    obtain ⟨k₂, hload, rfl, rfl⟩ := h
    exact Or.inr ⟨rfl, hload, rfl⟩
  | unlock x =>
    simp only [finish, Option.some.injEq, Prod.mk.injEq] at h
    exact Or.inl ⟨by simp, h.1.symm, h.2.symm⟩

theorem Core.congr_pc (h : k.Core) (pc : TcbPtr → Pc) (curTcb : Option TcbPtr) :
    Core { k with pc := pc, curTcb := curTcb } :=
  ⟨h.linked, ⟨h.objects.semB, h.objects.semC, h.objects.semM, h.objects.msgQ⟩, h.idle, h.owner,
    h.waited, h.owned, fun t l hl hh => by
      have hreg := h.registered t l hl hh
      cases l <;> exact hreg⟩

theorem load_inv (h : k.Core) (hpool : k.Pool) (hidle : k.pc idle = .user)
    (hload : k.loadHighestTask = some k') : k'.Inv := by
  obtain ⟨t, hrun, hl, hs⟩ := loadHighestTask_ready h.linked h.idle.1 h.idle.2
  obtain rfl := Option.some.inj (hrun.symm.trans hload)
  refine ⟨h.congr_pc k.pc (some t), ?_, hidle, fun u hu => ?_⟩
  · exact hpool.keep rfl rfl (fun _ _ hp => hp) fun _ _ => rfl
  · obtain rfl := Option.some.inj hu
    exact ⟨hl, hs⟩

/-- What `finish` needs of the section that the running task has just been through. -/
structure Settled (cur : TcbPtr) (c : Call) (r : Kernel × Outcome) : Prop where
  core : r.1.Core
  curTcb : r.1.curTcb = some cur
  idlePc : r.1.pc DfewOS.idle = .user
  pool : (r.1.setPc cur (r.2.pc c)).Pool
  running : r.2 ≠ .switch → r.1.ts.live cur = true ∧ (r.1.ts.tcb cur).status = .ready

theorem Settled.finish_inv {r : Kernel × Outcome} (h : Settled cur c r) (hne : cur ≠ idle)
    (he : finish cur c r = some (k', d)) : k'.Inv := by
  have hidle : (r.1.setPc cur (r.2.pc c)).pc idle = .user := by
    simpa [setPc, hne.symm] using h.idlePc
  rcases finish_cases he with ⟨ho, rfl, -⟩ | ⟨-, hload, -⟩
  · refine ⟨h.core.congr_pc _ _, h.pool, hidle, fun t ht => ?_⟩
    have hct : r.1.curTcb = some t := ht
    rw [h.curTcb] at hct
    obtain rfl := Option.some.inj hct
    exact h.running ho
  · exact load_inv (h.core.congr_pc _ _) h.pool hidle hload

theorem Keeps.settled {r : Kernel × Outcome} (hk : Keeps (some cur) k r) (h : k.Inv)
    (hcur : k.curTcb = some cur) (hrest : ∀ x, r.2 = .unlock x → x.creating = none) :
    Settled cur c r := by
  refine ⟨hk.core, hk.curTcb.trans hcur, by rw [hk.pc]; exact h.idlePc, ?_, fun ho => ?_⟩
  · have hnone : (r.2.pc c).creating = none := by
      cases ho : r.2 with
      | ret x => rfl
      | switch => rfl
      | unlock x => exact hrest x ho
    refine h.pool.keep hk.tcbMap hk.live (fun t p hp => ?_) hk.dead
    have hp' := creating_setPc_of_none hnone hp
    rwa [creating, hk.pc] at hp'
  · rw [hk.live]
    exact ⟨(h.running cur hcur).1, hk.running ho cur rfl⟩

theorem Core.setSemM (h : k.Core) {m : ObjPtr} {v : SemMux} (hm : m ∈ k.semMList)
    (hown : ∀ t, v.ownerTcb = some t → k.ts.live t = true)
    (hw : k.ts.members (.semM m) ≠ [] → v.ownerTcb ≠ none) : (k.setSemM m v).Core := by
  refine ⟨h.linked, ⟨h.objects.semB, h.objects.semC, h.objects.semM, h.objects.msgQ⟩, h.idle, ?_,
    ?_, ?_, fun t l hl hh => ?_⟩
  · intro m' t ho
    by_cases hmm : m' = m
    · subst hmm
      exact hown t (by simpa [Kernel.setSemM] using ho)
    · exact h.owner m' t (by simpa [Kernel.setSemM, hmm] using ho)
  · intro m' hne
    by_cases hmm : m' = m
    · subst hmm
      simpa [Kernel.setSemM] using hw hne
    · simpa [Kernel.setSemM, hmm] using h.waited m' hne
  · intro m' ho
    by_cases hmm : m' = m
    · subst hmm
      exact hm
    · exact h.owned m' (by simpa [Kernel.setSemM, hmm] using ho)
  · have hreg := h.registered t l hl hh
    cases l <;> exact hreg

theorem setSemM_keeps {m : ObjPtr} {v : SemMux} (h : k.Core)
    (hs : (k.ts.tcb cur).status = .ready) (hm : m ∈ k.semMList)
    (hown : ∀ t, v.ownerTcb = some t → k.ts.live t = true)
    (hw : k.ts.members (.semM m) ≠ [] → v.ownerTcb ≠ none) :
    Keeps (some cur) k (k.setSemM m v, o) := by
  refine ⟨h.setSemM hm hown hw, rfl, rfl, rfl, rfl, fun _ _ => rfl, fun _ t ht => ?_⟩
  obtain rfl := Option.some.inj ht
  exact hs

theorem semMInit_keeps {cur : Option TcbPtr} {m : ObjPtr} (h : k.Core)
    (hs : ∀ t, cur = some t → (k.ts.tcb t).status = .ready) (hm : m ∉ k.semMList)
    (hnil : k.ts.members (.semM m) = []) : Keeps cur k (k.semMInit m) := by
  have hlink := h.linked.dlistInit hnil
  have hmem := members_of_linked hlink
  refine ⟨⟨?_, ?_, h.idle, ?_, ?_, ?_, ?_⟩, rfl, rfl, rfl, rfl, fun _ _ => rfl, fun _ => hs⟩
  · rw [show (k.semMInit m).1.ts = k.ts.dlistInit (.semM m) from rfl, hmem]
    exact hlink
  · exact ⟨h.objects.semB, h.objects.semC, nodup_snoc h.objects.semM hm, h.objects.msgQ⟩
  · intro m' t ho
    by_cases hmm : m' = m
    · subst hmm
      simp [semMInit, setSemM] at ho
    · exact h.owner m' t (by simpa [semMInit, setSemM, hmm] using ho)
  · intro m' hne
    rw [show (k.semMInit m).1.ts = k.ts.dlistInit (.semM m) from rfl, hmem] at hne
    by_cases hmm : m' = m
    · subst hmm
      exact absurd hnil hne
    · simpa [semMInit, setSemM, hmm] using h.waited m' hne
  · intro m' ho
    by_cases hmm : m' = m
    · subst hmm
      simp [semMInit]
    · have ho' : (k.semM m').ownerTcb ≠ none := by simpa [semMInit, setSemM, hmm] using ho
      exact List.mem_append_left _ (h.owned m' ho')
  · intro t l hl hh
    have hreg := h.registered t l hl hh
    cases l
    case semM => exact List.mem_append_left _ hreg
    all_goals exact hreg

theorem BlocksOn.keeps {m : ObjPtr} {timeout : ℕ} {xs ys : List TcbPtr} (h : k.Core)
    (hl : k.ts.live cur = true) (hidle : cur ≠ idle) (hnone : (k.semM m).ownerTcb ≠ none)
    (hb : BlocksOn k cur m timeout k₁ k' xs ys) : Keeps (some cur) k (k', .switch) := by
  have hrest := hb.rest
  have hother : ∀ t, t ≠ cur → (k'.ts.tcb t).status = (k.ts.tcb t).status ∧
      (k'.ts.tcb t).pendObj = (k.ts.tcb t).pendObj := fun t ht => by
    rw [hb.tcb t ht]
    exact ⟨rfl, rfl⟩
  refine ⟨⟨hb.linked, ?_, ?_, ?_, ?_, ?_, ?_⟩, ?_, hb.live, ?_, ?_, ?_, fun hne => absurd rfl hne⟩
  · rw [hrest]
    exact ⟨h.objects.semB, h.objects.semC, h.objects.semM, h.objects.msgQ⟩
  · rw [hb.live, (hother idle hidle.symm).1]
    exact h.idle
  · intro m' t ho
    rw [hb.owner] at ho
    rw [hb.live]
    exact h.owner m' t ho
  · intro m' hne
    rw [hb.owner]
    by_cases hm : m' = m
    · subst hm
      exact hnone
    · have hready : ¬ (QueueId.semM m').IsReady := fun hr => hr
      rw [hb.others (.semM m') hready (by simpa using hm)] at hne
      exact h.waited m' hne
  · intro m' ho
    rw [hb.owner] at ho
    rw [hrest]
    exact h.owned m' ho
  · intro t l hl hh
    rw [hb.live] at hl
    suffices hreg : k.Registered l by
      rw [hrest]
      cases l <;> exact hreg
    by_cases ht : t = cur
    · subst ht
      rw [hb.self] at hh
      obtain rfl := Option.some.inj hh
      exact h.owned m hnone
    · by_cases hready : (k.ts.tcb t).status = .ready
      · rw [OsTcb.home_of_ready ((hother t ht).1.trans hready)] at hh
        obtain rfl := Option.some.inj hh
        trivial
      · rw [OsTcb.home_congr (hother t ht).1 (hother t ht).2 fun hr => absurd hr hready] at hh
        exact h.registered t l hl hh
  · rw [hrest]
  · rw [hrest]
  · rw [hrest]
  · intro t ht
    have hne : t ≠ cur := by
      rintro rfl
      rw [hl] at ht
      exact absurd ht (by decide)
    have hkept := hb.boosted.kept t fun hr => by
      obtain ⟨m', ho⟩ := hr.owned
      rw [h.owner m' t ho] at ht
      exact absurd ht (by decide)
    rw [hb.tcb t hne, show (k₁.ts.tcb t).taskPriority = (k.ts.tcb t).taskPriority from hkept]

theorem Gives.keeps {m : ObjPtr} {n : Option TcbPtr} {rest : List TcbPtr} (h : k.Core)
    (hl : k.ts.live cur = true) (hs : (k.ts.tcb cur).status = .ready)
    (hg : Gives k cur m k' n rest) : Keeps (some cur) k (k', o) := by
  have hfields := hg.fields
  have hnext : ∀ t, n = some t → t ∈ k.ts.members (.semM m) := by
    rintro t rfl
    rw [hg.split]
    simp
  have hcur : (k'.ts.tcb cur).status = .ready := by
    rw [hg.self]
    exact hs
  have hstay : ∀ t, t ≠ cur → some t ≠ n → k'.ts.tcb t = k.ts.tcb t := hg.tcb
  refine ⟨⟨hg.linked, ?_, ?_, ?_, ?_, ?_, ?_⟩, ?_, hg.live, ?_, ?_, ?_, fun _ t ht => ?_⟩
  · rw [hfields]
    exact ⟨h.objects.semB, h.objects.semC, h.objects.semM, h.objects.msgQ⟩
  · rw [hg.live]
    refine ⟨h.idle.1, ?_⟩
    by_cases hi : idle = cur
    · rw [hi]
      exact hcur
    · by_cases hn : n = some idle
      · rw [(hg.next idle hn).2]
      · rw [hstay idle hi fun he => hn he.symm]
        exact h.idle.2
  · intro m' t ho
    rw [hg.live]
    by_cases hm : m' = m
    · subst hm
      rw [hg.owner] at ho
      exact h.linked.live_of_mem (hnext t ho)
    · rw [hg.semM m' hm] at ho
      exact h.owner m' t ho
  · intro m' hne
    by_cases hm : m' = m
    · subst hm
      rw [hg.owner]
      rw [hg.waiters] at hne
      exact fun hn => hne (hg.nil hn)
    · have hready : ¬ (QueueId.semM m').IsReady := fun hr => hr
      rw [hg.others (.semM m') hready (by simpa using hm)] at hne
      rw [hg.semM m' hm]
      exact h.waited m' hne
  · intro m' ho
    rw [hfields]
    by_cases hm : m' = m
    · subst hm
      rw [hg.owner] at ho
      obtain ⟨t, ht⟩ := Option.ne_none_iff_exists'.mp ho
      have hmem := hnext t ht
      exact h.registered t _ (h.linked.live_of_mem hmem) (h.linked.home_of_mem hmem)
    · rw [hg.semM m' hm] at ho
      exact h.owned m' ho
  · intro t l hl' hh
    rw [hg.live] at hl'
    suffices hreg : k.Registered l by
      rw [hfields]
      cases l <;> exact hreg
    have hready : (k'.ts.tcb t).status = .ready → k.Registered l := fun hr => by
      rw [OsTcb.home_of_ready hr] at hh
      obtain rfl := Option.some.inj hh
      trivial
    by_cases ht : t = cur
    · exact hready (ht ▸ hcur)
    · by_cases hn : n = some t
      · exact hready (by rw [(hg.next t hn).2])
      · rw [hstay t ht fun he => hn he.symm] at hh
        exact h.registered t l hl' hh
  · rw [hfields]
  · rw [hfields]
  · rw [hfields]
  · intro t ht
    apply hstay
    · rintro rfl
      rw [hl] at ht
      exact absurd ht (by decide)
    · intro he
      rw [h.linked.live_of_mem (hnext t he.symm)] at ht
      exact absurd ht (by decide)
  · obtain rfl := Option.some.inj ht
    exact hcur

theorem semMTake_keeps {m : ObjPtr} {timeout : ℕ} (h : k.Core) (hl : k.ts.live cur = true)
    (hs : (k.ts.tcb cur).status = .ready) (hidle : cur ≠ idle) (hm : m ∈ k.semMList)
    (he : k.semMTake cur m timeout = some (k', o)) : Keeps (some cur) k (k', o) := by
  rcases semMTake_cases h hl hs he with ⟨-, -, rfl⟩ | ⟨ho, -, rfl⟩ | ⟨-, -, -, -, rfl⟩ |
    ⟨hnone, -, -, rfl, k₁, xs, ys, hb⟩
  · refine setSemM_keeps h hs hm ?_ fun _ => by simp
    intro t ht
    obtain rfl := Option.some.inj ht
    exact hl
  · refine setSemM_keeps h hs hm ?_ fun _ => by simp [ho]
    intro t ht
    exact h.owner m t ht
  · refine ⟨h, rfl, rfl, rfl, rfl, fun _ _ => rfl, fun _ t ht => ?_⟩
    obtain rfl := Option.some.inj ht
    exact hs
  · exact hb.keeps h hl hidle hnone

theorem semMGive_keeps {m : ObjPtr} (h : k.Core) (hl : k.ts.live cur = true)
    (hs : (k.ts.tcb cur).status = .ready) (hm : m ∈ k.semMList) :
    Keeps (some cur) k (k.semMGive cur m) := by
  obtain ⟨k', o, he⟩ : ∃ k' o, k.semMGive cur m = (k', o) := ⟨_, _, rfl⟩
  rw [he]
  rcases semMGive_cases h.linked hl hs he with ⟨-, -, rfl⟩ | ⟨-, -, n, rest, hg⟩
  · exact setSemM_keeps h hs hm (h.owner m) (h.waited m)
  · exact hg.keeps h hl hs

theorem Ticks.core (h : k.Core) (ht : Ticks k k') : k'.Core := by
  have hfields := ht.fields
  have hsem : k'.semM = k.semM := by rw [hfields]
  have hwalk : ∀ t l, ¬ l.IsReady → t ∈ k.ts.members l →
      (k'.ts.tcb t).status = .ready ∨ (k'.ts.tcb t).home = (k.ts.tcb t).home := by
    intro t l hr hm
    obtain ⟨pre, x, post, hsplit, -, hw⟩ := ht.walked l hr
    rw [hsplit, List.mem_append, List.mem_append] at hm
    rcases hm with hm | hm | hm
    · rw [(hw.counted t hm).2]
      exact Or.inr (OsTcb.home_congr rfl rfl fun _ => rfl)
    · rw [(hw.expired t (Option.mem_toList.mp hm)).2]
      exact Or.inl rfl
    · rw [hw.skipped t hm]
      exact Or.inr rfl
  have hout : ∀ t l, k.ts.live t = true → (k.ts.tcb t).home = some l → l.IsReady →
      k'.ts.tcb t = k.ts.tcb t := by
    intro t l hl hh hr
    apply ht.kept
    intro j hj hm
    rw [h.linked.home_of_mem hm] at hh
    exact hj (Option.some.inj hh ▸ hr)
  refine ⟨ht.linked, ?_, ?_, ?_, ?_, ?_, ?_⟩
  · rw [hfields]
    exact ⟨h.objects.semB, h.objects.semC, h.objects.semM, h.objects.msgQ⟩
  · rw [ht.live, hout idle _ h.idle.1 (OsTcb.home_of_ready h.idle.2) trivial]
    exact h.idle
  · intro m t ho
    rw [hsem] at ho
    rw [ht.live]
    exact h.owner m t ho
  · intro m hne
    have hready : ¬ (QueueId.semM m).IsReady := fun hr => hr
    obtain ⟨pre, x, post, hsplit, hseq, -⟩ := ht.walked (.semM m) hready
    rw [hsem]
    apply h.waited
    rw [hseq] at hne
    rw [hsplit]
    intro hc
    simp only [List.append_eq_nil_iff] at hc
    exact hne (by rw [hc.1, hc.2.2]; rfl)
  · intro m ho
    rw [hsem] at ho
    rw [hfields]
    exact h.owned m ho
  · intro t l hl hh
    rw [ht.live] at hl
    suffices hreg : k.Registered l by
      rw [hfields]
      cases l <;> exact hreg
    obtain ⟨j, hj⟩ := Option.ne_none_iff_exists'.mp (h.linked.placed t hl (by simp)).home
    by_cases hr : j.IsReady
    · rw [hout t j hl hj hr] at hh
      exact h.registered t l hl hh
    · have hm : t ∈ k.ts.members j := (h.linked.home t j).mpr ⟨hl, by simp, hj⟩
      rcases hwalk t j hr hm with hs | he
      · rw [OsTcb.home_of_ready hs] at hh
        obtain rfl := Option.some.inj hh
        trivial
      · rw [he] at hh
        exact h.registered t l hl hh

theorem Ticks.dead (h : k.Core) (ht : Ticks k k') (hd : k.ts.live t = false) :
    k'.ts.tcb t = k.ts.tcb t := by
  apply ht.kept
  intro l _ hm
  rw [h.linked.live_of_mem hm] at hd
  exact absurd hd (by decide)

theorem Terminates.core (h : k.Core) (hne : t ≠ idle)
    (hfree : ∀ m, (k.semM m).ownerTcb = some t → k.ts.members (.semM m) = [])
    (ht : Terminates k t k') : k'.Core := by
  have hfields := ht.fields
  have hlive : ∀ u, k'.ts.live u = true → k.ts.live u = true ∧ u ≠ t := by
    intro u hu
    rw [ht.live] at hu
    by_cases hut : u = t
    · subst hut
      simp at hu
    · exact ⟨by simpa [hut] using hu, hut⟩
  refine ⟨ht.linked, ?_, ?_, ?_, ?_, ?_, ?_⟩
  · rw [hfields]
    exact ⟨h.objects.semB, h.objects.semC, h.objects.semM, h.objects.msgQ⟩
  · rw [ht.live, ht.tcb, Function.update_of_ne hne.symm]
    exact h.idle
  · intro m u ho
    rw [ht.owner] at ho
    split_ifs at ho with hown
    have hut : u ≠ t := by
      rintro rfl
      exact hown ho
    rw [ht.live, Function.update_of_ne hut]
    exact h.owner m u ho
  · intro m hw
    have hready : ¬ (QueueId.semM m).IsReady := fun hr => hr
    rw [ht.lists _ hready] at hw
    have hold : k.ts.members (.semM m) ≠ [] := by
      intro hnil
      rw [hnil] at hw
      exact hw rfl
    rw [ht.owner, if_neg fun ho => hold (hfree m ho)]
    exact h.waited m hold
  · intro m ho
    rw [ht.owner] at ho
    rw [hfields]
    apply h.owned
    intro hn
    rw [hn] at ho
    exact ho (by simp)
  · intro u l hl hh
    have hreg := h.registered u l (hlive u hl).1 (by rw [← ht.tcb]; exact hh)
    rw [hfields]
    cases l <;> exact hreg

theorem Terminates.pool (hpool : k.Pool) (hl : k.ts.live t = true) (ht : Terminates k t k') :
    k'.Pool := by
  have hmap : k'.tcbMap = BitMap.set k.tcbMap t.val := by rw [ht.fields]
  have hpc : k'.creating = k.creating := by
    funext u
    rw [creating, creating, ht.fields]
  have hval : ∀ u : TcbPtr, u ≠ t → BitMap.value k.tcbMap u.val = false →
      BitMap.value k'.tcbMap u.val = false := by
    intro u hu hv
    have hne : u.val ≠ t.val := fun he => hu (Fin.ext he)
    rw [hmap, BitMap.value_set, hv]
    simp [hne.symm]
  have hdead : ∀ u p, k.creating u = some p → p ≠ t := by
    rintro u p hp rfl
    rw [hpool.dead u p hp] at hl
    exact absurd hl (by decide)
  refine ⟨?_, ?_, ?_, ?_, ?_⟩
  · intro u hu
    rw [ht.live] at hu
    by_cases hut : u = t
    · subst hut
      simp at hu
    · exact hval u hut (hpool.live u (by simpa [hut] using hu))
  · intro u p hp
    rw [hpc] at hp
    exact hval p (hdead u p hp) (hpool.taken u p hp)
  · intro u p hp
    rw [hpc] at hp
    rw [ht.live, Function.update_of_ne (hdead u p hp)]
    exact hpool.dead u p hp
  · intro u p hp
    rw [hpc] at hp
    rw [ht.tcb]
    exact hpool.unborn u p hp
  · intro u v p hu hv
    rw [hpc] at hu hv
    exact hpool.distinct u v p hu hv

theorem Births.core (h : k.Core) (hd : k.ts.live t = false) (hb : Births k t k') : k'.Core := by
  have hfields := hb.fields
  have hlive : ∀ u, k.ts.live u = true → u ≠ t ∧ k'.ts.live u = true := by
    intro u hu
    have hut : u ≠ t := by
      rintro rfl
      rw [hd] at hu
      exact absurd hu (by decide)
    exact ⟨hut, by rw [hb.live, Function.update_of_ne hut, hu]⟩
  obtain ⟨hidle, hil⟩ := hlive idle h.idle.1
  refine ⟨hb.linked, ?_, ⟨hil, ?_⟩, ?_, ?_, ?_, ?_⟩
  · rw [hfields]
    exact ⟨h.objects.semB, h.objects.semC, h.objects.semM, h.objects.msgQ⟩
  · rw [hb.tcb, Function.update_of_ne hidle]
    exact h.idle.2
  · intro m u ho
    rw [hfields] at ho
    exact (hlive u (h.owner m u ho)).2
  · intro m hw
    have hready : ¬ (QueueId.semM m).IsReady := fun hr => hr
    rw [hb.lists _ hready] at hw
    rw [hfields]
    exact h.waited m hw
  · intro m ho
    rw [hfields] at ho ⊢
    exact h.owned m ho
  · intro u l hl hh
    suffices hreg : k.Registered l by
      rw [hfields]
      cases l <;> exact hreg
    by_cases hut : u = t
    · subst hut
      rw [hb.tcb, Function.update_self] at hh
      obtain rfl := Option.some.inj hh
      trivial
    · rw [hb.live, Function.update_of_ne hut] at hl
      rw [hb.tcb, Function.update_of_ne hut] at hh
      exact h.registered u l hl hh

theorem Core.setTcb_dead (h : k.Core) (hd : k.ts.live p = false) (v : OsTcb) :
    Core { k with ts := k.ts.setTcb p v } := by
  have hne : ∀ u, k.ts.live u = true → u ≠ p := by
    rintro u hu rfl
    rw [hd] at hu
    exact absurd hu (by decide)
  have hkeep : ∀ u, k.ts.live u = true → (k.ts.setTcb p v).tcb u = k.ts.tcb u := fun u hu => by
    simp [Tasks.setTcb, hne u hu]
  refine ⟨h.linked.setTcb_dead hd v, ⟨h.objects.semB, h.objects.semC, h.objects.semM,
    h.objects.msgQ⟩, ⟨h.idle.1, ?_⟩, h.owner, h.waited, h.owned, fun t l hl hh => ?_⟩
  · exact (congrArg OsTcb.status (hkeep _ h.idle.1)).trans h.idle.2
  · have hreg := h.registered t l hl (by rw [← hkeep t hl]; exact hh)
    cases l <;> exact hreg

theorem Core.congr_maps (h : k.Core) (tcbMap stackMap : ℕ → BitVec 32) (n : ℕ) :
    Core { k with tcbMap := tcbMap, stackMap := stackMap, taskNum := n } :=
  ⟨h.linked, ⟨h.objects.semB, h.objects.semC, h.objects.semM, h.objects.msgQ⟩, h.idle, h.owner,
    h.waited, h.owned, fun t l hl hh => by
      have hreg := h.registered t l hl hh
      cases l <;> exact hreg⟩

theorem enter_rest {x : Rest} (hc : c.IsCalm) (he : k.enter cur c = some (k', .unlock x)) :
    x.creating = none := by
  cases c <;> simp only [enter, Option.some.injEq, Option.map_eq_some_iff, Prod.mk.injEq] at he
  case taskCreate => exact hc.elim
  case taskDelete => exact hc.elim
  case semMInit => exact hc.elim
  case semMTake => exact hc.elim
  case semMGive => exact hc.elim
  case semBFlush =>
    obtain ⟨_, -, -, hx⟩ := he
    exact absurd hx (by simp)
  case semCFlush =>
    obtain ⟨_, -, -, hx⟩ := he
    exact absurd hx (by simp)
  case semBDelete =>
    obtain ⟨_, -, -, hx⟩ := he
    obtain rfl := Outcome.unlock.inj hx
    rfl
  case semCDelete =>
    obtain ⟨_, -, -, hx⟩ := he
    obtain rfl := Outcome.unlock.inj hx
    rfl
  case msgQReceive q buffer bufLen timeout =>
    rw [msgQReceive] at he
    split_ifs at he
    · cases hm : (k.msgQ q).msgList <;> simp [hm] at he
    · simp at he
    · simp at he
  all_goals
    simp only [delayQDelay, semBInit, semBTake, semBGive, semCInit, semCTake, semCGive, msgQInit,
      msgQSend, msgQDelete] at he
    first | (split_ifs at he <;> simp at he) | simp at he

theorem resume_unlock {x : Rest} : k.resume cur c ≠ some (k', .unlock x) := by
  intro he
  cases c <;> simp only [resume, Option.some.injEq, reduceCtorEq, Prod.mk.injEq, and_false] at he
  case semBTake s _ =>
    simp only [semBResume, semBTake] at he
    split_ifs at he <;> simp at he
  case semCTake s _ =>
    simp only [semCResume, semCTake] at he
    split_ifs at he <;> simp at he
  case semMTake _ _ =>
    rw [semMResume] at he
    split_ifs at he <;> simp at he
  case msgQSend q buffer bufLen _ =>
    simp only [msgQSendResume, msgQSend] at he
    split_ifs at he <;> simp at he
  case msgQReceive q buffer bufLen _ =>
    simp only [msgQReceiveResume, msgQReceive] at he
    split_ifs at he
    · cases hm : (k.msgQ q).msgList <;> simp [hm] at he
    all_goals simp at he

end Kernel

end DfewOS
