import DfewOS.MutexSpec

/-!
# The beginning and the end of a task

`Terminates` is what `task_delete` and the return from an entry function have
in common when the mutexes of the task have no waiters; `Births` is the last
critical section of `task_create`.
-/

namespace DfewOS.Kernel
open Tasks (Linked)
open ListHeap (push drop)

variable {k k' : Kernel} {seq seq' : QueueId → List TcbPtr} {t : TcbPtr} {m : ObjPtr}

def released (v : SemMux) : SemMux := { v with ownerTcb := none, takeCount := 0 }

theorem freeSemM_eq
    (hnil : (k.semM m).ownerTcb = some t → (k.ts.dl.list (.semM m)).head = none) :
    freeSemM t k m =
      if (k.semM m).ownerTcb = some t then k.setSemM m (released (k.semM m)) else k := by
  rw [freeSemM]
  split_ifs with ho
  · have hget : k.ts.dlistGet (.semM m) = (k.ts, none) := by
      simp only [Tasks.dlistGet, Dlist.dlistGet, hnil ho]
    simp [setSemM, hget, released]
  · rfl

def freed (t : TcbPtr) (ms : List ObjPtr) (semM : ObjPtr → SemMux) : ObjPtr → SemMux :=
  fun m => if m ∈ ms ∧ (semM m).ownerTcb = some t then released (semM m) else semM m

theorem foldl_freeSemM (ms : List ObjPtr)
    (hnil : ∀ m, (k.semM m).ownerTcb = some t → (k.ts.dl.list (.semM m)).head = none) :
    ms.foldl (freeSemM t) k = { k with semM := freed t ms k.semM } := by
  induction ms generalizing k with
  | nil =>
    have hsem : freed t [] k.semM = k.semM := by
      funext m
      simp [freed]
    rw [List.foldl_nil, hsem]
  | cons m ms ih =>
    rw [List.foldl_cons, freeSemM_eq (hnil m)]
    split_ifs with ho
    · rw [ih]
      · have hsem : freed t ms (k.setSemM m (released (k.semM m))).semM =
            freed t (m :: ms) k.semM := by
          funext m'
          by_cases hm : m' = m
          · subst hm; simp [freed, setSemM, released, ho]
          · simp [freed, setSemM, hm]
        rw [hsem]
        rfl
      · intro m' ho'
        by_cases hm : m' = m
        · subst hm
          simp [setSemM, released] at ho'
        · exact hnil m' (by simpa [setSemM, hm] using ho')
    · rw [ih hnil]
      have hsem : freed t ms k.semM = freed t (m :: ms) k.semM := by
        funext m'
        by_cases hm : m' = m
        · subst hm; simp [freed, ho]
        · simp [freed, hm]
      rw [hsem]

/-- `t` leaves the list it is in, and a mutex it waited for asks its other waiters. -/
structure Unlinks (k : Kernel) (t : TcbPtr) (k' : Kernel) (seq' : QueueId → List TcbPtr) :
    Prop where
  linked : Linked k'.ts seq' (some t)
  fields : k' = { k with ts := k'.ts, semM := k'.semM }
  tcb : k'.ts.tcb = k.ts.tcb
  live : k'.ts.live = k.ts.live
  lists : ∀ l, ¬ l.IsReady → seq' l = (k.ts.members l).erase t
  semM : ∀ m, k'.semM m = if t ∈ k.ts.members (.semM m)
    then { k.semM m with waitPri := firstPri k.ts ((k.ts.members (.semM m)).erase t) }
    else k.semM m

theorem drop_eq_erase (h : Linked k.ts seq none) {l : QueueId} (ht : t ∈ seq l) (j : QueueId) :
    drop seq l t j = (seq j).erase t := by
  by_cases hj : j = l
  · subst hj
    rw [ListHeap.drop_self]
  · have hne : t ∉ seq j := fun hm => hj (h.lists.disjoint j l t hm ht)
    rw [ListHeap.drop_of_ne _ _ _ hj, List.erase_of_not_mem hne]

theorem unlinks_ready (h : Linked k.ts k.ts.members none) (hl : k.ts.live t = true)
    (hs : (k.ts.tcb t).status = .ready) :
    Unlinks k t { k with ts := k.ts.readyQRemove t }
      (drop k.ts.members (.ready (k.ts.tcb t).taskPriority) t) := by
  have hm := h.mem_ready hl hs
  refine ⟨h.readyQRemove hl hs, rfl, Tasks.readyQRemove_tcb _ _, Tasks.readyQRemove_live _ _,
    fun l _ => drop_eq_erase h hm l, fun m => ?_⟩
  have hne : t ∉ k.ts.members (.semM m) := fun hc => by
    have he := h.lists.disjoint _ _ t hm hc
    exact absurd he (by simp)
  rw [if_neg hne]

theorem unlinks_other {l : QueueId} (h : Linked k.ts k.ts.members none) (hl : k.ts.live t = true)
    (hh : (k.ts.tcb t).home = some l) (hnr : ¬ l.IsReady) (hnm : ¬ l.IsSemM) :
    Unlinks k t { k with ts := k.ts.dlistRemove l t } (drop k.ts.members l t) := by
  have hm : t ∈ k.ts.members l := (h.home t l).mpr ⟨hl, by simp, hh⟩
  refine ⟨h.dlistRemove hm hnr, rfl, rfl, rfl, fun l _ => drop_eq_erase h hm l, fun m => ?_⟩
  have hne : t ∉ k.ts.members (.semM m) := fun hc => by
    have he := h.lists.disjoint _ _ t hm hc
    exact hnm (he ▸ trivial)
  rw [if_neg hne]

theorem unlinks_semM (h : Linked k.ts k.ts.members none) (hl : k.ts.live t = true)
    (hh : (k.ts.tcb t).home = some (.semM m)) :
    Unlinks k t (k.semMRemove m t) (drop k.ts.members (.semM m) t) := by
  have hnr : ¬ (QueueId.semM m).IsReady := fun hr => hr
  have hm : t ∈ k.ts.members (.semM m) := (h.home t _).mpr ⟨hl, by simp, hh⟩
  have hlink := h.dlistRemove hm hnr
  have hupd := updateWaitPri_eq
    (show Linked (Kernel.ts { k with ts := k.ts.dlistRemove (.semM m) t }) _ _ from hlink) m
  rw [ListHeap.drop_self] at hupd
  have hdef : k.semMRemove m t = setSemM { k with ts := k.ts.dlistRemove (.semM m) t } m
      { k.semM m with waitPri := firstPri k.ts ((k.ts.members (.semM m)).erase t) } := hupd
  rw [hdef]
  refine ⟨hlink, rfl, rfl, rfl, fun l _ => drop_eq_erase h hm l, fun m' => ?_⟩
  by_cases he : m' = m
  · subst he
    rw [if_pos hm]
    simp [setSemM]
  · have hne : t ∉ k.ts.members (.semM m') := fun hc =>
      he (QueueId.semM.inj (h.lists.disjoint _ _ t hc hm))
    rw [if_neg hne]
    simp [setSemM, he]

theorem unlinkTask_unlinks (h : Linked k.ts k.ts.members none) (hl : k.ts.live t = true) :
    ∃ k' seq', k.unlinkTask t = some k' ∧ Unlinks k t k' seq' := by
  obtain ⟨l, hh⟩ := Option.ne_none_iff_exists'.mp (h.placed t hl (by simp)).home
  have hhome := hh
  rw [OsTcb.home] at hh
  cases hs : (k.ts.tcb t).status <;> rw [hs] at hh
  case ready => exact ⟨_, _, by rw [unlinkTask, hs], unlinks_ready h hl hs⟩
  case delay =>
    obtain rfl := Option.some.inj hh
    exact ⟨_, _, by rw [unlinkTask, hs], unlinks_other h hl hhome (fun hr => hr) fun hm => hm⟩
  case pendSemM =>
    obtain ⟨o, ho, rfl⟩ := Option.map_eq_some_iff.mp hh
    exact ⟨_, _, by rw [unlinkTask, hs, ho]; rfl, unlinks_semM h hl hhome⟩
  all_goals
    obtain ⟨o, ho, rfl⟩ := Option.map_eq_some_iff.mp hh
    exact ⟨_, _, by rw [unlinkTask, hs, ho]; rfl,
      unlinks_other h hl hhome (fun hr => hr) fun hm => hm⟩

structure Terminates (k : Kernel) (t : TcbPtr) (k' : Kernel) : Prop where
  linked : Linked k'.ts k'.ts.members none
  fields : k' = { k with ts := k'.ts, semM := k'.semM, stackMap := k'.stackMap,
                         tcbMap := BitMap.set k.tcbMap t.val, taskNum := k'.taskNum }
  live : k'.ts.live = Function.update k.ts.live t false
  tcb : k'.ts.tcb = k.ts.tcb
  lists : ∀ l, ¬ l.IsReady → k'.ts.members l = (k.ts.members l).erase t
  owner : ∀ m, (k'.semM m).ownerTcb =
    if (k.semM m).ownerTcb = some t then none else (k.semM m).ownerTcb
  count : ∀ m, (k'.semM m).takeCount =
    if (k.semM m).ownerTcb = some t then 0 else (k.semM m).takeCount
  waitPri : ∀ m, (k'.semM m).waitPri = if t ∈ k.ts.members (.semM m)
    then firstPri k.ts ((k.ts.members (.semM m)).erase t) else (k.semM m).waitPri

theorem taskDelete_terminates (h : k.Core) (hl : k.ts.live t = true)
    (hfree : ∀ m, (k.semM m).ownerTcb = some t → k.ts.members (.semM m) = []) :
    ∃ k', k.taskDelete t = some (k', .ret (.status .ok)) ∧ Terminates k t k' := by
  obtain ⟨k₁, seq₁, hrun, hun⟩ := unlinkTask_unlinks h.linked hl
  have howner : ∀ m, (k₁.semM m).ownerTcb = (k.semM m).ownerTcb := by
    intro m
    rw [hun.semM m]
    split_ifs <;> rfl
  have hcount : ∀ m, (k₁.semM m).takeCount = (k.semM m).takeCount := by
    intro m
    rw [hun.semM m]
    split_ifs <;> rfl
  have hlist : k₁.semMList = k.semMList := by rw [hun.fields]
  have hnil : ∀ m, (k₁.semM m).ownerTcb = some t → (k₁.ts.dl.list (.semM m)).head = none := by
    intro m ho
    have hready : ¬ (QueueId.semM m).IsReady := fun hr => hr
    rw [howner] at ho
    rw [hun.linked.lists.head, hun.lists _ hready, hfree m ho]
    rfl
  have hfreed : k₁.semMFree t = { k₁ with semM := freed t k₁.semMList k₁.semM } :=
    foldl_freeSemM k₁.semMList hnil
  have hkill := hun.linked.kill
  have hmem := members_of_linked hkill
  have hown : ∀ m, (k.semM m).ownerTcb = some t → m ∈ k₁.semMList := by
    intro m ho
    rw [hlist]
    exact h.owned m (by rw [ho]; simp)
  refine ⟨_, by rw [taskDelete, hrun]; rfl, ?_⟩
  have hts : (k₁.semMFree t).ts = k₁.ts := by rw [hfreed]
  have hsem : (k₁.semMFree t).semM = freed t k₁.semMList k₁.semM := by rw [hfreed]
  refine ⟨?_, ?_, ?_, ?_, ?_, ?_, ?_, ?_⟩
  · simp only [releaseTcb, releaseStack, hts, hmem]
    exact hkill
  · have hf := hun.fields
    simp only [releaseTcb, releaseStack, hfreed]
    rw [hf]
  · simp only [releaseTcb, releaseStack, hts, kill, hun.live]
  · simp only [releaseTcb, releaseStack, hts, kill, hun.tcb]
  · intro l hnr
    simp only [releaseTcb, releaseStack, hts, hmem]
    exact hun.lists l hnr
  · intro m
    simp only [releaseTcb, releaseStack, hsem, freed, howner]
    by_cases ho : (k.semM m).ownerTcb = some t
    · simp [ho, hown m ho, released]
    · simp [ho, howner]
  · intro m
    simp only [releaseTcb, releaseStack, hsem, freed, howner]
    by_cases ho : (k.semM m).ownerTcb = some t
    · simp [ho, hown m ho, released]
    · simp [ho, hcount]
  · intro m
    have hw : ((k₁.semMFree t).semM m).waitPri = (k₁.semM m).waitPri := by
      rw [hsem, freed]
      split_ifs <;> rfl
    simp only [releaseTcb, releaseStack, hw, hun.semM m]
    split_ifs <;> rfl

theorem taskReturn_terminates (h : k.Core) (hl : k.ts.live t = true)
    (hs : (k.ts.tcb t).status = .ready) (hfree : ∀ m, (k.semM m).ownerTcb ≠ some t) :
    Terminates k t (k.taskReturn t) := by
  have hun := unlinks_ready h.linked hl hs
  have hkill := hun.linked.kill
  have hmem := members_of_linked hkill
  have hnot : ∀ m, t ∉ k.ts.members (.semM m) := fun m hm => by
    have he := h.linked.lists.disjoint _ _ t (h.linked.mem_ready hl hs) hm
    exact absurd he (by simp)
  refine ⟨?_, rfl, ?_, ?_, ?_, fun m => (if_neg (hfree m)).symm, fun m => (if_neg (hfree m)).symm,
    fun m => (if_neg (hnot m)).symm⟩
  · simp only [taskReturn, releaseTcb, releaseStack, hmem]
    exact hkill
  · simp only [taskReturn, releaseTcb, releaseStack, kill, Tasks.readyQRemove_live]
  · simp only [taskReturn, releaseTcb, releaseStack, kill, Tasks.readyQRemove_tcb]
  · intro l hnr
    simp only [taskReturn, releaseTcb, releaseStack, hmem]
    exact hun.lists l hnr

structure Births (k : Kernel) (t : TcbPtr) (k' : Kernel) : Prop where
  linked : Linked k'.ts k'.ts.members none
  fields : k' = { k with ts := k'.ts, pc := Function.update k.pc t .user, taskNum := k'.taskNum }
  live : k'.ts.live = Function.update k.ts.live t true
  tcb : k'.ts.tcb = Function.update k.ts.tcb t
    { k.ts.tcb t with status := .ready, pendObj := none }
  lists : ∀ l, ¬ l.IsReady → k'.ts.members l = k.ts.members l

theorem taskCreateLink_births (h : Linked k.ts k.ts.members none) (hl : k.ts.live t = false)
    (hr : (k.ts.tcb t).InRange) : Births k t (k.taskCreateLink t).1 := by
  have hput := (h.birth hl hr).readyQPut (by simp)
  have hmem := members_of_linked hput
  have hts : (k.taskCreateLink t).1.ts =
      Tasks.readyQPut { k.ts with live := Function.update k.ts.live t true } t := rfl
  refine ⟨?_, rfl, rfl, rfl, fun l hnr => ?_⟩
  · rw [hts, hmem]
    exact hput
  · rw [hts, hmem]
    apply ListHeap.push_of_ne
    rintro rfl
    exact hnr trivial

end DfewOS.Kernel
