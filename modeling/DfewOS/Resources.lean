import DfewOS.TaskPoolSpec
import DfewOS.Allotment

/-!
# Control blocks and stacks over whole runs

`tasks` holds the control blocks of the live tasks, one entry for each task, and
`making` what is left of each `task_create` in progress. A step is one critical
section of `task_create`, a `task_delete`, or the return of a task from its entry
function; between two of them the kernel may do anything else (`exec_allots`). Every
control block belongs to one task or one creation, `G_Task_Num` counts the live
tasks, and a page of the stack memory is free exactly if no stack covers it.
-/

namespace DfewOS
open Transition (System Run Reachable)

def Rest.tcb : Rest → Option TcbPtr
  | .allocStack t | .releaseTcb t | .linkTask t => some t
  | _ => none

structure Resources where
  k : Kernel
  tasks : List TcbPtr
  making : List Rest

inductive Use
  | create (stackSize taskPriority : ℕ)
  | go (r : Rest)
  | delete (pTcb : TcbPtr)
  | exit (pTcb : TcbPtr)
  | other

namespace Resources

def after (s : Resources) : Use → Option Resources
  | .create stackSize taskPriority =>
    match s.k.taskCreate stackSize taskPriority with
    | (k, .unlock r) => some ⟨k, s.tasks, r :: s.making⟩
    | (k, _) => some ⟨k, s.tasks, s.making⟩
  | .go r =>
    if r ∈ s.making then
      match s.k.go r with
      | (k, .unlock r') => some ⟨k, s.tasks, r' :: s.making.erase r⟩
      | (k, .ret (.tcb (some t))) => some ⟨k, t :: s.tasks, s.making.erase r⟩
      | (k, _) => some ⟨k, s.tasks, s.making.erase r⟩
    else none
  | .delete t =>
    if t ∈ s.tasks then (s.k.taskDelete t).map fun r => ⟨r.1, s.tasks.erase t, s.making⟩ else none
  | .exit t => if t ∈ s.tasks then some ⟨s.k.taskReturn t, s.tasks.erase t, s.making⟩ else none
  | .other => some s

def Permits : Use → Prop
  | .create stackSize taskPriority =>
    1 ≤ stackSize ∧ stackSize ≤ 2 ^ 31 ∧ taskPriority < priorityNumMax
  | _ => True

end Resources

/-- After each step the kernel goes on in any way that leaves the allotment alone. -/
def resourceSystem : System Resources Use where
  init s := (∃ k : Kernel, k.taskNum = 0 ∧ (∀ t, k.ts.live t = false) ∧
    s.k.allotment = k.taskInit.allotment) ∧ s.tasks = [] ∧ s.making = []
  step s e s' := ∃ k, s.after e = some ⟨k, s'.tasks, s'.making⟩ ∧ s'.k.allotment = k.allotment

/-- The stack lies in the stack memory. -/
def OsTcb.StackInside (v : OsTcb) : Prop :=
  memStackLow + v.stackSize ≤ v.stackStart ∧
    v.stackStart ≤ memStackLow + memStackPageNum * memStackPageSize

/-- The pages that the bytes from `stack_start - stack_size` to `stack_start` lie on. -/
def OsTcb.stackPages (v : OsTcb) : Finset ℕ :=
  Finset.Ico ((v.stackStart - v.stackSize - memStackLow) / memStackPageSize)
    ((v.stackStart - memStackLow + memStackPageSize - 1) / memStackPageSize)

def OsTcb.HasStack (v : OsTcb) : Prop :=
  0 < v.stackSize ∧ v.stackSize ≤ 2 ^ 31 ∧ ∃ page, needStackPages v.stackSize ≤ page ∧
    page ≤ memStackPageNum ∧ v.stackStart = memStackLow + page * memStackPageSize

section Pages
variable {v : OsTcb} {size page : ℕ}

theorem needStackPages_eq (h : size ≤ 2 ^ 31) :
    needStackPages size = (size + 4095) / 4096 := by
  have hlt : size + 4096 - 1 < 2 ^ 32 := by omega
  rw [needStackPages, memStackPageSize, Nat.mod_eq_of_lt hlt]
  omega

theorem alignStackSize_bounds (h : 1 ≤ size) (h' : size ≤ 2 ^ 31) :
    size ≤ Kernel.alignStackSize size ∧ Kernel.alignStackSize size ≤ 2 ^ 31 := by
  rw [Kernel.alignStackSize, Nat.mod_eq_of_lt (by omega)]
  omega

theorem stackPages_eq (hz : v.stackSize ≤ 2 ^ 31)
    (hneed : needStackPages v.stackSize ≤ page)
    (hstart : v.stackStart = memStackLow + page * memStackPageSize) :
    v.stackPages = Finset.Ico (page - needStackPages v.stackSize) page := by
  rw [needStackPages_eq hz] at hneed ⊢
  simp only [OsTcb.stackPages, hstart, memStackPageSize, memStackLow]
  congr 1 <;> omega

theorem OsTcb.HasStack.inside (h : v.HasStack) : v.StackInside := by
  obtain ⟨hpos, hz, page, hneed, hnum, hstart⟩ := h
  rw [needStackPages_eq hz] at hneed
  simp only [OsTcb.StackInside, hstart, memStackPageSize, memStackLow, memStackPageNum] at hnum ⊢
  omega

theorem OsTcb.HasStack.pages_eq (h : v.HasStack) :
    needStackPages v.stackSize ≤ (v.stackStart - memStackLow) / memStackPageSize ∧
      (v.stackStart - memStackLow) / memStackPageSize ≤ memStackPageNum ∧
      v.stackPages = Finset.Ico ((v.stackStart - memStackLow) / memStackPageSize -
        needStackPages v.stackSize) ((v.stackStart - memStackLow) / memStackPageSize) := by
  obtain ⟨-, hz, page, hneed, hnum, hstart⟩ := h
  have htop : (v.stackStart - memStackLow) / memStackPageSize = page := by
    rw [hstart, Nat.add_sub_cancel_left]
    exact Nat.mul_div_cancel _ (by decide)
  rw [htop]
  exact ⟨hneed, hnum, stackPages_eq hz hneed hstart⟩

end Pages

/-- The stacks of the tasks `has` lie apart, and cover the pages that are not available. -/
structure Stacks (has : TcbPtr → Prop) (tcb : TcbPtr → OsTcb) (stackMap : ℕ → BitVec 32) : Prop where
  placed : ∀ t, has t → (tcb t).HasStack
  apart : ∀ t u, has t → has u → t ≠ u → Disjoint (tcb t).stackPages (tcb u).stackPages
  pages : ∀ q < memStackPageNum, BitMap.value stackMap q = false ↔
    ∃ t, has t ∧ q ∈ (tcb t).stackPages

namespace Stacks
variable {has has' : TcbPtr → Prop} {tcb tcb' : TcbPtr → OsTcb} {stackMap : ℕ → BitVec 32}
  {p : TcbPtr} {page need : ℕ}

theorem congr (h : Stacks has tcb stackMap) (hhas : ∀ t, has' t ↔ has t)
    (hs : ∀ t, has t → (tcb' t).stackStart = (tcb t).stackStart)
    (hz : ∀ t, has t → (tcb' t).stackSize = (tcb t).stackSize) : Stacks has' tcb' stackMap := by
  have hpages : ∀ t, has t → (tcb' t).stackPages = (tcb t).stackPages := by
    intro t ht
    rw [OsTcb.stackPages, OsTcb.stackPages, hs t ht, hz t ht]
  refine ⟨fun t ht => ?_, fun t u ht hu hne => ?_, fun q hq => ?_⟩
  · have hp := h.placed t ((hhas t).mp ht)
    rwa [OsTcb.HasStack, hs t ((hhas t).mp ht), hz t ((hhas t).mp ht)]
  · rw [hpages t ((hhas t).mp ht), hpages u ((hhas u).mp hu)]
    exact h.apart t u ((hhas t).mp ht) ((hhas u).mp hu) hne
  · rw [h.pages q hq]
    constructor
    · rintro ⟨t, ht, hmem⟩
      exact ⟨t, (hhas t).mpr ht, by rwa [hpages t ht]⟩
    · rintro ⟨t, ht, hmem⟩
      have ht' := (hhas t).mp ht
      exact ⟨t, ht', by rwa [← hpages t ht']⟩

theorem grow (h : Stacks has tcb stackMap) (hp : ¬ has p) (hv : (tcb p).HasStack)
    (hpages : (tcb p).stackPages = Finset.Ico (page - need) page) (hneed : need ≤ page)
    (hnum : page ≤ memStackPageNum)
    (hfree : ∀ q, page - need ≤ q → q < page → BitMap.value stackMap q = true) :
    Stacks (fun t => t = p ∨ has t) tcb (clearPages stackMap need page) := by
  have hnew : ∀ t, has t → Disjoint (tcb t).stackPages (tcb p).stackPages := by
    intro t ht
    rw [Finset.disjoint_left]
    intro q hq hq'
    rw [hpages, Finset.mem_Ico] at hq'
    have htaken := (h.pages q (by omega)).mpr ⟨t, ht, hq⟩
    rw [hfree q hq'.1 hq'.2] at htaken
    exact absurd htaken (by simp)
  refine ⟨?_, ?_, fun q hq => ?_⟩
  · rintro t (rfl | ht)
    · exact hv
    · exact h.placed t ht
  · rintro t u (rfl | ht) (rfl | hu) hne
    · exact absurd rfl hne
    · exact (hnew u hu).symm
    · exact hnew t ht
    · exact h.apart t u ht hu hne
  · rw [value_clearPages hneed, Bool.and_eq_false_iff, h.pages q hq, Bool.not_eq_false',
      decide_eq_true_eq, ← Finset.mem_Ico, ← hpages]
    constructor
    · rintro (⟨t, ht, hmem⟩ | hmem)
      · exact ⟨t, Or.inr ht, hmem⟩
      · exact ⟨p, Or.inl rfl, hmem⟩
    · rintro ⟨t, rfl | ht, hmem⟩
      · exact Or.inr hmem
      · exact Or.inl ⟨t, ht, hmem⟩

theorem shrink (h : Stacks (fun t => t = p ∨ has t) tcb stackMap) (hp : ¬ has p) :
    Stacks has tcb (setPages stackMap (needStackPages (tcb p).stackSize)
      (((tcb p).stackStart - memStackLow) / memStackPageSize)) := by
  obtain ⟨hneed, hnum, hpages⟩ := (h.placed p (Or.inl rfl)).pages_eq
  refine ⟨fun t ht => h.placed t (Or.inr ht),
    fun t u ht hu hne => h.apart t u (Or.inr ht) (Or.inr hu) hne, fun q hq => ?_⟩
  rw [value_setPages hneed, Bool.or_eq_false_iff, h.pages q hq, decide_eq_false_iff_not,
    ← Finset.mem_Ico, ← hpages]
  constructor
  · rintro ⟨⟨t, rfl | ht, hmem⟩, hno⟩
    · exact absurd hmem hno
    · exact ⟨t, ht, hmem⟩
  · rintro ⟨t, ht, hmem⟩
    refine ⟨⟨t, Or.inr ht, hmem⟩, fun hmem' => ?_⟩
    have hne : t ≠ p := by
      rintro rfl
      exact hp ht
    exact Finset.disjoint_left.mp (h.apart t p (Or.inr ht) (Or.inl rfl) hne) hmem hmem'

end Stacks

namespace Resources

/-- The tasks with a stack: the live ones, and those that wait to be linked. -/
def Stacked (tasks : List TcbPtr) (making : List Rest) (t : TcbPtr) : Prop :=
  t ∈ tasks ∨ Rest.linkTask t ∈ making

def holders (tasks : List TcbPtr) (making : List Rest) : List TcbPtr :=
  tasks ++ making.filterMap Rest.tcb

structure Inv (k : Kernel) (tasks : List TcbPtr) (making : List Rest) : Prop where
  nodup : (holders tasks making).Nodup
  kinds : ∀ r ∈ making, r.tcb ≠ none
  taken : ∀ t : TcbPtr, BitMap.value k.tcbMap t.val = false ↔ t ∈ holders tasks making
  live : ∀ t, k.ts.live t = true ↔ t ∈ tasks
  num : k.taskNum = tasks.length
  sized : ∀ t, Rest.allocStack t ∈ making →
    0 < (k.ts.tcb t).stackSize ∧ (k.ts.tcb t).stackSize ≤ 2 ^ 31
  pages : Stacks (Stacked tasks making) k.ts.tcb k.stackMap

section Holders
variable {tasks tasks' : List TcbPtr} {making making' : List Rest} {p t : TcbPtr} {r : Rest}

theorem stacked_mem (h : Stacked tasks making t) : t ∈ holders tasks making := by
  rw [holders, List.mem_append, List.mem_filterMap]
  rcases h with h | h
  · exact Or.inl h
  · exact Or.inr ⟨_, h, rfl⟩

theorem making_mem (hr : r ∈ making) (ht : r.tcb = some t) : t ∈ holders tasks making :=
  List.mem_append_right _ (List.mem_filterMap.mpr ⟨r, hr, ht⟩)

theorem holders_making (hr : r.tcb = some p) :
    (holders tasks (r :: making)).Perm (p :: holders tasks making) := by
  rw [holders, List.filterMap_cons_some hr]
  exact List.perm_middle

theorem holders_tasks : holders (p :: tasks) making = p :: holders tasks making := rfl

end Holders

namespace Inv
variable {k k' : Kernel} {tasks tasks' : List TcbPtr} {making making' : List Rest} {p t : TcbPtr}
  {r r' : Rest} {v : OsTcb}

theorem congr (hi : Inv k tasks making) (hk : k'.allotment = k.allotment)
    (ht : tasks'.Perm tasks) (hm : making'.Perm making) : Inv k' tasks' making' := by
  simp only [Kernel.allotment, Tasks.held, Prod.mk.injEq] at hk
  obtain ⟨htcb, hstack, hnum, hlive, hheld⟩ := hk
  have hstart : ∀ t, (k'.ts.tcb t).stackStart = (k.ts.tcb t).stackStart :=
    fun t => congrArg Prod.fst (congrFun hheld t)
  have hsize : ∀ t, (k'.ts.tcb t).stackSize = (k.ts.tcb t).stackSize :=
    fun t => congrArg Prod.snd (congrFun hheld t)
  have hholders : (holders tasks' making').Perm (holders tasks making) := ht.append (hm.filterMap _)
  constructor
  case nodup => exact hholders.nodup_iff.mpr hi.nodup
  case kinds => exact fun r hr => hi.kinds r (hm.mem_iff.mp hr)
  case taken => exact fun t => by rw [htcb, hi.taken, hholders.mem_iff]
  case live => exact fun t => by rw [hlive, hi.live, ht.mem_iff]
  case num => rw [hnum, hi.num, ht.length_eq]
  case sized => exact fun t hr => by rw [hsize]; exact hi.sized t (hm.mem_iff.mp hr)
  case pages =>
    rw [hstack]
    refine hi.pages.congr (fun t => ?_) (fun t _ => hstart t) fun t _ => hsize t
    rw [Stacked, Stacked, ht.mem_iff, hm.mem_iff]

theorem making_fresh (hi : Inv k tasks (r :: making)) (hr : r.tcb = some p) :
    p ∉ holders tasks making ∧ (holders tasks making).Nodup :=
  List.nodup_cons.mp ((holders_making hr).nodup_iff.mp hi.nodup)

theorem kinds_cons (hi : Inv k tasks making) (hr : r.tcb = some p) :
    ∀ x ∈ r :: making, x.tcb ≠ none := by
  intro x hx
  rcases List.mem_cons.mp hx with rfl | hx
  · simp [hr]
  · exact hi.kinds x hx

theorem taken_release {map : ℕ → BitVec 32} (hp : p ∉ holders tasks making)
    (h : ∀ t : TcbPtr, BitMap.value map t.val = false ↔ t = p ∨ t ∈ holders tasks making)
    (t : TcbPtr) : BitMap.value (BitMap.set map p.val) t.val = false ↔ t ∈ holders tasks making := by
  rw [BitMap.value_set, Bool.or_eq_false_iff, h, decide_eq_false_iff_not, ← Fin.ext_iff]
  constructor
  · rintro ⟨rfl | ht, hne⟩
    · exact absurd rfl hne
    · exact ht
  · intro ht
    refine ⟨Or.inr ht, ?_⟩
    rintro rfl
    exact hp ht

theorem begin (hi : Inv k tasks making) (hfree : BitMap.value k.tcbMap p.val = true)
    (hz : 0 < v.stackSize) (hz' : v.stackSize ≤ 2 ^ 31) :
    Inv { k with tcbMap := BitMap.clear k.tcbMap p.val, ts := k.ts.setTcb p v } tasks
      (.allocStack p :: making) := by
  have hnew : p ∉ holders tasks making := by
    rw [← hi.taken, hfree]
    simp
  have htcb : ∀ t ∈ holders tasks making, (k.ts.setTcb p v).tcb t = k.ts.tcb t := by
    intro t ht
    have hne : t ≠ p := by
      rintro rfl
      exact hnew ht
    exact Function.update_of_ne hne ..
  have hperm : (holders tasks (.allocStack p :: making)).Perm (p :: holders tasks making) :=
    holders_making rfl
  constructor
  case nodup => exact hperm.nodup_iff.mpr (List.nodup_cons.mpr ⟨hnew, hi.nodup⟩)
  case kinds => exact hi.kinds_cons rfl
  case taken =>
    intro t
    rw [BitMap.value_clear, Bool.and_eq_false_iff, hi.taken, Bool.not_eq_false', decide_eq_true_eq,
      ← Fin.ext_iff, hperm.mem_iff, List.mem_cons, or_comm, eq_comm]
  case live => exact hi.live
  case num => exact hi.num
  case sized =>
    intro t ht
    rcases List.mem_cons.mp ht with heq | ht
    · obtain rfl := Rest.allocStack.inj heq
      simpa [Tasks.setTcb] using ⟨hz, hz'⟩
    · simp only
      rw [htcb t (making_mem ht rfl)]
      exact hi.sized t ht
  case pages =>
    refine hi.pages.congr (fun t => ?_) (fun t ht => ?_) fun t ht => ?_
    · simp [Stacked]
    · rw [htcb t (stacked_mem ht)]
    · rw [htcb t (stacked_mem ht)]

theorem refuse (hi : Inv k tasks (.allocStack p :: making)) :
    Inv k tasks (.releaseTcb p :: making) := by
  constructor
  case nodup => exact hi.nodup
  case kinds =>
    intro x hx
    rcases List.mem_cons.mp hx with rfl | hx
    · simp [Rest.tcb]
    · exact hi.kinds x (List.mem_cons_of_mem _ hx)
  case taken => exact hi.taken
  case live => exact hi.live
  case num => exact hi.num
  case sized =>
    intro t ht
    rcases List.mem_cons.mp ht with heq | ht
    · cases heq
    · exact hi.sized t (List.mem_cons_of_mem _ ht)
  case pages =>
    refine hi.pages.congr (fun t => ?_) (fun _ _ => rfl) fun _ _ => rfl
    simp [Stacked]

theorem stack {page : ℕ} (hi : Inv k tasks (.allocStack p :: making))
    (hneed : needStackPages (k.ts.tcb p).stackSize ≤ page) (hnum : page ≤ memStackPageNum)
    (hfree : ∀ q, page - needStackPages (k.ts.tcb p).stackSize ≤ q → q < page →
      BitMap.value k.stackMap q = true) :
    Inv { k with
        stackMap := clearPages k.stackMap (needStackPages (k.ts.tcb p).stackSize) page
        ts := k.ts.setTcb p { k.ts.tcb p with
          stackStart := memStackLow + page * memStackPageSize } }
      tasks (.linkTask p :: making) := by
  obtain ⟨hz, hz'⟩ := hi.sized p (by simp)
  obtain ⟨hp, hnodup⟩ := hi.making_fresh rfl
  obtain ⟨v, hv⟩ : ∃ v : OsTcb, v = { k.ts.tcb p with
      stackStart := memStackLow + page * memStackPageSize } := ⟨_, rfl⟩
  have hsize : v.stackSize = (k.ts.tcb p).stackSize := by rw [hv]
  have hstart : v.stackStart = memStackLow + page * memStackPageSize := by rw [hv]
  have hplaced : v.HasStack :=
    ⟨hsize ▸ hz, hsize ▸ hz', page, hsize ▸ hneed, hnum, hstart⟩
  have htcb : ∀ t, t ≠ p → (k.ts.setTcb p v).tcb t = k.ts.tcb t :=
    fun t hne => Function.update_of_ne hne ..
  have hself : (k.ts.setTcb p v).tcb p = v := Function.update_self ..
  have hne : ∀ t ∈ holders tasks making, t ≠ p := by
    rintro t ht rfl
    exact hp ht
  rw [← hsize] at hneed hfree
  rw [← hv, ← hsize]
  constructor
  case nodup => exact hi.nodup
  case kinds =>
    intro x hx
    rcases List.mem_cons.mp hx with rfl | hx
    · simp [Rest.tcb]
    · exact hi.kinds x (List.mem_cons_of_mem _ hx)
  case taken => exact hi.taken
  case live => exact hi.live
  case num => exact hi.num
  case sized =>
    intro t ht
    rcases List.mem_cons.mp ht with heq | ht
    · cases heq
    · simp only
      rw [htcb t (hne t (making_mem ht rfl))]
      exact hi.sized t (List.mem_cons_of_mem _ ht)
  case pages =>
    have hold : Stacks (Stacked tasks making) (k.ts.setTcb p v).tcb k.stackMap := by
      refine hi.pages.congr (fun t => by simp [Stacked]) (fun t ht => ?_) fun t ht => ?_
      · rw [htcb t (hne t (stacked_mem (by simpa [Stacked] using ht)))]
      · rw [htcb t (hne t (stacked_mem (by simpa [Stacked] using ht)))]
    have hpages : ((k.ts.setTcb p v).tcb p).stackPages =
        Finset.Ico (page - needStackPages v.stackSize) page := by
      rw [hself]
      exact stackPages_eq hplaced.2.1 hneed hstart
    have hhas : ((k.ts.setTcb p v).tcb p).HasStack := by
      rw [hself]
      exact hplaced
    refine (hold.grow (fun h => hp (stacked_mem h)) hhas hpages hneed hnum hfree).congr
      (fun t => ?_) (fun _ _ => rfl) fun _ _ => rfl
    simp only [Stacked, List.mem_cons, Rest.linkTask.injEq]
    tauto

theorem release (hi : Inv k tasks (.releaseTcb p :: making)) :
    Inv (k.releaseTcb p) tasks making := by
  obtain ⟨hp, hnodup⟩ := hi.making_fresh rfl
  have hperm : (holders tasks (.releaseTcb p :: making)).Perm (p :: holders tasks making) :=
    holders_making rfl
  constructor
  case nodup => exact hnodup
  case kinds => exact fun x hx => hi.kinds x (List.mem_cons_of_mem _ hx)
  case taken =>
    refine taken_release hp fun t => ?_
    rw [hi.taken, hperm.mem_iff, List.mem_cons]
  case live => exact hi.live
  case num => exact hi.num
  case sized => exact fun t ht => hi.sized t (List.mem_cons_of_mem _ ht)
  case pages =>
    refine hi.pages.congr (fun t => ?_) (fun _ _ => rfl) fun _ _ => rfl
    simp [Stacked]

theorem length_making (hi : Inv k tasks making) :
    (making.filterMap Rest.tcb).length = making.length := by
  have hkinds := hi.kinds
  clear hi
  induction making with
  | nil => rfl
  | cons r making ih =>
    obtain ⟨t, ht⟩ := Option.ne_none_iff_exists'.mp (hkinds r (by simp))
    rw [List.filterMap_cons_some ht, List.length_cons, List.length_cons,
      ih fun x hx => hkinds x (List.mem_cons_of_mem _ hx)]

/-- The control blocks that are not available are those of the tasks and the creations. -/
theorem card_taken (hi : Inv k tasks making) :
    (Finset.univ.filter fun t : TcbPtr => BitMap.value k.tcbMap t.val = false).card =
      tasks.length + making.length := by
  have hset : (Finset.univ.filter fun t : TcbPtr => BitMap.value k.tcbMap t.val = false) =
      (holders tasks making).toFinset := by
    ext t
    simp [hi.taken]
  rw [hset, List.toFinset_card_of_nodup hi.nodup, holders, List.length_append, hi.length_making]

theorem length_le (hi : Inv k tasks making) : tasks.length + making.length ≤ taskNumMax := by
  rw [← hi.card_taken]
  exact (Finset.card_le_univ _).trans_eq (Fintype.card_fin _)

theorem link (hi : Inv k tasks (.linkTask p :: making)) :
    Inv (k.taskCreateLink p).1 (p :: tasks) making := by
  have hlen := hi.length_le
  rw [List.length_cons] at hlen
  have hword : taskNumMax < uint32Max := by decide
  have hinc : inc32 tasks.length = tasks.length + 1 := if_neg (by omega)
  have hheld := Tasks.held_readyQPut k.ts p
  simp only [Tasks.held, Prod.mk.injEq] at hheld
  have hstart : ∀ t, ((k.ts.readyQPut p).tcb t).stackStart = (k.ts.tcb t).stackStart :=
    fun t => congrArg Prod.fst (congrFun hheld.2 t)
  have hsize : ∀ t, ((k.ts.readyQPut p).tcb t).stackSize = (k.ts.tcb t).stackSize :=
    fun t => congrArg Prod.snd (congrFun hheld.2 t)
  have hperm : (holders tasks (.linkTask p :: making)).Perm (holders (p :: tasks) making) :=
    holders_making rfl
  constructor
  case nodup => exact hperm.nodup_iff.mp hi.nodup
  case kinds => exact fun x hx => hi.kinds x (List.mem_cons_of_mem _ hx)
  case taken =>
    intro t
    rw [← hperm.mem_iff]
    exact hi.taken t
  case live =>
    intro t
    simp only [Kernel.taskCreateLink, hheld.1, List.mem_cons]
    by_cases ht : t = p
    · subst ht
      simp
    · rw [Function.update_of_ne ht, hi.live]
      simp [ht]
  case num =>
    simp only [Kernel.taskCreateLink, hi.num, hinc, List.length_cons]
  case sized =>
    intro t ht
    simp only [Kernel.taskCreateLink, hsize]
    exact hi.sized t (List.mem_cons_of_mem _ ht)
  case pages =>
    refine hi.pages.congr (fun t => ?_) (fun t _ => hstart t) fun t _ => hsize t
    simp only [Stacked, List.mem_cons, Rest.linkTask.injEq]
    tauto

theorem retire (hi : Inv k (p :: tasks) making)
    (hk : k'.allotment = (BitMap.set k.tcbMap p.val, setPages k.stackMap
      (needStackPages (k.ts.tcb p).stackSize)
      (((k.ts.tcb p).stackStart - memStackLow) / memStackPageSize), dec32 k.taskNum,
      Function.update k.ts.live p false,
      fun t => ((k.ts.tcb t).stackStart, (k.ts.tcb t).stackSize))) :
    Inv k' tasks making := by
  obtain ⟨hp, hnodup⟩ := List.nodup_cons.mp hi.nodup
  simp only [Kernel.allotment, Tasks.held, Prod.mk.injEq] at hk
  obtain ⟨htcb, hstack, hnum, hlive, hheld⟩ := hk
  have hstart : ∀ t, (k'.ts.tcb t).stackStart = (k.ts.tcb t).stackStart :=
    fun t => congrArg Prod.fst (congrFun hheld t)
  have hsize : ∀ t, (k'.ts.tcb t).stackSize = (k.ts.tcb t).stackSize :=
    fun t => congrArg Prod.snd (congrFun hheld t)
  constructor
  case nodup => exact hnodup
  case kinds => exact hi.kinds
  case taken =>
    rw [htcb]
    refine taken_release hp fun t => ?_
    rw [hi.taken, holders_tasks, List.mem_cons]
  case live =>
    intro t
    rw [hlive]
    by_cases ht : t = p
    · subst ht
      simp only [Function.update_self, Bool.false_eq_true, false_iff]
      exact fun hmem => hp (List.mem_append_left _ hmem)
    · rw [Function.update_of_ne ht, hi.live]
      simp [ht]
  case num =>
    rw [hnum, hi.num, List.length_cons, dec32, if_neg (by omega), Nat.add_sub_cancel]
  case sized =>
    intro t ht
    rw [hsize]
    exact hi.sized t ht
  case pages =>
    rw [hstack]
    have hold : Stacks (fun t => t = p ∨ Stacked tasks making t) k.ts.tcb k.stackMap :=
      hi.pages.congr (fun t => by simp [Stacked, or_assoc]) (fun _ _ => rfl) fun _ _ => rfl
    refine (hold.shrink fun h => hp (stacked_mem h)).congr (fun _ => Iff.rfl)
      (fun t _ => hstart t) fun t _ => hsize t

theorem delete {x : Kernel × Outcome} (hi : Inv k (p :: tasks) making)
    (h : k.taskDelete p = some x) : Inv x.1 tasks making := by
  obtain ⟨k₁, hunlink, rfl⟩ := Option.map_eq_some_iff.mp h
  have hk : (k₁.semMFree p).allotment = k.allotment :=
    (Kernel.allotment_semMFree k₁ p).trans (Kernel.allotment_unlinkTask hunlink)
  refine (hi.congr hk (.refl _) (.refl _)).retire rfl

theorem exit (hi : Inv k (p :: tasks) making) : Inv (k.taskReturn p) tasks making := by
  refine hi.retire ?_
  have hheld : ((k.releaseStack p).releaseTcb p).ts.held = k.ts.held := rfl
  have hremove := Tasks.held_readyQRemove k.ts p
  simp only [Tasks.held, Prod.mk.injEq] at hremove
  simp only [Kernel.taskReturn, Kernel.allotment, Tasks.held, Kernel.kill, Kernel.releaseTcb,
    Kernel.releaseStack, hremove.1, hremove.2]

theorem after {s s' : Resources} {e : Use} (hi : Inv s.k s.tasks s.making) (he : Permits e)
    (h : s.after e = some s') : Inv s'.k s'.tasks s'.making := by
  obtain ⟨k, tasks, making⟩ := s
  cases e with
  | create stackSize taskPriority =>
    obtain ⟨hz, hz', -⟩ := he
    obtain ⟨k₁, o, hc⟩ : ∃ k₁ o, k.taskCreate stackSize taskPriority = (k₁, o) := ⟨_, _, rfl⟩
    simp only [Resources.after, hc] at h
    rcases Kernel.taskCreate_cases hc with ⟨rfl, rfl⟩ | ⟨p, v, hval, rfl, -, -, hsize, rfl⟩
    · obtain rfl := Option.some.inj h
      exact hi
    · obtain rfl := Option.some.inj h
      have halign := alignStackSize_bounds hz hz'
      exact hi.begin hval (by omega) (by omega)
  | go r =>
    simp only [Resources.after] at h
    split_ifs at h with hr
    have hi : Inv k tasks (r :: making.erase r) :=
      hi.congr rfl (.refl _) (List.perm_cons_erase hr).symm
    cases r with
    | allocStack p =>
      have hz := hi.sized p (by simp)
      have hneed : 0 < needStackPages (k.ts.tcb p).stackSize := by
        rw [needStackPages_eq hz.2]
        omega
      rcases Kernel.taskCreateStack_some hneed with heq | ⟨page, hle, hnum, hfree, heq⟩
      · simp only [Kernel.go, heq] at h
        obtain rfl := Option.some.inj h
        exact hi.refuse
      · simp only [Kernel.go, heq] at h
        obtain rfl := Option.some.inj h
        exact hi.stack hle hnum hfree
    | releaseTcb p =>
      obtain rfl := Option.some.inj h
      exact hi.release
    | linkTask p =>
      obtain rfl := Option.some.inj h
      exact hi.link
    | _ => exact absurd rfl (hi.kinds _ List.mem_cons_self)
  | delete p =>
    simp only [Resources.after] at h
    split_ifs at h with hp
    obtain ⟨x, hx, rfl⟩ := Option.map_eq_some_iff.mp h
    have hi : Inv k (p :: tasks.erase p) making :=
      hi.congr rfl (List.perm_cons_erase hp).symm (.refl _)
    exact hi.delete hx
  | exit p =>
    simp only [Resources.after] at h
    split_ifs at h with hp
    obtain rfl := Option.some.inj h
    have hi : Inv k (p :: tasks.erase p) making :=
      hi.congr rfl (List.perm_cons_erase hp).symm (.refl _)
    exact hi.exit
  | other =>
    obtain rfl := Option.some.inj h
    exact hi

theorem value_available (q : ℕ) : BitMap.value (fun _ => -1) q = true := by
  have hones : (-1 : BitVec 32) = BitVec.allOnes 32 := rfl
  rw [BitMap.value, hones, BitVec.getLsbD_allOnes]
  exact decide_eq_true (BitMap.bit_index_lt q)

theorem init (hnum : k.taskNum = 0) (hlive : ∀ t, k.ts.live t = false) :
    Inv k.taskInit [] [] := by
  have htcb : ∀ q, BitMap.value k.taskInit.tcbMap q = true := value_available
  have hstack : ∀ q, BitMap.value k.taskInit.stackMap q = true := value_available
  constructor
  case nodup => exact List.nodup_nil
  case kinds => simp
  case taken => simp [htcb, holders]
  case live => simp [Kernel.taskInit, hlive]
  case num => simpa [Kernel.taskInit] using hnum
  case sized => simp
  case pages =>
    refine ⟨fun t ht => ?_, fun t u ht => ?_, fun q hq => ?_⟩
    · simp [Stacked] at ht
    · simp [Stacked] at ht
    · simp [hstack, Stacked]

theorem create_null {stackSize taskPriority : ℕ} (hi : Inv k tasks making)
    (hz : 1 ≤ stackSize) (hz' : stackSize ≤ 2 ^ 31)
    (h : Kernel.runSections 2 (k.taskCreate stackSize taskPriority) = some (k', .tcb none)) :
    k'.tcbMap = k.tcbMap ∧ k'.stackMap = k.stackMap ∧ k'.taskNum = k.taskNum ∧
      k'.ts.live = k.ts.live ∧ ∀ t ∈ tasks, k'.ts.tcb t = k.ts.tcb t := by
  obtain ⟨k₁, o, hc⟩ : ∃ k₁ o, k.taskCreate stackSize taskPriority = (k₁, o) := ⟨_, _, rfl⟩
  rw [hc] at h
  rcases Kernel.taskCreate_cases hc with ⟨rfl, rfl⟩ | ⟨p, v, hval, rfl, -, -, hsize, hk₁⟩
  · obtain ⟨rfl, -⟩ := Prod.mk.inj (Option.some.inj h)
    exact ⟨rfl, rfl, rfl, rfl, fun _ _ => rfl⟩
  · have halign := alignStackSize_bounds hz hz'
    have hself : k₁.ts.tcb p = v := by
      rw [hk₁]
      exact Function.update_self ..
    have hneed : 0 < needStackPages (k₁.ts.tcb p).stackSize := by
      rw [hself, hsize, needStackPages_eq halign.2]
      omega
    have hother : ∀ t ∈ tasks, k₁.ts.tcb t = k.ts.tcb t := by
      intro t ht
      have hne : t ≠ p := by
        rintro rfl
        have htaken := (hi.taken t).mpr (List.mem_append_left _ ht)
        rw [hval] at htaken
        exact absurd htaken (by simp)
      rw [hk₁]
      exact Function.update_of_ne hne ..
    rcases Kernel.taskCreateStack_some hneed with heq | ⟨page, -, -, -, heq⟩
    · simp only [Kernel.runSections, Kernel.go, heq] at h
      obtain ⟨rfl, -⟩ := Prod.mk.inj (Option.some.inj h)
      have hmap : (k₁.releaseTcb p).tcbMap = k.tcbMap := by
        rw [Kernel.releaseTcb, hk₁]
        exact BitMap.set_clear hval
      exact ⟨hmap, by rw [hk₁]; rfl, by rw [hk₁]; rfl, by rw [hk₁]; rfl, hother⟩
    · simp only [Kernel.runSections, Kernel.go, heq] at h
      exact absurd (Prod.mk.inj (Option.some.inj h)).2 (by simp)

end Inv

theorem reachable_inv {s : Resources} (h : Reachable resourceSystem (fun _ e => Permits e) s) :
    Inv s.k s.tasks s.making := by
  apply h.invariant
  · rintro s ⟨⟨k, hnum, hlive, hk⟩, htasks, hmaking⟩
    rw [htasks, hmaking]
    exact (Inv.init hnum hlive).congr hk (.refl _) (.refl _)
  · rintro s e s' hi he ⟨k, hafter, hk⟩
    exact (hi.after he hafter).congr hk (.refl _) (.refl _)

/-- The resources in every state between two critical sections: with no `task_create` in
progress, `making` is empty and the tasks with a stack are the live ones. -/
theorem resources_kept {s : Resources} (h : Reachable resourceSystem (fun _ e => Permits e) s) :
    s.tasks.Nodup ∧ (∀ t, s.k.ts.live t = true ↔ t ∈ s.tasks) ∧
    s.k.taskNum + s.making.length =
      (Finset.univ.filter fun t : TcbPtr => BitMap.value s.k.tcbMap t.val = false).card ∧
    (∀ t ∈ s.tasks, (s.k.ts.tcb t).StackInside) ∧
    s.tasks.Pairwise (fun t u => Disjoint (s.k.ts.tcb t).stackPages (s.k.ts.tcb u).stackPages) ∧
    (∀ q < memStackPageNum, BitMap.value s.k.stackMap q = true ↔
      ∀ t, t ∈ s.tasks ∨ Rest.linkTask t ∈ s.making → q ∉ (s.k.ts.tcb t).stackPages) ∧
    ∀ stackSize taskPriority k', Permits (.create stackSize taskPriority) →
      Kernel.runSections 2 (s.k.taskCreate stackSize taskPriority) = some (k', .tcb none) →
      k'.tcbMap = s.k.tcbMap ∧ k'.stackMap = s.k.stackMap ∧ k'.taskNum = s.k.taskNum ∧
        k'.ts.live = s.k.ts.live ∧ ∀ t ∈ s.tasks, k'.ts.tcb t = s.k.ts.tcb t := by
  have hi := reachable_inv h
  have hnodup : s.tasks.Nodup := (List.nodup_append.mp hi.nodup).1
  refine ⟨hnodup, hi.live, ?_, fun t ht => ?_, ?_, fun q hq => ?_, fun stackSize _ k' hp hrun => ?_⟩
  · rw [hi.num, hi.card_taken]
  · exact (hi.pages.placed t (Or.inl ht)).inside
  · refine hnodup.imp_of_mem fun ht hu hne => ?_
    exact hi.pages.apart _ _ (Or.inl ht) (Or.inl hu) hne
  · have hiff := hi.pages.pages q hq
    rw [← Bool.not_eq_false, hiff]
    simp [Stacked]
  · exact hi.create_null hp.1 hp.2.1 hrun

theorem replay_reachable {s s' : Resources} {es : List Use}
    (h : Reachable resourceSystem (fun _ e => Permits e) s) (hes : ∀ e ∈ es, Permits e)
    (hrun : es.foldlM after s = some s') : Reachable resourceSystem (fun _ e => Permits e) s' := by
  induction es generalizing s with
  | nil => exact Option.some.inj hrun ▸ h
  | cons e es ih =>
    obtain ⟨s₁, hone, hrest⟩ := Option.bind_eq_some_iff.mp hrun
    have hnext := h.step (hes e (by simp)) ⟨s₁.k, hone, rfl⟩
    exact ih hnext (fun e he => hes e (by simp [he])) hrest

def start : Resources := ⟨{ Kernel.cleared with ts := Tasks.zeroed }, [], []⟩

/-- Two tasks are created, the first is deleted, a third gets no stack, a fourth takes the pages of
the first while the second returns. -/
theorem resources_kept_reuse : ∃ s : Resources,
    s.tasks = [0] ∧ s.k.taskNum = 1 ∧ s.making = [] ∧ (s.k.ts.tcb 0).stackPages = {0, 1} ∧
    ∀ q < memStackPageNum, BitMap.value s.k.stackMap q = true ↔
      ∀ t, t ∈ s.tasks ∨ Rest.linkTask t ∈ s.making → q ∉ (s.k.ts.tcb t).stackPages := by
  have hrun : (List.foldlM after start
      [.create 5000 10, .go (.allocStack 0), .go (.linkTask 0), .create 100 3, .go (.allocStack 1),
        .go (.linkTask 1), .delete 0, .create (2 ^ 31) 1, .go (.allocStack 0), .go (.releaseTcb 0),
        .create 8192 7, .exit 1, .go (.allocStack 0), .go (.linkTask 0)]).map (fun s =>
      decide (s.tasks = [0] ∧ s.k.taskNum = 1 ∧ s.making = [] ∧
        (s.k.ts.tcb 0).stackPages = {0, 1})) = some true := by decide +kernel
  obtain ⟨s, hs, hfact⟩ := Option.map_eq_some_iff.mp hrun
  obtain ⟨htasks, hnum, hmaking, hpages⟩ := of_decide_eq_true hfact
  have hstart : Reachable resourceSystem (fun _ e => Permits e) start :=
    .init ⟨⟨start.k, rfl, fun _ => rfl, rfl⟩, rfl, rfl⟩
  have hreach := replay_reachable hstart (by simp [Permits]; decide) hs
  exact ⟨s, htasks, hnum, hmaking, hpages, (resources_kept hreach).2.2.2.2.2.1⟩

end Resources

end DfewOS
