import DfewOS.FileMgr
import DfewOS.StrFilterSpec
import Mathlib.Algebra.GroupWithZero.Nat
import Mathlib.Data.List.Count
import Mathlib.Data.List.Perm.Basic
import Mathlib.Data.List.Range

/-!
# Filters that are lost

Each node of a filter is held by a registered filter, was freed once, or is lost: still in use with
no way to it. `str_filter_delete` frees the first node of a chain and loses the others, so that
nodes are lost exactly by the calls that delete a filter of two alternatives or more.
-/

namespace DfewOS.FileMgr
open StrFilter (Filter strFilterCreate strFilterCreate_bar strFilterCreate_last strFilterMaxLen fill)
open Transition (Run)

variable {h : Heap} {s s' : State} {chains : List (List ℕ)} {lost : List ℕ} {filter : List Char}

def alternatives (filter : List Char) : ℕ := filter.count '|' + 1

inductive Reaches (node : ℕ → Option FilterNode) : Option ℕ → ℕ → Prop
  | here {p : ℕ} {x : FilterNode} (used : node p = some x) : Reaches node (some p) p
  | next {p q : ℕ} {x : FilterNode} (used : node p = some x) (rest : Reaches node x.pNext q) :
    Reaches node (some p) q

def Held (s : State) (p : ℕ) : Prop := ∃ e ∈ s.execList, Reaches s.heap.node e.pFilter p

structure NoLeak (s : State) : Prop where
  /-- A node of a registered filter is not freed. -/
  held : ∀ p, Held s p → p < s.heap.allocated ∧ s.heap.freed.count p = 0
  /-- Every other node is freed once. -/
  released : ∀ p < s.heap.allocated, ¬ Held s p → s.heap.freed.count p = 1
  /-- The nodes in use are as many as the alternatives of the registered filters. -/
  live : ((List.range s.heap.allocated).filter fun p => (s.heap.node p).isSome).length =
    (s.execList.map fun e => alternatives e.filter).sum

/-- The call fits the arrays, and each filter that it deletes is a single alternative. -/
def Meets (s : State) : Call → Prop
  | .fileMgrShow filter => filter.length < strFilterMaxLen ∧ '|' ∉ filter
  | .fileMgrRegister filter _ => filter.length < strFilterMaxLen ∨ ∃ e ∈ s.execList, e.filter = filter
  | .fileMgrUnregister filter => (∃ e ∈ s.execList, e.filter = filter) → '|' ∉ filter
  | .fileMgrUnregisterAll => ∀ e ∈ s.execList, '|' ∉ e.filter

/-! ## The alternatives of a filter -/

theorem fill_snd {f : Filter} {pos : ℕ} {backTo : ℤ} {alt : List Char}
    (hlen : pos + alt.length < strFilterMaxLen - 1) : (fill f pos backTo alt).2 = true := by
  induction alt generalizing f pos backTo with
  | nil => rfl
  | cons c alt ih =>
    rw [List.length_cons] at hlen
    rw [fill]
    split_ifs with hstar hfull hfull
    · omega
    · exact ih (by omega)
    · omega
    · exact ih (by omega)

theorem length_create (hlen : filter.length < strFilterMaxLen) :
    (strFilterCreate filter).length = alternatives filter := by
  induction hn : filter.length using Nat.strong_induction_on generalizing filter with
  | _ n ih =>
    by_cases hbar : '|' ∈ filter
    · obtain ⟨alt, rest, rfl, halt⟩ := List.eq_append_cons_of_mem hbar
      rw [List.length_append, List.length_cons] at hn hlen
      rw [strFilterCreate_bar halt rest (fill_snd (by omega)), List.length_cons,
        ih rest.length (by omega) (by omega) rfl, alternatives, alternatives, List.count_append,
        List.count_cons_self, List.count_eq_zero.mpr halt]
      omega
    · rw [strFilterCreate_last hbar, alternatives, List.count_eq_zero.mpr hbar]
      rfl

theorem alternatives_eq_one : alternatives filter = 1 ↔ '|' ∉ filter := by
  rw [alternatives, Nat.add_eq_right, List.count_eq_zero]

/-! ## Chains -/

def Chain (node : ℕ → Option FilterNode) : Option ℕ → List ℕ → Prop
  | p, [] => p = none
  | p, q :: ids => p = some q ∧ ∃ x, node q = some x ∧ Chain node x.pNext ids

variable {node node' : ℕ → Option FilterNode} {p : Option ℕ} {q : ℕ} {ids : List ℕ}

theorem Chain.congr (hc : Chain node p ids) (hsame : ∀ q ∈ ids, node' q = node q) : Chain node' p ids := by
  induction ids generalizing p with
  | nil => exact hc
  | cons q ids ih =>
    obtain ⟨hp, x, hx, hrest⟩ := hc
    refine ⟨hp, x, (hsame q List.mem_cons_self).trans hx, ih hrest fun r hr => ?_⟩
    exact hsame r (List.mem_cons_of_mem q hr)

theorem Chain.reaches_iff (hc : Chain node p ids) : Reaches node p q ↔ q ∈ ids := by
  induction ids generalizing p with
  | nil =>
    obtain rfl : p = none := hc
    exact iff_of_false nofun List.not_mem_nil
  | cons r ids ih =>
    obtain ⟨rfl, x, hx, hrest⟩ := hc
    rw [List.mem_cons, ← ih hrest]
    constructor
    · intro hreach
      cases hreach with
      | here _ => exact Or.inl rfl
      | next hused hnext =>
        obtain rfl := Option.some.inj (hused.symm.trans hx)
        exact Or.inr hnext
    · rintro (rfl | hnext)
      · exact .here hx
      · exact .next hx hnext

theorem create_chain (h : Heap) (fs : List Filter) :
    Chain (h.create fs).1.node (h.create fs).2 (List.range' h.allocated fs.length) ∧
      (h.create fs).1.allocated = h.allocated + fs.length ∧ (h.create fs).1.freed = h.freed ∧
      ∀ q ∉ List.range' h.allocated fs.length, (h.create fs).1.node q = h.node q := by
  induction fs generalizing h with
  | nil => exact ⟨rfl, rfl, rfl, fun q _ => rfl⟩
  | cons f fs ih =>
    obtain ⟨hchain, halloc, hfreed, hframe⟩ := ih (h.calloc f)
    have hlater : h.allocated ∉ List.range' (h.allocated + 1) fs.length := by
      rw [List.mem_range'_1]
      omega
    rw [List.length_cons, List.range'_succ, Heap.create]
    refine ⟨⟨rfl, _, Function.update_self .., ?_⟩, ?_, hfreed, fun q hq => ?_⟩
    · refine hchain.congr fun q hq => Function.update_of_ne ?_ _ _
      rintro rfl
      exact hlater hq
    · exact halloc.trans (by simp only [Heap.calloc]; omega)
    · obtain ⟨hne, hq⟩ := List.ne_and_not_mem_of_not_mem_cons hq
      exact ((Function.update_of_ne hne _ _).trans (hframe q hq)).trans (Function.update_of_ne hne _ _)

theorem Chain.used (hc : Chain node p ids) : ∀ q ∈ ids, (node q).isSome := by
  induction ids generalizing p with
  | nil => exact nofun
  | cons r ids ih =>
    obtain ⟨_, x, hx, hrest⟩ := hc
    exact List.forall_mem_cons.mpr ⟨hx ▸ rfl, ih hrest⟩

/-! ## The nodes of a heap -/

def Owns (node : ℕ → Option FilterNode) (x : Option ℕ × ℕ) (ids : List ℕ) : Prop :=
  Chain node x.1 ids ∧ ids.length = x.2

/-- Each node that was allocated is in one of the chains, lost or freed, and that once. -/
structure Accounted (h : Heap) (owners : List (Option ℕ × ℕ)) (chains : List (List ℕ))
    (lost : List ℕ) : Prop where
  owns : List.Forall₂ (Owns h.node) owners chains
  once : ∀ p, chains.flatten.count p + lost.count p + h.freed.count p = if p < h.allocated then 1 else 0
  used : ∀ p, (h.node p).isSome ↔ p ∈ chains.flatten ∨ p ∈ lost

variable {owners xs ys : List (Option ℕ × ℕ)} {x : Option ℕ × ℕ}

theorem Accounted.lt (ha : Accounted h owners chains lost) (hq : q ∈ chains.flatten ∨ q ∈ lost) :
    q < h.allocated := by
  by_contra hge
  have honce := ha.once q
  rw [if_neg hge] at honce
  have hpos : 0 < chains.flatten.count q + lost.count q :=
    hq.elim (fun hmem => Nat.add_pos_left (List.count_pos_iff.mpr hmem) _)
      fun hmem => Nat.add_pos_right _ (List.count_pos_iff.mpr hmem)
  omega

theorem owns_congr (ho : List.Forall₂ (Owns node) owners chains)
    (hsame : ∀ q ∈ chains.flatten, node' q = node q) : List.Forall₂ (Owns node') owners chains := by
  induction ho with
  | nil => exact .nil
  | cons hhead _ ih =>
    rw [List.flatten_cons] at hsame
    refine .cons ⟨hhead.1.congr fun q hq => ?_, hhead.2⟩ (ih fun q hq => ?_)
    · exact hsame q (List.mem_append_left _ hq)
    · exact hsame q (List.mem_append_right _ hq)

theorem Accounted.create (ha : Accounted h owners chains lost) (fs : List Filter) :
    Accounted (h.create fs).1 (((h.create fs).2, fs.length) :: owners)
      (List.range' h.allocated fs.length :: chains) lost := by
  obtain ⟨hchain, halloc, hfreed, hframe⟩ := create_chain h fs
  have hnew : ∀ q ∈ chains.flatten, q ∉ List.range' h.allocated fs.length := by
    intro q hq hmem
    have hlt := ha.lt (Or.inl hq)
    rw [List.mem_range'_1] at hmem
    omega
  constructor
  · exact .cons ⟨hchain, List.length_range'⟩ (owns_congr ha.owns fun q hq => hframe q (hnew q hq))
  · intro p
    have hold := ha.once p
    rw [List.flatten_cons, List.count_append, List.count_range_1', halloc, hfreed]
    split_ifs at hold ⊢ <;> omega
  · intro p
    rw [List.flatten_cons, List.mem_append, or_assoc, ← ha.used]
    by_cases hp : p ∈ List.range' h.allocated fs.length
    · exact iff_of_true (hchain.used p hp) (Or.inl hp)
    · rw [hframe p hp, or_iff_right hp]

theorem Accounted.delete (ha : Accounted h (x :: owners) (ids :: chains) lost) (hpos : 0 < x.2) :
    Accounted (h.strFilterDelete x.1) owners chains (lost ++ ids.tail) := by
  obtain ⟨⟨hchain, hlen⟩, howns⟩ := List.forall₂_cons.mp ha.owns
  obtain ⟨a, rest, rfl⟩ := List.exists_cons_of_length_pos (hlen ▸ hpos)
  rw [hchain.1]
  have honce := ha.once
  simp only [List.flatten_cons, List.cons_append, List.count_cons, List.count_append] at honce
  have hother : ∀ q, q ∈ chains.flatten ∨ q ∈ lost ∨ q ∈ rest → q ≠ a := by
    rintro q hq rfl
    have hq' := honce q
    simp only [← List.count_pos_iff] at hq
    simp only [beq_self_eq_true, if_true] at hq'
    split_ifs at hq' <;> omega
  constructor
  · exact owns_congr howns fun q hq => Function.update_of_ne (hother q (Or.inl hq)) _ _
  · intro p
    refine Eq.trans ?_ (honce p)
    simp only [Heap.strFilterDelete, List.tail_cons, List.count_append, List.count_cons]
    omega
  · intro p
    rw [List.tail_cons, List.mem_append]
    by_cases hp : p = a
    · subst hp
      have hnone : (h.strFilterDelete (some p)).node p = none := Function.update_self ..
      rw [hnone]
      exact iff_of_false Bool.false_ne_true fun hmem => hother p hmem rfl
    · have hsame : (h.strFilterDelete (some a)).node p = h.node p := Function.update_of_ne hp _ _
      rw [hsame, ha.used, List.flatten_cons, List.cons_append, List.mem_cons, or_iff_right hp,
        List.mem_append]
      tauto

theorem Accounted.perm {owners' : List (Option ℕ × ℕ)} (ha : Accounted h owners chains lost)
    (hperm : owners'.Perm owners) : ∃ chains', Accounted h owners' chains' lost := by
  obtain ⟨chains', howns, hchains⟩ := List.perm_comp_forall₂ hperm ha.owns
  have hflat : chains'.flatten.Perm chains.flatten := hchains.flatten
  refine ⟨chains', howns, fun p => ?_, fun p => ?_⟩
  · rw [hflat.count_eq]
    exact ha.once p
  · rw [hflat.mem_iff]
    exact ha.used p

/-! ## The calls -/

def owner (e : ExecNode) : Option ℕ × ℕ := (e.pFilter, alternatives e.filter)

def Lost (s : State) (lost : List ℕ) : Prop :=
  ∃ chains, Accounted s.heap (s.execList.map owner) chains lost

variable {openFunc : ℕ} {e : ExecNode} {es es' : List ExecNode} {c : Call}

theorem replaceFunc_some (hr : replaceFunc filter openFunc es = some es') :
    es'.map owner = es.map owner ∧ ∃ e ∈ es, e.filter = filter := by
  induction es generalizing es' with
  | nil => exact absurd hr nofun
  | cons e es ih =>
    rw [replaceFunc] at hr
    split_ifs at hr with hfilter
    · obtain rfl := Option.some.inj hr
      exact ⟨rfl, e, List.mem_cons_self, hfilter.symm⟩
    · obtain ⟨es'', hrest, rfl⟩ := Option.map_eq_some_iff.mp hr
      obtain ⟨howner, e', he', hfilter'⟩ := ih hrest
      exact ⟨by rw [List.map_cons, List.map_cons, howner], e', List.mem_cons_of_mem e he', hfilter'⟩

theorem takeExec_some (ht : takeExec filter es = some (e, es')) :
    (es.map owner).Perm (owner e :: es'.map owner) ∧ e.filter = filter ∧ e ∈ es := by
  induction es generalizing es' with
  | nil => exact absurd ht nofun
  | cons e' es ih =>
    rw [takeExec] at ht
    split_ifs at ht with hfilter
    · obtain ⟨rfl, rfl⟩ := Prod.mk.inj (Option.some.inj ht)
      exact ⟨.refl _, hfilter.symm, List.mem_cons_self⟩
    · obtain ⟨⟨e'', es''⟩, hrest, hpair⟩ := Option.map_eq_some_iff.mp ht
      obtain ⟨rfl, rfl⟩ := Prod.mk.inj hpair
      obtain ⟨hperm, hfilter', hmem⟩ := ih hrest
      exact ⟨(hperm.cons _).trans (.swap _ _ _), hfilter', List.mem_cons_of_mem e' hmem⟩

theorem takeExec_none (ht : takeExec filter es = none) : ∀ e ∈ es, e.filter ≠ filter := by
  induction es with
  | nil => exact nofun
  | cons e es ih =>
    rw [takeExec] at ht
    split_ifs at ht with hfilter
    exact List.forall_mem_cons.mpr ⟨Ne.symm hfilter, ih (Option.map_eq_none_iff.mp ht)⟩

theorem strcpy_some {saved : List Char} (hs : strcpy filter = some saved) :
    filter.length < strFilterMaxLen ∧ saved = filter := by
  rw [strcpy] at hs
  split_ifs at hs with hlen
  exact ⟨hlen, (Option.some.inj hs).symm⟩

theorem Accounted.delete_filter {p : Option ℕ}
    (ha : Accounted h ((p, alternatives filter) :: owners) chains lost) :
    ∃ chains' more, Accounted (h.strFilterDelete p) owners chains' (lost ++ more) ∧
      (more = [] ↔ '|' ∉ filter) := by
  obtain ⟨ids, chains', ⟨hchain, hlen⟩, howns, rfl⟩ := List.forall₂_cons_left_iff.mp ha.owns
  refine ⟨chains', ids.tail, ha.delete (Nat.succ_pos _), ?_⟩
  rw [← alternatives_eq_one, ← List.length_eq_zero_iff, List.length_tail, hlen, alternatives]
  omega

theorem deleteAll_accounted (ha : Accounted h (es.map owner) chains lost) :
    ∃ chains' more, Accounted (h.deleteAll es) [] chains' (lost ++ more) ∧
      (more = [] ↔ ∀ e ∈ es, '|' ∉ e.filter) := by
  induction es generalizing h chains lost with
  | nil => exact ⟨chains, [], (List.append_nil lost).symm ▸ ha, iff_of_true rfl nofun⟩
  | cons e es ih =>
    obtain ⟨chains₁, more₁, ha₁, hmore₁⟩ := ha.delete_filter
    obtain ⟨chains₂, more₂, ha₂, hmore₂⟩ := ih ha₁
    refine ⟨chains₂, more₁ ++ more₂, List.append_assoc lost more₁ more₂ ▸ ha₂, ?_⟩
    rw [List.append_eq_nil_iff, hmore₁, hmore₂, List.forall_mem_cons]

theorem exec_lost (hl : Lost s lost) (hexec : s.exec c = some s') :
    ∃ more, Lost s' (lost ++ more) ∧ (more = [] ↔ Meets s c) := by
  obtain ⟨chains, ha⟩ := hl
  have hnone : ∀ {s' : State}, Accounted s'.heap (s'.execList.map owner) chains lost →
      Lost s' (lost ++ []) := fun ha => ⟨chains, (List.append_nil lost).symm ▸ ha⟩
  cases c with
  | fileMgrShow filter =>
    obtain ⟨saved, hsaved, rfl⟩ := Option.map_eq_some_iff.mp hexec
    obtain ⟨hlen, rfl⟩ := strcpy_some hsaved
    have hcreate := ha.create (strFilterCreate saved)
    rw [length_create hlen] at hcreate
    obtain ⟨chains', more, hdelete, hmore⟩ := hcreate.delete_filter
    exact ⟨more, ⟨chains', hdelete⟩, hmore.trans (and_iff_right hlen).symm⟩
  | fileMgrRegister filter openFunc =>
    rw [State.exec, fileMgrRegister] at hexec
    cases hreplace : replaceFunc filter openFunc s.execList with
    | some execList =>
      rw [hreplace] at hexec
      obtain rfl := Option.some.inj hexec
      obtain ⟨howners, hfound⟩ := replaceFunc_some hreplace
      exact ⟨[], hnone (howners ▸ ha), iff_of_true rfl (Or.inr hfound)⟩
    | none =>
      rw [hreplace] at hexec
      obtain ⟨saved, hsaved, rfl⟩ := Option.map_eq_some_iff.mp hexec
      obtain ⟨hlen, rfl⟩ := strcpy_some hsaved
      have hcreate := ha.create (strFilterCreate saved)
      rw [length_create hlen] at hcreate
      exact ⟨[], ⟨_, (List.append_nil lost).symm ▸ hcreate⟩, iff_of_true rfl (Or.inl hlen)⟩
  | fileMgrUnregister filter =>
    obtain rfl := Option.some.inj hexec
    rw [fileMgrUnregister]
    cases htake : takeExec filter s.execList with
    | none =>
      refine ⟨[], hnone ha, iff_of_true rfl ?_⟩
      rintro ⟨e, he, hfilter⟩
      exact absurd hfilter (takeExec_none htake e he)
    | some found =>
      obtain ⟨e, es⟩ := found
      obtain ⟨hperm, rfl, hmem⟩ := takeExec_some htake
      obtain ⟨chains₁, ha₁⟩ := ha.perm hperm.symm
      obtain ⟨chains₂, more, hdelete, hmore⟩ := ha₁.delete_filter
      refine ⟨more, ⟨chains₂, hdelete⟩, hmore.trans ?_⟩
      exact ⟨fun hbar _ => hbar, fun hmeets => hmeets ⟨e, hmem, rfl⟩⟩
  | fileMgrUnregisterAll =>
    obtain rfl := Option.some.inj hexec
    obtain ⟨chains', more, hdelete, hmore⟩ := deleteAll_accounted ha
    exact ⟨more, ⟨chains', hdelete⟩, hmore⟩

/-! ## Leaks -/

theorem owns_reaches (ho : List.Forall₂ (Owns node) (es.map owner) chains) :
    (∃ e ∈ es, Reaches node e.pFilter q) ↔ q ∈ chains.flatten := by
  induction es generalizing chains with
  | nil =>
    obtain rfl := List.forall₂_nil_left_iff.mp ho
    simp
  | cons e es ih =>
    obtain ⟨ids, chains', hids, hrest, rfl⟩ := List.forall₂_cons_left_iff.mp ho
    have hhead : Reaches node e.pFilter q ↔ q ∈ ids := hids.1.reaches_iff
    rw [List.flatten_cons, List.mem_append, ← ih hrest, ← hhead]
    simp

theorem owns_length (ho : List.Forall₂ (Owns node) owners chains) :
    chains.flatten.length = (owners.map Prod.snd).sum := by
  induction ho with
  | nil => rfl
  | cons hhead _ ih =>
    rw [List.flatten_cons, List.length_append, hhead.2, ih, List.map_cons, List.sum_cons]

theorem Accounted.live_perm (ha : Accounted h owners chains lost) :
    ((List.range h.allocated).filter fun p => (h.node p).isSome).Perm (chains.flatten ++ lost) := by
  rw [List.perm_iff_count]
  intro p
  have honce := ha.once p
  by_cases hused : (h.node p).isSome = true
  · have hmem := (ha.used p).mp hused
    rw [← List.count_pos_iff, ← List.count_pos_iff] at hmem
    rw [List.count_filter (p := fun p => (h.node p).isSome) hused, List.count_range, List.count_append]
    split_ifs at honce ⊢ <;> omega
  · have hnot : ¬ (p ∈ chains.flatten ∨ p ∈ lost) := fun hmem => hused ((ha.used p).mpr hmem)
    rw [not_or] at hnot
    rw [List.count_append, List.count_eq_zero.mpr hnot.1, List.count_eq_zero.mpr hnot.2, List.count_eq_zero]
    exact fun hmem => hused (List.mem_filter.mp hmem).2

theorem Lost.noLeak_iff (hl : Lost s lost) : NoLeak s ↔ lost = [] := by
  obtain ⟨chains, ha⟩ := hl
  have hheld : ∀ p, Held s p ↔ p ∈ chains.flatten := fun p => owns_reaches ha.owns
  have hlive := ha.live_perm.length_eq
  rw [List.length_append, owns_length ha.owns, List.map_map] at hlive
  constructor
  · intro hleak
    have hsame := hleak.live.symm.trans hlive
    exact List.length_eq_zero_iff.mp (Nat.left_eq_add.mp hsame)
  · rintro rfl
    refine ⟨fun p hp => ?_, fun p hlt hp => ?_, hlive⟩
    · have hmem := (hheld p).mp hp
      have honce := ha.once p
      have hlt := ha.lt (Or.inl hmem)
      rw [if_pos hlt] at honce
      have hpos := List.count_pos_iff.mpr hmem
      exact ⟨hlt, by omega⟩
    · have honce := ha.once p
      rw [if_pos hlt, List.count_eq_zero.mpr fun hmem => hp ((hheld p).mpr hmem)] at honce
      simpa using honce

theorem boot_lost : Lost boot [] :=
  ⟨[], .nil, fun _ => rfl, fun _ => by simp [boot]⟩

theorem run_lost {cs : List Call} (hr : Run fileMgr (fun _ _ => True) boot cs s) :
    ∃ lost, Lost s lost ∧ (lost = [] ↔ Run fileMgr Meets boot cs s) := by
  induction hr with
  | nil => exact ⟨[], boot_lost, iff_of_true rfl .nil⟩
  | @snoc cs s s' c hr _ hstep ih =>
    obtain ⟨lost, hl, hrun⟩ := ih
    obtain ⟨more, hl', hmeets⟩ := exec_lost hl hstep
    refine ⟨lost ++ more, hl', ?_⟩
    rw [List.append_eq_nil_iff, hrun, hmeets]
    constructor
    · rintro ⟨hrun', hmeets'⟩
      exact hrun'.snoc hmeets' hstep
    · intro hall
      obtain ⟨s₁, hrun', hmeets', _⟩ := hall.snoc_cases
      have hdet : ∀ s c s₁ s₂, fileMgr.step s c s₁ → fileMgr.step s c s₂ → s₁ = s₂ :=
        fun s c s₁ s₂ h₁ h₂ => Option.some.inj (h₁.symm.trans h₂)
      obtain rfl := hr.unique hdet hrun'
      exact ⟨hrun', hmeets'⟩

/-- The calls leave no leak if each of them meets its condition, and only then. -/
theorem filters_do_not_leak (cs : List Call) :
    (∃ s, Run fileMgr (fun _ _ => True) boot cs s ∧ NoLeak s) ↔ ∃ s, Run fileMgr Meets boot cs s := by
  constructor
  · rintro ⟨s, hr, hleak⟩
    obtain ⟨lost, hl, hrun⟩ := run_lost hr
    exact ⟨s, hrun.mp (hl.noLeak_iff.mp hleak)⟩
  · rintro ⟨s, hr⟩
    have hany := hr.mono fun _ _ _ => trivial
    obtain ⟨lost, hl, hrun⟩ := run_lost hany
    exact ⟨s, hany, hl.noLeak_iff.mpr (hrun.mpr hr)⟩

/-- A filter of two alternatives leaves its second node behind. -/
theorem show_leaks : ∃ s, Run fileMgr (fun _ _ => True) boot [.fileMgrShow ['a', '|', 'b']] s ∧
    s.heap.allocated = 2 ∧ s.heap.freed = [0] ∧ s.execList = [] ∧ ¬ NoLeak s := by
  obtain ⟨s, hexec⟩ : ∃ s, boot.exec (.fileMgrShow ['a', '|', 'b']) = some s := ⟨_, rfl⟩
  obtain ⟨more, hl, hmore⟩ := exec_lost boot_lost hexec
  obtain rfl := Option.some.inj hexec
  obtain ⟨hchain, halloc, hfreed, _⟩ := create_chain boot.heap (strFilterCreate ['a', '|', 'b'])
  rw [length_create (by decide)] at hchain halloc
  have hfirst : (boot.heap.create (strFilterCreate ['a', '|', 'b'])).2 = some 0 := hchain.1
  refine ⟨_, .single trivial hexec, ?_, ?_, rfl, fun hleak => ?_⟩
  · rw [hfirst]
    exact halloc
  · rw [hfirst]
    exact congrArg (List.cons 0) hfreed
  · have hmeets := hmore.mp (hl.noLeak_iff.mp hleak)
    exact hmeets.2 (by decide)

end DfewOS.FileMgr
