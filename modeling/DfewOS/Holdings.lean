import DfewOS.MemHSpec
import Mathlib.Tactic.Tauto

/-!
# The blocks in use

`holdings` lists the blocks that are in use with the addresses of their payloads. What
`malloc` and `free` do to the blocks of a heap is said in terms of it: one block comes in,
one goes out, and all others stay as they are.
-/

namespace DfewOS.MemH

/-- The blocks in use from `a` on, each with the address of its payload. -/
def holdings : ℕ → List Block → List (ℕ × Block)
  | _, [] => []
  | a, b :: bs =>
    if b.info.isAlloced then (a + headSize, b) :: holdings (a + headSize + b.size) bs
    else holdings (a + headSize + b.size) bs

section Holdings
variable {h : Heap} {bs xs ys cs ds : List Block} {b d : Block} {a p n : ℕ} {x y : ℕ × Block}

theorem holdings_append :
    holdings a (xs ++ ys) = holdings a xs ++ holdings (a + Blocks.span headSize xs) ys := by
  induction xs generalizing a with
  | nil => rfl
  | cons b xs ih =>
    have hadd : a + headSize + b.size + Blocks.span headSize xs =
        a + Blocks.span headSize (b :: xs) := by
      rw [Blocks.span_cons]
      omega
    rw [List.cons_append, holdings, holdings, ih, hadd]
    split_ifs <;> rfl

theorem mem_holdings_replace {ms : List Block} : x ∈ holdings configHeapStart (xs ++ ms ++ ys) ↔
    x ∈ holdings configHeapStart xs ∨ x ∈ holdings (place xs) ms ∨
      x ∈ holdings (place xs + Blocks.span headSize ms) ys := by
  rw [List.append_assoc, holdings_append, holdings_append, List.mem_append, List.mem_append]
  rfl

theorem holdings_bounds (h : x ∈ holdings a bs) :
    a + headSize ≤ x.1 ∧ x.1 + x.2.size ≤ a + Blocks.span headSize bs := by
  induction bs generalizing a with
  | nil => simp [holdings] at h
  | cons b bs ih =>
    rw [Blocks.span_cons]
    rw [holdings] at h
    split_ifs at h with hb
    · rcases List.mem_cons.mp h with rfl | hx
      · exact ⟨le_rfl, by simp only; omega⟩
      · have hbound := ih hx
        omega
    · have hbound := ih h
      omega

theorem holdings_apart (hx : x ∈ holdings a bs) (hy : y ∈ holdings a bs) :
    x = y ∨ x.1 + x.2.size + headSize ≤ y.1 ∨ y.1 + y.2.size + headSize ≤ x.1 := by
  induction bs generalizing a with
  | nil => simp [holdings] at hx
  | cons b bs ih =>
    rw [holdings] at hx hy
    split_ifs at hx hy with hb
    · rcases List.mem_cons.mp hx with rfl | hx
      · rcases List.mem_cons.mp hy with rfl | hy
        · exact Or.inl rfl
        · exact Or.inr (Or.inl (by have hbound := (holdings_bounds hy).1; simp only; omega))
      · rcases List.mem_cons.mp hy with rfl | hy
        · exact Or.inr (Or.inr (by have hbound := (holdings_bounds hx).1; simp only; omega))
        · exact ih hx hy
    · exact ih hx hy

theorem holdings_unused (h : used bs = []) : holdings a bs = [] := by
  induction bs generalizing a with
  | nil => rfl
  | cons b bs ih =>
    rw [used_cons] at h
    rw [holdings]
    split_ifs at h ⊢
    exact ih h

theorem holdings_single (h : b.info.isAlloced = true) : holdings a [b] = [(a + headSize, b)] := by
  rw [holdings, if_pos h]
  rfl

theorem mem_holdings (h : x ∈ holdings configHeapStart bs) :
    ∃ xs ys, bs = xs ++ [x.2] ++ ys ∧ x.2.info.isAlloced = true ∧ x.1 = place xs + headSize := by
  suffices hgen : ∀ a, x ∈ holdings a bs → ∃ xs ys, bs = xs ++ [x.2] ++ ys ∧
      x.2.info.isAlloced = true ∧ x.1 = a + Blocks.span headSize xs + headSize by
    exact hgen _ h
  clear h
  induction bs with
  | nil => simp [holdings]
  | cons b bs ih =>
    intro a h
    have hlater : x ∈ holdings (a + headSize + b.size) bs → ∃ xs ys, b :: bs = xs ++ [x.2] ++ ys ∧
        x.2.info.isAlloced = true ∧ x.1 = a + Blocks.span headSize xs + headSize := by
      intro h
      obtain ⟨xs, ys, hbs, halloc, hx⟩ := ih _ h
      refine ⟨b :: xs, ys, congrArg (b :: ·) hbs, halloc, ?_⟩
      rw [Blocks.span_cons]
      omega
    rw [holdings] at h
    split_ifs at h with hb
    · rcases List.mem_cons.mp h with rfl | h
      · exact ⟨[], bs, rfl, hb, rfl⟩
      · exact hlater h
    · exact hlater h

theorem mem_holdings_of (hb : b.info.isAlloced = true) :
    (place xs + headSize, b) ∈ holdings configHeapStart (xs ++ [b] ++ ys) := by
  rw [mem_holdings_replace, holdings_single hb]
  exact Or.inr (Or.inl (List.mem_singleton_self _))

theorem Tiled.block_eq {us vs : List Block} (ht : Tiled h (xs ++ [b] ++ ys))
    (ht' : Tiled h (us ++ [d] ++ vs)) (hplace : place xs = place us) : b = d := by
  have hhead := ht.head_eq.1
  rw [hplace, ht'.head_eq.1] at hhead
  obtain ⟨-, -, hsize, hinfo⟩ := Blocks.Header.mk.inj hhead
  cases b
  cases d
  exact congr (congrArg _ hsize.symm) hinfo.symm

theorem held_unique {bs' : List Block} (ht : Tiled h bs) (ht' : Tiled h bs')
    (hb : (p, b) ∈ holdings configHeapStart bs) (hd : (p, d) ∈ holdings configHeapStart bs') :
    b = d := by
  obtain ⟨xs, ys, rfl, -, hp⟩ := mem_holdings hb
  obtain ⟨us, vs, rfl, -, hp'⟩ := mem_holdings hd
  exact ht.block_eq ht' (Nat.add_right_cancel (hp.symm.trans hp'))

theorem free_not_held (ht : Tiled h (xs ++ [b] ++ ys)) (hfree : b.info.isAlloced = false)
    (d : Block) : (place xs + headSize, d) ∉ holdings configHeapStart (xs ++ [b] ++ ys) := by
  intro hmem
  obtain ⟨us, vs, hbs, halloc, hplace⟩ := mem_holdings hmem
  have hsame : place us = place xs := (Nat.add_right_cancel hplace).symm
  have ht' : Tiled h (us ++ [d] ++ vs) := hbs ▸ ht
  obtain rfl := ht'.block_eq ht hsame
  exact absurd (hfree.symm.trans halloc) Bool.false_ne_true

theorem Tiled.congr {h' : Heap} (ht : Tiled h bs) (hinfo : h'.info = h.info)
    (hhead : h'.head = h.head) : Tiled h' bs := by
  obtain ⟨⟩ := ht
  constructor
  all_goals simpa only [hinfo, hhead]

end Holdings

def Tailed (bs : List Block) : Prop := ∀ b ∈ bs.getLast?, 0 < b.size

section Tail
variable {xs ys cs ds : List Block} {b : Block} {current : Option TcbPtr} {nbytes : ℕ}

theorem tail_replace {ms ms' : List Block} (h : Tailed (xs ++ ms ++ ys))
    (hms : ms ≠ []) (hms' : ms' ≠ [])
    (hlast : Tailed ms → Tailed ms') : Tailed (xs ++ ms' ++ ys) := by
  cases ys with
  | nil =>
    rw [Tailed, List.append_nil, List.getLast?_append_of_ne_nil _ hms] at h
    rw [Tailed, List.append_nil, List.getLast?_append_of_ne_nil _ hms']
    exact hlast h
  | cons c ys =>
    rw [Tailed, List.getLast?_append_of_ne_nil _ (by simp)] at h ⊢
    exact h

theorem carve_ne_nil (current : Option TcbPtr) (nbytes : ℕ) : carve current nbytes b ≠ [] := by
  rw [carve]
  split_ifs <;> simp

theorem carve_tail (h : Tailed [b]) : Tailed (carve current nbytes b) := by
  have hb : 0 < b.size := h b rfl
  rw [carve]
  split_ifs with hroom
  · intro c hc
    obtain rfl := Option.some.inj hc
    have hlow : 0 < defaultAlignByte := by decide
    exact Nat.sub_pos_of_lt (by omega)
  · intro c hc
    obtain rfl := Option.some.inj hc
    exact hb

theorem merge_tail (h : Tailed (cs ++ [b] ++ ds)) : Tailed [merge (cs ++ [b] ++ ds)] := by
  intro c hc
  have hmerge : merge (cs ++ [b] ++ ds) = c := Option.some.inj hc
  have hlow : headSize = 20 := rfl
  rw [← hmerge, merge_size]
  cases ds with
  | nil =>
    have hb := h b (by simp)
    omega
  | cons d ds =>
    rw [List.length_cons, hlow]
    omega

end Tail

section Calls
variable {h : Heap} {bs xs ys : List Block} {b : Block} {current : Option TcbPtr} {nbytes p : ℕ}

def granted (nbytes size : ℕ) : ℕ :=
  if nbytes + headSize + defaultAlignByte ≤ size then nbytes else size

theorem le_granted {size : ℕ} (h : nbytes ≤ size) : nbytes ≤ granted nbytes size := by
  rw [granted]
  split_ifs
  · exact le_rfl
  · exact h

theorem carve_holdings (a : ℕ) (current : Option TcbPtr) : holdings a (carve current nbytes b) =
    [(a + headSize, ⟨granted nbytes b.size, ⟨true, current⟩⟩)] := by
  rw [carve, granted]
  split_ifs <;> rfl

theorem malloc_holdings (ht : Tiled h bs) (current : Option TcbPtr)
    (hfit : ∃ b ∈ bs, b.info.isAlloced = false ∧ align nbytes ≤ b.size) :
    ∃ xs b ys bs', bs = xs ++ [b] ++ ys ∧ b.info.isAlloced = false ∧ align nbytes ≤ b.size ∧
      (∀ c ∈ xs, c.info.isAlloced = true ∨ c.size < align nbytes) ∧
      h.malloc current nbytes =
        some (h.take current (align nbytes) (place xs), place xs + headSize) ∧
      Tiled (h.take current (align nbytes) (place xs)) bs' ∧ (Tailed bs → Tailed bs') ∧
      ∀ x, x ∈ holdings configHeapStart bs' ↔ x ∈ holdings configHeapStart bs ∨
        x = (place xs + headSize, ⟨granted (align nbytes) b.size, ⟨true, current⟩⟩) := by
  rcases malloc_cases ht current nbytes with ⟨-, hnone⟩ | ⟨xs, b, ys, rfl, hfree, hle, hpass, heq, ht'⟩
  · obtain ⟨b, hb, hfree, hle⟩ := hfit
    rcases hnone b hb with halloc | hlt
    · rw [hfree] at halloc
      exact absurd halloc Bool.false_ne_true
    · omega
  · refine ⟨xs, b, ys, _, rfl, hfree, hle, hpass, heq, ht', fun htail => ?_, fun x => ?_⟩
    · exact tail_replace htail (by simp) (carve_ne_nil current (align nbytes)) carve_tail
    have hold : holdings (place xs) [b] = [] := holdings_unused (by simp [used_cons, hfree])
    rw [mem_holdings_replace, mem_holdings_replace, carve_span, hold, carve_holdings,
      List.mem_singleton]
    simp only [List.not_mem_nil, false_or]
    tauto

theorem release_holdings (ht : Tiled h (xs ++ [b] ++ ys)) (hb : b.info.isAlloced = true) :
    ∃ bs', Tiled (h.release (place xs)) bs' ∧ (Tailed (xs ++ [b] ++ ys) → Tailed bs') ∧
      ∀ x, x ∈ holdings configHeapStart bs' ↔
        x ∈ holdings configHeapStart (xs ++ [b] ++ ys) ∧ x.1 ≠ place xs + headSize := by
  obtain ⟨xs', cs, ds, ys', rfl, rfl, hcs, hds, ht'⟩ := release_tiled ht hb
  have hold : xs' ++ cs ++ [b] ++ (ds ++ ys') = xs' ++ (cs ++ [b] ++ ds) ++ ys' := by simp
  refine ⟨_, ht', fun htail => ?_, fun x => ?_⟩
  · exact tail_replace (hold ▸ htail) (by simp) (by simp) merge_tail
  have hspan : Blocks.span headSize [merge (cs ++ [b] ++ ds)] =
      Blocks.span headSize (cs ++ [b] ++ ds) := merge_span
  have hblock : holdings (place xs') (cs ++ [b] ++ ds) = [(place (xs' ++ cs) + headSize, b)] := by
    rw [holdings_append, holdings_append, holdings_unused hcs, holdings_unused hds, place_append,
      holdings_single hb]
    rfl
  have hmerge : holdings (place xs') [merge (cs ++ [b] ++ ds)] = [] := rfl
  have hbefore : ∀ x ∈ holdings configHeapStart xs', x.1 ≠ place (xs' ++ cs) + headSize := by
    intro x hx
    have hbound := (holdings_bounds hx).2
    have hlow : 0 < headSize := by decide
    simp only [place, Blocks.span_append]
    omega
  have hafter : ∀ x ∈ holdings (place xs' + Blocks.span headSize (cs ++ [b] ++ ds)) ys',
      x.1 ≠ place (xs' ++ cs) + headSize := by
    intro x hx
    have hbound := (holdings_bounds hx).1
    have hlow : 0 < headSize := by decide
    simp only [place, Blocks.span_append, Blocks.span_cons] at hbound ⊢
    omega
  rw [hold, mem_holdings_replace, mem_holdings_replace, hspan, hblock, hmerge, List.mem_singleton]
  constructor
  · rintro (hx | hx | hx)
    · exact ⟨Or.inl hx, hbefore x hx⟩
    · exact absurd hx List.not_mem_nil
    · exact ⟨Or.inr (Or.inr hx), hafter x hx⟩
  · rintro ⟨hx | rfl | hx, hne⟩
    · exact Or.inl hx
    · exact absurd rfl hne
    · exact Or.inr (Or.inr hx)

/-- The address at which the heap ends. -/
def heapEnd : ℕ := configHeapStart + configHeapSize

theorem Heap.release_byte (h : Heap) (p : ℕ) : (h.release p).byte = h.byte := by
  rw [Heap.release]
  dsimp only
  split <;> rfl

theorem free_outside (ht : Tiled h bs) (hp : p < configHeapStart ∨ heapEnd ≤ p) :
    h.free p = some h := by
  have hend : add32 h.info.heapStart h.info.heapSize = heapEnd := by
    rw [ht.start, ht.size]
    exact add32_of_lt (by decide)
  rw [Heap.free, hend, ht.start, if_pos hp]

theorem release_allocedNum (h : Heap) (p : ℕ) :
    (h.release p).info.allocedNum = sub32 h.info.allocedNum 1 := by
  rw [Heap.release]
  dsimp only
  split <;> rfl

theorem free_counted {h' : Heap} (ht : Tiled h (xs ++ [b] ++ ys)) (hlt : place xs + headSize < heapEnd)
    (hfree : h.free (place xs + headSize) = some h') : h'.info ≠ h.info := by
  intro hsame
  rcases free_cases ht (place xs + headSize) with ⟨-, hout⟩ | ⟨us, d, vs, -, -, hrelease⟩
  · have hend := hout xs b ys rfl rfl
    rw [heapEnd] at hlt
    omega
  · obtain rfl := Option.some.inj (hfree.symm.trans hrelease)
    have hnum : h.info.allocedNum = sub32 h.info.allocedNum 1 := by
      rw [← release_allocedNum h (place us), hsame]
    have hsmall := ht.sums
    rw [sub32] at hnum
    omega

theorem free_holdings (ht : Tiled h bs) (hp : (p, b) ∈ holdings configHeapStart bs)
    (hlt : p < heapEnd) :
    ∃ h' bs', h.free p = some h' ∧ h'.byte = h.byte ∧ Tiled h' bs' ∧ (Tailed bs → Tailed bs') ∧
      ∀ x, x ∈ holdings configHeapStart bs' ↔ x ∈ holdings configHeapStart bs ∧ x.1 ≠ p := by
  obtain ⟨us, vs, rfl, hb, hplace⟩ := mem_holdings hp
  obtain rfl : p = place us + headSize := hplace
  rcases free_cases ht (place us + headSize) with ⟨-, hout⟩ | ⟨xs, d, ys, hbs, heq, hfree⟩
  · have hlast := hout us b vs rfl rfl
    rw [heapEnd] at hlt
    omega
  · have hsame : place xs = place us := (Nat.add_right_cancel heq).symm
    have htd : Tiled h (xs ++ [d] ++ ys) := hbs ▸ ht
    obtain rfl := htd.block_eq ht hsame
    obtain ⟨bs', ht', htail, hiff⟩ := release_holdings htd hb
    rw [← hbs] at htail
    refine ⟨_, bs', hfree, h.release_byte _, ht', htail, fun x => ?_⟩
    rw [hiff, ← hbs, hsame]

end Calls

end DfewOS.MemH
