import DfewOS.CpuLock

/-!
# The interrupt mask comes back

Every operation but `memH_free` gives the mask back that it was called with. `memH_free` calls
`free` with the lock of its module held: the second lock saves the masked state over the mask
that the first one saved.
-/

namespace DfewOS.CpuLock
open Blocks (Block walk_cases)
open Masking (Cpu Exec Prog mask_restored)
open MemH (Heap Sound Tiled add32 configHeapStart configHeapSize headSize place)

section MemHFree
variable {s s' : Cpu Shared} {h h' : Heap} {pTcb : Option TcbPtr} {usrP : Heap → ℕ → Prop}
  {bs : List MemH.Block}

/-- With the interrupts masked `free` leaves the masked state in the variable of the module,
unless it returns at once. -/
theorem free_saves (hs : s.masked = true) (hexec : Exec (free usrP) s h s' h') :
    s' = s ∧ (∃ p, usrP h p ∧ Outside h p) ∨ s'.masked = true ∧ s'.shared .memH = true := by
  cases hexec with
  | left hguard =>
    cases hguard with
    | guard hout => exact Or.inl ⟨rfl, hout⟩
  | right hbody =>
    right
    cases hbody with
    | seq hguard hbody =>
      cases hguard
      cases hbody with
      | seq hlock hbody =>
        cases hlock
        have hsaved : (s.lock (some .memH)).shared .memH = true :=
          (Cpu.load_lock s (some .memH)).trans hs
        cases hbody with
        | left hunlock =>
          cases hunlock with
          | unlock _ => exact ⟨rfl, hsaved⟩
          | enable _ _ hload => exact absurd (hsaved.symm.trans hload) (by decide)
        | right hbody =>
          cases hbody with
          | seq hact hunlock =>
            cases hact
            cases hunlock with
            | unlock _ => exact ⟨rfl, hsaved⟩
            | enable _ _ hload => exact absurd (hsaved.symm.trans hload) (by decide)

/-- A round finds a block. It leaves the interrupts masked if they were, or if `free` does not
return at once. -/
theorem freeOne_masked (hexec : Exec (memHFreeOne pTcb) s h s' h') :
    ∃ p, firstOf h pTcb = some (some p) ∧
      (s.masked = true ∨ ¬ Outside h (add32 p headSize) → s'.masked = true) := by
  cases hexec with
  | seq hlock hbody =>
    cases hlock
    cases hbody with
    | seq hguard hbody =>
      cases hguard with
      | guard hfound =>
        obtain ⟨p, hp⟩ := hfound
        refine ⟨p, hp, fun hcond => ?_⟩
        cases hbody with
        | seq hcall hunlock =>
          cases hcall with
          | @call _ _ s₁ _ d₁ x hfree =>
            have hload : s₁.shared .memH = true := by
              rcases free_saves rfl hfree with ⟨rfl, q, ⟨p', hp', rfl⟩, hout⟩ | ⟨-, hsaved⟩
              · rw [hp] at hp'
                cases hp'
                have hm := hcond.resolve_right fun hin => hin hout
                exact (Cpu.load_lock s (some .memH)).trans hm
              · exact hsaved
            cases hunlock with
            | unlock _ => rfl
            | enable _ _ hno => exact absurd (hload.symm.trans hno) (by decide)

theorem freeLoop_masked (hs : s.masked = true)
    (hexec : Exec (.loop (memHFreeOne pTcb)) s h s' h') : s'.masked = true := by
  generalize hp : Prog.loop (memHFreeOne pTcb) = p at hexec
  induction hexec with
  | leave => exact hs
  | round hone _ _ ih =>
    cases hp
    obtain ⟨p, -, hmask⟩ := freeOne_masked hone
    exact ih (hmask (Or.inl hs)) rfl
  | _ => cases hp

theorem freeEnd_mask
    (hexec : Exec (.block [.lock (some .memH), .guard fun h => firstOf h pTcb = some none,
      .unlock (some .memH)]) s h s' h') :
    firstOf h pTcb = some none ∧ s'.masked = s.masked := by
  cases hexec with
  | seq hlock hbody =>
    cases hlock
    cases hbody with
    | seq hguard hunlock =>
      cases hguard with
      | guard hnone =>
        refine ⟨hnone, ?_⟩
        have hload : (s.lock (some Shared.memH)).load (some .memH) = s.masked :=
          Cpu.load_lock ..
        cases hunlock with
        | unlock hm => exact hm.symm.trans hload
        | enable _ _ hm => exact hm.symm.trans hload

/-- In a heap that the calls keep sound the walk ends, and the pointer to what it finds is no
address that `free` passes by. -/
theorem firstOf_cases (hs : Sound h bs) (pTcb : Option TcbPtr) :
    (firstOf h pTcb = some none ∧ ∀ b ∈ bs, b.info.ownerTcb ≠ pTcb) ∨
      ∃ p, firstOf h pTcb = some (some p) ∧ ¬ Outside h (add32 p headSize) ∧
        ∃ b ∈ bs, b.info.ownerTcb = pTcb := by
  have ht := hs.toTiled
  have hfirst : Blocks.first h.info.heapStart bs none = some h.info.heapStart :=
    Blocks.first_of_ne ht.ne_nil
  have howner : ∀ xs b ys, bs = xs ++ b :: ys →
      (h.head (place xs)).info.ownerTcb = b.info.ownerTcb := by
    intro xs b ys hbs
    have ht' : Tiled h (xs ++ [b] ++ ys) := by
      rw [List.append_assoc]
      exact hbs ▸ ht
    rw [(Tiled.head_eq ht').1]
  rcases walk_cases (fun p => decide ((h.head p).info.ownerTcb = pTcb)) ht.laid ht.length_lt with
    ⟨hw, hpass⟩ | ⟨xs, b, ys, hbs, hstop, -, hw⟩
  · rw [hfirst] at hw
    refine Or.inl ⟨hw, fun b hb => ?_⟩
    obtain ⟨xs, ys, hbs⟩ := List.append_of_mem hb
    have hno := of_decide_eq_false (hpass xs b ys hbs)
    rw [ht.start, show configHeapStart + Blocks.span headSize xs = place xs from rfl,
      howner xs b ys hbs] at hno
    exact hno
  · rw [hfirst] at hw
    rw [ht.start, show configHeapStart + Blocks.span headSize xs = place xs from rfl] at hstop hw
    have hb := of_decide_eq_true hstop
    rw [howner xs b ys hbs] at hb
    have hfound : firstOf h pTcb = some (some (place xs)) := by
      rw [firstOf, ht.start]
      exact hw
    refine Or.inr ⟨place xs, hfound, ?_, b, by rw [hbs]; simp, hb⟩
    have ht' : Tiled h (xs ++ [b] ++ ys) := by
      rw [List.append_assoc]
      exact hbs ▸ ht
    have hspan := (Tiled.head_eq ht').2
    -- there is a byte behind the header
    have hroom : 0 < b.size + Blocks.span headSize ys := by
      cases ys with
      | nil =>
        have htail := hs.tail b (by rw [hbs]; simp)
        omega
      | cons c ys =>
        have hpos : 0 < headSize := by decide
        rw [Blocks.span_cons]
        omega
    have hhigh : configHeapStart + configHeapSize < 2 ^ 32 := by decide
    have hend : add32 h.info.heapStart h.info.heapSize = configHeapStart + configHeapSize := by
      rw [ht.start, ht.size]
      exact MemH.add32_of_lt hhigh
    have hlow : configHeapStart ≤ place xs := Nat.le_add_right ..
    rw [MemH.add32_of_lt (by omega), Outside, hend, ht.start]
    omega

/-- `memH_free` gives the mask back if the interrupts were masked before or the task owns no
block, and otherwise it does not. -/
theorem memHFree_mask (hs : Sound h bs) (hexec : Exec (memHFree pTcb) s h s' h') :
    s'.masked = s.masked ↔ s.masked = true ∨ ∀ b ∈ bs, b.info.ownerTcb ≠ pTcb := by
  cases hexec with
  | @seq _ _ _ s₁ _ _ h₁ _ hloop hend =>
    obtain ⟨hnone, hmask⟩ := freeEnd_mask hend
    by_cases hm : s.masked = true
    · rw [hmask, freeLoop_masked hm hloop, hm]
      simp
    · have hfalse : s.masked = false := Bool.eq_false_iff.mpr hm
      rw [hmask]
      cases hloop with
      | leave =>
        rcases firstOf_cases hs pTcb with ⟨-, hno⟩ | ⟨p, hp, -⟩
        · exact iff_of_true rfl (Or.inr hno)
        · rw [hp] at hnone
          cases hnone
      | round hone hrest =>
        obtain ⟨p, hp, hround⟩ := freeOne_masked hone
        rcases firstOf_cases hs pTcb with ⟨hno, -⟩ | ⟨q, hq, hin, b, hb, hown⟩
        · rw [hp] at hno
          cases hno
        · rw [hp] at hq
          cases hq
          rw [freeLoop_masked (hround (Or.inr hin)) hrest, hfalse]
          refine iff_of_false (by decide) ?_
          rintro (hc | hno)
          · cases hc
          · exact hno b hb hown

end MemHFree

/-- Every operation gives the interrupt mask back that it was called with, but for `memH_free`
called with the interrupts enabled for a task that owns a block. -/
theorem mask_balance (op : Op) {bs : List MemH.Block} {s s' : Cpu Shared} {h h' : Heap}
    (hheap : Sound h bs) (hexec : Exec op.code s h s' h') :
    s'.masked = s.masked ↔ ∀ pTcb, op = .memHFree pTcb →
      s.masked = true ∨ ∀ b ∈ bs, b.info.ownerTcb ≠ pTcb := by
  by_cases hop : ∀ pTcb, op ≠ .memHFree pTcb
  · exact iff_of_true (mask_restored (flow_code op hop) hexec) fun pTcb h => absurd h (hop pTcb)
  · obtain ⟨pTcb, rfl⟩ := not_forall_not.mp hop
    rw [memHFree_mask hheap hexec]
    constructor
    · intro h t ht
      cases ht
      exact h
    · intro h
      exact h pTcb rfl

def firstHeap : Heap := MemH.heapInit MemH.State.start.heap

def enabled : Cpu Shared := ⟨false, false, fun _ => false⟩

/-- `cmd_add` with the interrupts enabled: `malloc` saves the mask in a variable of its own. -/
theorem mask_balance_cmdAdd :
    ∃ s' h', Exec (Op.code .cmdAdd) enabled firstHeap s' h' ∧ s'.masked = false := by
  obtain ⟨⟨h₁, p⟩, hmalloc, -⟩ := Option.map_eq_some_iff.mp (show
    (firstHeap.malloc (some 1) 12).map (fun r => r.2) = some (configHeapStart + headSize)
    by decide)
  have hexec : Exec (Op.code .cmdAdd) enabled firstHeap ⟨false, false, fun _ => false⟩ h₁ :=
    .seq (.lock _) (.seq
      (.call false (.seq (.lock _) (.right (.seq (.act ⟨_, _, hmalloc⟩) (.unlock rfl)))))
      (.enable _ _ rfl))
  have hbalance := (mask_balance .cmdAdd MemH.heapInit_sound hexec).mpr fun pTcb h => by cases h
  exact ⟨_, _, hexec, hbalance⟩

/-- `memH_free` for a task that owns one block, called with the interrupts enabled, comes back
with the interrupts masked. -/
theorem memHFree_masks : ∃ h h' s', firstHeap.malloc (some 1) 12 = some h ∧
    Exec (Op.code (.memHFree (some 1))) enabled h.1 s' h' ∧
      enabled.masked = false ∧ s'.masked = true := by
  obtain ⟨⟨h, p⟩, hmalloc, hnext⟩ := Option.bind_eq_some_iff.mp (show
    ((firstHeap.malloc (some 1) 12).bind fun r =>
      (r.1.free (add32 configHeapStart headSize)).map fun h' =>
        (firstOf r.1 (some 1), decide (Outside r.1 (add32 configHeapStart headSize)),
          firstOf h' (some 1))) = some (some (some configHeapStart), false, some none)
    by decide)
  obtain ⟨h', hfree, hfact⟩ := Option.map_eq_some_iff.mp hnext
  simp only [Prod.mk.injEq] at hfact
  obtain ⟨hfirst, hin, hnone⟩ := hfact
  have hinside : ¬ Outside h (add32 configHeapStart headSize) := of_decide_eq_false hin
  have hcall : ∀ s : Cpu Shared, s.masked = true →
      Exec (free fun h usrP => ∃ p, firstOf h (some 1) = some (some p) ∧ usrP = add32 p headSize)
        s h ⟨true, s.saved, (s.lock (some .memH)).shared⟩ h' := fun s hs =>
    .right (.seq (.guard ⟨_, ⟨_, hfirst, rfl⟩, hinside⟩) (.seq (.lock _) (.right
      (.seq (.act ⟨_, ⟨_, hfirst, rfl⟩, hfree⟩)
        (.unlock ((Cpu.load_lock s (some .memH)).trans hs))))))
  have hround : ∃ s₁, Exec (memHFreeOne (some 1)) enabled h s₁ h' ∧ s₁.masked = true :=
    ⟨_, .seq (.lock _) (.seq (.guard ⟨_, hfirst⟩) (.seq (.call false (hcall _ rfl))
      (.unlock rfl))), rfl⟩
  obtain ⟨s₁, hone, hmasked⟩ := hround
  exact ⟨(h, p), h', _, hmalloc, .seq (.round hone .leave)
    (.seq (.lock _) (.seq (.guard hnone) (.unlock ((Cpu.load_lock s₁ _).trans hmasked)))),
    rfl, rfl⟩

end DfewOS.CpuLock
