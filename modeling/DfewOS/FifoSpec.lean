import DfewOS.Fifo
import DfewOS.Replies

/-!
# The looped queue as a bounded queue

The ring has `max_num + 1` cells, but its indices wrap at `ele_size`. So it is a queue of
`max_num` elements only if the two are equal, as they are for the queue of the shell.
-/

namespace DfewOS.FIFO
open Dlist (OsStatus)
open Replies (run serve)

/-- What the module is for: a queue of at most `maxNum` elements. -/
def bounded (maxNum : ℕ) (q : List (List UInt8)) : Call → List (List UInt8) × Reply
  | .put pElement => if q.length < maxNum then (q ++ [pElement], .ok, pElement)
    else (q, .error, pElement)
  | .get pElement => match q with
    | [] => ([], .error, pElement)
    | element :: q => (q, .ok, element)
  | .head pElement => match q with
    | [] => ([], .error, pElement)
    | element :: q => (element :: q, .ok, element)

def HasElement (eleSize : ℕ) (c : Call) : Prop := c.pElement.length = eleSize

/-- Every list of calls gets the replies of the bounded queue, without an access outside the
block; and what returns `ERROR` changes nothing. -/
def IsQueue (pFifo : FIFO) (maxNum : ℕ) : Prop :=
  ∀ cs, (∀ c ∈ cs, HasElement pFifo.eleSize c) →
    ∃ pFifo', run exec pFifo cs = some (pFifo', (serve (bounded maxNum) [] cs).2) ∧
      ∀ c pFifo'' pElement, exec pFifo' c = some (pFifo'', .error, pElement) →
        pFifo'' = pFifo' ∧ pElement = c.pElement

/-- The indices wrap where the ring ends, and its size is a `uint32`. -/
def Fits (maxNum eleSize : ℕ) : Prop :=
  eleSize = maxNum + 1 ∧ sizeofFifo + (maxNum + 1) * eleSize < 2 ^ 32

instance (maxNum eleSize : ℕ) : Decidable (Fits maxNum eleSize) :=
  inferInstanceAs (Decidable (_ ∧ _))

structure Represents (maxNum : ℕ) (pFifo : FIFO) (q : List (List UInt8)) : Prop where
  fits : Fits maxNum pFifo.eleSize
  length : pFifo.data.length = (maxNum + 1) * pFifo.eleSize
  out : pFifo.out < pFifo.eleSize
  in' : pFifo.in' = (pFifo.out + q.length) % pFifo.eleSize
  room : q.length < pFifo.eleSize
  window : Ring.window pFifo.eleSize (Ring.cell pFifo.eleSize pFifo.data) pFifo.out q.length = q

variable {f f' : FIFO} {q : List (List UInt8)} {maxNum eleSize n k : ℕ} {x pElement : List UInt8}
  {malloc : ℕ → Option (List UInt8)}

theorem exec_error {c : Call} (h : exec f c = some (f', .error, pElement)) :
    f' = f ∧ pElement = c.pElement := by
  cases c with
  | put p =>
    simp only [exec, fifoPut] at h
    split at h
    · cases h
      exact ⟨rfl, rfl⟩
    · split at h <;> cases h
  | get p =>
    simp only [exec, fifoGet] at h
    split at h
    · cases h
      exact ⟨rfl, rfl⟩
    · cases hfetch : f.fetch p <;> rw [hfetch] at h <;> cases h
  | head p =>
    simp only [exec, fifoHead] at h
    split at h
    · cases h
      exact ⟨rfl, rfl⟩
    · cases hfetch : f.fetch p <;> rw [hfetch] at h <;> cases h

/-! ## Where the size fits -/

namespace Represents

theorem next (h : Represents maxNum f q) (hk : k < f.eleSize) : f.next k = (k + 1) % f.eleSize := by
  obtain ⟨hsize, hfits⟩ := h.fits
  have hsquare : maxNum + 1 ≤ (maxNum + 1) * f.eleSize := Nat.le_mul_of_pos_right _ (by omega)
  rw [FIFO.next, Nat.mod_eq_of_lt (show k + 1 < 2 ^ 32 by omega)]

theorem offset (h : Represents maxNum f q) (hk : k < f.eleSize) :
    f.offset k = k * f.eleSize ∧ k * f.eleSize + f.eleSize ≤ f.data.length := by
  obtain ⟨hsize, hfits⟩ := h.fits
  have hend : k * f.eleSize + f.eleSize ≤ (maxNum + 1) * f.eleSize :=
    Ring.cell_end_le (by omega)
  refine ⟨Nat.mod_eq_of_lt (by omega), ?_⟩
  rw [h.length]
  exact hend

theorem isEmpty_iff (h : Represents maxNum f q) : f.isEmpty = true ↔ q = [] := by
  simp only [isEmpty, decide_eq_true_eq, h.in', Ring.empty_iff h.out h.room, List.length_eq_zero_iff]

theorem isFull_iff (h : Represents maxNum f q) : f.isFull = true ↔ q.length = maxNum := by
  have hin : f.in' < f.eleSize := by
    rw [h.in']
    exact Nat.mod_lt _ (Nat.zero_lt_of_lt h.out)
  have hsize := h.fits.1
  rw [isFull, decide_eq_true_eq, h.next hin, h.in', Ring.full_iff h.out h.room]
  omega

theorem put (h : Represents maxNum f q) (hx : x.length = f.eleSize) :
    ∃ f', exec f (.put x) = some (f', (bounded maxNum q (.put x)).2) ∧
      f'.eleSize = f.eleSize ∧ Represents maxNum f' (bounded maxNum q (.put x)).1 := by
  have hsize := h.fits.1
  have hin : f.in' < f.eleSize := by
    rw [h.in']
    exact Nat.mod_lt _ (Nat.zero_lt_of_lt h.out)
  simp only [exec, fifoPut, bounded]
  by_cases hroom : q.length < maxNum
  · obtain ⟨hoffset, hend⟩ := h.offset hin
    have hfull : ¬ f.isFull = true := by
      rw [h.isFull_iff]
      omega
    rw [if_neg hfull, hoffset, if_pos hend, if_pos hroom, List.take_of_length_le (by omega)]
    refine ⟨_, rfl, rfl, h.fits, ?_, h.out, ?_, ?_, ?_⟩
    · rw [Ring.write_length (by omega)]
      exact h.length
    · simp only [List.length_append, List.length_singleton]
      rw [h.next hin, h.in', Nat.mod_add_mod, Nat.add_assoc]
    · simp only [List.length_append, List.length_singleton]
      omega
    · have hself := Ring.cell_write_self hx hend
      have hother := fun j => Ring.cell_write_other (j := j) hx hend
      rw [h.in'] at hself hother
      rw [List.length_append, List.length_singleton, h.in']
      exact (Ring.window_write h.room hself hother).trans (by rw [h.window])
  · have hfull : f.isFull = true := by
      rw [h.isFull_iff]
      have := h.room
      omega
    rw [if_pos hfull, if_neg hroom]
    exact ⟨f, rfl, rfl, h⟩

theorem fetch {element : List UInt8} (h : Represents maxNum f (element :: q))
    (hp : pElement.length = f.eleSize) : f.fetch pElement = some element := by
  obtain ⟨hoffset, hend⟩ := h.offset h.out
  have hcell : Ring.cell f.eleSize f.data (f.out % f.eleSize) = element :=
    (List.cons.inj h.window).1
  have hrest : pElement.drop f.eleSize = [] := List.drop_of_length_le (Nat.le_of_eq hp)
  rw [Nat.mod_eq_of_lt h.out] at hcell
  rw [FIFO.fetch, hoffset, if_pos hend, hrest, List.append_nil]
  exact congrArg some hcell

theorem get (h : Represents maxNum f q) (hp : pElement.length = f.eleSize) :
    ∃ f', exec f (.get pElement) = some (f', (bounded maxNum q (.get pElement)).2) ∧
      f'.eleSize = f.eleSize ∧ Represents maxNum f' (bounded maxNum q (.get pElement)).1 := by
  simp only [exec, fifoGet]
  cases q with
  | nil =>
    rw [if_pos (h.isEmpty_iff.mpr rfl)]
    exact ⟨f, rfl, rfl, h⟩
  | cons element q =>
    have hfull : ¬ f.isEmpty = true := by
      rw [h.isEmpty_iff]
      exact List.cons_ne_nil element q
    rw [if_neg hfull, h.fetch hp]
    have hpos : 0 < f.eleSize := Nat.zero_lt_of_lt h.out
    have hnext := h.next h.out
    refine ⟨_, rfl, rfl, h.fits, h.length, ?_, ?_, ?_, ?_⟩
    · change f.next f.out < f.eleSize
      rw [hnext]
      exact Nat.mod_lt _ hpos
    · change f.in' = (f.next f.out + q.length) % f.eleSize
      rw [hnext, h.in', Nat.mod_add_mod, List.length_cons, Nat.add_right_comm, Nat.add_assoc]
    · have hroom := h.room
      rw [List.length_cons] at hroom
      change q.length < f.eleSize
      omega
    · change Ring.window f.eleSize (Ring.cell f.eleSize f.data) (f.next f.out) q.length = q
      rw [hnext, Ring.window_mod]
      exact (List.cons.inj h.window).2

theorem head (h : Represents maxNum f q) (hp : pElement.length = f.eleSize) :
    ∃ f', exec f (.head pElement) = some (f', (bounded maxNum q (.head pElement)).2) ∧
      f'.eleSize = f.eleSize ∧ Represents maxNum f' (bounded maxNum q (.head pElement)).1 := by
  simp only [exec, fifoHead]
  cases q with
  | nil =>
    rw [if_pos (h.isEmpty_iff.mpr rfl)]
    exact ⟨f, rfl, rfl, h⟩
  | cons element q =>
    have hfull : ¬ f.isEmpty = true := by
      rw [h.isEmpty_iff]
      exact List.cons_ne_nil element q
    rw [if_neg hfull, h.fetch hp]
    exact ⟨f, rfl, rfl, h⟩

theorem exec (h : Represents maxNum f q) {c : Call} (hc : HasElement f.eleSize c) :
    ∃ f', FIFO.exec f c = some (f', (bounded maxNum q c).2) ∧
      f'.eleSize = f.eleSize ∧ Represents maxNum f' (bounded maxNum q c).1 := by
  cases c with
  | put x => exact h.put hc
  | get pElement => exact h.get hc
  | head pElement => exact h.head hc

theorem isQueue (h : Represents maxNum f []) : f.IsQueue maxNum := by
  intro cs hcs
  have hstep : ∀ (f' : FIFO) (q : List (List UInt8)) (c : Call),
      f'.eleSize = f.eleSize ∧ Represents maxNum f' q → HasElement f.eleSize c →
      ∃ f'', FIFO.exec f' c = some (f'', (bounded maxNum q c).2) ∧
        f''.eleSize = f.eleSize ∧ Represents maxNum f'' (bounded maxNum q c).1 := by
    intro f' q c ⟨hsize, hrep⟩ hc
    rw [← hsize] at hc ⊢
    exact hrep.exec hc
  obtain ⟨f', hrun, -⟩ := Replies.run_refines hstep ⟨rfl, h⟩ cs hcs
  exact ⟨f', hrun, fun c f'' pElement herror => exec_error herror⟩

end Represents

/-! ## Where it does not -/

def puts (n : ℕ) (x : List UInt8) : List Call := List.replicate n (.put x)

theorem puts_succ : puts (n + 1) x = puts n x ++ [.put x] := List.replicate_succ'

theorem serve_puts (hn : n ≤ maxNum) :
    (serve (bounded maxNum) [] (puts n x)).1.length = n := by
  induction n with
  | zero => rfl
  | succ n ih =>
    have hlen := ih (by omega)
    rw [puts_succ, Replies.serve_snoc, bounded, if_pos (by omega)]
    rw [List.length_append, List.length_singleton, hlen]

/-- A queue that is full at the start and lets `n` elements in has them in its first cells. -/
theorem run_puts (hout : f.out = 0) (hin : f.in' = 0) (hsize : f.eleSize < 2 ^ 32)
    (hx : x.length = f.eleSize) (hn : n < f.eleSize) {rs : List Reply}
    (hrun : run exec f (puts n x) = some (f', rs)) :
    f'.out = 0 ∧ f'.in' = n ∧ f'.eleSize = f.eleSize ∧ f'.data.length = f.data.length ∧
      ∀ k < n, f.offset k + f.eleSize ≤ f.data.length := by
  induction n generalizing f' rs with
  | zero =>
    cases hrun
    exact ⟨hout, hin, rfl, rfl, fun k hk => absurd hk (Nat.not_lt_zero k)⟩
  | succ n ih =>
    rw [puts_succ, Replies.run_snoc] at hrun
    cases hfirst : run exec f (puts n x) with
    | none =>
      rw [hfirst] at hrun
      cases hrun
    | some r =>
      obtain ⟨hout₁, hin₁, hsize₁, hlen₁, hinside⟩ := ih (by omega) hfirst
      have hnext : r.1.next n = n + 1 := by
        rw [next, hsize₁, Nat.mod_eq_of_lt (show n + 1 < 2 ^ 32 by omega), Nat.mod_eq_of_lt hn]
      have hoffset : r.1.offset n = f.offset n := by rw [offset, offset, hsize₁]
      have hfull : ¬ r.1.isFull = true := by
        rw [isFull, decide_eq_true_eq, hin₁, hnext, hout₁]
        exact Nat.succ_ne_zero n
      rw [hfirst, Option.bind_some, exec, fifoPut, if_neg hfull, hin₁, hnext, hoffset, hsize₁,
        hlen₁] at hrun
      split at hrun
      · next hend =>
        cases hrun
        refine ⟨hout₁, rfl, rfl, ?_, fun k hk => ?_⟩
        · rw [Ring.write_length, hlen₁]
          rw [List.take_of_length_le (by omega)]
          omega
        · obtain hlt | heq := Nat.lt_succ_iff_lt_or_eq.mp hk
          · exact hinside k hlt
          · rw [heq]
            exact hend
      · cases hrun

/-- The call behind `n` elements that were let in, in a queue that has room for them. -/
theorem IsQueue.next (h : f.IsQueue maxNum) (hout : f.out = 0) (hin : f.in' = 0)
    (hsize : f.eleSize < 2 ^ 32) (hx : x.length = f.eleSize) (hn : n < f.eleSize)
    (hroom : n ≤ maxNum) :
    ∃ f₁ q f', f₁.out = 0 ∧ f₁.in' = n ∧ f₁.eleSize = f.eleSize ∧ q.length = n ∧
      (∀ k < n, f.offset k + f.eleSize ≤ f.data.length) ∧
      exec f₁ (.put x) = some (f', (bounded maxNum q (.put x)).2) := by
  have hcalls : ∀ c ∈ puts n x ++ [.put x], HasElement f.eleSize c := by
    intro c hc
    rw [← puts_succ] at hc
    rw [List.eq_of_mem_replicate hc]
    exact hx
  obtain ⟨f', hrun, -⟩ := h _ hcalls
  obtain ⟨f₁, hfirst, hlast⟩ := Replies.run_snoc_serve hrun
  obtain ⟨hout₁, hin₁, hsize₁, -, hinside⟩ := run_puts hout hin hsize hx hn hfirst
  exact ⟨f₁, _, f', hout₁, hin₁, hsize₁, serve_puts hroom, hinside, hlast⟩

theorem wraps_outside (h : 2 ^ 32 ≤ sizeofFifo + (maxNum + 1) * (maxNum + 1)) :
    ∃ k < maxNum, (sizeofFifo + (maxNum + 1) * (maxNum + 1)) % 2 ^ 32 - sizeofFifo <
      k * (maxNum + 1) % 2 ^ 32 + (maxNum + 1) := by
  have hheader : sizeofFifo = 20 := rfl
  have hlarge : 65535 ≤ maxNum := by
    by_contra hsmall
    have := Nat.mul_le_mul (show maxNum + 1 ≤ 65535 by omega) (show maxNum + 1 ≤ 65535 by omega)
    omega
  obtain heq | hlt := Nat.eq_or_lt_of_le hlarge
  · subst heq
    exact ⟨0, by decide, by decide⟩
  · -- the last cell that starts below `2 ^ 32` ends behind it
    have hdiv := Nat.div_mul_le_self (2 ^ 32 - 1) (maxNum + 1)
    have hrest := Nat.lt_div_mul_add (a := 2 ^ 32 - 1) (show 0 < maxNum + 1 by omega)
    have hquot : (2 ^ 32 - 1) / (maxNum + 1) < 65536 :=
      Nat.div_lt_of_lt_mul (by omega)
    refine ⟨(2 ^ 32 - 1) / (maxNum + 1), by omega, ?_⟩
    rw [Nat.mod_eq_of_lt (show (2 ^ 32 - 1) / (maxNum + 1) * (maxNum + 1) < 2 ^ 32 by omega)]
    have hmod := Nat.mod_lt (sizeofFifo + (maxNum + 1) * (maxNum + 1)) (show 0 < 2 ^ 32 by decide)
    omega

/-- A new queue is a queue of `max_num` elements exactly if the indices wrap where the ring
ends. -/
theorem fifo_queue (hmax : maxNum < 2 ^ 32) (hsize : eleSize < 2 ^ 32)
    (hmalloc : ∀ nbytes block, malloc nbytes = some block → block.length = nbytes)
    (hf : fifoCreate malloc maxNum eleSize = some f) :
    f.IsQueue maxNum ↔ Fits maxNum eleSize := by
  rw [fifoCreate] at hf
  split at hf
  · cases hf
  · next hpos =>
    obtain ⟨hmaxpos, hsizepos⟩ := not_or.mp hpos
    obtain ⟨block, hblock, rfl⟩ := Option.map_eq_some_iff.mp hf
    have hlen : (block.drop sizeofFifo).length =
        (sizeofFifo + (maxNum + 1) * eleSize) % 2 ^ 32 - sizeofFifo := by
      rw [List.length_drop, hmalloc _ _ hblock]
    constructor
    · intro hqueue
      have hx : (List.replicate eleSize (0 : UInt8)).length = eleSize := List.length_replicate
      obtain hlow | heq | hhigh := Nat.lt_trichotomy eleSize (maxNum + 1)
      · obtain ⟨f₁, q, f', hout, hin, hsize₁, hq, -, hput⟩ := hqueue.next rfl rfl hsize hx
          (show eleSize - 1 < eleSize by omega) (by omega)
        have hfull : f₁.isFull = true := by
          rw [isFull, decide_eq_true_eq, hin, hout, next, hsize₁]
          change (eleSize - 1 + 1) % 2 ^ 32 % eleSize = 0
          rw [Nat.sub_add_cancel (by omega), Nat.mod_eq_of_lt hsize, Nat.mod_self]
        rw [exec, fifoPut, if_pos hfull, bounded, if_pos (by omega)] at hput
        cases hput
      · refine ⟨heq, ?_⟩
        by_contra hwrap
        obtain ⟨f₁, q, f', -, -, -, -, hinside, -⟩ := hqueue.next rfl rfl hsize hx
          (show maxNum < eleSize by omega) (Nat.le_refl maxNum)
        subst heq
        obtain ⟨k, hk, houtside⟩ := wraps_outside (Nat.le_of_not_lt hwrap)
        have hend := hinside k hk
        change k * (maxNum + 1) % 2 ^ 32 + (maxNum + 1) ≤ (block.drop sizeofFifo).length at hend
        omega
      · obtain ⟨f₁, q, f', hout, hin, hsize₁, hq, -, hput⟩ := hqueue.next rfl rfl hsize hx
          (show maxNum < eleSize by omega) (Nat.le_refl maxNum)
        have hroom : ¬ f₁.isFull = true := by
          rw [isFull, decide_eq_true_eq, hin, hout, next, hsize₁]
          change ¬ (maxNum + 1) % 2 ^ 32 % eleSize = 0
          rw [Nat.mod_eq_of_lt (show maxNum + 1 < 2 ^ 32 by omega), Nat.mod_eq_of_lt hhigh]
          exact Nat.succ_ne_zero maxNum
        rw [bounded, if_neg (show ¬ q.length < maxNum by omega), exec, fifoPut, if_neg hroom] at hput
        split at hput <;> cases hput
    · intro hfits
      apply Represents.isQueue
      refine ⟨hfits, ?_, Nat.pos_of_ne_zero hsizepos, ?_, Nat.pos_of_ne_zero hsizepos, rfl⟩
      · change (block.drop sizeofFifo).length = (maxNum + 1) * eleSize
        rw [hlen, Nat.mod_eq_of_lt hfits.2, Nat.add_sub_cancel_left]
      · exact (Nat.zero_mod eleSize).symm

/-- The queue of the shell: `_FIFO_NUM` elements of the size of an `int`. -/
def shellFifo : FIFO := ⟨0, 0, 3, 4, List.replicate 16 0⟩

theorem fifo_queue_shell : shellFifo.IsQueue 3 ↔ Fits 3 4 :=
  fifo_queue (by decide) (by decide)
    (fun nbytes block hblock => by
      rw [← Option.some.inj hblock]
      exact List.length_replicate)
    (show fifoCreate (fun nbytes => some (List.replicate nbytes 0)) 3 4 = some shellFifo by decide)

/-- A queue of four elements of two bytes each takes only one of them. -/
def narrowFifo : FIFO := ⟨0, 0, 4, 2, List.replicate 10 0⟩

theorem narrow_refuses :
    fifoCreate (fun nbytes => some (List.replicate nbytes 0)) 4 2 = some narrowFifo ∧
      (run exec narrowFifo (puts 2 [1, 2])).map (fun r => r.2) =
        some [(.ok, [1, 2]), (.error, [1, 2])] ∧
      (serve (bounded 4) [] (puts 2 [1, 2])).2 = [(.ok, [1, 2]), (.ok, [1, 2])] ∧
      ¬ narrowFifo.IsQueue 4 := by
  refine ⟨by decide, by decide, by decide, fun hqueue => ?_⟩
  obtain ⟨f', hrun, -⟩ := hqueue (puts 2 [1, 2]) (by unfold HasElement; decide)
  have hreplies : (run exec narrowFifo (puts 2 [1, 2])).map (fun r => r.2) =
      some [(.ok, [1, 2]), (.error, [1, 2])] := by decide
  rw [hrun, Option.map_some, Option.some.injEq] at hreplies
  exact absurd hreplies (show ¬ (serve (bounded 4) [] (puts 2 [1, 2])).2 = _ by decide)

end DfewOS.FIFO
