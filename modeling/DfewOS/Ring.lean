import Mathlib.Data.Nat.Notation

/-!
# Rings of cells

The cells of a ring of `m` cells that are in use are a window of it: the window starts at
a cell, and goes on behind the last cell at the first one. The cells lie one behind the
other in a list of bytes, each of them `e` bytes long.
-/

namespace Ring

variable {α : Type*} {m e n i j k out : ℕ} {data ele : List α}

/-! ## Indices -/

theorem index_apart (hij : i < j) (hj : j < m) : (out + i) % m ≠ (out + j) % m := by
  intro heq
  have hdvd : m ∣ out + j - (out + i) :=
    Nat.dvd_of_mod_eq_zero (Nat.sub_mod_eq_zero_of_mod_eq heq.symm)
  have hle := Nat.le_of_dvd (by omega) hdvd
  omega

theorem empty_iff (hout : out < m) (hn : n < m) : (out + n) % m = out ↔ n = 0 := by
  constructor
  · intro heq
    obtain hzero | hpos := Nat.eq_zero_or_pos n
    · exact hzero
    · have hapart : (out + 0) % m ≠ (out + n) % m := index_apart hpos hn
      rw [Nat.add_zero, Nat.mod_eq_of_lt hout, heq] at hapart
      exact absurd rfl hapart
  · intro heq
    rw [heq, Nat.add_zero, Nat.mod_eq_of_lt hout]

theorem full_iff (hout : out < m) (hn : n < m) : ((out + n) % m + 1) % m = out ↔ n + 1 = m := by
  rw [Nat.mod_add_mod, Nat.add_assoc]
  by_cases hlast : n + 1 = m
  · rw [hlast, Nat.add_mod_right, Nat.mod_eq_of_lt hout]
    simp
  · rw [empty_iff hout (by omega)]
    omega

/-! ## The cells -/

def cell (e : ℕ) (data : List α) (k : ℕ) : List α := (data.drop (k * e)).take e

/-- The bytes with `ele` written at `off`. -/
def write (data : List α) (off : ℕ) (ele : List α) : List α :=
  data.take off ++ ele ++ data.drop (off + ele.length)

theorem write_length {off : ℕ} (h : off + ele.length ≤ data.length) :
    (write data off ele).length = data.length := by
  simp only [write, List.length_append, List.length_take, List.length_drop]
  omega

theorem cell_end_le (h : k < m) : k * e + e ≤ m * e := by
  have hmul := Nat.mul_le_mul_right e (Nat.succ_le_of_lt h)
  rwa [Nat.succ_mul] at hmul

theorem cell_write_self (he : ele.length = e) (h : k * e + e ≤ data.length) :
    cell e (write data (k * e) ele) k = ele := by
  have hlen : (data.take (k * e)).length = k * e := List.length_take_of_le (by omega)
  rw [cell, write, List.append_assoc, List.drop_append_of_le_length (by omega),
    List.drop_of_length_le (by omega), List.nil_append, List.take_append_of_le_length (by omega),
    List.take_of_length_le (by omega)]

theorem cell_write_other (he : ele.length = e) (h : k * e + e ≤ data.length) (hne : j ≠ k) :
    cell e (write data (k * e) ele) j = cell e data j := by
  have hlen : (data.take (k * e)).length = k * e := List.length_take_of_le (by omega)
  simp only [cell, write, List.append_assoc]
  obtain hlt | hgt := Nat.lt_or_gt_of_ne hne
  · have hend := cell_end_le (e := e) hlt
    rw [List.drop_append_of_le_length (by omega), List.take_append_of_le_length
      (by rw [List.length_drop]; omega), List.drop_take, List.take_take, Nat.min_eq_left (by omega)]
  · have hend := cell_end_le (e := e) hgt
    rw [List.drop_append, List.drop_of_length_le (by omega), List.nil_append, List.drop_append,
      List.drop_of_length_le (by omega), List.nil_append, List.drop_drop]
    congr 2
    omega

/-! ## Windows -/

/-- The contents of `n` cells of a ring of `m` cells, from `out` on. -/
def window (m : ℕ) (slot : ℕ → α) : ℕ → ℕ → List α
  | _, 0 => []
  | out, n + 1 => slot (out % m) :: window m slot (out + 1) n

variable {slot slot' : ℕ → α} {a : α}

@[simp] theorem window_length : (window m slot out n).length = n := by
  induction n generalizing out with
  | zero => rfl
  | succ n ih => rw [window, List.length_cons, ih]

theorem window_congr (h : ∀ i < n, slot ((out + i) % m) = slot' ((out + i) % m)) :
    window m slot out n = window m slot' out n := by
  induction n generalizing out with
  | zero => rfl
  | succ n ih =>
    have hfirst := h 0 (Nat.succ_pos n)
    have hrest : window m slot (out + 1) n = window m slot' (out + 1) n := by
      apply ih
      intro i hi
      have hnext := h (i + 1) (by omega)
      rwa [Nat.add_right_comm out 1 i, Nat.add_assoc]
    rw [Nat.add_zero] at hfirst
    rw [window, window, hfirst, hrest]

theorem window_mod : window m slot (out % m) n = window m slot out n := by
  induction n generalizing out with
  | zero => rfl
  | succ n ih =>
    have hnext : window m slot (out % m + 1) n = window m slot (out + 1) n := by
      rw [← ih, Nat.mod_add_mod, ih]
    rw [window, window, Nat.mod_mod, hnext]

theorem window_snoc : window m slot out (n + 1) = window m slot out n ++ [slot ((out + n) % m)] := by
  induction n generalizing out with
  | zero => rfl
  | succ n ih =>
    rw [window, ih, window, List.cons_append, Nat.add_right_comm out 1 n, Nat.add_assoc]

theorem window_write (hn : n < m) (hwrite : slot' ((out + n) % m) = a)
    (hother : ∀ j, j ≠ (out + n) % m → slot' j = slot j) :
    window m slot' out (n + 1) = window m slot out n ++ [a] := by
  have hkept : window m slot' out n = window m slot out n :=
    window_congr fun i hi => hother _ (index_apart hi hn)
  rw [window_snoc, hkept, hwrite]

end Ring
