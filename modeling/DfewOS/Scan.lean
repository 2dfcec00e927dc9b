import Mathlib.Data.Nat.Notation
import Mathlib.Data.List.Basic

/-!
# Scanning a buffer for a stop byte

A buffer is a function on offsets, so that what lies behind its filled part is there as
well. A scan counts the cells in front of the first stop byte, and tells whether it found
one.
-/

namespace Scan

variable {α : Type*}

def slice (buf : ℕ → α) (b : ℕ) : ℕ → List α
  | 0 => []
  | n + 1 => buf b :: slice buf (b + 1) n

/-- The cells in front of the first `stop` among the `n` cells from `e` on. -/
def upTo [DecidableEq α] (stop : α) (buf : ℕ → α) (e : ℕ) : ℕ → ℕ × Bool
  | 0 => (0, false)
  | n + 1 =>
      if buf e = stop then (0, true)
      else ((upTo stop buf (e + 1) n).1 + 1, (upTo stop buf (e + 1) n).2)

theorem slice_length (buf : ℕ → α) (b n : ℕ) : (slice buf b n).length = n := by
  induction n generalizing b with
  | zero => rfl
  | succ n ih => simp only [slice, List.length_cons, ih]

theorem slice_add (buf : ℕ → α) (b m n : ℕ) :
    slice buf b (m + n) = slice buf b m ++ slice buf (b + m) n := by
  induction m generalizing b with
  | zero => simp [slice]
  | succ m ih =>
    rw [show m + 1 + n = (m + n) + 1 by omega, slice, slice, ih, List.cons_append,
      show b + 1 + m = b + (m + 1) by omega]

theorem slice_filled (xs : List α) (old : ℕ → α) :
    slice (fun k => xs.getD k (old k)) 0 xs.length = xs := by
  have h : ∀ (ys : List α) (b : ℕ) (buf : ℕ → α),
      (∀ k (hk : k < ys.length), buf (b + k) = ys[k]) → slice buf b ys.length = ys := by
    intro ys
    induction ys with
    | nil => intros; rfl
    | cons y ys ih =>
      intro b buf hbuf
      have hhead : buf b = y := hbuf 0 (by simp)
      have htail : slice buf (b + 1) ys.length = ys := by
        apply ih
        intro k hk
        have := hbuf (k + 1) (by simpa using hk)
        simpa [Nat.add_assoc, Nat.add_comm 1 k] using this
      simp only [List.length_cons, slice, hhead, htail]
  apply h
  intro k hk
  simp [hk]

variable [DecidableEq α] {stop : α} {buf : ℕ → α}

theorem upTo_not_found {e n : ℕ} (h : (upTo stop buf e n).2 = false) :
    (upTo stop buf e n).1 = n := by
  induction n generalizing e with
  | zero => rfl
  | succ n ih =>
    simp only [upTo] at h ⊢
    split at h
    · cases h
    · rename_i hne
      simp only [if_neg hne, ih h]

theorem upTo_lt {e n : ℕ} (h : (upTo stop buf e n).2 = true) :
    (upTo stop buf e n).1 < n := by
  induction n generalizing e with
  | zero => cases h
  | succ n ih =>
    simp only [upTo] at h ⊢
    split at h
    · rename_i heq
      simp [heq]
    · rename_i hne
      have := ih h
      simp only [if_neg hne]
      omega

theorem not_mem_slice_upTo (e n : ℕ) : stop ∉ slice buf e (upTo stop buf e n).1 := by
  induction n generalizing e with
  | zero => simp [upTo, slice]
  | succ n ih =>
    simp only [upTo]
    split
    · simp [slice]
    · rename_i hne
      simp only [slice, List.mem_cons, not_or]
      exact ⟨fun h => hne h.symm, ih (e + 1)⟩

theorem buf_upTo {e n : ℕ} (h : (upTo stop buf e n).2 = true) :
    buf (e + (upTo stop buf e n).1) = stop := by
  induction n generalizing e with
  | zero => cases h
  | succ n ih =>
    simp only [upTo] at h ⊢
    split at h
    · rename_i heq
      simp [heq]
    · rename_i hne
      have := ih h
      simp only [if_neg hne]
      rwa [show e + ((upTo stop buf (e + 1) n).1 + 1) = e + 1 + (upTo stop buf (e + 1) n).1 by
        omega]

/-- The scanned cells are the piece in front of the stop byte, the stop byte, and the rest. -/
theorem slice_upTo {e n : ℕ} (h : (upTo stop buf e n).2 = true) :
    slice buf e n = slice buf e (upTo stop buf e n).1 ++
      stop :: slice buf (e + (upTo stop buf e n).1 + 1) (n - ((upTo stop buf e n).1 + 1)) := by
  have hlt := upTo_lt h
  have hstop := buf_upTo h
  generalize upTo stop buf e n = r at *
  have hn : n = r.1 + ((n - (r.1 + 1)) + 1) := by omega
  calc slice buf e n = slice buf e (r.1 + ((n - (r.1 + 1)) + 1)) := by rw [← hn]
    _ = slice buf e r.1 ++ slice buf (e + r.1) ((n - (r.1 + 1)) + 1) := slice_add ..
    _ = _ := by rw [slice, hstop]

end Scan
