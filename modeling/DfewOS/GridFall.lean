import DfewOS.GridPath
import Mathlib.Order.Bounds.Basic

/-!
# Bodies that fall on a grid

A body is a list of cells, and falls as long as all of them are free. In each column the
cells are free down to a top, so the fall ends where the first of the cells meets the top
of its column.
-/

namespace GridFall
open GridPath

variable {free : Cell → Prop} {cells : List Cell} {top : ℤ → ℤ} {lo gap k : ℤ}

/-- All cells of the body are free, `k` lines below. -/
def Fits (free : Cell → Prop) (cells : List Cell) (k : ℤ) : Prop :=
  ∀ c ∈ cells, free ⟨c.x, c.y + k⟩

/-- From line `lo` on, column `x` is free down to its top and not at its top. -/
structure Topped (free : Cell → Prop) (top : ℤ → ℤ) (lo x : ℤ) : Prop where
  above : ∀ y, lo ≤ y → y < top x → free ⟨x, y⟩
  stop : ¬ free ⟨x, top x⟩

def gaps (top : ℤ → ℤ) (cells : List Cell) : Set ℤ := {g | ∃ c ∈ cells, top c.x - c.y - 1 = g}

theorem fits_of_le (htop : ∀ c ∈ cells, Topped free top lo c.x) (hlo : ∀ c ∈ cells, lo ≤ c.y)
    (hgap : IsLeast (gaps top cells) gap) (hk : 0 ≤ k) (hle : k ≤ gap) : Fits free cells k := by
  intro c hc
  have hline := hlo c hc
  have hleast := hgap.2 ⟨c, hc, rfl⟩
  exact (htop c hc).above _ (by omega) (by omega)

theorem not_fits (htop : ∀ c ∈ cells, Topped free top lo c.x)
    (hgap : IsLeast (gaps top cells) gap) : ¬ Fits free cells (gap + 1) := by
  obtain ⟨c, hc, hmeets⟩ := hgap.1
  intro hfits
  have hline : c.y + (gap + 1) = top c.x := by omega
  have hfree := hfits c hc
  rw [hline] at hfree
  exact (htop c hc).stop hfree

theorem gaps_columns (cols : List ℤ) (low : ℤ → ℤ) (hcols : ∀ c ∈ cells, c.x ∈ cols)
    (hlow : ∀ x ∈ cols, IsGreatest {y | ⟨x, y⟩ ∈ cells} (low x))
    (hgap : IsLeast {g | ∃ x ∈ cols, top x - low x - 1 = g} gap) :
    IsLeast (gaps top cells) gap := by
  constructor
  · obtain ⟨x, hx, hmeets⟩ := hgap.1
    exact ⟨⟨x, low x⟩, (hlow x hx).1, hmeets⟩
  · rintro g ⟨c, hc, rfl⟩
    have hx := hcols c hc
    have hlowest : c.y ≤ low c.x := (hlow c.x hx).2 hc
    have hleast := hgap.2 ⟨c.x, hx, rfl⟩
    omega

end GridFall
