import Mathlib.Data.Nat.Notation
import Mathlib.Logic.Function.Basic

/-!
# Blocks that tile a range of addresses

Each block is a header of `hdr` bytes and a payload behind it. `Laid` says that
the blocks of a list lie one after another from an address on and are linked
both ways: so the list determines every address. An operation that replaces
some neighbouring blocks by others of the same total span touches only their
headers and the `prev` of the block behind them (`Laid.replace`).
-/

namespace DfewOS.Blocks

structure Header (α : Type*) where
  prev : Option ℕ
  next : Option ℕ
  size : ℕ
  info : α
  deriving DecidableEq

structure Block (α : Type*) where
  size : ℕ
  info : α
  deriving DecidableEq

variable {α : Type*} (hdr : ℕ)

def span : List (Block α) → ℕ
  | [] => 0
  | b :: bs => hdr + b.size + span bs

/-- The link to the blocks `bs` from `a` on, or to `nxt` if there are none. -/
def first (a : ℕ) : List (Block α) → Option ℕ → Option ℕ
  | [], nxt => nxt
  | _ :: _, _ => some a

/-- The last of the blocks from `a` on, or `prev` if there are none. -/
def last : Option ℕ → ℕ → List (Block α) → Option ℕ
  | prev, _, [] => prev
  | _, a, b :: bs => last (some a) (a + hdr + b.size) bs

def Laid (head : ℕ → Header α) : Option ℕ → ℕ → List (Block α) → Option ℕ → Prop
  | _, _, [], _ => True
  | prev, a, b :: bs, nxt =>
    head a = ⟨prev, first (a + hdr + b.size) bs nxt, b.size, b.info⟩ ∧
      Laid head (some a) (a + hdr + b.size) bs nxt

variable {hdr} {head head' : ℕ → Header α} {prev nxt : Option ℕ} {a x : ℕ} {b : Block α}
  {bs xs ys ms ms' : List (Block α)}

@[simp] theorem span_nil : span hdr ([] : List (Block α)) = 0 := rfl

@[simp] theorem span_cons : span hdr (b :: bs) = hdr + b.size + span hdr bs := rfl

@[simp] theorem span_append : span hdr (xs ++ ys) = span hdr xs + span hdr ys := by
  induction xs with
  | nil => simp
  | cons b xs ih => simp [ih, Nat.add_assoc]

@[simp] theorem first_nil : first a ([] : List (Block α)) nxt = nxt := rfl

@[simp] theorem first_cons : first a (b :: bs) nxt = some a := rfl

theorem first_append : first a (xs ++ ys) nxt = first a xs (first (a + span hdr xs) ys nxt) := by
  cases xs <;> simp

theorem first_of_ne (h : bs ≠ []) : first a bs nxt = some a := by
  cases bs with
  | nil => exact absurd rfl h
  | cons b bs => rfl

@[simp] theorem last_nil : last hdr prev a ([] : List (Block α)) = prev := rfl

@[simp] theorem last_cons :
    last hdr prev a (b :: bs) = last hdr (some a) (a + hdr + b.size) bs := rfl

theorem last_append :
    last hdr prev a (xs ++ ys) = last hdr (last hdr prev a xs) (a + span hdr xs) ys := by
  induction xs generalizing prev a with
  | nil => simp
  | cons b xs ih =>
    have hadd : a + hdr + b.size + span hdr xs = a + (hdr + b.size + span hdr xs) := by omega
    simp only [List.cons_append, last_cons, ih, span_cons, hadd]

@[simp] theorem laid_nil : Laid hdr head prev a [] nxt := trivial

@[simp] theorem laid_cons : Laid hdr head prev a (b :: bs) nxt ↔
    head a = ⟨prev, first (a + hdr + b.size) bs nxt, b.size, b.info⟩ ∧
      Laid hdr head (some a) (a + hdr + b.size) bs nxt := Iff.rfl

theorem laid_append : Laid hdr head prev a (xs ++ ys) nxt ↔
    Laid hdr head prev a xs (first (a + span hdr xs) ys nxt) ∧
      Laid hdr head (last hdr prev a xs) (a + span hdr xs) ys nxt := by
  induction xs generalizing prev a with
  | nil => simp
  | cons b xs ih =>
    have hadd : a + hdr + b.size + span hdr xs = a + (hdr + b.size + span hdr xs) := by omega
    have hlink : first (a + hdr + b.size) (xs ++ ys) nxt =
        first (a + hdr + b.size) xs (first (a + hdr + b.size + span hdr xs) ys nxt) := first_append
    simp only [List.cons_append, laid_cons, ih, span_cons, last_cons, hlink, hadd, and_assoc]

theorem Laid.congr (h : Laid hdr head prev a bs nxt) (hpos : 0 < hdr)
    (hsame : ∀ x, a ≤ x → x < a + span hdr bs → head' x = head x) :
    Laid hdr head' prev a bs nxt := by
  induction bs generalizing prev a with
  | nil => trivial
  | cons b bs ih =>
    obtain ⟨hhead, hrest⟩ := h
    simp only [span_cons] at hsame
    refine ⟨by rw [hsame a (Nat.le_refl a) (by omega), hhead], ih hrest fun x hx hlt => ?_⟩
    exact hsame x (by omega) (by omega)

theorem Laid.setPrev {prev' : Option ℕ} (h : Laid hdr head prev a bs nxt) (hpos : 0 < hdr)
    (hsame : ∀ x, a < x → x < a + span hdr bs → head' x = head x)
    (hfirst : bs ≠ [] → head' a = { head a with prev := prev' }) :
    Laid hdr head' prev' a bs nxt := by
  cases bs with
  | nil => trivial
  | cons b bs =>
    obtain ⟨hhead, hrest⟩ := h
    simp only [span_cons] at hsame
    refine ⟨by rw [hfirst (by simp), hhead], hrest.congr hpos fun x hx hlt => ?_⟩
    exact hsame x (by omega) (by omega)

theorem Laid.replace (h : Laid hdr head prev a (xs ++ ms ++ ys) nxt) (hpos : 0 < hdr)
    (hms : ms ≠ []) (hms' : ms' ≠ []) (hspan : span hdr ms' = span hdr ms)
    (hbefore : ∀ x, x < a + span hdr xs → head' x = head x)
    (hmid : Laid hdr head' (last hdr prev a xs) (a + span hdr xs) ms'
      (first (a + span hdr xs + span hdr ms) ys nxt))
    (hafter : ∀ x, a + span hdr xs + span hdr ms < x → head' x = head x)
    (hfirst : ys ≠ [] → head' (a + span hdr xs + span hdr ms) =
      { head (a + span hdr xs + span hdr ms) with
        prev := last hdr (last hdr prev a xs) (a + span hdr xs) ms' }) :
    Laid hdr head' prev a (xs ++ ms' ++ ys) nxt := by
  rw [List.append_assoc, laid_append, laid_append] at h ⊢
  obtain ⟨hxs, -, hys⟩ := h
  rw [hspan]
  refine ⟨?_, hmid, ?_⟩
  · have hlink : first (a + span hdr xs) (ms' ++ ys) nxt =
        first (a + span hdr xs) (ms ++ ys) nxt := by
      rw [first_of_ne (by simp [hms']), first_of_ne (by simp [hms])]
    rw [hlink]
    exact hxs.congr hpos fun x _ hlt => hbefore x hlt
  · exact hys.setPrev hpos (fun x hx _ => hafter x hx) hfirst

theorem Laid.setInfo {info : α} (h : Laid hdr head prev a (xs ++ [b] ++ ys) nxt) (hpos : 0 < hdr)
    (hself : head' (a + span hdr xs) = { head (a + span hdr xs) with info := info })
    (hother : ∀ x, x ≠ a + span hdr xs → head' x = head x) :
    Laid hdr head' prev a (xs ++ [⟨b.size, info⟩] ++ ys) nxt := by
  rw [List.append_assoc, laid_append] at h ⊢
  obtain ⟨hxs, hb, hys⟩ := h
  refine ⟨hxs.congr hpos fun x _ hlt => hother x (by omega), ?_, ?_⟩
  · rw [hself, hb]
  · exact hys.congr hpos fun x hle _ => hother x (by omega)

section Walk

/-- Following `next` from `p`, at most `n` blocks, to the first one at which `stop` holds. -/
def walk (head : ℕ → Header α) (stop : ℕ → Bool) : ℕ → Option ℕ → Option (Option ℕ)
  | 0, _ => none
  | _ + 1, none => some none
  | n + 1, some p => if stop p then some (some p) else walk head stop n (head p).next

/-- Where a walk over all blocks ends: at the first block it stops at, or behind the last. -/
theorem walk_cases (stop : ℕ → Bool) {n : ℕ} (h : Laid hdr head prev a bs none)
    (hn : bs.length < n) :
    (walk head stop n (first a bs none) = some none ∧
      ∀ us b vs, bs = us ++ b :: vs → stop (a + span hdr us) = false) ∨
    ∃ us b vs, bs = us ++ b :: vs ∧ stop (a + span hdr us) = true ∧
      (∀ us' b' vs', us = us' ++ b' :: vs' → stop (a + span hdr us') = false) ∧
      walk head stop n (first a bs none) = some (some (a + span hdr us)) := by
  induction bs generalizing prev a n with
  | nil =>
    left
    cases n with
    | zero => omega
    | succ n => exact ⟨rfl, fun us b vs heq => absurd heq (by simp)⟩
  | cons b bs ih =>
    obtain ⟨hhead, hrest⟩ := h
    cases n with
    | zero => omega
    | succ n =>
      rw [List.length_cons] at hn
      cases hstop : stop a with
      | true =>
        refine Or.inr ⟨[], b, bs, rfl, by simpa using hstop, fun us' b' vs' heq => ?_, ?_⟩
        · exact absurd heq (by simp)
        · simp [walk, hstop]
      | false =>
        have hstep : walk head stop (n + 1) (first a (b :: bs) none) =
            walk head stop n (first (a + hdr + b.size) bs none) := by
          rw [first_cons, walk, hstop, hhead]
          rfl
        have hadd : ∀ us : List (Block α), a + hdr + b.size + span hdr us =
            a + span hdr (b :: us) := fun us => by
          rw [span_cons]
          omega
        rw [hstep]
        rcases ih hrest (n := n) (by omega) with ⟨hw, hpass⟩ | ⟨us, c, vs, heq, hc, hpass, hw⟩
        · refine Or.inl ⟨hw, fun us c vs heq => ?_⟩
          cases us with
          | nil => simpa using hstop
          | cons d us =>
            obtain ⟨rfl, hrest'⟩ := List.cons.inj heq
            rw [← hadd]
            exact hpass us c vs hrest'
        · refine Or.inr ⟨b :: us, c, vs, by rw [heq]; rfl, by rw [← hadd]; exact hc, ?_, ?_⟩
          · intro us' c' vs' heq'
            cases us' with
            | nil => simpa using hstop
            | cons d us' =>
              obtain ⟨rfl, hrest'⟩ := List.cons.inj heq'
              rw [← hadd]
              exact hpass us' c' vs' hrest'
          · rw [hw, hadd]

end Walk

end DfewOS.Blocks
