import DfewOS.MaximalRuns
import DfewOS.StrTok
import Mathlib.Data.Set.Insert

/-!
# The tokens of a string

The searches find the first character that is, or is not, in the set of separators, and read
nothing behind the NUL of the string and of the set. One call of `strtokR` finds the next
token from where the last one has left off; over a run of calls the results are the tokens
of the string in order, and `NULL` from then on.
-/

namespace DfewOS.CString
open Memory (Looked fresh)
open MaximalRuns (SepAt MaximalRun sepAt_zero sepAt_succ sepAt_drop not_run next_or_behind)
open NulText (Text)

/-- The separators `seps` lie at `q`, in the part `A` of the memory. -/
structure Separators (m : Memory) (q : ℕ) (seps : List UInt8) (A : Set ℕ) : Prop where
  text : Text m.byte q seps
  area : ∀ i ≤ seps.length, q + i ∈ A

section Search
variable {m m' : Memory} {A : Set ℕ} {a seps : List UInt8} {c : UInt8} {q s : ℕ}

theorem Separators.looked (h : Separators m q seps A) (hm : Looked m m' A) : Separators m' q seps A :=
  ⟨hm.byte.symm ▸ h.text, h.area⟩

theorem Separators.tail {d : UInt8} (h : Separators m q (d :: seps) A) : Separators m (q + 1) seps A := by
  refine ⟨h.text.2.2, fun i hi => ?_⟩
  rw [Nat.add_right_comm]
  exact h.area (i + 1) (Nat.succ_le_succ hi)

theorem sepAt_head : SepAt {c | c ∈ seps} (c :: a) 0 ↔ c ∈ seps := sepAt_zero

theorem seek_found (stop : UInt8 → Bool) (fuel : ℕ) (hstop : ∀ d, stop d = true ↔ d = c ∨ d = 0) (hc : c ≠ 0)
    (hq : Separators m q seps A) (hfuel : seps.length < fuel) :
    ∃ m' d, seek stop fuel m q = some (m', d) ∧ Looked m m' A ∧ (d = c ∨ d = 0) ∧
      (d = c ↔ c ∈ seps) := by
  induction seps generalizing m q fuel with
  | nil =>
    obtain ⟨fuel, rfl⟩ : ∃ f, fuel = f + 1 := ⟨fuel - 1, by omega⟩
    have hnul : m.byte q = 0 := hq.text
    refine ⟨m.touch q, 0, ?_, .touch m (hq.area 0 le_rfl), Or.inr rfl, ?_⟩
    · rw [seek, if_pos ((hstop _).mpr (Or.inr hnul)), hnul]
    · exact iff_of_false (Ne.symm hc) List.not_mem_nil
  | cons d seps ih =>
    obtain ⟨fuel, rfl⟩ : ∃ f, fuel = f + 1 := ⟨fuel - 1, by omega⟩
    obtain ⟨hbyte, hd, -⟩ := hq.text
    have htouch : Looked m (m.touch q) A := .touch m (hq.area 0 (Nat.zero_le _))
    rw [seek]
    by_cases hdc : d = c
    · refine ⟨m.touch q, c, ?_, htouch, Or.inl rfl, iff_of_true rfl (hdc ▸ List.mem_cons_self)⟩
      rw [hbyte, if_pos ((hstop d).mpr (Or.inl hdc)), hdc]
    · obtain ⟨m', e, hseek, hlook, he, hiff⟩ :=
        ih fuel (hq.tail.looked htouch) (Nat.lt_of_succ_lt_succ hfuel)
      refine ⟨m', e, ?_, htouch.trans hlook, he, ?_⟩
      · rw [hbyte, if_neg (fun h => ((hstop d).mp h).elim hdc hd)]
        exact hseek
      · rw [hiff, List.mem_cons, or_iff_right (Ne.symm hdc)]

theorem strspnLoop_found (fuel save : ℕ) (hq : Separators m q seps A) (ha : Text m.byte s a)
    (harea : ∀ i ≤ a.length, s + i ∈ A) (hfuel : a.length + seps.length + 1 < fuel) :
    ∃ m' n, strspnLoop q save fuel m s = some (m', s + n - save) ∧ Looked m m' A ∧ n ≤ a.length ∧
      (∀ k < n, SepAt {c | c ∈ seps} a k) ∧ ¬ SepAt {c | c ∈ seps} a n := by
  induction a generalizing m s fuel with
  | nil =>
    obtain ⟨fuel, rfl⟩ : ∃ f, fuel = f + 1 := ⟨fuel - 1, by omega⟩
    have hnul : m.byte s = 0 := ha
    refine ⟨m.touch s, 0, ?_, .touch m (harea 0 le_rfl), le_rfl, fun k hk => absurd hk (Nat.not_lt_zero k),
      fun h => absurd h.lt (Nat.not_lt_zero _)⟩
    simp only [strspnLoop, hnul, if_true, Nat.add_zero]
  | cons c a ih =>
    obtain ⟨fuel, rfl⟩ : ∃ f, fuel = f + 1 := ⟨fuel - 1, by omega⟩
    obtain ⟨hbyte, hc, hrest⟩ := ha
    rw [List.length_cons] at hfuel
    have htouch : Looked m (m.touch s) A := .touch m (harea 0 (Nat.zero_le _))
    obtain ⟨m₁, d, hseek, hlook, hd, hiff⟩ := seek_found
      (fun c2 => c2 = c ∨ c2 = 0) fuel (fun d => decide_eq_true_iff) hc (hq.looked htouch) (by omega)
    have hlook₁ := htouch.trans hlook
    simp only [strspnLoop, hbyte, if_neg hc, hseek, Option.bind_some]
    by_cases hmem : c ∈ seps
    · rw [if_pos (hiff.mpr hmem)]
      obtain ⟨m', n, hloop, hlook', hn, hsep, hno⟩ := ih fuel (hq.looked hlook₁) (hlook₁.byte.symm ▸ hrest)
        (fun i hi => by
          rw [Nat.add_right_comm]
          exact harea (i + 1) (Nat.succ_le_succ hi)) (show a.length + seps.length + 1 < fuel by omega)
      refine ⟨m', n + 1, ?_, hlook₁.trans hlook', Nat.succ_le_succ hn, fun k hk => ?_, ?_⟩
      · rw [hloop, Nat.add_right_comm, ← Nat.add_assoc]
      · cases k with
        | zero => exact sepAt_head.mpr hmem
        | succ k => exact sepAt_succ.mpr (hsep k (Nat.lt_of_succ_lt_succ hk))
      · rwa [sepAt_succ]
    · rw [if_neg (fun h => hmem (hiff.mp h))]
      exact ⟨m₁, 0, rfl, hlook₁, Nat.zero_le _, fun k hk => absurd hk (Nat.not_lt_zero k),
        fun h => hmem (sepAt_head.mp h)⟩

theorem strpbrk_found (fuel : ℕ) (hq : Separators m q seps A) (ha : Text m.byte s a)
    (harea : ∀ i ≤ a.length, s + i ∈ A) (hfuel : a.length + seps.length + 1 < fuel) :
    ∃ m' r, strpbrk q fuel m s = some (m', r) ∧ Looked m m' A ∧
      ((r = 0 ∧ ∀ k, ¬ SepAt {c | c ∈ seps} a k) ∨
        ∃ n, r = s + n ∧ SepAt {c | c ∈ seps} a n ∧ ∀ k < n, ¬ SepAt {c | c ∈ seps} a k) := by
  induction a generalizing m s fuel with
  | nil =>
    obtain ⟨fuel, rfl⟩ : ∃ f, fuel = f + 1 := ⟨fuel - 1, by omega⟩
    have hnul : m.byte s = 0 := ha
    refine ⟨m.touch s, 0, ?_, .touch m (harea 0 le_rfl),
      Or.inl ⟨rfl, fun k h => absurd h.lt (Nat.not_lt_zero k)⟩⟩
    simp only [strpbrk, hnul, if_true]
  | cons c a ih =>
    obtain ⟨fuel, rfl⟩ : ∃ f, fuel = f + 1 := ⟨fuel - 1, by omega⟩
    obtain ⟨hbyte, hc, hrest⟩ := ha
    rw [List.length_cons] at hfuel
    have htouch : Looked m (m.touch s) A := .touch m (harea 0 (Nat.zero_le _))
    obtain ⟨m₁, d, hseek, hlook, hd, hiff⟩ := seek_found
      (fun sc => sc = 0 ∨ sc = c) fuel (fun d => decide_eq_true_iff.trans or_comm) hc
      (hq.looked htouch) (by omega)
    have hlook₁ := htouch.trans hlook
    simp only [strpbrk, hbyte, if_neg hc, hseek, Option.bind_some]
    by_cases hmem : c ∈ seps
    · have hne : d ≠ 0 := fun h => hc ((hiff.mpr hmem).symm.trans h)
      rw [if_neg hne]
      exact ⟨m₁, s, rfl, hlook₁, Or.inr ⟨0, rfl, sepAt_head.mpr hmem,
        fun k hk => absurd hk (Nat.not_lt_zero k)⟩⟩
    · have hzero : d = 0 := hd.resolve_left fun h => hmem (hiff.mp h)
      rw [if_pos hzero]
      obtain ⟨m', r, hloop, hlook', hcase⟩ := ih fuel (hq.looked hlook₁) (hlook₁.byte.symm ▸ hrest)
        (fun i hi => by
          rw [Nat.add_right_comm]
          exact harea (i + 1) (Nat.succ_le_succ hi)) (show a.length + seps.length + 1 < fuel by omega)
      refine ⟨m', r, hloop, hlook₁.trans hlook', ?_⟩
      rcases hcase with ⟨hr, hno⟩ | ⟨n, hr, hsep, hno⟩
      · refine Or.inl ⟨hr, fun k => ?_⟩
        cases k with
        | zero => exact fun h => hmem (sepAt_head.mp h)
        | succ k => exact fun h => hno k (sepAt_succ.mp h)
      · refine Or.inr ⟨n + 1, by rw [hr, Nat.add_right_comm, ← Nat.add_assoc], sepAt_succ.mpr hsep,
          fun k hk => ?_⟩
        cases k with
        | zero => exact fun h => hmem (sepAt_head.mp h)
        | succ k => exact fun h => hno k (Nat.lt_of_succ_lt_succ hk) (sepAt_succ.mp h)

end Search

section Mono
variable {m : Memory} {stop : UInt8 → Bool} {fuel more p q s save string last : ℕ}

theorem seek_mono {r : Memory × UInt8} (h : seek stop fuel m p = some r) (hle : fuel ≤ more) :
    seek stop more m p = some r := by
  induction fuel generalizing m p more with
  | zero => exact absurd h (by simp [seek])
  | succ fuel ih =>
    obtain ⟨more, rfl⟩ : ∃ k, more = k + 1 := ⟨more - 1, by omega⟩
    rw [seek] at h ⊢
    split_ifs at h ⊢
    · exact h
    · exact ih h (by omega)

theorem strspnLoop_mono {r : Memory × ℕ} (h : strspnLoop q save fuel m s = some r) (hle : fuel ≤ more) :
    strspnLoop q save more m s = some r := by
  induction fuel generalizing m s more with
  | zero => exact absurd h (by simp [strspnLoop])
  | succ fuel ih =>
    obtain ⟨more, rfl⟩ : ∃ k, more = k + 1 := ⟨more - 1, by omega⟩
    simp only [strspnLoop] at h ⊢
    split_ifs at h ⊢
    · exact h
    · obtain ⟨x, hx, hr⟩ := Option.bind_eq_some_iff.mp h
      refine Option.bind_eq_some_iff.mpr ⟨x, seek_mono hx (by omega), ?_⟩
      split_ifs at hr ⊢
      · exact ih hr (by omega)
      · exact hr

theorem strpbrk_mono {r : Memory × ℕ} (h : strpbrk q fuel m s = some r) (hle : fuel ≤ more) :
    strpbrk q more m s = some r := by
  induction fuel generalizing m s more with
  | zero => exact absurd h (by simp [strpbrk])
  | succ fuel ih =>
    obtain ⟨more, rfl⟩ : ∃ k, more = k + 1 := ⟨more - 1, by omega⟩
    simp only [strpbrk] at h ⊢
    split_ifs at h ⊢
    · exact h
    · obtain ⟨x, hx, hr⟩ := Option.bind_eq_some_iff.mp h
      refine Option.bind_eq_some_iff.mpr ⟨x, seek_mono hx (by omega), ?_⟩
      split_ifs at hr ⊢
      · exact ih hr (by omega)
      · exact hr

theorem strtokR_mono {r : Memory × ℕ × ℕ} (h : strtokR fuel m string q last = some r)
    (hle : fuel ≤ more) : strtokR more m string q last = some r := by
  simp only [strtokR, strspn] at h ⊢
  split_ifs at h ⊢ with hnull
  · exact h
  · obtain ⟨x, hx, hr⟩ := Option.bind_eq_some_iff.mp h
    refine Option.bind_eq_some_iff.mpr ⟨x, strspnLoop_mono hx hle, ?_⟩
    split_ifs at hr ⊢
    · exact hr
    · obtain ⟨y, hy, hr⟩ := Option.bind_eq_some_iff.mp hr
      exact Option.bind_eq_some_iff.mpr ⟨y, strpbrk_mono hy hle, hr⟩
  · obtain ⟨x, hx, hr⟩ := Option.bind_eq_some_iff.mp h
    refine Option.bind_eq_some_iff.mpr ⟨x, strspnLoop_mono hx hle, ?_⟩
    split_ifs at hr ⊢
    · exact hr
    · obtain ⟨y, hy, hr⟩ := Option.bind_eq_some_iff.mp hr
      exact Option.bind_eq_some_iff.mpr ⟨y, strpbrk_mono hy hle, hr⟩

theorem strtokR_unique {r r' : Memory × ℕ × ℕ} (h : strtokR fuel m string q last = some r)
    (h' : strtokR more m string q last = some r') : r = r' :=
  Option.some.inj ((strtokR_mono h (Nat.le_max_left fuel more)).symm.trans
    (strtokR_mono h' (Nat.le_max_right fuel more)))

end Mono

section Call
variable {m : Memory} {A : Set ℕ} {a seps : List UInt8} {p q string last : ℕ}

theorem strtokR_cases (hstart : (if string = 0 then last else string) = p) (hp : p ≠ 0)
    (hq : Separators m q seps A) (ha : Text m.byte p a) (harea : ∀ i ≤ a.length, p + i ∈ A) :
    ∃ fuel m₁ m' last' r, strtokR fuel m string q last = some (m', last', r) ∧ Looked m m₁ A ∧
      ((m' = m₁ ∧ last' = 0 ∧ r = 0 ∧ ∀ k < a.length, SepAt {c | c ∈ seps} a k) ∨
        ∃ n j, n < j ∧ r = p + n ∧ (∀ k < n, SepAt {c | c ∈ seps} a k) ∧
          (∀ k, n ≤ k → k < j → ¬ SepAt {c | c ∈ seps} a k) ∧
          ((m' = m₁ ∧ last' = 0 ∧ j = a.length) ∨
            (m' = m₁.store (p + j) 0 ∧ last' = p + j + 1 ∧ SepAt {c | c ∈ seps} a j))) := by
  have hnot : ¬ (string = 0 ∧ last = 0) := by
    rintro ⟨rfl, rfl⟩
    exact hp hstart.symm
  obtain ⟨m₁, n, hspn, hlook, hn, hsep, hno⟩ := strspnLoop_found (a.length + seps.length + 2)
    p hq ha harea (by omega)
  have hspn' : strspn (a.length + seps.length + 2) m p q = some (m₁, n) := by
    rw [strspn, hspn, Nat.add_sub_cancel_left]
  have htouch : Looked m (m₁.touch (p + n)) A := hlook.trans (.touch m₁ (harea n hn))
  have hrest : Text m₁.byte (p + n) (a.drop n) := hlook.byte.symm ▸ ha.drop hn
  rcases Nat.lt_or_ge n a.length with hlt | hge
  · have hbyte : m₁.byte (p + n) ≠ 0 := by
      rw [List.drop_eq_getElem_cons hlt] at hrest
      rw [hrest.1]
      exact hrest.2.1
    have htail : Text (m₁.touch (p + n)).byte (p + n) (a.drop n) := hrest
    obtain ⟨m₂, r, hbrk, hlook₂, hcase⟩ := strpbrk_found (a.length + seps.length + 2)
      (hq.looked htouch) htail (fun i hi => by
        rw [List.length_drop] at hi
        rw [Nat.add_assoc]
        exact harea (n + i) (by omega)) (by rw [List.length_drop]; omega)
    have hcall : strtokR (a.length + seps.length + 2) m string q last =
        if r = 0 then some (m₂, 0, p + n) else some (m₂.store r 0, r + 1, p + n) := by
      rw [strtokR, if_neg hnot]
      simp only [hstart, hspn', Option.bind_some, if_neg hbyte, hbrk]
    have hlook' := htouch.trans hlook₂
    rcases hcase with ⟨rfl, hnone⟩ | ⟨t, rfl, hat, hbefore⟩
    · rw [if_pos rfl] at hcall
      refine ⟨_, m₂, m₂, 0, p + n, hcall, hlook', Or.inr ⟨n, a.length, hlt, rfl, hsep, ?_,
        Or.inl ⟨rfl, rfl, rfl⟩⟩⟩
      intro k hk _ hsepk
      obtain ⟨d, rfl⟩ := Nat.exists_eq_add_of_le hk
      exact hnone d (sepAt_drop.mpr hsepk)
    · rw [if_neg (by omega)] at hcall
      have hpos : 0 < t := by
        refine Nat.pos_of_ne_zero fun hzero => ?_
        rw [hzero, sepAt_drop] at hat
        exact hno hat
      refine ⟨_, m₂, _, _, p + n, hcall, hlook', Or.inr ⟨n, n + t, by omega, rfl, hsep, ?_,
        Or.inr ⟨by rw [Nat.add_assoc], by rw [Nat.add_assoc p n t], sepAt_drop.mp hat⟩⟩⟩
      intro k hk hkt hsepk
      obtain ⟨d, rfl⟩ := Nat.exists_eq_add_of_le hk
      exact hbefore d (by omega) (sepAt_drop.mpr hsepk)
  · obtain rfl : n = a.length := le_antisymm hn hge
    have hbyte : m₁.byte (p + a.length) = 0 := by
      rw [List.drop_length] at hrest
      exact hrest
    refine ⟨a.length + seps.length + 2, _, _, 0, 0, ?_, htouch, Or.inl ⟨rfl, rfl, rfl, hsep⟩⟩
    rw [strtokR, if_neg hnot]
    simp only [hstart, hspn', Option.bind_some, if_pos hbyte]

end Call

/-- A run of calls, the first with the string at `p` and the others with `NULL`; each is given
the separators `S`. The results are listed. -/
inductive Calls (S : Set UInt8) (A : Set ℕ) (p : ℕ) (m₀ : Memory) (last₀ : ℕ) :
    ℕ → Memory → ℕ → List ℕ → Prop
  | start : Calls S A p m₀ last₀ 0 m₀ last₀ []
  | call {k m last rs q seps fuel m' last' r} (hcalls : Calls S A p m₀ last₀ k m last rs)
      (hq : Separators m q seps A) (hseps : {c | c ∈ seps} = S)
      (hcall : strtokR fuel m (if k = 0 then p else 0) q last = some (m', last', r)) :
      Calls S A p m₀ last₀ (k + 1) m' last' (rs ++ [r])

/-- The first tokens `fs` of the string `s` have been found in `k` calls. -/
structure Tokenised (S : Set UInt8) (A : Set ℕ) (p : ℕ) (s : List UInt8) (m₀ m : Memory) (k : ℕ)
    (rs : List ℕ) (fs : List (ℕ × ℕ)) : Prop where
  results : rs = fs.map (fun f => p + f.1) ++ List.replicate (k - fs.length) 0
  length_le : fs.length ≤ k
  sorted : fs.Pairwise fun f g => f.2 < g.1
  maximal : ∀ f ∈ fs, MaximalRun S s f.1 f.2
  complete : ∀ i j, MaximalRun S s i j → (i, j) ∈ fs ∨ (fs.length = k ∧ ∀ f ∈ fs, f.2 < i)
  terminated : ∀ f ∈ fs, Text m.byte (p + f.1) ((s.drop f.1).take (f.2 - f.1))
  writes : ∀ x ∈ m.writes, ∃ f ∈ fs, SepAt S s f.2 ∧ x = p + f.2
  kept : ∀ x, x ∉ m.writes → m.byte x = m₀.byte x
  reads : ∀ x ∈ m.reads, (p ≤ x ∧ x ≤ p + s.length) ∨ x ∈ A

/-- The tokens that are left are those of the rest of the string, which begins at `at`, or
there are none and `at` is `NULL`. -/
def Left (S : Set UInt8) (p : ℕ) (s : List UInt8) (m : Memory) (k start : ℕ) (fs : List (ℕ × ℕ)) : Prop :=
  (start = 0 ∧ ∀ i j, MaximalRun S s i j → (i, j) ∈ fs) ∨
    ∃ o ≤ s.length, start = p + o ∧ Text m.byte (p + o) (s.drop o) ∧ fs.length = k ∧
      (o = 0 ∨ SepAt S s (o - 1)) ∧ (∀ f ∈ fs, f.2 < o) ∧
      ∀ i j, MaximalRun S s i j → (i, j) ∈ fs ∨ o ≤ i

section Runs
variable {S : Set UInt8} {A : Set ℕ} {p k start : ℕ} {s : List UInt8} {m₀ m m₁ : Memory} {rs : List ℕ}
  {fs : List (ℕ × ℕ)}

theorem Left.complete (h : Left S p s m k start fs) :
    ∀ i j, MaximalRun S s i j → (i, j) ∈ fs ∨ (fs.length = k ∧ ∀ f ∈ fs, f.2 < i) := by
  intro i j hrun
  rcases h with ⟨-, hall⟩ | ⟨o, -, -, -, hlen, -, hbefore, hrest⟩
  · exact Or.inl (hall i j hrun)
  · rcases hrest i j hrun with hin | hge
    · exact Or.inl hin
    · exact Or.inr ⟨hlen, fun f hf => lt_of_lt_of_le (hbefore f hf) hge⟩

theorem Tokenised.nothing (h : Tokenised S A p s m₀ m k rs fs)
    (hlook : Looked m m₁ ({x | p ≤ x ∧ x ≤ p + s.length} ∪ A))
    (hall : ∀ i j, MaximalRun S s i j → (i, j) ∈ fs) :
    Tokenised S A p s m₀ m₁ (k + 1) (rs ++ [0]) fs where
  results := by
    rw [h.results, List.append_assoc, ← List.replicate_succ', Nat.sub_add_comm h.length_le]
  length_le := Nat.le_succ_of_le h.length_le
  sorted := h.sorted
  maximal := h.maximal
  complete i j hrun := Or.inl (hall i j hrun)
  terminated f hf := hlook.byte.symm ▸ h.terminated f hf
  writes x hx := h.writes x (hlook.writes ▸ hx)
  kept x hx := by
    rw [hlook.byte]
    exact h.kept x (hlook.writes ▸ hx)
  reads x hx := (hlook.reads x hx).elim (h.reads x) id

/-- A call that finds the token from `i` up to `j`, which it ends with a NUL if it is not the
last one. -/
theorem Tokenised.token {m' : Memory} {i j : ℕ} (h : Tokenised S A p s m₀ m k rs fs)
    (hlen : fs.length = k) (hlook : Looked m m₁ ({x | p ≤ x ∧ x ≤ p + s.length} ∪ A))
    (hrun : MaximalRun S s i j) (hbefore : ∀ f ∈ fs, f.2 < i)
    (hcomplete : ∀ u v, MaximalRun S s u v → (u, v) ∈ fs ∨ (u, v) = (i, j) ∨ j < u)
    (htext : Text m.byte (p + i) (s.drop i))
    (hcut : (m' = m₁ ∧ j = s.length) ∨ (m' = m₁.store (p + j) 0 ∧ SepAt S s j)) :
    Tokenised S A p s m₀ m' (k + 1) (rs ++ [p + i]) (fs ++ [(i, j)]) := by
  have hij := hrun.nonempty
  have hbyte : ∀ x, x ≠ p + j → m'.byte x = m.byte x := by
    intro x hx
    rcases hcut with ⟨rfl, -⟩ | ⟨rfl, -⟩
    · rw [hlook.byte]
    · rw [Memory.store_of_ne hx, hlook.byte]
  have hwrites : ∀ x, x ∈ m'.writes ↔ x ∈ m.writes ∨ (x = p + j ∧ SepAt S s j) := by
    intro x
    rcases hcut with ⟨rfl, rfl⟩ | ⟨rfl, hsep⟩
    · rw [hlook.writes, or_iff_left fun h => absurd h.2.lt (lt_irrefl _)]
    · rw [Memory.store, List.mem_cons, hlook.writes, or_comm, and_iff_left hsep]
  have hreads : m'.reads = m₁.reads := by
    rcases hcut with ⟨rfl, -⟩ | ⟨rfl, -⟩ <;> rfl
  have hterm : Text m'.byte (p + i) ((s.drop i).take (j - i)) := by
    rcases hcut with ⟨rfl, rfl⟩ | ⟨rfl, hsep⟩
    · rw [← List.length_drop, List.take_length, hlook.byte]
      exact htext
    · have hlong := hsep.lt
      have hcutoff := htext.take (i := j - i) (by rw [List.length_drop]; omega)
      rw [Memory.store, hlook.byte, show p + j = p + i + (j - i) by omega]
      exact hcutoff
  constructor
  case results =>
    rw [h.results, hlen, Nat.sub_self, List.length_append, hlen, List.length_singleton, Nat.sub_self,
      List.map_append]
    simp only [List.replicate_zero, List.append_nil, List.map_cons, List.map_nil]
  case length_le => rw [List.length_append, hlen, List.length_singleton]
  case sorted =>
    refine List.pairwise_append.mpr ⟨h.sorted, List.pairwise_singleton _ _, fun f hf g hg => ?_⟩
    rw [List.mem_singleton.mp hg]
    exact hbefore f hf
  case maximal =>
    intro f hf
    rcases List.mem_append.mp hf with hf | hf
    · exact h.maximal f hf
    · rw [List.mem_singleton.mp hf]
      exact hrun
  case complete =>
    intro u v huv
    rcases hcomplete u v huv with hin | hsame | hbehind
    · exact Or.inl (List.mem_append_left _ hin)
    · exact Or.inl (List.mem_append_right _ (List.mem_singleton.mpr hsame))
    · refine Or.inr ⟨by rw [List.length_append, hlen, List.length_singleton], fun f hf => ?_⟩
      rcases List.mem_append.mp hf with hf | hf
      · exact lt_trans (hbefore f hf) (lt_trans hij hbehind)
      · rw [List.mem_singleton.mp hf]
        exact hbehind
  case terminated =>
    intro f hf
    rcases List.mem_append.mp hf with hf | hf
    · have hfi := hbefore f hf
      have hne := (h.maximal f hf).nonempty
      refine (h.terminated f hf).congr fun x _ hx => hbyte x ?_
      have hshort := List.length_take_le (f.2 - f.1) (s.drop f.1)
      omega
    · rw [List.mem_singleton.mp hf]
      exact hterm
  case writes =>
    intro x hx
    rcases (hwrites x).mp hx with hold | ⟨hnew, hsep⟩
    · obtain ⟨f, hf, hat⟩ := h.writes x hold
      exact ⟨f, List.mem_append_left _ hf, hat⟩
    · exact ⟨(i, j), List.mem_append_right _ (List.mem_singleton_self _), hsep, hnew⟩
  case kept =>
    intro x hx
    have hnot := fun h => hx ((hwrites x).mpr h)
    rcases hcut with ⟨rfl, -⟩ | ⟨-, hsep⟩
    · rw [hlook.byte]
      exact h.kept x fun hold => hnot (Or.inl hold)
    · rw [hbyte x fun heq => hnot (Or.inr ⟨heq, hsep⟩)]
      exact h.kept x fun hold => hnot (Or.inl hold)
  case reads =>
    intro x hx
    rw [hreads] at hx
    exact (hlook.reads x hx).elim (h.reads x) id

theorem Tokenised.step {q last : ℕ} {seps : List UInt8} (h : Tokenised S A p s m₀ m k rs fs)
    (hleft : Left S p s m k (if k = 0 then p else last) fs) (hp : p ≠ 0)
    (hq : Separators m q seps A) (hseps : {c | c ∈ seps} = S) :
    ∃ fuel m' last' r fs', strtokR fuel m (if k = 0 then p else 0) q last = some (m', last', r) ∧
      Tokenised S A p s m₀ m' (k + 1) (rs ++ [r]) fs' ∧ Left S p s m' (k + 1) last' fs' := by
  subst hseps
  rcases hleft with ⟨hnull, hall⟩ | ⟨o, ho, hstart, htext, hlen, hat, hbefore, hrest⟩
  · have hk : k ≠ 0 := by
      rintro rfl
      exact hp hnull
    rw [if_neg hk] at hnull
    refine ⟨0, m, 0, 0, fs, ?_, h.nothing (.refl ..) hall, Or.inl ⟨rfl, hall⟩⟩
    rw [if_neg hk, hnull, strtokR, if_pos ⟨rfl, rfl⟩]
  · have hbegin : (if (if k = 0 then p else 0) = 0 then last else if k = 0 then p else 0) = p + o := by
      rw [← hstart]
      by_cases hk : k = 0
      · rw [if_pos hk, if_pos hk, if_neg hp]
      · rw [if_neg hk, if_neg hk, if_pos rfl]
    have hlong : (s.drop o).length = s.length - o := List.length_drop
    obtain ⟨fuel, m₁, m', last', r, hcall, hlook, hcase⟩ := strtokR_cases
      (A := {x | p ≤ x ∧ x ≤ p + s.length} ∪ A) hbegin (by omega)
      ⟨hq.text, fun i hi => Or.inr (hq.area i hi)⟩ htext
      fun i hi => Or.inl ⟨by omega, by omega⟩
    rcases hcase with ⟨rfl, rfl, rfl, hsep⟩ | ⟨n, j, hnj, rfl, hsep, hrun, hend⟩
    · have hall : ∀ i j, MaximalRun {c | c ∈ seps} s i j → (i, j) ∈ fs := by
        intro i j hij
        refine (hrest i j hij).resolve_right (Nat.not_le.mpr (not_run (fun k hk hks => ?_) hij))
        obtain ⟨d, rfl⟩ := Nat.exists_eq_add_of_le hk
        exact sepAt_drop.mp (hsep d (by omega))
      exact ⟨fuel, _, _, _, fs, hcall, h.nothing hlook hall, Or.inl ⟨rfl, hall⟩⟩
    · have hsep' : ∀ k, o ≤ k → k < o + n → SepAt {c | c ∈ seps} s k := by
        intro k hk hkn
        obtain ⟨d, rfl⟩ := Nat.exists_eq_add_of_le hk
        exact sepAt_drop.mp (hsep d (by omega))
      have hrun' : ∀ k, o + n ≤ k → k < o + j → ¬ SepAt {c | c ∈ seps} s k := by
        intro k hk hkj hat
        obtain ⟨d, rfl⟩ : ∃ d, k = o + d := ⟨k - o, by omega⟩
        exact hrun d (by omega) (by omega) (sepAt_drop.mpr hat)
      have hend' : o + j = s.length ∨ SepAt {c | c ∈ seps} s (o + j) := by
        rcases hend with ⟨-, -, hj⟩ | ⟨-, -, hj⟩
        · exact Or.inl (by omega)
        · exact Or.inr (sepAt_drop.mp hj)
      have hmax : MaximalRun {c | c ∈ seps} s (o + n) (o + j) :=
        .next hsep' hrun' hend' hat (by omega) (by omega)
      have hnext : ∀ u v, MaximalRun {c | c ∈ seps} s u v →
          (u, v) ∈ fs ∨ (u, v) = (o + n, o + j) ∨ o + j < u := by
        intro u v huv
        rcases hrest u v huv with hin | hge
        · exact Or.inl hin
        · exact Or.inr (next_or_behind hsep' hrun' hend' huv hge)
      have hcut : (m' = m₁ ∧ o + j = s.length) ∨
          (m' = m₁.store (p + (o + j)) 0 ∧ SepAt {c | c ∈ seps} s (o + j)) := by
        rcases hend with ⟨hm, -, hj⟩ | ⟨hm, -, hj⟩
        · exact Or.inl ⟨hm, by omega⟩
        · exact Or.inr ⟨by rw [hm, Nat.add_assoc], sepAt_drop.mp hj⟩
      have htoken : Text m.byte (p + (o + n)) (s.drop (o + n)) := by
        have hin := hmax.inside
        rw [← Nat.add_assoc, ← List.drop_drop]
        exact htext.drop (by omega)
      have hfound := h.token hlen hlook hmax
        (fun f hf => lt_of_lt_of_le (hbefore f hf) (Nat.le_add_right o n)) hnext htoken hcut
      rw [← Nat.add_assoc] at hfound
      refine ⟨fuel, _, _, _, _, hcall, hfound, ?_⟩
      rcases hend with ⟨rfl, rfl, hj⟩ | ⟨rfl, rfl, hj⟩
      · refine Or.inl ⟨rfl, fun u v huv => ?_⟩
        have hlt := huv.nonempty
        have hin := huv.inside
        rcases hnext u v huv with hold | hsame | hbehind
        · exact List.mem_append_left _ hold
        · exact List.mem_append_right _ (List.mem_singleton.mpr hsame)
        · omega
      · have hin := (sepAt_drop.mp hj).lt
        refine Or.inr ⟨o + j + 1, by omega, by omega, ?_, ?_, Or.inr ?_, fun f hf => ?_, fun u v huv => ?_⟩
        · have hrest' : Text m.byte (p + (o + j + 1)) (s.drop (o + j + 1)) := by
            rw [Nat.add_assoc, ← Nat.add_assoc, ← List.drop_drop]
            exact htext.drop (by omega)
          refine hrest'.congr fun x hx _ => ?_
          rw [Memory.store_of_ne (by omega), hlook.byte]
        · rw [List.length_append, hlen, List.length_singleton]
        · rw [Nat.add_sub_cancel]
          exact sepAt_drop.mp hj
        · rcases List.mem_append.mp hf with hf | hf
          · have hfo := hbefore f hf
            omega
          · rw [List.mem_singleton.mp hf]
            omega
        · rcases hnext u v huv with hold | hsame | hbehind
          · exact Or.inl (List.mem_append_left _ hold)
          · exact Or.inl (List.mem_append_right _ (List.mem_singleton.mpr hsame))
          · exact Or.inr hbehind

theorem Calls.tokenised {byte : ℕ → UInt8} {last₀ last : ℕ} (hp : p ≠ 0) (hs : Text byte p s)
    (hcalls : Calls S A p (fresh byte) last₀ k m last rs) :
    ∃ fs, Tokenised S A p s (fresh byte) m k rs fs ∧ Left S p s m k (if k = 0 then p else last) fs := by
  induction hcalls with
  | start =>
    have hleft : Left S p s (fresh byte) 0 p [] :=
      Or.inr ⟨0, Nat.zero_le _, rfl, hs, rfl, Or.inl rfl, fun f hf => absurd hf List.not_mem_nil,
        fun _ _ _ => Or.inr (Nat.zero_le _)⟩
    refine ⟨[], ?_, hleft⟩
    constructor
    case results => rfl
    case length_le => exact le_rfl
    case sorted => exact List.Pairwise.nil
    case complete => exact hleft.complete
    case kept => exact fun _ _ => rfl
    all_goals exact fun _ h => absurd h List.not_mem_nil
  | call hcalls hq hseps hcall ih =>
    obtain ⟨fs, hfound, hleft⟩ := ih
    obtain ⟨fuel, m', last', r, fs', hcall', hfound', hleft'⟩ := hfound.step hleft hp hq hseps
    obtain ⟨rfl, hpair⟩ := Prod.mk.inj (strtokR_unique hcall' hcall)
    obtain ⟨rfl, rfl⟩ := Prod.mk.inj hpair
    exact ⟨fs', hfound', hleft'⟩

end Runs

/-- The calls of a run return the maximal runs of characters that are no separators. -/
theorem strtokR_tokens {S : Set UInt8} {A : Set ℕ} {byte : ℕ → UInt8} {p : ℕ} {s : List UInt8}
    (hp : p ≠ 0) (hs : Text byte p s) {last₀ k last : ℕ} {m : Memory} {rs : List ℕ}
    (hcalls : Calls S A p (fresh byte) last₀ k m last rs) :
    (∃ fs, Tokenised S A p s (fresh byte) m k rs fs) ∧
    ∀ q seps, Separators m q seps A → {c | c ∈ seps} = S →
      ∃ fuel r, strtokR fuel m (if k = 0 then p else 0) q last = some r := by
  obtain ⟨fs, hfound, hleft⟩ := hcalls.tokenised hp hs
  refine ⟨⟨fs, hfound⟩, fun q seps hq hseps => ?_⟩
  obtain ⟨fuel, m', last', r, fs', hcall, -⟩ := hfound.step hleft hp hq hseps
  exact ⟨fuel, _, hcall⟩

def commaString (p : ℕ) : UInt8 :=
  if p = 16 ∨ p = 18 ∨ p = 32 then 0x2c else if p = 17 then 0x61 else if p = 19 then 0x62 else 0

theorem commaString_text : Text commaString 16 [0x2c, 0x61, 0x2c, 0x62] :=
  ⟨rfl, by decide, rfl, by decide, rfl, by decide, rfl, by decide, rfl⟩

theorem commaString_separators {k : ℕ} {m : Memory} {rs : List ℕ} {fs : List (ℕ × ℕ)}
    (h : Tokenised {0x2c} {32, 33} 16 [0x2c, 0x61, 0x2c, 0x62] (fresh commaString) m k rs fs) :
    Separators m 32 [0x2c] {32, 33} := by
  have hkept : ∀ x, 21 ≤ x → m.byte x = commaString x := by
    intro x hx
    apply h.kept
    intro hwrite
    obtain ⟨f, -, hsep, rfl⟩ := h.writes x hwrite
    have hlt := hsep.lt
    simp only [List.length_cons, List.length_nil] at hlt
    omega
  refine ⟨⟨hkept 32 (by decide), by decide, hkept 33 (by decide)⟩, fun i hi => ?_⟩
  simp only [Set.mem_insert_iff, Set.mem_singleton_iff, List.length_singleton] at hi ⊢
  omega

theorem commaString_tokens : ∃ m last rs,
    Calls {0x2c} {32, 33} 16 (fresh commaString) 0 4 m last rs ∧
      ∃ fs, Tokenised {0x2c} {32, 33} 16 [0x2c, 0x61, 0x2c, 0x62] (fresh commaString) m 4 rs fs := by
  have hseps : {c : UInt8 | c ∈ [0x2c]} = {0x2c} := Set.ext fun _ => List.mem_singleton
  have hcalls : ∀ k, ∃ m last rs, Calls {0x2c} {32, 33} 16 (fresh commaString) 0 k m last rs := by
    intro k
    induction k with
    | zero => exact ⟨_, _, _, .start⟩
    | succ k ih =>
      obtain ⟨m, last, rs, hcalls⟩ := ih
      obtain ⟨⟨fs, hfound⟩, hnext⟩ := strtokR_tokens (by decide) commaString_text hcalls
      have hq := commaString_separators hfound
      obtain ⟨fuel, ⟨m', last', r⟩, hcall⟩ := hnext 32 [0x2c] hq hseps
      exact ⟨m', last', _, hcalls.call hq hseps hcall⟩
  obtain ⟨m, last, rs, hfour⟩ := hcalls 4
  exact ⟨m, last, rs, hfour, (strtokR_tokens (by decide) commaString_text hfour).1⟩

end DfewOS.CString
