import DfewOS.Walk
import Mathlib.Data.List.DropRight
import Mathlib.Data.List.GetD

/-!
# Splitting a path behind its last slash

`_dispatch_name` of `yaffs_cmd.c`, on a memory that logs its accesses. The scan is back by one
character behind the last slash, and the first character from there on is moved without a look at
it. For a path that ends with a slash this is the terminator, so that the loop starts behind it.
-/

namespace DfewOS.DispatchName
open Memory (Looked)
open NulText (Text)
open Walk (skipWhile skipWhile_end Lies Grows)

def slash : UInt8 := '/'.toUInt8

def scanBack : ℕ → Memory → ℕ → Option (Memory × ℕ)
  | 0, _, _ => none
  | fuel + 1, m, behind =>
    if m.byte (behind - 1) = slash then some (m.touch (behind - 1), behind - 1)
    else scanBack fuel (m.touch (behind - 1)) (behind - 1)

/-- `while (*end != '\0') *name++ = *end++;` -/
def copyLoop : ℕ → Memory → ℕ → ℕ → Option (Memory × ℕ)
  | 0, _, _, _ => none
  | fuel + 1, m, end', name =>
    if m.byte end' = 0 then some (m.touch end', name)
    else copyLoop fuel (((m.touch end').touch end').store name (m.byte end')) (end' + 1) (name + 1)

/-- With the address of the last character written to `name`. -/
def dispatchName (fuel : ℕ) (m : Memory) (path name : ℕ) : Option (Memory × ℕ) :=
  (skipWhile (fun c => c ≠ 0) fuel m path).bind fun nul =>
    (scanBack fuel nul.1 nul.2).bind fun r =>
      let end' := r.2 + 1  -- `end += 2`
      let m := ((r.1.touch end').store name (r.1.byte end')).store end' 0
      (copyLoop fuel m (end' + 1) (name + 1)).map fun r => (r.1.store r.2 0, r.2)

/-- `PATH_LEN_MAX`, the size of `abs_path` in `yaffs_tab`. -/
def pathLenMax : ℕ := 256

/-- The size of `file_name` in `yaffs_tab`. -/
def nameSize : ℕ := 20

def component (p : List UInt8) : List UInt8 := p.rtakeWhile fun c => c ≠ slash

def Apart (path name : ℕ) : Prop := path + pathLenMax ≤ name ∨ name + nameSize ≤ path

structure Splits (path name : ℕ) (p : List UInt8) (r : Memory × ℕ) : Prop where
  texts : ∃ dir rest, p = dir ++ rest ∧ dir.getLast? = some slash ∧ slash ∉ rest ∧
    Text r.1.byte path dir ∧ Text r.1.byte name rest
  reads : ∀ x ∈ r.1.reads, path ≤ x ∧ x ≤ path + p.length
  fits : r.2 < name + nameSize
  writes : ∀ x ∈ r.1.writes, (path ≤ x ∧ x ≤ path + p.length) ∨ (name ≤ x ∧ x ≤ r.2)

variable {m m' : Memory} {byte : ℕ → UInt8} {path name p q fuel k : ℕ} {A : Set ℕ}
  {s dir rest : List UInt8} {r : Memory × ℕ}

theorem scanBack_slash {n : ℕ} (hslash : m.byte q = slash)
    (hfree : ∀ i < n, m.byte (q + 1 + i) ≠ slash) (hA : ∀ i ≤ n, q + i ∈ A) (hfuel : n < fuel) :
    ∃ m', scanBack fuel m (q + 1 + n) = some (m', q) ∧ Looked m m' A := by
  induction n generalizing m fuel with
  | zero =>
    obtain ⟨fuel, rfl⟩ : ∃ f, fuel = f + 1 := ⟨fuel - 1, by omega⟩
    exact ⟨m.touch q, if_pos hslash, .touch m (hA 0 (Nat.le_refl 0))⟩
  | succ n ih =>
    obtain ⟨fuel, rfl⟩ : ∃ f, fuel = f + 1 := ⟨fuel - 1, by omega⟩
    have htouch : Looked m (m.touch (q + 1 + n)) A := by
      rw [show q + 1 + n = q + (n + 1) by omega]
      exact .touch m (hA (n + 1) (Nat.le_refl _))
    obtain ⟨m', hscan, hlook⟩ := ih (m := m.touch (q + 1 + n)) hslash
      (fun i hi => hfree i (Nat.lt_succ_of_lt hi)) (fun i hi => hA i (Nat.le_succ_of_le hi))
      (Nat.lt_of_succ_lt_succ hfuel)
    refine ⟨m', ?_, htouch.trans hlook⟩
    rw [scanBack, show q + 1 + (n + 1) - 1 = q + 1 + n by omega,
      if_neg (hfree n (Nat.lt_succ_self n))]
    exact hscan

theorem copyLoop_text (h : Text m.byte p s) (hapart : p + s.length < q ∨ q + s.length ≤ p)
    (hfuel : s.length < fuel) :
    ∃ m', copyLoop fuel m p q = some (m', q + s.length) ∧
      (∀ x, m'.byte x = if q ≤ x ∧ x < q + s.length then s.getD (x - q) 0 else m.byte x) ∧
      (∀ x ∈ m'.reads, x ∈ m.reads ∨ (p ≤ x ∧ x ≤ p + s.length)) ∧
      ∀ x ∈ m'.writes, x ∈ m.writes ∨ (q ≤ x ∧ x < q + s.length) := by
  induction s generalizing m p q fuel with
  | nil =>
    obtain ⟨fuel, rfl⟩ : ∃ f, fuel = f + 1 := ⟨fuel - 1, by omega⟩
    have hnul : m.byte p = 0 := h
    refine ⟨m.touch p, if_pos hnul, fun x => ?_, fun x hx => ?_, fun x hx => Or.inl hx⟩
    · rw [if_neg (by rw [List.length_nil]; omega)]
      rfl
    · rcases List.mem_cons.mp hx with rfl | hold
      · exact Or.inr ⟨Nat.le_refl x, Nat.le_add_right x _⟩
      · exact Or.inl hold
  | cons c s ih =>
    obtain ⟨fuel, rfl⟩ : ∃ f, fuel = f + 1 := ⟨fuel - 1, by omega⟩
    obtain ⟨hbyte, hc, hrest⟩ := h
    rw [List.length_cons] at hapart hfuel ⊢
    have hnext : Text (((m.touch p).touch p).store q c).byte (p + 1) s :=
      hrest.congr fun x hge hle => Memory.store_of_ne (by omega)
    obtain ⟨m', hloop, hsame, hreads, hwrites⟩ := ih (q := q + 1) hnext (by omega)
      (Nat.lt_of_succ_lt_succ hfuel)
    refine ⟨m', ?_, fun x => ?_, fun x hx => ?_, fun x hx => ?_⟩
    · rw [copyLoop, hbyte, if_neg hc, hloop, Nat.add_right_comm, Nat.add_assoc]
    · rw [hsame]
      rcases Nat.lt_trichotomy x q with hlt | rfl | hgt
      · rw [if_neg (by omega), if_neg (by omega), Memory.store_of_ne (Nat.ne_of_lt hlt)]
        rfl
      · rw [if_neg (by omega), if_pos (by omega), Nat.sub_self]
        exact Function.update_self ..
      · obtain ⟨i, rfl⟩ := Nat.exists_eq_add_of_lt hgt
        rw [show q + i + 1 - (q + 1) = i by omega, show q + i + 1 - q = i + 1 by omega,
          Memory.store_of_ne (by omega)]
        simp only [List.getD_cons_succ]
        congr 1
        apply propext
        omega
    · rcases hreads x hx with hold | hnew
      · rcases List.mem_cons.mp hold with rfl | hold
        · exact Or.inr (by omega)
        · rcases List.mem_cons.mp hold with rfl | hold
          · exact Or.inr (by omega)
          · exact Or.inl hold
      · exact Or.inr (by omega)
    · rcases hwrites x hx with hold | hnew
      · rcases List.mem_cons.mp hold with rfl | hold
        · exact Or.inr (by omega)
        · exact Or.inl hold
      · exact Or.inr (by omega)

theorem copyLoop_le (h : copyLoop fuel m p q = some r) : q ≤ r.2 := by
  induction fuel generalizing m p q with
  | zero => exact absurd h (by simp [copyLoop])
  | succ fuel ih =>
    rw [copyLoop] at h
    split_ifs at h with hnul
    · obtain rfl := Option.some.inj h
      exact Nat.le_refl q
    · exact Nat.le_of_succ_le (ih h)

theorem copyLoop_far (hsome : ∀ i < k, m.byte (p + i) ≠ 0) (hapart : p + k ≤ q ∨ q + k ≤ p)
    (h : copyLoop fuel m p q = some r) : q + k ≤ r.2 := by
  induction k generalizing fuel m p q with
  | zero => exact copyLoop_le h
  | succ k ih =>
    cases fuel with
    | zero => exact absurd h (by simp [copyLoop])
    | succ fuel =>
      have hfirst : m.byte p ≠ 0 := hsome 0 (Nat.succ_pos k)
      rw [copyLoop, if_neg hfirst] at h
      have hrest := ih (fun i hi => ?_) (by omega) h
      · omega
      · rw [Memory.store_of_ne (by omega), show p + 1 + i = p + (i + 1) by omega]
        exact hsome (i + 1) (Nat.succ_lt_succ hi)

theorem copyLoop_grows (h : copyLoop fuel m p q = some r) : Grows (m.touch p) r.1 := by
  induction fuel generalizing m p q with
  | zero => exact absurd h (by simp [copyLoop])
  | succ fuel ih =>
    rw [copyLoop] at h
    split_ifs at h with hnul
    · obtain rfl := Option.some.inj h
      exact .refl _
    · intro x hx
      exact ih h x (List.mem_cons_of_mem _ (List.mem_cons_of_mem _ hx))

/-! ## The whole path -/

section Path
variable {front : List UInt8}

theorem dispatchName_scan (name : ℕ) (h : Text byte path (front ++ slash :: rest))
    (hrest : slash ∉ rest) (hfuel : (front ++ slash :: rest).length < fuel) :
    ∃ m, Looked (.fresh byte) m {x | path ≤ x ∧ x ≤ path + (front ++ slash :: rest).length} ∧
      dispatchName fuel (.fresh byte) path name =
        (copyLoop fuel (((m.touch (path + front.length + 1)).store name
            (byte (path + front.length + 1))).store (path + front.length + 1) 0)
          (path + front.length + 1 + 1) (name + 1)).map fun r => (r.1.store r.2 0, r.2) := by
  have hlies : Lies {x | path ≤ x ∧ x ≤ path + (front ++ slash :: rest).length} path
      (front ++ slash :: rest) := fun i hi => ⟨Nat.le_add_right path i, Nat.add_le_add_left hi path⟩
  obtain ⟨m₁, hskip, hlook₁⟩ := skipWhile_end (m := .fresh byte) h hlies hfuel
  have hlast := h.right
  have hlength : (front ++ slash :: rest).length = front.length + 1 + rest.length := by
    rw [List.length_append, List.length_cons]
    omega
  have hfree : ∀ i < rest.length, m₁.byte (path + front.length + 1 + i) ≠ slash := by
    intro i hi he
    rw [hlook₁.byte, show (Memory.fresh byte).byte = byte from rfl] at he
    rw [hlast.2.2.getD (Nat.le_of_lt hi), List.getD_eq_getElem?_getD, List.getElem?_eq_getElem hi] at he
    exact hrest (he ▸ List.getElem_mem hi)
  have hslash : m₁.byte (path + front.length) = slash := by
    rw [hlook₁.byte]
    exact hlast.1
  obtain ⟨m₂, hscan, hlook₂⟩ := scanBack_slash hslash hfree
    (fun i hi => hlies.right i (by rw [List.length_cons]; omega)) (show rest.length < fuel by omega)
  have hlook := hlook₁.trans hlook₂
  refine ⟨m₂, hlook, ?_⟩
  rw [dispatchName, hskip, Option.bind_some, hlength,
    show path + (front.length + 1 + rest.length) = path + front.length + 1 + rest.length by omega,
    hscan, Option.bind_some, hlook.byte]
  rfl

/-- Behind the last slash, at `end'`, there is a NUL now, and the rest is in the buffer of the name. -/
structure Copied (byte : ℕ → UInt8) (m : Memory) (path end' name : ℕ) (rest : List UInt8) : Prop where
  byte : ∀ x, m.byte x = if name ≤ x ∧ x ≤ name + rest.length then rest.getD (x - name) 0
    else if x = end' then 0 else byte x
  reads : ∀ x ∈ m.reads, path ≤ x ∧ x ≤ end' + rest.length
  writes : ∀ x ∈ m.writes, x = end' ∨ (name ≤ x ∧ x ≤ name + rest.length)

theorem dispatchName_copies (h : Text byte path (front ++ slash :: rest)) (hrest : slash ∉ rest)
    (hlen : (front ++ slash :: rest).length < pathLenMax) (hapart : Apart path name)
    (hne : rest ≠ []) (hshort : rest.length < nameSize)
    (hfuel : (front ++ slash :: rest).length < fuel) :
    ∃ m, dispatchName fuel (.fresh byte) path name = some (m, name + rest.length) ∧
      Copied byte m path (path + front.length + 1) name rest := by
  obtain ⟨c, tail, rfl⟩ := List.exists_cons_of_ne_nil hne
  obtain ⟨m, hlook, hrun⟩ := dispatchName_scan name h hrest hfuel
  have hlength : (front ++ slash :: c :: tail).length = front.length + 1 + (tail.length + 1) := by
    rw [List.length_append, List.length_cons, List.length_cons]
    omega
  rw [List.length_cons] at hshort ⊢
  rw [hlength] at hlen hfuel hlook
  obtain ⟨-, -, hbyte, hc, htail⟩ := h.right
  rw [Apart, pathLenMax, nameSize] at hapart
  rw [pathLenMax] at hlen
  rw [nameSize] at hshort
  generalize he : path + front.length + 1 = e at *
  have hcopied : Text (((m.touch e).store name (byte e)).store e 0).byte (e + 1) tail := by
    refine htail.congr fun x hge hle => ?_
    rw [Memory.store_of_ne (by omega), Memory.store_of_ne (by omega)]
    exact congrFun hlook.byte x
  obtain ⟨m', hcopy, hsame, hreads, hwrites⟩ := copyLoop_text (q := name + 1) hcopied (by omega)
    (show tail.length < fuel by omega)
  rw [hcopy, Option.map_some, show name + 1 + tail.length = name + (tail.length + 1) by omega] at hrun
  refine ⟨_, hrun, fun x => ?_, fun x hx => ?_, fun x hx => ?_⟩
  · rw [List.length_cons]
    split_ifs with hname hend
    · obtain ⟨i, rfl⟩ := Nat.exists_eq_add_of_le hname.1
      rw [Nat.add_sub_cancel_left]
      cases i with
      | zero =>
        rw [Memory.store_of_ne (by omega), hsame, if_neg (by omega), Memory.store_of_ne (by omega),
          ← hbyte]
        exact Function.update_self ..
      | succ i =>
        rw [List.getD_cons_succ]
        rcases Nat.lt_or_ge i tail.length with hlt | hge
        · rw [Memory.store_of_ne (by omega), hsame, if_pos (by omega),
            show name + (i + 1) - (name + 1) = i by omega]
        · obtain rfl : i = tail.length := by omega
          rw [List.getD_eq_default _ _ (Nat.le_refl _)]
          exact Function.update_self ..
    · rw [hend, Memory.store_of_ne (by omega), hsame, if_neg (by omega)]
      exact Function.update_self ..
    · rw [Memory.store_of_ne (by omega), hsame, if_neg (by omega), Memory.store_of_ne hend,
        Memory.store_of_ne (by omega)]
      exact congrFun hlook.byte x
  · rw [List.length_cons]
    rcases hreads x hx with hold | hnew
    · rcases List.mem_cons.mp hold with rfl | hold
      · omega
      · obtain ⟨hge, hle⟩ := (hlook.reads x hold).resolve_left List.not_mem_nil
        omega
    · omega
  · rw [List.length_cons]
    rcases List.mem_cons.mp hx with rfl | hx
    · omega
    rcases hwrites x hx with hold | hnew
    · rcases List.mem_cons.mp hold with rfl | hold
      · exact Or.inl rfl
      rcases List.mem_cons.mp hold with rfl | hold
      · omega
      · rw [show (m.touch e).writes = [] from hlook.writes] at hold
        exact absurd hold List.not_mem_nil
    · omega

theorem Copied.splits (hcopied : Copied byte m path (path + front.length + 1) name rest)
    (h : Text byte path (front ++ slash :: rest)) (hrest : slash ∉ rest)
    (hlen : (front ++ slash :: rest).length < pathLenMax) (hapart : Apart path name)
    (hshort : rest.length < nameSize) :
    Splits path name (front ++ slash :: rest) (m, name + rest.length) := by
  have hpath : Text byte path ((front ++ [slash]) ++ rest) := by
    rwa [List.append_assoc, List.singleton_append]
  have hlength : (front ++ slash :: rest).length = front.length + 1 + rest.length := by
    rw [List.length_append, List.length_cons]
    omega
  rw [hlength] at hlen
  rw [Apart, pathLenMax] at hapart
  rw [pathLenMax] at hlen
  have hdir : path + (front ++ [slash]).length = path + front.length + 1 := by
    rw [List.length_append, List.length_singleton, Nat.add_assoc]
  refine ⟨⟨front ++ [slash], rest, by simp, by simp, hrest, hpath.cut ?_ fun x hge hlt => ?_, ?_⟩,
    fun x hx => ?_, Nat.add_lt_add_left hshort name, fun x hx => ?_⟩
  · rw [hdir, hcopied.byte, if_neg (by omega), if_pos rfl]
  · rw [hcopied.byte, if_neg (by omega), if_neg (by omega)]
  · refine .of_getD hpath.right.not_nul fun i hi => ?_
    rw [hcopied.byte, if_pos (by omega), Nat.add_sub_cancel_left]
  · have hread := hcopied.reads x hx
    omega
  · have hwritten := hcopied.writes x hx
    rw [hlength]
    omega

/-- Behind a slash at the end nothing is left, and the loop starts behind the terminator. -/
theorem dispatchName_past (h : Text byte path (front ++ [slash]))
    (hfuel : (front ++ [slash]).length < fuel)
    (hrun : dispatchName fuel (.fresh byte) path name = some r) :
    path + (front ++ [slash]).length + 1 ∈ r.1.reads := by
  obtain ⟨m, -, hscan⟩ := dispatchName_scan name h List.not_mem_nil hfuel
  rw [hscan] at hrun
  obtain ⟨r', hcopy, rfl⟩ := Option.map_eq_some_iff.mp hrun
  have hlook := copyLoop_grows hcopy _ List.mem_cons_self
  rwa [List.length_append, List.length_singleton, ← Nat.add_assoc]

theorem dispatchName_far (h : Text byte path (front ++ slash :: rest)) (hrest : slash ∉ rest)
    (hlen : (front ++ slash :: rest).length < pathLenMax) (hapart : Apart path name)
    (hlong : nameSize ≤ rest.length) (hfuel : (front ++ slash :: rest).length < fuel)
    (hrun : dispatchName fuel (.fresh byte) path name = some r) : name + nameSize ≤ r.2 := by
  obtain ⟨m, hlook, hscan⟩ := dispatchName_scan name h hrest hfuel
  rw [hscan] at hrun
  obtain ⟨r', hcopy, rfl⟩ := Option.map_eq_some_iff.mp hrun
  rw [List.length_append, List.length_cons] at hlen
  rw [Apart, pathLenMax, nameSize] at hapart
  rw [pathLenMax] at hlen
  rw [nameSize] at hlong ⊢
  generalize he : path + front.length + 1 = e at *
  have hsome : ∀ i < 19, (((m.touch e).store name (byte e)).store e 0).byte (e + 1 + i) ≠ 0 := by
    intro i hi
    rw [Memory.store_of_ne (by omega), Memory.store_of_ne (by omega),
      show e + 1 + i = path + front.length + 1 + (i + 1) by omega]
    have hbehind := h.right.2.2.getD (show i + 1 ≤ rest.length by omega)
    rw [show (m.touch e).byte = byte from hlook.byte, hbehind]
    exact h.right.2.2.getD_ne (by omega)
  have hfar := copyLoop_far hsome (by omega) hcopy
  omega

theorem component_eq (hrest : slash ∉ rest) : component (front ++ slash :: rest) = rest := by
  have hbehind : ∀ c ∈ rest.reverse, decide (c ≠ slash) = true := fun c hc =>
    decide_eq_true fun he => hrest (he ▸ List.mem_reverse.mp hc)
  have hstop : (slash :: front.reverse).takeWhile (fun c => decide (c ≠ slash)) = [] :=
    List.takeWhile_cons_of_neg (by decide)
  rw [component, List.rtakeWhile, List.reverse_append, List.reverse_cons, List.append_assoc,
    List.singleton_append, List.takeWhile_append_of_pos hbehind, hstop, List.append_nil,
    List.reverse_reverse]

theorem split_slash (h : slash ∈ s) : ∃ front rest, s = front ++ slash :: rest ∧ slash ∉ rest := by
  obtain ⟨rest, front, hsplit, hrest⟩ := List.eq_append_cons_of_mem (List.mem_reverse.mpr h)
  refine ⟨front.reverse, rest.reverse, ?_, fun hmem => hrest (List.mem_reverse.mp hmem)⟩
  have hback := congrArg List.reverse hsplit
  rwa [List.reverse_reverse, List.reverse_append, List.reverse_cons, List.append_assoc] at hback

/-- A path is split just if it does not end with a slash and what stands behind the last one fits
into the buffer. -/
theorem dispatchName_iff (h : Text byte path s) (hslash : slash ∈ s) (hlen : s.length < pathLenMax)
    (hapart : Apart path name) (hfuel : s.length < fuel) :
    (∃ r, dispatchName fuel (.fresh byte) path name = some r ∧ Splits path name s r) ↔
      component s ≠ [] ∧ (component s).length < nameSize := by
  obtain ⟨front, rest, rfl, hrest⟩ := split_slash hslash
  rw [component_eq hrest]
  constructor
  · rintro ⟨r, hrun, hsplits⟩
    constructor
    · rintro rfl
      have hread := hsplits.reads _ (dispatchName_past h hfuel hrun)
      omega
    · by_contra hlong
      have hfar := dispatchName_far h hrest hlen hapart (Nat.le_of_not_lt hlong) hfuel hrun
      exact absurd hsplits.fits (Nat.not_lt.mpr hfar)
  · rintro ⟨hne, hshort⟩
    obtain ⟨m, hrun, hcopied⟩ := dispatchName_copies h hrest hlen hapart hne hshort hfuel
    exact ⟨_, hrun, hcopied.splits h hrest hlen hapart hshort⟩

end Path

def safePath : List UInt8 := ['/', 'n', '1', '/', 's', 'a', 'f', 'e', '_'].map Char.toUInt8

theorem dispatchName_iff_safe :
    ∃ r, dispatchName 10 (.fresh fun x => safePath.getD (x - 0) 0) 0 300 = some r ∧
      Splits 0 300 safePath r :=
  (dispatchName_iff (.of_list (by decide)) (by decide) (by decide) (Or.inl (by decide)) (by decide)).mpr
    (by decide)

/-- A completion in the root directory. -/
theorem dispatchName_root : ¬ ∃ r,
    dispatchName 10 (.fresh fun x => [slash].getD (x - 0) 0) 0 300 = some r ∧ Splits 0 300 [slash] r := by
  rintro ⟨r, hrun, hsplits⟩
  have htext : Text (fun x => [slash].getD (x - 0) 0) 0 ([] ++ [slash]) := .of_list (by decide)
  have hread := hsplits.reads _ (dispatchName_past htext (by decide) hrun)
  exact absurd hread.2 (by decide)

end DfewOS.DispatchName
