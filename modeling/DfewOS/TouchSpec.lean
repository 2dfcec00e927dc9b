import Mathlib.Data.List.Induction
import DfewOS.GuiTouch
import DfewOS.Touch

/-!
# From the touch screen to the callbacks

One wild measurement of four does not reach the GUI, the thread makes whole
touches of the reads, and as long as no message is lost the callbacks are paired.
-/

namespace DfewOS
open Pairing

/-! ## The point -/

theorem sortPoint_spec (piBuf : List ℤ) :
    (sortPoint piBuf).Perm piBuf ∧ (sortPoint piBuf).Pairwise (· ≤ ·) :=
  BubbleSort.sort_spec piBuf

/-- The measurements in `[low, low + width]`. -/
def agreeing (low width : ℤ) (tmp : List ℤ) : ℕ :=
  tmp.countP fun s => low ≤ s ∧ s ≤ low + width

theorem sortPoint_four {tmp : List ℤ} (hlen : tmp.length = tscSampleNum) :
    ∃ a b c d, sortPoint tmp = [a, b, c, d] ∧ a ≤ b ∧ b ≤ c ∧ c ≤ d ∧ [a, b, c, d].Perm tmp := by
  obtain ⟨hperm, hsorted⟩ := sortPoint_spec tmp
  rw [← hperm.length_eq] at hlen
  obtain ⟨a, b, c, d, hs⟩ : ∃ a b c d, sortPoint tmp = [a, b, c, d] := by
    match sortPoint tmp, hlen with
    | [a, b, c, d], _ => exact ⟨a, b, c, d, rfl⟩
  rw [hs] at hperm hsorted
  simp only [List.pairwise_cons, List.forall_mem_cons] at hsorted
  exact ⟨a, b, c, d, hs, hsorted.1.1, hsorted.2.1.1, hsorted.2.2.1.1, hperm⟩

theorem agreeing_four (low width a b c d : ℤ) :
    agreeing low width [a, b, c, d] =
      (if low ≤ a ∧ a ≤ low + width then 1 else 0) + (if low ≤ b ∧ b ≤ low + width then 1 else 0) +
      (if low ≤ c ∧ c ≤ low + width then 1 else 0) +
      (if low ≤ d ∧ d ≤ low + width then 1 else 0) := by
  simp only [agreeing, List.countP_cons, List.countP_nil, decide_eq_true_eq]
  omega

section Axis
variable {maxDiff x low : ℤ} {tmp : List ℤ} (hlen : tmp.length = tscSampleNum)
include hlen

theorem axisPoint_backed (hwidth : 0 ≤ maxDiff) (h : axisPoint maxDiff tmp = some x) :
    x ∈ tmp ∧ 2 ≤ agreeing (x - maxDiff) maxDiff tmp := by
  obtain ⟨a, b, c, d, hs, hab, hbc, hcd, hperm⟩ := sortPoint_four hlen
  rw [axisPoint, hs] at h
  split_ifs at h with hdiff
  obtain rfl : c = x := Option.some.inj h
  refine ⟨hperm.mem_iff.mp (by simp), ?_⟩
  have hcount : agreeing (c - maxDiff) maxDiff tmp = agreeing (c - maxDiff) maxDiff [a, b, c, d] :=
    (hperm.countP_eq _).symm
  have hdiff' : ¬ maxDiff < c - b := hdiff
  rw [hcount, agreeing_four, if_pos (show c - maxDiff ≤ b ∧ b ≤ c - maxDiff + maxDiff by omega),
    if_pos (show c - maxDiff ≤ c ∧ c ≤ c - maxDiff + maxDiff from
      ⟨Int.sub_le_self c hwidth, (Int.sub_add_cancel c maxDiff).ge⟩)]
  omega

/-- Where three measurements agree, the coordinate is with them, whatever the fourth is. -/
theorem axisPoint_robust (h : 3 ≤ agreeing low maxDiff tmp) :
    ∃ x, axisPoint maxDiff tmp = some x ∧ low ≤ x ∧ x ≤ low + maxDiff := by
  obtain ⟨a, b, c, d, hs, hab, hbc, hcd, hperm⟩ := sortPoint_four hlen
  have hcount : agreeing low maxDiff tmp = agreeing low maxDiff [a, b, c, d] :=
    (hperm.countP_eq _).symm
  rw [hcount, agreeing_four] at h
  -- the two in the middle are among the three
  have hmiddle : (low ≤ b ∧ b ≤ low + maxDiff) ∧ (low ≤ c ∧ c ≤ low + maxDiff) := by
    split_ifs at h <;> omega
  refine ⟨c, ?_, hmiddle.2⟩
  rw [axisPoint, hs]
  exact if_neg (show ¬ maxDiff < c - b by omega)

end Axis

/-- A reported coordinate is a measured one with another measurement at most `maxDiff` below it;
and when the pressure is right, three measurements that agree on both axes are enough. -/
theorem touch_point (adc : Fin tscSampleNum → Channels) :
    (∀ x y, touchGetXY adc = some (x, y) →
      (x ∈ xTmp adc ∧ 2 ≤ agreeing (x - adcXMaxDiff) adcXMaxDiff (xTmp adc)) ∧
      (y ∈ yTmp adc ∧ 2 ≤ agreeing (y - adcYMaxDiff) adcYMaxDiff (yTmp adc))) ∧
    ∀ lowX lowY, (∀ i, (adc i).pressed) → 3 ≤ agreeing lowX adcXMaxDiff (xTmp adc) →
      3 ≤ agreeing lowY adcYMaxDiff (yTmp adc) →
      ∃ x y, touchGetXY adc = some (x, y) ∧ (lowX ≤ x ∧ x ≤ lowX + adcXMaxDiff) ∧
        (lowY ≤ y ∧ y ≤ lowY + adcYMaxDiff) := by
  have hx : (xTmp adc).length = tscSampleNum := List.length_ofFn
  have hy : (yTmp adc).length = tscSampleNum := List.length_ofFn
  constructor
  · intro x y h
    rw [touchGetXY] at h
    split_ifs at h
    obtain ⟨x', hax, h⟩ := Option.bind_eq_some_iff.mp h
    obtain ⟨y', hay, hxy⟩ := Option.map_eq_some_iff.mp h
    obtain ⟨rfl, rfl⟩ := Prod.mk.inj hxy
    exact ⟨axisPoint_backed hx (by decide) hax, axisPoint_backed hy (by decide) hay⟩
  · intro lowX lowY hpressed hagreeX hagreeY
    obtain ⟨x, hax, hxb⟩ := axisPoint_robust hx hagreeX
    obtain ⟨y, hay, hyb⟩ := axisPoint_robust hy hagreeY
    refine ⟨x, y, ?_, hxb, hyb⟩
    rw [touchGetXY, if_pos hpressed, hax, hay]
    rfl

/-- The pen in the middle of the panel: 2048 on both axes, and a pressure of 297. -/
def middleTurn : Channels where
  x i := i = 0
  y i := i = 0
  z1 i := i = 3
  z2 i := i = 2

/-- Four turns, the last of them with nothing but ones on the x axis. -/
def fourTurns : Fin tscSampleNum → Channels := fun i =>
  if i.val = 3 then { middleTurn with x := fun _ => true } else middleTurn

theorem touch_point_middle : ∃ x y, touchGetXY fourTurns = some (x, y) ∧
    (2000 ≤ x ∧ x ≤ 2000 + adcXMaxDiff) ∧ (2000 ≤ y ∧ y ≤ 2000 + adcYMaxDiff) :=
  (touch_point fourTurns).2 2000 2000 (by decide) (by decide) (by decide)

/-! ## The thread -/

namespace TouchThread
variable {t : TouchThread} {scrCoor : GuiCoor}

theorem run_snoc (t : TouchThread) (reads : List (Option GuiCoor)) (r : Option GuiCoor) :
    t.run (reads ++ [r]) = ((t.run reads).read r).1 := List.foldl_append

theorem posts_append (t : TouchThread) (reads reads' : List (Option GuiCoor)) :
    t.posts (reads ++ reads') = t.posts reads ++ (t.run reads).posts reads' := by
  induction reads generalizing t with
  | nil => rfl
  | cons r reads ih =>
    rw [List.cons_append, posts, posts, ih, List.append_assoc]
    rfl

theorem posts_snoc (t : TouchThread) (reads : List (Option GuiCoor)) (r : Option GuiCoor) :
    t.posts (reads ++ [r]) = t.posts reads ++ ((t.run reads).read r).2 := by
  rw [posts_append, posts, posts, List.append_nil]

/-- The last point, with the number of reads without one behind it. -/
def sinceLast : List (Option GuiCoor) → Option (GuiCoor × ℕ)
  | [] => none
  | some coor :: _ => some (coor, 0)
  | none :: reads => (sinceLast reads).map fun p => (p.1, p.2 + 1)

/-- The thread waits for `tryTimes + 1` reads without a point. -/
structure Follows (t : TouchThread) (last : Option (GuiCoor × ℕ)) : Prop where
  never : last = none → t.loc = .forever
  since : ∀ coor n, last = some (coor, n) → t.scrCoor = coor ∧
    t.loc = if n = 0 then .pressed else if n ≤ tryTimes then .again (tryTimes - n) else .forever

/-- What a read adds to the jobs, by the reads before it. -/
def posted (last : Option (GuiCoor × ℕ)) : Option GuiCoor → List GuiMsg
  | some coor => [⟨.touchDown, coor⟩]
  | none =>
    match last with
    | some (coor, n) => if n = tryTimes then [⟨.touchUp, coor⟩] else []
    | none => []

theorem Follows.read {last : Option (GuiCoor × ℕ)} (h : t.Follows last) (r : Option GuiCoor) :
    (t.read r).2 = posted last r ∧
      (t.read r).1.Follows (match r with
        | some coor => some (coor, 0)
        | none => last.map fun p => (p.1, p.2 + 1)) := by
  cases r with
  | some coor =>
    refine ⟨rfl, fun h => absurd h (by simp), fun c n h => ?_⟩
    obtain ⟨rfl, rfl⟩ := Prod.mk.inj (Option.some.inj h)
    exact ⟨rfl, rfl⟩
  | none =>
    cases last with
    | none =>
      have hloc := h.never rfl
      rw [TouchThread.read, hloc]
      exact ⟨rfl, fun _ => hloc, fun _ _ h => absurd h (by simp)⟩
    | some p =>
      obtain ⟨coor, n⟩ := p
      obtain ⟨hcoor, hloc⟩ := h.since coor n rfl
      have hnext (t' : TouchThread) (hcoor' : t'.scrCoor = coor)
          (hloc' : t'.loc = if n + 1 ≤ tryTimes then .again (tryTimes - (n + 1)) else .forever) :
          t'.Follows (some (coor, n + 1)) := by
        refine ⟨fun h => absurd h (by simp), fun c m h => ?_⟩
        obtain ⟨rfl, rfl⟩ := Prod.mk.inj (Option.some.inj h)
        exact ⟨hcoor', hloc'⟩
      subst hcoor
      rw [TouchThread.read, hloc]
      match n with
      | 0 => exact ⟨rfl, hnext _ rfl rfl⟩
      | 1 => exact ⟨rfl, hnext _ rfl rfl⟩
      | 2 => exact ⟨rfl, hnext _ rfl rfl⟩
      | n + 3 =>
        have hlate {m : ℕ} (hm : 2 < m) : ¬ m ≤ tryTimes := Nat.not_le.mpr hm
        have hn := hlate (show 2 < n + 3 by omega)
        rw [if_neg (Nat.succ_ne_zero _), if_neg hn] at hloc ⊢
        constructor
        · rw [posted, if_neg fun h => hn (Nat.le_of_eq h)]
        · apply hnext t rfl
          rw [hloc, if_neg (hlate (by omega))]

theorem run_follows (scrCoor : GuiCoor) (reads : List (Option GuiCoor)) :
    ((start scrCoor).run reads).Follows (sinceLast reads.reverse) := by
  induction reads using List.reverseRecOn with
  | nil => exact ⟨fun _ => rfl, fun _ _ h => absurd h (by simp [sinceLast])⟩
  | append_singleton reads r ih =>
    rw [run_snoc, List.reverse_append]
    have hread := (ih.read r).2
    cases r with
    | some coor => exact hread
    | none => exact hread

/-- A point is a press at once. A release is made of exactly the third read without a point, at
the last point there was. -/
theorem touch_thread (scrCoor : GuiCoor) (reads : List (Option GuiCoor)) (r : Option GuiCoor) :
    (start scrCoor).posts (reads ++ [r]) =
      (start scrCoor).posts reads ++ posted (sinceLast reads.reverse) r := by
  rw [posts_snoc, ((run_follows scrCoor reads).read r).1]

/-- Presses, and a release at the place of the last press behind them. -/
def Touches : Option GuiCoor → List GuiMsg → Prop
  | _, [] => True
  | _, ⟨.touchDown, coor⟩ :: msgs => Touches (some coor) msgs
  | last, ⟨.touchUp, coor⟩ :: msgs => last = some coor ∧ Touches none msgs

theorem Touches.left {last : Option GuiCoor} {msgs msgs' : List GuiMsg}
    (h : Touches last (msgs ++ msgs')) : Touches last msgs := by
  induction msgs generalizing last with
  | nil => exact trivial
  | cons msg msgs ih =>
    obtain ⟨type, coor⟩ := msg
    cases type with
    | touchDown => exact ih h
    | touchUp => exact ⟨h.1, ih h.2⟩

def pending (t : TouchThread) : Option GuiCoor :=
  match t.loc with
  | .forever => none
  | .pressed | .again _ => some t.scrCoor

theorem posts_touches (t : TouchThread) (reads : List (Option GuiCoor)) :
    Touches t.pending (t.posts reads) := by
  induction reads generalizing t with
  | nil => exact trivial
  | cons r reads ih =>
    have hrest := ih (t.read r).1
    cases r with
    | some coor => exact hrest
    | none =>
      have htry (n : ℕ) (hloc : t.loc ≠ .forever) (hrest : Touches (t.tryAgain n).1.pending
          ((t.tryAgain n).1.posts reads)) :
          Touches t.pending ((t.tryAgain n).2 ++ (t.tryAgain n).1.posts reads) := by
        have hpending : t.pending = some t.scrCoor := by
          unfold pending
          split
          · contradiction
          · rfl
          · rfl
        cases n with
        | zero => exact ⟨hpending, hrest⟩
        | succ n =>
          rw [hpending]
          exact hrest
      rw [posts]
      rw [TouchThread.read] at hrest ⊢
      cases hloc : t.loc with
      | forever =>
        rw [hloc] at hrest
        exact hrest
      | pressed =>
        rw [hloc] at hrest
        exact htry tryTimes (by rw [hloc]; decide) hrest
      | again n =>
        rw [hloc] at hrest
        exact htry n (by rw [hloc]; simp) hrest

end TouchThread

/-! ## The callbacks -/

section Callbacks
variable {σ : Type*} {cb : Callbacks σ}

/-- The callbacks bring no CBI under a point where it was not. -/
def Still (cb : Callbacks σ) : Prop :=
  ∀ f p c g coor q, (cb.call f p c g).cbiInWhich coor = some q → g.cbiInWhich coor = some q

namespace GuiThread
variable {s : GuiThread σ} {coor : GuiCoor}

theorem callMember_under (hstill : Still cb) {m : CbMember} {p q : CbiPtr} {c : GuiCoor}
    (h : (s.callMember cb m p c).gui.cbiInWhich coor = some q) : s.gui.cbiInWhich coor = some q :=
  hstill _ _ _ _ _ _ h

theorem defaultPress_under (hstill : Still cb) {p q : CbiPtr} {c : GuiCoor}
    (h : (s.defaultPress cb p c).gui.cbiInWhich coor = some q) :
    s.gui.cbiInWhich coor = some q := by
  rw [defaultPress] at h
  split_ifs at h
  · exact hstill _ _ _ _ _ _ h
  · exact h

def UnderPressed (s : GuiThread σ) (coor : GuiCoor) : Prop :=
  ∀ q, s.gui.cbiInWhich coor = some q → s.pCbiPre = some q

theorem touchDown_under (hstill : Still cb) (s : GuiThread σ) (coor : GuiCoor) :
    (s.touchDown cb coor).UnderPressed coor := by
  intro q hq
  unfold touchDown at hq ⊢
  dsimp only at hq ⊢
  generalize hcur : s.gui.cbiInWhich coor = cur at hq ⊢
  generalize hpre : s.pCbiPre = pre at hq ⊢
  split_ifs at hq ⊢ with hne
  · cases cur with
    | none =>
      cases pre with
      | none => exact absurd (hcur.symm.trans hq) (by simp)
      | some pre => exact absurd (hcur.symm.trans (callMember_under hstill hq)) (by simp)
    | some cur =>
      rw [callMember_pCbiPre, defaultPress_pCbiPre]
      have hq := defaultPress_under hstill (callMember_under hstill hq)
      cases pre with
      | none => exact hcur.symm.trans hq
      | some pre => exact hcur.symm.trans (callMember_under hstill hq)
  · cases cur with
    | none => exact absurd (hcur.symm.trans hq) (by simp)
    | some cur =>
      rw [callMember_pCbiPre, hpre, ← not_ne_iff.mp hne]
      exact hcur.symm.trans (callMember_under hstill hq)

theorem touches_lifts (hstill : Still cb) {last : Option GuiCoor} {msgs : List GuiMsg}
    (h : TouchThread.Touches last msgs) (hs : ∀ coor, last = some coor → s.UnderPressed coor) :
    s.LiftsAllPressed cb msgs := by
  induction msgs generalizing s last with
  | nil => exact fun before msg after heq => absurd heq (by simp)
  | cons msg msgs ih =>
    rw [liftsAllPressed_cons]
    obtain ⟨type, coor⟩ := msg
    cases type with
    | touchDown =>
      refine ⟨fun hup => absurd hup (by simp), ih h ?_⟩
      rintro c ⟨⟩
      exact touchDown_under hstill s coor
    | touchUp =>
      refine ⟨fun _ => ?_, ih h.2 fun c hc => absurd hc (by simp)⟩
      cases hq : s.gui.cbiInWhich coor with
      | none => exact .inl rfl
      | some q => exact .inr (hs coor h.1 q hq).symm

end GuiThread

namespace TouchGui

/-- The reads of a run. -/
def reads (es : List TouchEvent) : List (Option GuiCoor) :=
  es.filterMap fun e => match e with
    | .read adc => some (touchRead adc)
    | .receive => none

theorem jobAdd_spec (j : GuiJobs σ) (msgs : List GuiMsg) :
    (jobAdd j msgs).thread = j.thread ∧ j.msgLost ≤ (jobAdd j msgs).msgLost ∧
      ((jobAdd j msgs).msgLost = j.msgLost → (jobAdd j msgs).msgQueue = j.msgQueue ++ msgs) := by
  induction msgs generalizing j with
  | nil => exact ⟨rfl, Nat.le_refl _, fun _ => (List.append_nil _).symm⟩
  | cons msg msgs ih =>
    obtain ⟨hthread, hlost, hqueue⟩ := ih (j.guiJobAdd msg.scrCoor msg.type)
    have hadd : jobAdd j (msg :: msgs) = jobAdd (j.guiJobAdd msg.scrCoor msg.type) msgs := rfl
    rw [hadd]
    by_cases hroom : j.msgQueue.length < guiMsgQueueNumMax
    · have hj : j.guiJobAdd msg.scrCoor msg.type = { j with msgQueue := j.msgQueue ++ [msg] } :=
        if_pos hroom
      rw [hj] at hthread hlost hqueue ⊢
      refine ⟨hthread, hlost, fun h => ?_⟩
      rw [hqueue h, List.append_assoc, List.singleton_append]
    · have hj : j.guiJobAdd msg.scrCoor msg.type = { j with msgLost := j.msgLost + 1 } :=
        if_neg hroom
      rw [hj] at hthread hlost hqueue ⊢
      dsimp only at hlost
      exact ⟨hthread, by omega, fun h => absurd h (by omega)⟩

theorem receive_spec (j : GuiJobs σ) :
    (j.receive cb).msgQueue = j.msgQueue.drop 1 ∧ (j.receive cb).msgLost = j.msgLost := by
  rw [GuiJobs.receive]
  split
  · rename_i hq
    rw [hq]
    exact ⟨rfl, rfl⟩
  · rename_i hq
    rw [hq]
    exact ⟨rfl, rfl⟩

/-- What the job thread has received, and what it will receive, is what the reads made. -/
theorem run_spec (s : TouchGui σ) (es : List TouchEvent) :
    ∃ got, (s.run cb es).jobs.thread = s.jobs.thread.doMsgs cb got ∧
      s.jobs.msgLost ≤ (s.run cb es).jobs.msgLost ∧
      ((s.run cb es).jobs.msgLost = s.jobs.msgLost →
        got ++ (s.run cb es).jobs.msgQueue = s.jobs.msgQueue ++ s.touch.posts (reads es)) := by
  induction es generalizing s with
  | nil => exact ⟨[], rfl, Nat.le_refl _, fun _ => (List.append_nil _).symm⟩
  | cons e es ih =>
    obtain ⟨got, hthread, hlost, hgot⟩ := ih (s.step cb e)
    have hrun : s.run cb (e :: es) = (s.step cb e).run cb es := rfl
    rw [hrun]
    cases e with
    | read adc =>
      obtain ⟨hadd, haddLost, hqueue⟩ := jobAdd_spec s.jobs (s.touch.read (touchRead adc)).2
      refine ⟨got, ?_, Nat.le_trans haddLost hlost, fun h => ?_⟩
      · rw [hthread]
        exact congrArg (fun t => t.doMsgs cb got) hadd
      · have hsame : (jobAdd s.jobs (s.touch.read (touchRead adc)).2).msgLost = s.jobs.msgLost :=
          Nat.le_antisymm (Nat.le_trans hlost (Nat.le_of_eq h)) haddLost
        rw [hgot (h.trans hsame.symm)]
        have hq : (s.step cb (.read adc)).jobs.msgQueue = _ := hqueue hsame
        rw [hq, List.append_assoc]
        rfl
    | receive =>
      obtain ⟨hq, hlost'⟩ := receive_spec s.jobs
      refine ⟨s.jobs.msgQueue.take 1 ++ got, ?_, hlost' ▸ hlost, fun h => ?_⟩
      · rw [hthread, GuiThread.doMsgs_append]
        exact congrArg (fun t => t.doMsgs cb got) (GuiJobs.receive_thread s.jobs)
      · rw [List.append_assoc, hgot (h.trans hlost'.symm)]
        have hq' : (s.step cb .receive).jobs.msgQueue = _ := hq
        rw [hq', ← List.append_assoc, List.take_append_drop]
        rfl

/-- As long as no message is lost and the CBIs stay where they are, each CBI that is pressed is
left or released before it is pressed again, and nothing is done to one that is not pressed,
whatever the screen measures and however the two threads take turns. -/
theorem touch_paired (hstill : Still cb) (g : Gui σ) (scrCoor preCoor : GuiCoor)
    (es : List TouchEvent) (hlost : ((start g scrCoor preCoor).run cb es).jobs.msgLost = 0)
    (p : CbiPtr) :
    Paired false (rolesOf p (GuiThread.roles
      ((start g scrCoor preCoor).run cb es).jobs.thread.calls)) = true := by
  obtain ⟨got, hthread, -, hgot⟩ := @run_spec _ cb (start g scrCoor preCoor) es
  obtain ⟨new, hlog, hpaired⟩ := GuiThread.doMsgs_paired cb (GuiThread.start g preCoor) got
  have hcalls : ((start g scrCoor preCoor).run cb es).jobs.thread.calls = new := by
    rw [hthread]
    exact hlog
  rw [hcalls]
  refine hpaired.mpr ?_ p
  have htouches := TouchThread.posts_touches (TouchThread.start scrCoor) (reads es)
  have hposts : got ++ _ = (TouchThread.start scrCoor).posts (reads es) := hgot hlost
  rw [← hposts] at htouches
  apply GuiThread.touches_lifts hstill htouches.left
  intro coor h
  exact absurd (show none = some coor from h) (by simp)

def wholeScreen : Gui Unit where
  cbis _ := { GuiThread.defaultCbi 0 800 with rightDown := ⟨800, 480⟩ }
  cbiList := [0]
  rest := ()

theorem touch_paired_once :
    Paired false (rolesOf 0 (GuiThread.roles ((start wholeScreen ⟨0, 0⟩ ⟨0, 0⟩).run
      GuiThread.noEffect [.read fourTurns, .receive]).jobs.thread.calls)) = true :=
  touch_paired (fun _ _ _ _ _ _ h => h) wholeScreen _ _ _ rfl 0

end TouchGui

end Callbacks

end DfewOS
