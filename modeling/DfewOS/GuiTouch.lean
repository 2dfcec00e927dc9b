import DfewOS.GuiCore

/-!
# Presses and releases in the GUI loop

The only CBI that is pressed between two messages is `pCBI_pre`; a touch up over
another one breaks the pairing.
-/

namespace DfewOS
open Pairing

namespace GuiThread

variable {σ : Type*} {cb : Callbacks σ} {s : GuiThread σ} {coor : GuiCoor}

def roles (calls : List (CbiPtr × CbMember)) : List (CbiPtr × Role) :=
  calls.map fun c => (c.1, c.2.role)

def Logs (s s' : GuiThread σ) (new : List (CbiPtr × CbMember)) : Prop :=
  s'.calls = s.calls ++ new

theorem callMember_calls (s : GuiThread σ) (m : CbMember) (p : CbiPtr) (c : GuiCoor) :
    (s.callMember cb m p c).calls = s.calls ++ [(p, m)] := rfl

theorem callMember_pCbiPre (s : GuiThread σ) (m : CbMember) (p : CbiPtr) (c : GuiCoor) :
    (s.callMember cb m p c).pCbiPre = s.pCbiPre := rfl

theorem defaultPress_calls (s : GuiThread σ) (p : CbiPtr) (c : GuiCoor) :
    (s.defaultPress cb p c).calls = s.calls := by
  unfold defaultPress
  split <;> rfl

theorem defaultPress_pCbiPre (s : GuiThread σ) (p : CbiPtr) (c : GuiCoor) :
    (s.defaultPress cb p c).pCbiPre = s.pCbiPre := by
  unfold defaultPress
  split <;> rfl

theorem touchDown_cases (cb : Callbacks σ) (s : GuiThread σ) (coor : GuiCoor) :
    (s.pCbiPre = none ∧ Logs s (s.touchDown cb coor) [] ∧
      (s.touchDown cb coor).pCbiPre = none) ∨
    (∃ pre, s.pCbiPre = some pre ∧ Logs s (s.touchDown cb coor) [(pre, .funcDrag)] ∧
      (s.touchDown cb coor).pCbiPre = some pre) ∨
    (∃ cur, s.pCbiPre = none ∧ Logs s (s.touchDown cb coor) [(cur, .funcPress)] ∧
      (s.touchDown cb coor).pCbiPre = some cur) ∨
    (∃ pre cur, pre ≠ cur ∧ s.pCbiPre = some pre ∧
      Logs s (s.touchDown cb coor) [(pre, .funcLeave), (cur, .funcPress)] ∧
      (s.touchDown cb coor).pCbiPre = some cur) := by
  unfold Logs touchDown
  generalize hcur : s.gui.cbiInWhich coor = cur
  generalize hpre : s.pCbiPre = pre
  cases cur with
  | none =>
    cases pre with
    | none => exact .inl ⟨rfl, (List.append_nil _).symm, hpre⟩
    | some pre => exact .inr (.inl ⟨pre, rfl, rfl, hpre⟩)
  | some cur =>
    by_cases hsame : some cur = pre
    · subst hsame
      simp only [ne_eq, not_true_eq_false, if_false]
      exact .inr (.inl ⟨cur, rfl, rfl, hpre⟩)
    · simp only [ne_eq, hsame, not_false_eq_true, if_true, callMember_calls, callMember_pCbiPre,
        defaultPress_calls, defaultPress_pCbiPre]
      cases pre with
      | none => exact .inr (.inr (.inl ⟨cur, rfl, rfl, rfl⟩))
      | some pre =>
        have hne : pre ≠ cur := fun h => hsame (congrArg some h.symm)
        exact .inr (.inr (.inr ⟨pre, cur, hne, rfl, by simp [callMember_calls], rfl⟩))

theorem touchUp_pCbiPre (cb : Callbacks σ) (s : GuiThread σ) (coor : GuiCoor) :
    (s.touchUp cb coor).pCbiPre = none := rfl

theorem touchUp_cases (cb : Callbacks σ) (s : GuiThread σ) (coor : GuiCoor) :
    (∃ cur, s.gui.cbiInWhich coor = some cur ∧
      Logs s (s.touchUp cb coor) [(cur, .funcRelease)]) ∨
    (∃ pre, s.gui.cbiInWhich coor = none ∧ s.pCbiPre = some pre ∧
      Logs s (s.touchUp cb coor) [(pre, .funcRelease)]) ∨
    (s.gui.cbiInWhich coor = none ∧ s.pCbiPre = none ∧ Logs s (s.touchUp cb coor) []) := by
  unfold Logs touchUp
  generalize s.gui.cbiInWhich coor = cur
  generalize s.pCbiPre = pre
  cases cur with
  | some cur => exact .inl ⟨cur, rfl, rfl⟩
  | none =>
    cases pre with
    | some pre => exact .inr (.inl ⟨pre, rfl, rfl, rfl⟩)
    | none => exact .inr (.inr ⟨rfl, rfl, (List.append_nil _).symm⟩)

/-- The pen, when it is lifted, is over no CBI or over the pressed one. -/
def LiftsPressed (s : GuiThread σ) (msg : GuiMsg) : Prop :=
  msg.type = .touchUp → s.gui.cbiInWhich msg.scrCoor = none ∨
    s.gui.cbiInWhich msg.scrCoor = s.pCbiPre

theorem doMsg_paired (cb : Callbacks σ) (s : GuiThread σ) (msg : GuiMsg) :
    ∃ new, Logs s (s.doMsg cb msg) new ∧
      (PairedFrom s.pCbiPre (roles new) ↔ s.LiftsPressed msg) ∧
      (s.LiftsPressed msg → Leads s.pCbiPre (roles new) (s.doMsg cb msg).pCbiPre) := by
  obtain ⟨type, coor⟩ := msg
  cases type with
  | touchDown =>
    have hlift : s.LiftsPressed ⟨.touchDown, coor⟩ := nofun
    simp only [hlift, iff_true, true_imp_iff, doMsg]
    obtain ⟨hpre, hlog, hnext⟩ | ⟨pre, hpre, hlog, hnext⟩ | ⟨cur, hpre, hlog, hnext⟩ |
      ⟨pre, cur, hne, hpre, hlog, hnext⟩ := touchDown_cases cb s coor
    all_goals refine ⟨_, hlog, ?_, ?_⟩ <;> intro key <;> rw [hpre] <;> try rw [hnext]
    all_goals simp only [roles, List.map_cons, List.map_nil, rolesOf_cons, rolesOf_nil,
      CbMember.role]
    all_goals grind [Paired, openAfter, Role.allowed, Role.after]
  | touchUp =>
    obtain ⟨cur, hcur, hlog⟩ | ⟨pre, hcur, hpre, hlog⟩ | ⟨hcur, hpre, hlog⟩ :=
      touchUp_cases cb s coor
    all_goals refine ⟨_, hlog, ?_⟩
    all_goals simp only [LiftsPressed, hcur, doMsg, touchUp_pCbiPre, PairedFrom, Leads, roles,
      List.map_cons, List.map_nil, rolesOf_cons, rolesOf_nil, CbMember.role]
    all_goals grind [Paired, openAfter, Role.allowed, Role.after]

/-- A thread whose pressed CBI and whose calls so far are all of registered CBIs. -/
structure Registered (s : GuiThread σ) : Prop where
  pre : ∀ p, s.pCbiPre = some p → p ∈ s.gui.cbiList
  calls : ∀ c ∈ s.calls, c.1 ∈ s.gui.cbiList

theorem callMember_cbiList (s : GuiThread σ) (m : CbMember) (p : CbiPtr) (c : GuiCoor) :
    (s.callMember cb m p c).gui.cbiList = s.gui.cbiList :=
  cb.keeps_cbis _ _ _ _

theorem defaultPress_cbiList (s : GuiThread σ) (p : CbiPtr) (c : GuiCoor) :
    (s.defaultPress cb p c).gui.cbiList = s.gui.cbiList := by
  unfold defaultPress
  split
  · exact cb.keeps_cbis _ _ _ _
  · rfl

theorem cbiInWhich_mem {g : Gui σ} {p : CbiPtr} (h : g.cbiInWhich coor = some p) :
    p ∈ g.cbiList :=
  List.mem_of_find?_eq_some h

theorem Registered.callMember (h : s.Registered) {p : CbiPtr} (hp : p ∈ s.gui.cbiList)
    (m : CbMember) (c : GuiCoor) : (s.callMember cb m p c).Registered where
  pre := by simpa only [callMember_cbiList, callMember_pCbiPre] using h.pre
  calls := by
    intro c' hc
    simp only [callMember_calls, List.mem_append, List.mem_singleton] at hc
    rw [callMember_cbiList]
    obtain hc | rfl := hc
    · exact h.calls c' hc
    · exact hp

theorem Registered.press (h : s.Registered) {cur : CbiPtr} (hcur : cur ∈ s.gui.cbiList)
    (c : GuiCoor) : ({ s with pCbiPre := some cur }.defaultPress cb cur c).Registered where
  pre := by
    simp only [defaultPress_pCbiPre, defaultPress_cbiList, Option.some.injEq]
    rintro p rfl
    exact hcur
  calls := by simpa only [defaultPress_calls, defaultPress_cbiList] using h.calls

theorem Registered.touchDown (h : s.Registered) (coor : GuiCoor) :
    (s.touchDown cb coor).Registered := by
  suffices hs : ∀ s' : GuiThread σ, s'.Registered → { s' with preCoor := coor }.Registered by
    unfold GuiThread.touchDown
    apply hs
    generalize hcur : s.gui.cbiInWhich coor = cur
    generalize hpre : s.pCbiPre = pre
    cases cur with
    | none =>
      cases pre with
      | none => exact h
      | some pre => exact h.callMember (h.pre pre hpre) _ _
    | some cur =>
      have hmem := cbiInWhich_mem hcur
      split
      · cases pre with
        | none => exact (h.press hmem _).callMember (by rwa [defaultPress_cbiList]) _ _
        | some pre =>
          have hleft : (s.callMember cb .funcLeave pre coor).Registered :=
            h.callMember (h.pre pre hpre) .funcLeave coor
          have hmem' : cur ∈ (s.callMember cb .funcLeave pre coor).gui.cbiList := by
            rwa [callMember_cbiList]
          exact (hleft.press hmem' _).callMember (by rwa [defaultPress_cbiList]) _ _
      · exact h.callMember hmem _ _
  exact fun s' hs' => ⟨hs'.pre, hs'.calls⟩

theorem Registered.touchUp (h : s.Registered) (coor : GuiCoor) :
    (s.touchUp cb coor).Registered := by
  suffices hs : ∀ s' : GuiThread σ, s'.Registered → { s' with pCbiPre := none }.Registered by
    unfold GuiThread.touchUp
    apply hs
    generalize hcur : s.gui.cbiInWhich coor = cur
    generalize hpre : s.pCbiPre = pre
    cases cur with
    | some cur => exact h.callMember (cbiInWhich_mem hcur) _ _
    | none =>
      cases pre with
      | some pre => exact h.callMember (h.pre pre hpre) _ _
      | none => exact h
  exact fun s' hs' => ⟨nofun, hs'.calls⟩

theorem Registered.doMsgs (h : s.Registered) (msgs : List GuiMsg) :
    (s.doMsgs cb msgs).Registered := by
  induction msgs generalizing s with
  | nil => exact h
  | cons msg msgs ih =>
    apply ih
    obtain ⟨_ | _, coor⟩ := msg
    · exact h.touchDown coor
    · exact h.touchUp coor

theorem doMsgs_cons (s : GuiThread σ) (msg : GuiMsg) (msgs : List GuiMsg) :
    s.doMsgs cb (msg :: msgs) = (s.doMsg cb msg).doMsgs cb msgs := rfl

theorem doMsgs_append (s : GuiThread σ) (msgs msgs' : List GuiMsg) :
    s.doMsgs cb (msgs ++ msgs') = (s.doMsgs cb msgs).doMsgs cb msgs' :=
  List.foldl_append

/-- The pen is lifted over no CBI or the pressed one, whenever it is. -/
def LiftsAllPressed (cb : Callbacks σ) (s : GuiThread σ) (msgs : List GuiMsg) : Prop :=
  ∀ before msg after, msgs = before ++ msg :: after → (s.doMsgs cb before).LiftsPressed msg

theorem liftsAllPressed_cons (msg : GuiMsg) (msgs : List GuiMsg) :
    s.LiftsAllPressed cb (msg :: msgs) ↔
      s.LiftsPressed msg ∧ (s.doMsg cb msg).LiftsAllPressed cb msgs := by
  constructor
  · intro h
    refine ⟨h [] msg msgs rfl, ?_⟩
    intro before m after heq
    exact h (msg :: before) m after (by rw [heq, List.cons_append])
  · rintro ⟨hm, hms⟩ before m after heq
    cases before with
    | nil =>
      obtain ⟨rfl, -⟩ := List.cons.inj heq
      exact hm
    | cons b before =>
      obtain ⟨rfl, htail⟩ := List.cons.inj heq
      exact hms before m after htail

theorem doMsgs_paired (cb : Callbacks σ) (s : GuiThread σ) (msgs : List GuiMsg) :
    ∃ new, Logs s (s.doMsgs cb msgs) new ∧
      (PairedFrom s.pCbiPre (roles new) ↔ s.LiftsAllPressed cb msgs) := by
  induction msgs generalizing s with
  | nil =>
    refine ⟨[], (List.append_nil _).symm, iff_of_true (pairedFrom_nil _) ?_⟩
    intro before msg after heq
    simp at heq
  | cons msg msgs ih =>
    obtain ⟨new₁, hlog₁, hpaired, hleads⟩ := doMsg_paired cb s msg
    obtain ⟨new₂, hlog₂, hrest⟩ := ih (s.doMsg cb msg)
    have hlog : Logs s (s.doMsgs cb (msg :: msgs)) (new₁ ++ new₂) := by
      unfold Logs at *
      rw [doMsgs_cons, hlog₂, hlog₁, List.append_assoc]
    refine ⟨new₁ ++ new₂, hlog, ?_⟩
    rw [liftsAllPressed_cons, show roles (new₁ ++ new₂) = roles new₁ ++ roles new₂ from
      List.map_append ..]
    by_cases hlift : s.LiftsPressed msg
    · rw [pairedFrom_append (hleads hlift), hpaired, hrest]
    · -- the first unpaired call decides, whatever follows
      have hbroken : ¬ PairedFrom s.pCbiPre (roles new₁) := fun h => hlift (hpaired.mp h)
      exact iff_of_false (fun h => hbroken h.left) (fun h => hlift h.1)

/-- The calls of every CBI are paired exactly if the pen is never lifted over a CBI
other than the pressed one. -/
theorem touch_protocol (cb : Callbacks σ) (g : Gui σ) (preCoor : GuiCoor) (msgs : List GuiMsg) :
    (∀ p, Paired false (rolesOf p (roles ((start g preCoor).doMsgs cb msgs).calls)) = true) ↔
      ∀ before coor after, msgs = before ++ ⟨.touchUp, coor⟩ :: after →
        let s := (start g preCoor).doMsgs cb before
        s.gui.cbiInWhich coor = none ∨ s.gui.cbiInWhich coor = s.pCbiPre := by
  obtain ⟨new, hlog, hpaired⟩ := doMsgs_paired cb (start g preCoor) msgs
  have hcalls : ((start g preCoor).doMsgs cb msgs).calls = new := hlog
  rw [hcalls]
  refine Iff.trans hpaired ⟨fun h before coor after heq => h before _ after heq rfl, ?_⟩
  rintro h before ⟨type, coor⟩ after rfl (rfl : type = .touchUp)
  exact h before coor after rfl

def noEffect : Callbacks Unit := ⟨fun _ _ _ g => g, fun _ _ _ _ => rfl⟩

def defaultCbi (left right : ℤ) : GuiCbi where
  leftUp := ⟨left, 0⟩
  rightDown := ⟨right, 9⟩
  funcPress := .cbfDefaultPress
  funcLeave := .cbfDefaultLeave
  funcRelease := .cbfDefaultRelease
  funcDrag := .cbfNoDrag

def twoCbis : Gui Unit where
  cbis p := if p = 0 then defaultCbi 0 9 else defaultCbi 20 29
  cbiList := [0, 1]
  rest := ()

/-- A touch down on one CBI and a touch up on the other release the one that is not pressed. -/
theorem lifted_elsewhere_unpaired :
    ¬ ∀ p, Paired false (rolesOf p (roles ((start twoCbis ⟨0, 0⟩).doMsgs noEffect
      [⟨.touchDown, ⟨5, 5⟩⟩, ⟨.touchUp, ⟨25, 5⟩⟩]).calls)) = true :=
  fun h => absurd (h 1) (by decide)

end GuiThread

namespace GuiJobs
open GuiThread

variable {σ : Type*} {cb : Callbacks σ}

theorem guiJobAdd_thread (j : GuiJobs σ) (coor : GuiCoor) (type : GuiMsgType) :
    (j.guiJobAdd coor type).thread = j.thread := by
  unfold guiJobAdd
  split <;> rfl

theorem receive_thread (j : GuiJobs σ) :
    (j.receive cb).thread = j.thread.doMsgs cb (j.msgQueue.take 1) := by
  unfold receive
  cases j.msgQueue <;> rfl

theorem run_thread (j : GuiJobs σ) (es : List GuiEvent) :
    (j.run cb es).thread = j.thread.doMsgs cb (j.received cb es) := by
  induction es generalizing j with
  | nil => rfl
  | cons e es ih =>
    refine (ih _).trans ?_
    cases e with
    | jobAdd coor type => simp only [step, received, guiJobAdd_thread]
    | receive => simp only [step, received, receive_thread, doMsgs_append]

theorem run_length {j : GuiJobs σ} (h : j.msgQueue.length ≤ guiMsgQueueNumMax)
    (es : List GuiEvent) : (j.run cb es).msgQueue.length ≤ guiMsgQueueNumMax := by
  induction es generalizing j with
  | nil => exact h
  | cons e es ih =>
    apply ih
    cases e with
    | jobAdd coor type =>
      simp only [step, guiJobAdd]
      split
      · simp only [List.length_append, List.length_singleton]
        omega
      · exact h
    | receive =>
      simp only [step, receive]
      split
      · exact h
      · simp_all only [List.length_cons]
        omega

end GuiJobs

end DfewOS
