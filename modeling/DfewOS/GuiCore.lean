import DfewOS.Pairing
import Mathlib.Data.Int.Notation
import Mathlib.Data.Nat.Notation

/-!
# The GUI message loop

`_T_gui_job_thread` over the list of registered CBIs. The callbacks are code outside the
loop: they may move CBIs, change their callbacks and touch the rest of the machine, but
neither add nor remove a CBI.
-/

namespace DfewOS
open Pairing (Role)

abbrev CbiPtr := ℕ

structure GuiCoor where
  x : ℤ
  y : ℤ
  deriving DecidableEq

def GuiCoor.sub (a b : GuiCoor) : GuiCoor := ⟨a.x - b.x, a.y - b.y⟩

/-- The values of a callback pointer: the routines of gui_cbf.c, or one of an application. -/
inductive CbFunc
  | cbfDefaultPress
  | cbfDefaultLeave
  | cbfDefaultRelease
  | cbfNoDrag
  | cbfHwDrag
  | cbfDoDrag
  | cbfNoop
  | app (n : ℕ)
  deriving DecidableEq

structure GuiCbi where
  leftUp : GuiCoor
  rightDown : GuiCoor
  funcPress : CbFunc
  funcLeave : CbFunc
  funcRelease : CbFunc
  funcDrag : CbFunc

inductive GuiMsgType
  | touchDown
  | touchUp
  deriving DecidableEq

structure GuiMsg where
  type : GuiMsgType
  scrCoor : GuiCoor

/-- `cbis` is the memory of the CBIs, `rest` everything else that a callback may touch. -/
structure Gui (σ : Type*) where
  cbis : CbiPtr → GuiCbi
  cbiList : List CbiPtr
  rest : σ

structure Callbacks (σ : Type*) where
  call : CbFunc → CbiPtr → GuiCoor → Gui σ → Gui σ
  keeps_cbis : ∀ f p c g, (call f p c g).cbiList = g.cbiList

inductive CbMember
  | funcPress
  | funcLeave
  | funcRelease
  | funcDrag

def CbMember.role : CbMember → Role
  | funcPress => .opens
  | funcDrag => .uses
  | funcLeave | funcRelease => .closes

def GuiCbi.func (c : GuiCbi) : CbMember → CbFunc
  | .funcPress => c.funcPress
  | .funcLeave => c.funcLeave
  | .funcRelease => c.funcRelease
  | .funcDrag => c.funcDrag

namespace Gui

variable {σ : Type*}

def cbiFindInWhich (g : Gui σ) (p : CbiPtr) (coor : GuiCoor) : Bool :=
  (g.cbis p).leftUp.x ≤ coor.x && coor.x ≤ (g.cbis p).rightDown.x &&
    ((g.cbis p).leftUp.y ≤ coor.y && coor.y ≤ (g.cbis p).rightDown.y)

def cbiInWhich (g : Gui σ) (coor : GuiCoor) : Option CbiPtr :=
  g.cbiList.find? fun p => g.cbiFindInWhich p coor

def cbiCoor (g : Gui σ) (p : CbiPtr) (coor : GuiCoor) : GuiCoor := coor.sub (g.cbis p).leftUp

end Gui

/-- The job thread between two messages; `calls` logs the calls through the members of a CBI. -/
structure GuiThread (σ : Type*) where
  gui : Gui σ
  pCbiPre : Option CbiPtr
  preCoor : GuiCoor
  calls : List (CbiPtr × CbMember)

namespace GuiThread

variable {σ : Type*} (cb : Callbacks σ)

/-- The thread as it starts: `pre_coor` is not initialised. -/
def start (g : Gui σ) (preCoor : GuiCoor) : GuiThread σ := ⟨g, none, preCoor, []⟩

def callMember (s : GuiThread σ) (m : CbMember) (p : CbiPtr) (coor : GuiCoor) : GuiThread σ :=
  { s with gui := cb.call ((s.gui.cbis p).func m) p coor s.gui, calls := s.calls ++ [(p, m)] }

/-- `cbf_default_press` called by the loop itself, before the `func_press` of an application. -/
def defaultPress (s : GuiThread σ) (p : CbiPtr) (coor : GuiCoor) : GuiThread σ :=
  if (s.gui.cbis p).funcPress ≠ .cbfDefaultPress ∧ (s.gui.cbis p).funcPress ≠ .cbfNoop then
    { s with gui := cb.call .cbfDefaultPress p coor s.gui }
  else s

def touchDown (s : GuiThread σ) (coor : GuiCoor) : GuiThread σ :=
  let s' :=
    if s.gui.cbiInWhich coor ≠ s.pCbiPre then
      match s.gui.cbiInWhich coor, s.pCbiPre with
      | none, some pre => s.callMember cb .funcDrag pre (coor.sub s.preCoor)
      | none, none => s
      | some cur, pre =>
        let cbiCoor := s.gui.cbiCoor cur coor
        let left := match pre with
          | some pre => s.callMember cb .funcLeave pre coor
          | none => s
        ({ left with pCbiPre := some cur }.defaultPress cb cur cbiCoor).callMember cb
          .funcPress cur cbiCoor
    else
      match s.gui.cbiInWhich coor with
      | some cur => s.callMember cb .funcDrag cur (coor.sub s.preCoor)
      | none => s
  { s' with preCoor := coor }

def touchUp (s : GuiThread σ) (coor : GuiCoor) : GuiThread σ :=
  let s' :=
    match s.gui.cbiInWhich coor, s.pCbiPre with
    | some cur, _ => s.callMember cb .funcRelease cur (s.gui.cbiCoor cur coor)
    | none, some pre => s.callMember cb .funcRelease pre (s.gui.cbiCoor pre coor)
    | none, none => s
  { s' with pCbiPre := none }

def doMsg (s : GuiThread σ) (msg : GuiMsg) : GuiThread σ :=
  match msg.type with
  | .touchDown => s.touchDown cb msg.scrCoor
  | .touchUp => s.touchUp cb msg.scrCoor

def doMsgs (s : GuiThread σ) (msgs : List GuiMsg) : GuiThread σ := msgs.foldl (doMsg cb) s

end GuiThread

abbrev guiMsgQueueNumMax : ℕ := 50

structure GuiJobs (σ : Type*) where
  msgQueue : List GuiMsg
  msgLost : ℕ
  thread : GuiThread σ

inductive GuiEvent
  | jobAdd (coor : GuiCoor) (type : GuiMsgType)
  | receive

namespace GuiJobs

variable {σ : Type*} (cb : Callbacks σ)

/-- `msgQ_send` without waiting: a message that finds the queue full is lost. -/
def guiJobAdd (j : GuiJobs σ) (coor : GuiCoor) (type : GuiMsgType) : GuiJobs σ :=
  if j.msgQueue.length < guiMsgQueueNumMax then
    { j with msgQueue := j.msgQueue ++ [⟨type, coor⟩] }
  else { j with msgLost := j.msgLost + 1 }

def receive (j : GuiJobs σ) : GuiJobs σ :=
  match j.msgQueue with
  | [] => j
  | msg :: msgs => { j with msgQueue := msgs, thread := j.thread.doMsg cb msg }

def step (j : GuiJobs σ) : GuiEvent → GuiJobs σ
  | .jobAdd coor type => j.guiJobAdd coor type
  | .receive => j.receive cb

def run (j : GuiJobs σ) (es : List GuiEvent) : GuiJobs σ := es.foldl (step cb) j

/-- The messages the thread receives in a run. -/
def received (j : GuiJobs σ) : List GuiEvent → List GuiMsg
  | [] => []
  | .jobAdd coor type :: es => (j.guiJobAdd coor type).received es
  | .receive :: es => j.msgQueue.take 1 ++ (j.receive cb).received es

end GuiJobs

end DfewOS
