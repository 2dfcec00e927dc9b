import DfewOS.TimeLib
import DfewOS.Transition

/-!
# The calendar application

`gui/app/calendar.c`: the month that is shown and the months before and after it, each
with the weekday of its first day and the picture of its day blocks. A picture is kept as
the arguments that it was drawn from; the pixels that a slide copies to the screen are left
out.
-/

namespace DfewOS.Calendar

def blksScrWidth : ℤ := 560

def monthDays (y m : ℤ) : ℤ := TimeLib.monthDays y m

/-- What `_calendar_get_blks_scr` draws. -/
structure Screen where
  year : ℤ
  month : ℤ
  firstWeekDay : ℤ
deriving DecidableEq

structure BlocksScreen where
  prevMonthScr : Option Screen
  curMonthScr : Option Screen
  nextMonthScr : Option Screen
  prevYear : ℤ
  curYear : ℤ
  nextYear : ℤ
  prevMonth : ℤ
  curMonth : ℤ
  nextMonth : ℤ
  prevFirstWeekDay : ℤ
  curFirstWeekDay : ℤ
  nextFirstWeekDay : ℤ
deriving DecidableEq

/-- `_G_blks_scr` and the positions of the slides. -/
structure State where
  blksScr : BlocksScreen
  prevMonthPos : ℤ
  nextMonthPos : ℤ
deriving DecidableEq

def cleared : State := ⟨⟨none, none, none, 0, 0, 0, 0, 0, 0, 0, 0, 0⟩, -1, blksScrWidth⟩

def monthBack (year month : ℤ) : ℤ × ℤ :=
  if month - 1 = 0 then (year - 1, 12) else (year, month - 1)

def monthOn (year month : ℤ) : ℤ × ℤ :=
  if month + 1 = 13 then (year + 1, 1) else (year, month + 1)

/-- `_calendar_start_from_this`, with the time that `timeGet` gave. -/
def startFromThis (s : State) (tsTimeNow : TimeSocket) : State :=
  let firstWeekDay := (7 - (tsTimeNow.iDay - 1).tmod 7 + tsTimeNow.iWday).tmod 7
  let daysOfMonth := monthDays tsTimeNow.iYear tsTimeNow.iMon
  let prev := monthBack tsTimeNow.iYear tsTimeNow.iMon
  let next := monthOn tsTimeNow.iYear tsTimeNow.iMon
  let prevDaysOfMonth := monthDays prev.1 prev.2
  let prevFirst := (firstWeekDay - prevDaysOfMonth + 35).tmod 7
  let nextFirst := (firstWeekDay + daysOfMonth).tmod 7
  { s with
    blksScr :=
      { prevMonthScr := some ⟨prev.1, prev.2, prevFirst⟩
        curMonthScr := some ⟨tsTimeNow.iYear, tsTimeNow.iMon, firstWeekDay⟩
        nextMonthScr := some ⟨next.1, next.2, nextFirst⟩
        prevYear := prev.1
        curYear := tsTimeNow.iYear
        nextYear := next.1
        prevMonth := prev.2
        curMonth := tsTimeNow.iMon
        nextMonth := next.2
        prevFirstWeekDay := prevFirst
        curFirstWeekDay := firstWeekDay
        nextFirstWeekDay := nextFirst } }

def prevMonthTo (s : State) (pos : ℤ) : State :=
  if pos = blksScrWidth - 1 then
    let b := s.blksScr
    let prev := monthBack b.prevYear b.prevMonth
    let prevDaysOfMonth := monthDays prev.1 prev.2
    let prevFirst := (b.prevFirstWeekDay - prevDaysOfMonth + 35).tmod 7
    { s with
      prevMonthPos := -1
      blksScr :=
        { prevMonthScr := some ⟨prev.1, prev.2, prevFirst⟩
          curMonthScr := b.prevMonthScr
          nextMonthScr := b.curMonthScr
          prevYear := prev.1
          curYear := b.prevYear
          nextYear := b.curYear
          prevMonth := prev.2
          curMonth := b.prevMonth
          nextMonth := b.curMonth
          prevFirstWeekDay := prevFirst
          curFirstWeekDay := b.prevFirstWeekDay
          nextFirstWeekDay := b.curFirstWeekDay } }
  else { s with prevMonthPos := pos }

def nextMonthTo (s : State) (pos : ℤ) : State :=
  if pos = 0 then
    let b := s.blksScr
    let next := monthOn b.nextYear b.nextMonth
    let curDaysOfMonth := monthDays b.nextYear b.nextMonth
    let nextFirst := (b.nextFirstWeekDay + curDaysOfMonth).tmod 7
    { s with
      nextMonthPos := blksScrWidth
      blksScr :=
        { prevMonthScr := b.curMonthScr
          curMonthScr := b.nextMonthScr
          nextMonthScr := some ⟨next.1, next.2, nextFirst⟩
          prevYear := b.curYear
          curYear := b.nextYear
          nextYear := next.1
          prevMonth := b.curMonth
          curMonth := b.nextMonth
          nextMonth := next.2
          prevFirstWeekDay := b.curFirstWeekDay
          curFirstWeekDay := b.nextFirstWeekDay
          nextFirstWeekDay := nextFirst } }
  else { s with nextMonthPos := pos }

/-- What the callbacks of the application call. -/
inductive Event
  | now (tsTimeNow : TimeSocket)
  | prevMonthTo (pos : ℤ)
  | nextMonthTo (pos : ℤ)

def exec (s : State) : Event → State
  | .now tsTimeNow => startFromThis s tsTimeNow
  | .prevMonthTo pos => prevMonthTo s pos
  | .nextMonthTo pos => nextMonthTo s pos

end DfewOS.Calendar
