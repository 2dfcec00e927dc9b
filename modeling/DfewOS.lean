import DfewOS.Transition
import DfewOS.Dlist
import DfewOS.BitMap
import DfewOS.ReadyQueue
import DfewOS.ReadyQueueSpec
import DfewOS.TaskPool
import DfewOS.MessageQueue
import DfewOS.Mutex
import DfewOS.Task
import DfewOS.Execution
import DfewOS.Linked
import DfewOS.Frame
import DfewOS.Invariant
import DfewOS.PriorityInheritance
import DfewOS.MutexSpec
import DfewOS.TaskSpec
import DfewOS.TickSpec
import DfewOS.Steps
import DfewOS.SafeRuns
import DfewOS.OneQueue
import DfewOS.MessageQueueSpec
import DfewOS.EffectSpec
import DfewOS.TickAccuracy
import DfewOS.MutexCount
import DfewOS.MutexHonesty
import DfewOS.MutexBoost
import DfewOS.MutexOrder
import DfewOS.Waiting
import DfewOS.CountingSemaphore
import DfewOS.BinarySemaphore
import DfewOS.Deletion
import DfewOS.Blocks
import DfewOS.MemH
import DfewOS.MemHSpec
import DfewOS.HeapRuns
import DfewOS.Allotment
import DfewOS.Resources
import DfewOS.GuiCore
import DfewOS.GuiTouch
import DfewOS.Ios
import DfewOS.Descriptors
import DfewOS.Dispatch
import DfewOS.Wuzi
import DfewOS.WuziSpec
import DfewOS.Lian
import DfewOS.LianSpec
import DfewOS.LianLeft
import DfewOS.LianSolver
import DfewOS.LianBoard
import DfewOS.Bridge
import DfewOS.BridgeSpec
import DfewOS.Tetris
import DfewOS.TetrisSpec
import DfewOS.GridFall
import DfewOS.TetrisAuto
import DfewOS.TetrisScore
import DfewOS.TetrisSteps
import DfewOS.FifoSpec
import DfewOS.TimeLibSpec
import DfewOS.ClockAtomic
import DfewOS.Scan
import DfewOS.FtpTransfer
import DfewOS.FtpTransferSpec
import DfewOS.Bfill
import DfewOS.FirstFit
import DfewOS.NumText
import DfewOS.Positional
import DfewOS.Calendar
import DfewOS.CalendarSpec
import DfewOS.NumTextSpec
import DfewOS.FtpPath
import DfewOS.FtpPathSpec
import DfewOS.FtpSessions
import DfewOS.FtpSessionsSpec
import DfewOS.Glob
import DfewOS.StrFilter
import DfewOS.StrFilterSpec
import DfewOS.MessageQueueDelete
import DfewOS.MutexChain
import DfewOS.CpuLock
import DfewOS.CpuLockSpec
import DfewOS.ReadySearch
import DfewOS.ReadySearchSpec
import DfewOS.ByteCopy
import DfewOS.ByteCopySpec
import DfewOS.MemFill
import DfewOS.HeapFrees
import DfewOS.HeapRequests
import DfewOS.NulText
import DfewOS.StringOrder
import DfewOS.MaximalRuns
import DfewOS.StrTok
import DfewOS.StrTokSpec
import DfewOS.Stoul
import DfewOS.Strtoul
import DfewOS.NumberLayout
import DfewOS.Printf
import DfewOS.RunningMax
import DfewOS.WuziComputer
import DfewOS.CmdDispatch
import DfewOS.StrCat
import DfewOS.TetrisVisits
import DfewOS.CmdTab
import DfewOS.Latest
import DfewOS.ShellLine
import DfewOS.ShellLineSpec
import DfewOS.Nongli
import DfewOS.Stretches
import DfewOS.NongliSpec
import DfewOS.Clearing
import DfewOS.TetrisFix
import DfewOS.TetrisFixSpec
import DfewOS.Brackets
import DfewOS.Calculator
import DfewOS.CalculatorGrammar
import DfewOS.CalculatorSpec
import DfewOS.Calculate
import DfewOS.ExprGrammar
import DfewOS.CalculatorWritten
import DfewOS.CalculatorParses
import DfewOS.Devices
import DfewOS.ReverseFrame
import DfewOS.SetColor
import DfewOS.DigitalLine
import DfewOS.GraLine
import DfewOS.FtpUpload
import DfewOS.FtpDispatch
import DfewOS.FtpDispatchSpec
import DfewOS.FtpRename
import DfewOS.Strock
import DfewOS.StrockSpec
import DfewOS.ReaderSpec
import DfewOS.FileMgrSpec
import DfewOS.DoubleByte
import DfewOS.Reader
import DfewOS.FileMgr
import DfewOS.Bisect
import DfewOS.StackUsed
import DfewOS.DlistSpec
import DfewOS.SysArch
import DfewOS.WebServer
import DfewOS.DispatchName
import DfewOS.YaffsPath
import DfewOS.Ahead
import DfewOS.ReadyOrder
import DfewOS.RoundRobin
import DfewOS.Ledger
import DfewOS.FtpServer
import DfewOS.FtpSockets
import DfewOS.FtpReplies
import DfewOS.FtpConfined
import DfewOS.BubbleSort
import DfewOS.Touch
import DfewOS.TouchSpec
import DfewOS.XorBits
import DfewOS.Ecc
import DfewOS.EccSpec
import DfewOS.EccOtherSpec
import DfewOS.NandEcc
import DfewOS.NandEccSpec
import DfewOS.PackedTags
import DfewOS.PackedTagsSpec
import DfewOS.LockOrder
import DfewOS.Inversion
import DfewOS.Painting
import DfewOS.MsgBox
import DfewOS.MsgBoxSpec
