import DfewOS.FtpPath
import DfewOS.FtpRename
import DfewOS.FtpTransfer
import DfewOS.NumText

/-!
# The commands of an FTP session

`_ftps_do_cmd` of `net/app/ftp.c` with all the commands, and the loop of
`T_ftp_server_session` around it. A command gives the session behind it and what
it did on the control connection and with sockets, in order; what the sockets
and the file system answer is an argument. A command that writes behind one of
its buffers has no result.
-/

namespace DfewOS.Ftp
open Calculator (isspace)
open Words (words)

/-- `sin_addr.s_addr` and `sin_port`, in network order. -/
structure SockAddr where
  addr : BitVec 32
  port : BitVec 16
deriving DecidableEq, Repr

structure FtpSession where
  /-- `SESSION_STATUS_LOGIN` of `session_status` -/
  login : Bool
  currentPath : List Char
  dataSockaddrIn : SockAddr
  defaultSockaddrIn : SockAddr
  useDefaultAddr : Bool
  ctrlSockId : ℤ
  dataSockId : ℤ
  pasvSockId : ℤ
  transMode : TransMode
deriving DecidableEq, Repr

inductive Io
  | reply (code : ℕ) (message : String)
  | opened (sock : ℤ)
  | closed (sock : ℤ)
  | connect (sock : ℤ) (dest : SockAddr)
deriving DecidableEq, Repr

def Io.ofReply (r : ℕ × String) : Io := .reply r.1 r.2

def ftpsCloseDataSock (s : FtpSession) : FtpSession × List Io :=
  ({ s with dataSockId := -1, pasvSockId := -1, useDefaultAddr := true },
    if 0 < s.dataSockId then [.closed s.dataSockId]
    else if 0 < s.pasvSockId then [.closed s.pasvSockId]
    else [])

/-! ## The data connection -/

inductive BindAnswer
  | ok
  /-- `EADDRINUSE` -/
  | inUse
  | failed
deriving DecidableEq, Repr

structure SockAnswers where
  socket : ℤ
  bind : ℕ → BindAnswer
  connect : Bool

def ftpServerMaxRetry : ℕ := 10

/-- The loop around `bind`, from the `i`-th try on with `n` tries left. -/
def bindTries (bind : ℕ → BindAnswer) : ℕ → ℕ → Bool
  | 0, _ => false
  | n + 1, i =>
    match bind i with
    | .ok => true
    | .inUse => bindTries bind n (i + 1)
    | .failed => false

/-- A data connection that the server makes: the `iSock` behind it. -/
def connectData (s : FtpSession) (a : SockAnswers) : ℤ × List Io :=
  if a.socket < 0 then (a.socket, [.reply 425 "Can't create data socket."])
  else if bindTries a.bind ftpServerMaxRetry 0 then
    let dest := if s.useDefaultAddr then s.defaultSockaddrIn else s.dataSockaddrIn
    if a.connect then (a.socket, [.opened a.socket, .connect a.socket dest])
    else
      (-1, [.opened a.socket, .connect a.socket dest, .reply 425 "Can't connect data socket.",
        .closed a.socket])
  else (-1, [.opened a.socket, .reply 425 "Can't bind data socket.", .closed a.socket])

def ftpsGetDataSock (s : FtpSession) (a : SockAnswers) : FtpSession × ℤ × List Io :=
  let r := if s.pasvSockId < 0 then connectData s a else (s.pasvSockId, [])
  ({ s with dataSockId := r.1, useDefaultAddr := true }, r.1, r.2)

/-! ## The commands -/

def absPath (s : FtpSession) (usrPath : List Char) : Option (List Char) :=
  if (s.currentPath ++ usrPath).length < pathLenMax then some (s.currentPath ++ usrPath) else none

def sscanfFields : ℕ := 0

/-- The string in `cFileName` behind `sscanf (pcArg, "%254s", cFileName)`, which stores an `int`. -/
def scanName (pcArg : List Char) : List Char :=
  let v := NumText.sscanf pcArg "%254s".toList
  ((List.range 4).map fun i => Char.ofNat ((v >>> (8 * i)).toNat % 256)).takeWhile fun c =>
    c ≠ Char.ofNat 0

structure LineAnswers where
  /-- Whether `yaffs_stat` finds it. -/
  stat : Bool
  /-- Whether `send` takes the whole line. -/
  sent : Bool

structure ListAnswers where
  sock : SockAnswers
  /-- `yaffs_stat`, and whether it is a directory. -/
  stat : Option Bool
  opendir : Bool
  entries : List (List Char × LineAnswers)
  /-- Of the line for a single file. -/
  file : LineAnswers

def ftpsSendListLine (wide : Bool) (path name : List Char) (a : LineAnswers) : Bool :=
  if wide then
    let slash := path ≠ [] ∧ name ≠ [] ∧ path.getLast? ≠ some '/'
    let iPathLen := if slash then path.length + 1 else path.length
    if slash ∧ pathLenMax ≤ iPathLen then false
    else if pathLenMax ≤ iPathLen + name.length then false
    else if a.stat then a.sent else true
  else a.sent

/-- The lines of LIST; `false` when one of them could not be sent. -/
def listLines (wide : Bool) (path fileName : List Char) (a : ListAnswers) : Bool :=
  match a.stat with
  | none => true
  | some true =>
    if a.opendir then a.entries.all fun e => ftpsSendListLine wide path e.1 e.2 else true
  | some false => if fileName ≠ [] then ftpsSendListLine wide path fileName a.file else true

def ftpsCmdLIST (s : FtpSession) (fileName : List Char) (wide : Bool) (a : ListAnswers) :
    Option (FtpSession × List Io) :=
  let r := ftpsGetDataSock s a.sock
  let begin := .reply 150 "Opening ASCII mode data connection for LIST." :: r.2.2
  if r.2.1 < 0 then some (r.1, begin)
  else (absPath s fileName).map fun path =>
    let c := ftpsCloseDataSock r.1
    (c.1, begin ++ c.2 ++
      [if listLines wide path fileName a then .reply 226 "Transfer complete."
        else .reply 426 "Connection aborted."])

/-- `_ftps_cmd_CWD` and `_ftps_cmd_CDUP`, which have their texts from the command's name. -/
def changeDir (name : String) (rootPath : List Char) (s : FtpSession) (dir : List Char)
    (access : Bool) : Option (FtpSession × List Io) :=
  (ftpsCd rootPath s.currentPath dir access).map fun r =>
    ({ s with currentPath := r.1 },
      [if r.2 = .ok then .reply 250 (name ++ " command successful.")
        else .reply 550 (name ++ " command failed.")])

def ftpsCmdCWD := changeDir "CWD"

def ftpsCmdCDUP (rootPath : List Char) (s : FtpSession) : Option (FtpSession × List Io) :=
  changeDir "CDUP" rootPath s ['.', '.'] false

def ntohl (x : BitVec 32) : BitVec 32 :=
  x.extractLsb' 0 8 ++ x.extractLsb' 8 8 ++ x.extractLsb' 16 8 ++ x.extractLsb' 24 8

def ntohs (x : BitVec 16) : BitVec 16 := x.extractLsb' 0 8 ++ x.extractLsb' 8 8

def ftpsCmdPORT (s : FtpSession) (uiTemp : Fin 6 → BitVec 32) : FtpSession × List Io :=
  let c := ftpsCloseDataSock s
  if sscanfFields = 6 ∧ ∀ i, uiTemp i ≤ 255 then
    let ucTemp := fun i => (uiTemp i).setWidth 8
    let uiIp := ntohl (ucTemp 0 ++ ucTemp 1 ++ ucTemp 2 ++ ucTemp 3)
    let usPort := ntohs (ucTemp 4 ++ ucTemp 5)
    if uiIp = s.defaultSockaddrIn.addr then
      ({ c.1 with dataSockaddrIn := ⟨uiIp, usPort⟩, useDefaultAddr := false },
        c.2 ++ [.reply 200 "PORT command successful."])
    else (c.1, c.2 ++ [.reply 425 "Address doesn't match peer's IP."])
  else (c.1, c.2 ++ [.reply 501 "Syntax error."])

structure PasvAnswers where
  socket : ℤ
  bind : Bool
  listen : Bool
  /-- `getsockname` -/
  addr : Fin 4 → UInt8
  port : UInt16
  accept : ℤ

def pasvMessage (a : PasvAnswers) : String :=
  let n := fun (k : ℕ) => toString k
  "Entering passive mode (" ++ n (a.addr 0).toNat ++ "," ++ n (a.addr 1).toNat ++ "," ++
    n (a.addr 2).toNat ++ "," ++ n (a.addr 3).toNat ++ "," ++ n (a.port.toNat / 256) ++ "," ++
    n (a.port.toNat % 256) ++ ")."

def ftpsCmdPASV (s : FtpSession) (a : PasvAnswers) : FtpSession × List Io :=
  let c := ftpsCloseDataSock s
  let failed := [.reply 425 "Can't open passive connection.", .closed a.socket]
  if a.socket < 0 then (c.1, c.2 ++ [.reply 425 "Can't open passive socket."])
  else if a.bind = false ∨ a.listen = false then (c.1, c.2 ++ [.opened a.socket] ++ failed)
  else
    let begin := c.2 ++ [.opened a.socket, .reply 227 (pasvMessage a)]
    if a.accept < 0 then ({ c.1 with pasvSockId := a.accept }, begin ++ failed)
    else ({ c.1 with pasvSockId := a.accept }, begin ++ [.opened a.accept, .closed a.socket])

/-- `_ftps_cmd_RETR`: the data connection is made between the first and the last reply. -/
def sessionRETR (s : FtpSession) (sock : SockAnswers) (a : RetrAnswers) : FtpSession × List Io :=
  if a.fd < 0 ∨ a.stat = none then (s, (ftpsCmdRETR s.transMode a).replies.map Io.ofReply)
  else
    let r := ftpsGetDataSock s sock
    let t := ftpsCmdRETR s.transMode { a with sock := r.2.1 }
    let c := ftpsCloseDataSock r.1
    (c.1, (t.replies.take 1).map Io.ofReply ++ r.2.2 ++ c.2 ++ (t.replies.drop 1).map Io.ofReply)

/-- `_ftps_cmd_STOR`. Where the file cannot be created, the reply comes before the close. -/
def sessionSTOR (s : FtpSession) (sock : SockAnswers) (a : StorAnswers) : FtpSession × List Io :=
  let r := ftpsGetDataSock s sock
  let t := ftpsCmdSTOR s.transMode { a with sock := r.2.1 }
  let begin := (t.replies.take 1).map Io.ofReply ++ r.2.2
  let last := (t.replies.drop 1).map Io.ofReply
  let c := ftpsCloseDataSock r.1
  if r.2.1 < 0 then (r.1, begin ++ last)
  else if a.fd < 0 then (c.1, begin ++ last ++ c.2)
  else (c.1, begin ++ c.2 ++ last)

def toBytes (s : List Char) : List UInt8 := s.map fun c => UInt8.ofNat c.toNat

structure RenameAnswers extends RnfrAnswers where
  fuel : ℕ
  /-- `cBuffer` before the call -/
  byte : ℕ → UInt8
  cBuffer : ℕ

/-- MKD, RMD and DELE: one call of the file system, and a reply. -/
def fileOp (name : String) (s : FtpSession) (pcArg : List Char) (ok : Bool) :
    Option (FtpSession × List Io) :=
  (absPath s pcArg).map fun _ =>
    (s, [if ok then .reply 257 (name ++ " successful.") else .reply 550 (name ++ " failed.")])

def setType (s : FtpSession) (pcArg : List Char) : FtpSession × List Io :=
  if pcArg.head? = some 'I' then ({ s with transMode := .bin }, [.reply 200 "Type set to I."])
  else if pcArg.head? = some 'A' then
    ({ s with transMode := .ascii }, [.reply 200 "Type set to A."])
  else ({ s with transMode := .bin }, [.reply 504 "Type not implemented.  Set to I."])

/-- The command that `_ftps_dispatch_cmd` finds in the argument of SITE. -/
def siteCmd (pcArg : List Char) : List UInt8 :=
  ((words isspace (toBytes pcArg)).headD []).map toupper

def siteReply (s : FtpSession) (pcArg : List Char) (chmod : Bool) : Option Io :=
  if siteCmd pcArg = toBytes "CHMOD".toList then
    if sscanfFields = 2 then
      (absPath s (scanName pcArg)).map fun _ =>
        if chmod then .reply 257 "CHMOD successful." else .reply 550 "CHMOD failed."
    else some (.reply 550 "CHMOD failed.")
  else some (.reply 500 "Command not understood.")

structure Answers where
  access : Bool
  /-- `uiTemp` of PORT behind `sscanf` -/
  uiTemp : Fin 6 → BitVec 32
  pasv : PasvAnswers
  list : ListAnswers
  rename : RenameAnswers
  sock : SockAnswers
  retr : RetrAnswers
  stor : StorAnswers
  /-- `yaffs_mkdir`, `yaffs_rmdir`, `yaffs_unlink` or `yaffs_chmod` succeeds. -/
  done : Bool

def ftpsLoggedIn (rootPath : List Char) (s : FtpSession) (pcCmd : String) (pcArg : List Char)
    (a : Answers) : Option (FtpSession × List Io) :=
  match pcCmd with
  | "CWD" => ftpsCmdCWD rootPath s (if pcArg ≠ [] then scanName pcArg else ['.']) a.access
  | "CDUP" => ftpsCmdCDUP rootPath s
  | "PWD" | "XPWD" =>
    some (s, [.reply 257 ("\"" ++ String.ofList s.currentPath ++ "\" is the current directory.")])
  | "ALLO" | "ACCT" => some (s, [.reply 202 "Allocate and Account not required."])
  | "PORT" => some (ftpsCmdPORT s a.uiTemp)
  | "PASV" => some (ftpsCmdPASV s a.pasv)
  | "TYPE" => some (setType s pcArg)
  | "LIST" => ftpsCmdLIST s (if pcArg ≠ [] then scanName pcArg else []) true a.list
  | "NLST" => ftpsCmdLIST s (if pcArg ≠ [] then scanName pcArg else []) false a.list
  | "RNFR" =>
    (ftpsCmdRNFR a.rename.fuel a.rename.toRnfrAnswers (toBytes s.currentPath) (toBytes pcArg)
      a.rename.byte a.rename.cBuffer).map fun t => (s, t.replies.map Io.ofReply)
  | "RETR" => (absPath s pcArg).map fun _ => sessionRETR s a.sock a.retr
  | "STOR" => (absPath s pcArg).map fun _ => sessionSTOR s a.sock a.stor
  | "SYST" => some (s, [.reply 215 "UNIX Type: L8"])
  | "MKD" => fileOp "MKD" s pcArg a.done
  | "RMD" => fileOp "RMD" s pcArg a.done
  | "DELE" => fileOp "DELE" s pcArg a.done
  | "MDTM" => some (s, [.reply 213 "20110831172425"])
  | "SITE" => (siteReply s pcArg a.done).map fun reply => (s, [reply])
  | "NOOP" => some (s, [.reply 200 "NOOP -- did nothing as requested."])
  | _ => some (s, [.reply 500 "Command not understood."])

def ftpsDoCmd (rootPath : List Char) (s : FtpSession) (pcCmd : String) (pcArg : List Char)
    (a : Answers) : Option (FtpSession × List Io) :=
  let s := { s with login := true }
  match pcCmd with
  | "USER" => some ({ s with login := false }, [.reply 331 "Password required."])
  | "PASS" => some ({ s with login := true }, [.reply 230 "User logged in."])
  | "HELP" => some (s, [])
  | _ =>
    if s.login = false then some (s, [.reply 530 "USER and PASS required."])
    else ftpsLoggedIn rootPath s pcCmd pcArg a

/-! ## The session task -/

/-- A session as long as its task runs, and all it did. -/
structure Conversation where
  session : FtpSession
  running : Bool
  io : List Io
deriving DecidableEq, Repr

inductive Message
  /-- A line, as `_ftps_dispatch_cmd` splits it. -/
  | line (pcCmd : String) (pcArg : List Char) (a : Answers)
  /-- `recv` returns 0 or an error. -/
  | hangup

def Conversation.finish (c : Conversation) : Conversation :=
  let d := ftpsCloseDataSock c.session
  ⟨{ d.1 with ctrlSockId := -1 }, false, c.io ++ d.2 ++ [.closed c.session.ctrlSockId]⟩

def Conversation.exec (rootPath : List Char) (c : Conversation) : Message → Option Conversation
  | .hangup => if c.running then some c.finish else none
  | .line pcCmd pcArg a =>
    if c.running then
      if pcCmd = "QUIT" then
        some (Conversation.finish { c with io := c.io ++ [.reply 221 "Goodbye."] })
      else (ftpsDoCmd rootPath c.session pcCmd pcArg a).map fun r =>
        { c with session := r.1, io := c.io ++ r.2 }
    else none

def FtpSession.accepted (rootPath : List Char) (sock : ℤ) (peer : SockAddr) (port : BitVec 16) :
    FtpSession where
  login := false
  currentPath := rootPath
  dataSockaddrIn := ⟨0, ntohs (ntohs port - 1)⟩
  defaultSockaddrIn := peer
  useDefaultAddr := true
  ctrlSockId := sock
  dataSockId := -1
  pasvSockId := -1
  transMode := .ascii

/-- The session that a peer gets on the control socket `sock`, from the greeting on. -/
def conversations (rootPath : List Char) (sock : ℤ) (peer : SockAddr) :
    Transition.System Conversation Message where
  init c := ∃ port message, c =
    ⟨.accepted rootPath sock peer port, true, [.reply 220 message]⟩
  step c e c' := c.exec rootPath e = some c'

end DfewOS.Ftp
