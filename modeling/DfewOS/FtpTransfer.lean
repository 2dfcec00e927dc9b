import Mathlib.Data.Nat.Notation
import DfewOS.Scan

/-!
# File transfer of the FTP server

`_ftps_cmd_RETR` and `_ftps_cmd_STOR` of `net/app/ftp.c`. What the file system and the
sockets answer is a parameter of each command; the command gives the bytes that it
handed to `send` or `yaffs_write` with what these answered, and its replies.
-/

namespace DfewOS.Ftp

def lf : UInt8 := 10
def cr : UInt8 := 13

inductive TransMode
  | ascii
  | ebcdic
  | bin
  | own
deriving DecidableEq, Repr

structure Chunk where
  bytes : List UInt8
  nonempty : bytes ≠ []

/-- The data as the reads bring it, and the answer behind the last chunk. -/
structure Feed where
  chunks : List Chunk
  failed : Bool

def Feed.bytes (f : Feed) : List UInt8 := (f.chunks.map Chunk.bytes).flatten

def Feed.last (f : Feed) : Int := if f.failed then -1 else 0

structure Handed where
  bytes : List UInt8
  answer : Int
deriving DecidableEq, Repr

/-- The bytes that were taken over. -/
def delivered (out : List Handed) : List UInt8 :=
  out.flatMap fun h => h.bytes.take h.answer.toNat

abbrev Sink := ℕ → List UInt8 → Int

def Sink.hand (sink : Sink) (out : List Handed) (bytes : List UInt8) : List Handed :=
  out ++ [⟨bytes, sink out.length bytes⟩]

def crlf : List UInt8 := [cr, lf]

/-- The transfer buffer after a read: behind the chunk stands what was there before. -/
def Chunk.fill (c : Chunk) (old : ℕ → UInt8) : ℕ → UInt8 := fun k => c.bytes.getD k (old k)

/-! ## RETR -/

/-- The lines of one chunk, from `e` on with `iReset` bytes to go. The result is the
`iReset` behind the loop, which is not zero after a failed `send`. -/
def retrLines (send : Sink) (buf : ℕ → UInt8) (e iReset : ℕ) (out : List Handed) :
    ℕ × List Handed :=
  let i := (Scan.upTo lf buf e iReset).1
  let line := Scan.slice buf e i
  let out₁ := send.hand out line
  if send out.length line ≠ i then (iReset, out₁)
  else if hlf : (Scan.upTo lf buf e iReset).2 = true then
    let out₂ := send.hand out₁ crlf
    if send out₁.length crlf ≠ 2 then (iReset, out₂)
    else if 0 < iReset - (i + 1) then
      retrLines send buf (e + i + 1) (iReset - (i + 1)) out₂
    else (iReset - (i + 1), out₂)
  else if 0 < iReset - i then retrLines send buf (e + i) (iReset - i) out₁
  else (iReset - i, out₁)
termination_by iReset
decreasing_by
  · have := Scan.upTo_lt hlf
    omega
  · have := Scan.upTo_not_found (Bool.eq_false_iff.mpr hlf)
    omega

/-- The text transfer; the result is the last answer of `yaffs_read`. -/
def retrAscii (send : Sink) (last : Int) :
    List Chunk → (ℕ → UInt8) → List Handed → Int × List Handed
  | [], _, out => (last, out)
  | c :: cs, old, out =>
      let r := retrLines send (c.fill old) 0 c.bytes.length out
      if r.1 = 0 then retrAscii send last cs (c.fill old) r.2 else (c.bytes.length, r.2)

def retrBin (send : Sink) (last : Int) : List Chunk → List Handed → Int × List Handed
  | [], out => (last, out)
  | c :: cs, out =>
      if send out.length c.bytes = c.bytes.length then
        retrBin send last cs (send.hand out c.bytes)
      else (c.bytes.length, send.hand out c.bytes)

/-- What `_ftps_cmd_RETR` is answered. -/
structure RetrAnswers where
  /-- `yaffs_open` -/
  fd : Int
  /-- `st_size` of `yaffs_stat` -/
  stat : Option ℕ
  /-- `_ftps_get_data_sock` -/
  sock : Int
  /-- `yaffs_read` -/
  file : Feed
  send : Sink
  /-- `yaffs_close` -/
  close : Int
  /-- `cLocalBuffer` before the first read -/
  localBuffer : ℕ → UInt8

structure RetrTrace where
  replies : List (ℕ × String)
  sent : List Handed
  /-- Calls of `yaffs_close`. -/
  closes : ℕ
  /-- Calls of `_ftps_close_data_sock`. -/
  sockCloses : ℕ
deriving DecidableEq, Repr

def modeReply (mode : TransMode) : ℕ × String :=
  if mode = .bin then (150, "Opening BINARY mode data connection.")
  else (150, "Opening ASCII mode data connection.")

/-- What RETR reads and sends once the data connection stands: the last answer of
`yaffs_read` and the handed bytes. -/
def retrData (mode : TransMode) (a : RetrAnswers) (size : ℕ) : Int × List Handed :=
  if size = 0 then (0, [])
  else match mode with
    | .bin => retrBin a.send a.file.last a.file.chunks []
    | .ascii => retrAscii a.send a.file.last a.file.chunks a.localBuffer []
    | .ebcdic | .own => (-1, [])

def ftpsCmdRETR (mode : TransMode) (a : RetrAnswers) : RetrTrace :=
  if a.fd < 0 then ⟨[(550, "Error opening file.")], [], 0, 0⟩
  else match a.stat with
    | none => ⟨[(550, "Error stating file.")], [], 1, 0⟩
    | some size =>
        if a.sock < 0 then ⟨[modeReply mode, (451, "File read error.")], [], 1, 1⟩
        else
          let r := retrData mode a size
          -- a file that was read to its end is closed here, and once more if that fails
          if r.1 = 0 then
            if a.close = 0 then ⟨[modeReply mode, (226, "Transfer complete.")], r.2, 1, 1⟩
            else ⟨[modeReply mode, (451, "File read error.")], r.2, 2, 1⟩
          else ⟨[modeReply mode, (451, "File read error.")], r.2, 1, 1⟩

/-! ## STOR -/

/-- The lines of one chunk of `iN` bytes, from `e` on with `iCounter` bytes behind; `false`
after a failed write. -/
def storLines (write : Sink) (buf : ℕ → UInt8) (iN e iCounter : ℕ) (out : List Handed) :
    Bool × List Handed :=
  let i := (Scan.upTo cr buf e (iN - iCounter)).1
  let iCr := if (Scan.upTo cr buf e (iN - iCounter)).2 then 1 else 0
  let line := Scan.slice buf e i
  let out₁ := if 0 < i then write.hand out line else out
  if 0 < i ∧ write out.length line ≠ i then (false, out₁)
  else if iCounter + (i + iCr) < iN then
    storLines write buf iN (e + i + iCr) (iCounter + (i + iCr)) out₁
  else (true, out₁)
termination_by iN - iCounter
decreasing_by
  have hi : 0 < i + iCr := by
    cases hcr : (Scan.upTo cr buf e (iN - iCounter)).2 with
    | true =>
      have : iCr = 1 := if_pos hcr
      omega
    | false =>
      have : i = iN - iCounter := Scan.upTo_not_found hcr
      omega
  omega

/-- The text transfer; the result is the last answer of `recv`. -/
def storAscii (write : Sink) (last : Int) :
    List Chunk → (ℕ → UInt8) → List Handed → Int × List Handed
  | [], _, out => (last, out)
  | c :: cs, old, out =>
      let r := storLines write (c.fill old) c.bytes.length 0 0 out
      if r.1 then storAscii write last cs (c.fill old) r.2 else (c.bytes.length, r.2)

def storBin (write : Sink) (last : Int) : List Chunk → List Handed → Int × List Handed
  | [], out => (last, out)
  | c :: cs, out =>
      if write out.length c.bytes = c.bytes.length then
        storBin write last cs (write.hand out c.bytes)
      else (c.bytes.length, write.hand out c.bytes)

/-- What `_ftps_cmd_STOR` is answered. -/
structure StorAnswers where
  /-- `_ftps_get_data_sock` -/
  sock : Int
  /-- `yaffs_open` -/
  fd : Int
  /-- Whether `malloc` gave a transfer buffer. -/
  malloc : Bool
  /-- `recv` -/
  net : Feed
  write : Sink
  /-- The transfer buffer before the first `recv`. -/
  transBuffer : ℕ → UInt8

structure StorTrace where
  replies : List (ℕ × String)
  written : List Handed
  closes : ℕ
  /-- Whether the file was unlinked. -/
  unlinked : Bool
  frees : ℕ
  sockCloses : ℕ
deriving DecidableEq, Repr

def storData (mode : TransMode) (a : StorAnswers) : Int × List Handed :=
  match mode with
  | .bin => storBin a.write a.net.last a.net.chunks []
  | .ascii => storAscii a.write a.net.last a.net.chunks a.transBuffer []
  | .ebcdic | .own => (1, [])

def ftpsCmdSTOR (mode : TransMode) (a : StorAnswers) : StorTrace :=
  if a.sock < 0 then
    ⟨[modeReply mode, (550, "Error creating data link.")], [], 0, false, 0, 0⟩
  else if a.fd < 0 then
    ⟨[modeReply mode, (550, "Error creating file.")], [], 0, false, 0, 1⟩
  else
    let r := storData mode a
    let frees := if a.malloc then 1 else 0
    if r.1 ≤ 0 then
      ⟨[modeReply mode, (226, "Transfer complete.")], r.2, 1, false, frees, 1⟩
    else ⟨[modeReply mode, (551, "File write error.")], r.2, 1, true, frees, 1⟩

end DfewOS.Ftp
