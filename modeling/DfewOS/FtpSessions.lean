import Mathlib.Logic.Function.Basic
import DfewOS.Transition

/-!
# The listener and the session tasks

`T_ftp_server_listen` and `T_ftp_server_session` of `net/app/ftp.c`, step by step. A
connection, its socket and its `FTP_SESSION` go by one number. The listener counts the
session list, which each session task changes under the list's mutex when it first runs and
at its end.
-/

namespace DfewOS.Ftp
open Transition (System)

def ftpServerMaxLinks : ℕ := 20

inductive Listen
  | accept
  | count (conn : ℕ)
  | closeFull (conn : ℕ)
  | malloc (conn : ℕ)
  | getsockname (conn : ℕ)
  | taskCreate (conn : ℕ)
  /-- `error_handle`, with or without an `FTP_SESSION`. -/
  | errorHandle (conn : ℕ) (session : Bool)
deriving DecidableEq, Repr

structure Server where
  listen : Listen
  /-- Session tasks that were created and have not run yet. -/
  starting : List ℕ
  /-- `_G_session_list` -/
  sessionList : List ℕ
  /-- Session tasks that have left the list and not finished. -/
  ending : List ℕ
  nextConn : ℕ
  /-- Control sockets that are open. -/
  openConn : ℕ → Bool
  /-- `FTP_SESSION`s that are allocated. -/
  session : ℕ → Bool
  /-- Connections that were given a task, which nothing reads. -/
  created : List ℕ

/-- The session tasks that are alive. -/
def Server.alive (s : Server) : ℕ :=
  s.starting.length + s.sessionList.length + s.ending.length

inductive ServerEvent
  | accept (ok : Bool)
  | count
  | closeFull
  | malloc (ok : Bool)
  | getsockname (ok : Bool)
  | taskCreate (ok : Bool)
  | errorHandle
  /-- A session task runs for the first time and links itself in. -/
  | start (conn : ℕ)
  /-- It closes its sockets, -/
  | closeCtrl (conn : ℕ)
  /-- leaves the list, -/
  | leave (conn : ℕ)
  /-- frees its session and returns. -/
  | finish (conn : ℕ)
deriving DecidableEq, Repr

namespace Server

def execListen (s : Server) : Listen → ServerEvent → Option Server
  | .accept, .accept ok =>
      if ok then
        some { s with
          listen := .count s.nextConn
          nextConn := s.nextConn + 1
          openConn := Function.update s.openConn s.nextConn true }
      else some s
  | .count conn, .count =>
      if s.sessionList.length > ftpServerMaxLinks then some { s with listen := .closeFull conn }
      else some { s with listen := .malloc conn }
  | .closeFull conn, .closeFull =>
      some { s with listen := .accept, openConn := Function.update s.openConn conn false }
  | .malloc conn, .malloc ok =>
      if ok then
        some { s with
          listen := .getsockname conn
          session := Function.update s.session conn true }
      else some { s with listen := .errorHandle conn false }
  | .getsockname conn, .getsockname ok =>
      if ok then some { s with listen := .taskCreate conn }
      else some { s with listen := .errorHandle conn true }
  | .taskCreate conn, .taskCreate ok =>
      if ok then
        some { s with
          listen := .accept
          starting := s.starting ++ [conn]
          created := s.created ++ [conn] }
      else some { s with listen := .errorHandle conn true }
  | .errorHandle conn session, .errorHandle =>
      some { s with
        listen := .accept
        openConn := Function.update s.openConn conn false
        session := if session then Function.update s.session conn false else s.session }
  | _, _ => none

def execSession (s : Server) : ServerEvent → Option Server
  | .start conn =>
      if conn ∈ s.starting then
        some { s with
          starting := s.starting.erase conn
          sessionList := s.sessionList ++ [conn] }
      else none
  | .closeCtrl conn =>
      if conn ∈ s.sessionList then
        some { s with openConn := Function.update s.openConn conn false }
      else none
  | .leave conn =>
      if conn ∈ s.sessionList ∧ s.openConn conn = false then
        some { s with
          sessionList := s.sessionList.erase conn
          ending := s.ending ++ [conn] }
      else none
  | .finish conn =>
      if conn ∈ s.ending then
        some { s with
          ending := s.ending.erase conn
          session := Function.update s.session conn false }
      else none
  | _ => none

def exec (s : Server) : ServerEvent → Option Server
  | .start conn => s.execSession (.start conn)
  | .closeCtrl conn => s.execSession (.closeCtrl conn)
  | .leave conn => s.execSession (.leave conn)
  | .finish conn => s.execSession (.finish conn)
  | e => s.execListen s.listen e

/-- The server when the listener starts. -/
def boot : Server := ⟨.accept, [], [], [], 0, fun _ => false, fun _ => false, []⟩

end Server

def server : System Server ServerEvent where
  init s := s = Server.boot
  step s e s' := s.exec e = some s'

end DfewOS.Ftp
