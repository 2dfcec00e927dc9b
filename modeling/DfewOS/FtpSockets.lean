import DfewOS.FtpServer
import DfewOS.Ledger
import DfewOS.Transition

/-!
# The sockets of an FTP session

Which sockets are out at any time of a conversation. The session tells a socket
from none with `> 0`, so that one of number 0 is never closed.
-/

namespace DfewOS.Ftp
open Ledger Transition

/-- A file system without files, and a network that takes every connection. -/
def Answers.taken : Answers where
  access := false
  uiTemp _ := 0
  pasv := ⟨6, true, true, fun _ => 0, 0, 7⟩
  list := ⟨⟨6, fun _ => .ok, true⟩, none, false, [], ⟨false, false⟩⟩
  rename := ⟨⟨.failed, false⟩, 0, fun _ => 0, 0⟩
  sock := ⟨6, fun _ => .ok, true⟩
  retr := ⟨-1, none, 6, ⟨[], false⟩, fun _ _ => 0, 0, fun _ => 0⟩
  stor := ⟨6, -1, true, ⟨[], false⟩, fun _ _ => 0, fun _ => 0⟩
  done := false

def Conversation.greeted : Conversation where
  session := .accepted ['/'] 5 ⟨1, 2⟩ 0
  running := true
  io := [.reply 220 "ready"]

def Conversation.listed : Conversation where
  session := { greeted.session with login := true, ctrlSockId := -1 }
  running := false
  io := [.reply 220 "ready", .reply 150 "Opening ASCII mode data connection for LIST.", .opened 6,
    .connect 6 ⟨1, 2⟩, .closed 6, .reply 226 "Transfer complete.", .closed 5]

theorem exec_reachable {rootPath : List Char} {sock : ℤ} {peer : SockAddr} {c c' : Conversation}
    (h : Reachable (conversations rootPath sock peer) (fun _ _ => True) c) {e : Message}
    (hs : c.exec rootPath e = some c') :
    Reachable (conversations rootPath sock peer) (fun _ _ => True) c' := h.step trivial hs

theorem listed_reachable :
    Reachable (conversations ['/'] 5 ⟨1, 2⟩) (fun _ _ => True) Conversation.listed := by
  have hgreeted : Reachable (conversations ['/'] 5 ⟨1, 2⟩) (fun _ _ => True) .greeted :=
    .init ⟨0, "ready", rfl⟩
  obtain ⟨c, hlist, hlast⟩ : ∃ c, Conversation.greeted.exec ['/'] (.line "LIST" [] .taken) = some c ∧
      c.exec ['/'] .hangup = some .listed := ⟨_, rfl, rfl⟩
  exact exec_reachable (exec_reachable hgreeted hlist) hlast

/-! ## The books -/

def Io.entry : Io → Option (Entry ℤ)
  | .opened sock => some (.opened sock)
  | .closed sock => some (.closed sock)
  | .reply _ _ | .connect _ _ => none

def entries (io : List Io) : List (Entry ℤ) := io.filterMap Io.entry

theorem entries_append (io io' : List Io) : entries (io ++ io') = entries io ++ entries io' :=
  List.filterMap_append

theorem entries_ofReply (replies : List (ℕ × String)) : entries (replies.map Io.ofReply) = [] := by
  induction replies with
  | nil => rfl
  | cons r rs ih => exact ih

/-- The socket of the data connection; number 0 passes for none. -/
def FtpSession.held (s : FtpSession) : Multiset ℤ :=
  if 0 < s.dataSockId then {s.dataSockId}
  else if 0 < s.pasvSockId then {s.pasvSockId}
  else 0

/-- The books where only sockets of number 0 may be lost. -/
def Tallies (es : List (Entry ℤ)) (a b : Multiset ℤ) : Prop :=
  ∃ n, Settles es a (b + Multiset.replicate n 0)

section Tallies
variable {es fs : List (Entry ℤ)} {a b c : Multiset ℤ}

theorem Tallies.of_settles (h : Settles es a b) : Tallies es a b := by
  refine ⟨0, ?_⟩
  rwa [Multiset.replicate_zero, Multiset.add_zero]

theorem Tallies.append (h : Tallies es a b) (h' : Tallies fs b c) : Tallies (es ++ fs) a c := by
  obtain ⟨n, hn⟩ := h
  obtain ⟨m, hm⟩ := h'
  refine ⟨m + n, ?_⟩
  rw [Multiset.replicate_add, ← Multiset.add_assoc]
  exact hn.append (hm.frame _)

theorem Tallies.cons (h : Tallies es a b) (x : ℤ) : Tallies es (x ::ₘ a) (x ::ₘ b) := by
  obtain ⟨n, hn⟩ := h
  refine ⟨n, ?_⟩
  have hframe := hn.frame {x}
  rwa [Multiset.add_comm a, Multiset.add_comm _ {x}, Multiset.singleton_add,
    Multiset.singleton_add, ← Multiset.cons_add] at hframe

end Tallies

def Accounts (io : List Io) (s s' : FtpSession) : Prop := Tallies (entries io) s.held s'.held

namespace Accounts
variable {io io' : List Io} {s s' s'' : FtpSession}

theorem of_held (hio : entries io = []) (h : s'.held = s.held) : Accounts io s s' := by
  rw [Accounts, hio, h]
  exact .of_settles (.nil _)

theorem trans (h : Accounts io s s') (h' : Accounts io' s' s'') : Accounts (io ++ io') s s'' := by
  rw [Accounts, entries_append]
  exact h.append h'

theorem replies (h : Accounts io s s') (hio : entries io' = []) : Accounts (io ++ io') s s' :=
  h.trans (.of_held hio rfl)

theorem after_replies (hio : entries io = []) (h : Accounts io' s s') : Accounts (io ++ io') s s' :=
  (Accounts.of_held hio rfl).trans h

theorem passing (x : ℤ) (hio : entries io = [.opened x, .closed x]) (h : s'.held = s.held) :
    Accounts io s s' := by
  rw [Accounts, hio, h]
  exact .of_settles (.openClose x _)

theorem taken {x : ℤ} (hx : 0 ≤ x) (hio : Settles (entries io) 0 {x}) (hs : s.held = 0)
    (hs' : s'.held = if 0 < x then {x} else 0) : Accounts io s s' := by
  rw [Accounts, hs, hs']
  rcases hx.lt_or_eq with hpos | rfl
  · rw [if_pos hpos]
    exact .of_settles hio
  · exact ⟨1, hio⟩

end Accounts

section Commands
variable {s s' : FtpSession} {io : List Io} {a : Answers} {rootPath : List Char}

theorem noSock : (-1 : ℤ) < 0 := by decide

theorem close_held (s : FtpSession) : (ftpsCloseDataSock s).1.held = 0 := rfl

theorem close_kept (s : FtpSession) : Accounts (ftpsCloseDataSock s).2 s (ftpsCloseDataSock s).1 := by
  rw [Accounts, close_held, FtpSession.held, ftpsCloseDataSock]
  apply Tallies.of_settles
  dsimp only
  split_ifs
  · exact .closed _ 0
  · exact .closed _ 0
  · exact .nil 0

structure Between (s s' : FtpSession) : Prop where
  data : s'.dataSockId < 0
  ctrl : s'.ctrlSockId = s.ctrlSockId

theorem close_between (s : FtpSession) : Between s (ftpsCloseDataSock s).1 where
  data := noSock
  ctrl := rfl

theorem held_none (hdata : s.dataSockId < 0) (hpasv : s.pasvSockId < 0) : s.held = 0 := by
  rw [FtpSession.held, if_neg (by omega), if_neg (by omega)]

theorem connectData_cases (s : FtpSession) (a : SockAnswers) :
    ((connectData s a).1 < 0 ∧
      (entries (connectData s a).2 = [] ∨
        entries (connectData s a).2 = [.opened a.socket, .closed a.socket])) ∨
    (0 ≤ (connectData s a).1 ∧ entries (connectData s a).2 = [.opened (connectData s a).1]) := by
  rw [connectData]
  split_ifs with hsock
  · exact .inl ⟨hsock, .inl rfl⟩
  · exact .inr ⟨not_lt.mp hsock, rfl⟩
  · exact .inl ⟨noSock, .inr rfl⟩
  · exact .inr ⟨not_lt.mp hsock, rfl⟩
  · exact .inl ⟨noSock, .inr rfl⟩
  · exact .inl ⟨noSock, .inr rfl⟩

theorem getDataSock_kept (hs : s.dataSockId < 0) (a : SockAnswers) :
    Accounts (ftpsGetDataSock s a).2.2 s (ftpsGetDataSock s a).1 := by
  rw [ftpsGetDataSock]
  dsimp only
  split_ifs with hpasv
  · have hnone := held_none hs hpasv
    rcases connectData_cases s a with ⟨hneg, hio⟩ | ⟨hpos, hio⟩
    · have hout : FtpSession.held { s with dataSockId := (connectData s a).1, useDefaultAddr := true }
          = s.held := Eq.trans (held_none (s := { s with dataSockId := _ }) hneg hpasv) hnone.symm
      rcases hio with hio | hio
      · exact .of_held hio hout
      · exact .passing a.socket hio hout
    · apply Accounts.taken hpos _ hnone
      · rw [FtpSession.held]
        dsimp only
        rw [if_neg (show ¬ 0 < s.pasvSockId by omega)]
      · rw [hio]
        exact .opened _ 0
  · apply Accounts.of_held rfl
    rw [FtpSession.held, FtpSession.held, if_neg (show ¬ 0 < s.dataSockId by omega)]
    dsimp only
    split_ifs
    · rfl
    · rfl

theorem getDataSock_between {a : SockAnswers} (h : (ftpsGetDataSock s a).2.1 < 0) :
    Between s (ftpsGetDataSock s a).1 := ⟨h, rfl⟩

theorem pasv_spec (s : FtpSession) (a : PasvAnswers) :
    Between s (ftpsCmdPASV s a).1 ∧ Accounts (ftpsCmdPASV s a).2 s (ftpsCmdPASV s a).1 := by
  have hclose := close_kept s
  have hdata := (close_between s).data
  rw [ftpsCmdPASV]
  dsimp only
  split_ifs with hsock hfail haccept
  · exact ⟨close_between s, hclose.replies rfl⟩
  · refine ⟨close_between s, ?_⟩
    rw [List.append_assoc]
    exact hclose.trans (.passing a.socket rfl rfl)
  · refine ⟨⟨hdata, rfl⟩, ?_⟩
    rw [List.append_assoc]
    exact hclose.trans (.passing a.socket rfl (held_none hdata haccept))
  · refine ⟨⟨hdata, rfl⟩, ?_⟩
    rw [List.append_assoc]
    apply hclose.trans
    apply Accounts.taken (not_lt.mp haccept) _ (close_held s)
    · rw [FtpSession.held]
      dsimp only
      rw [if_neg (not_lt.mpr hdata.le)]
    · rw [← Multiset.cons_zero]
      exact .handOver a.socket a.accept 0

theorem transfer_kept (hs : s.dataSockId < 0) (a : SockAnswers) {before after : List Io}
    (hbefore : entries before = []) (hafter : entries after = []) :
    Accounts (before ++ (ftpsGetDataSock s a).2.2 ++ (ftpsCloseDataSock (ftpsGetDataSock s a).1).2 ++
      after) s (ftpsCloseDataSock (ftpsGetDataSock s a).1).1 := by
  have hget := getDataSock_kept hs a
  exact ((Accounts.after_replies hbefore hget).trans (close_kept _)).replies hafter

theorem list_spec (hs : s.dataSockId < 0) {fileName : List Char} {wide : Bool} {a : ListAnswers}
    (h : ftpsCmdLIST s fileName wide a = some (s', io)) : Between s s' ∧ Accounts io s s' := by
  rw [ftpsCmdLIST] at h
  dsimp only at h
  split_ifs at h with hsock
  · obtain ⟨rfl, rfl⟩ := Prod.mk.inj (Option.some.inj h)
    exact ⟨getDataSock_between hsock, .after_replies (show entries [.reply 150 _] = [] from rfl)
      (getDataSock_kept hs a.sock)⟩
  · obtain ⟨path, _, hr⟩ := Option.map_eq_some_iff.mp h
    obtain ⟨rfl, rfl⟩ := Prod.mk.inj hr
    refine ⟨⟨(close_between _).data, rfl⟩, ?_⟩
    refine transfer_kept hs a.sock (show entries [.reply 150 _] = [] from rfl) ?_
    split_ifs
    · rfl
    · rfl

theorem retr_spec (hs : s.dataSockId < 0) (sock : SockAnswers) (a : RetrAnswers) :
    Between s (sessionRETR s sock a).1 ∧ Accounts (sessionRETR s sock a).2 s (sessionRETR s sock a).1 := by
  rw [sessionRETR]
  split_ifs
  · exact ⟨⟨hs, rfl⟩, .of_held (entries_ofReply _) rfl⟩
  · refine ⟨⟨(close_between _).data, rfl⟩, ?_⟩
    exact transfer_kept hs sock (entries_ofReply _) (entries_ofReply _)

theorem stor_spec (hs : s.dataSockId < 0) (sock : SockAnswers) (a : StorAnswers) :
    Between s (sessionSTOR s sock a).1 ∧ Accounts (sessionSTOR s sock a).2 s (sessionSTOR s sock a).1 := by
  have hget := getDataSock_kept hs sock
  rw [sessionSTOR]
  split_ifs with hsock
  · exact ⟨getDataSock_between hsock, (hget.after_replies (entries_ofReply _)).replies
      (entries_ofReply _)⟩
  · refine ⟨⟨(close_between _).data, rfl⟩, ?_⟩
    exact ((hget.after_replies (entries_ofReply _)).replies (entries_ofReply _)).trans (close_kept _)
  · refine ⟨⟨(close_between _).data, rfl⟩, ?_⟩
    exact transfer_kept hs sock (entries_ofReply _) (entries_ofReply _)

theorem port_spec (s : FtpSession) (uiTemp : Fin 6 → BitVec 32) :
    ftpsCmdPORT s uiTemp =
      ((ftpsCloseDataSock s).1, (ftpsCloseDataSock s).2 ++ [.reply 501 "Syntax error."]) := by
  rw [ftpsCmdPORT]
  apply if_neg
  rintro ⟨hfields, _⟩
  exact absurd hfields (by decide)

theorem siteReply_spec {pcArg : List Char} {chmod : Bool} {io : Io}
    (h : siteReply s pcArg chmod = some io) :
    ∃ code message, io = .reply code message ∧ 500 ≤ code := by
  rw [siteReply, if_neg (show ¬ sscanfFields = 2 by decide)] at h
  split_ifs at h
  · exact ⟨550, _, (Option.some.inj h).symm, by decide⟩
  · exact ⟨500, _, (Option.some.inj h).symm, by decide⟩

theorem said_spec (hs : s.dataSockId < 0) (hdata : s'.dataSockId = s.dataSockId)
    (hpasv : s'.pasvSockId = s.pasvSockId) (hctrl : s'.ctrlSockId = s.ctrlSockId)
    (hio : entries io = []) : Between s s' ∧ Accounts io s s' := by
  refine ⟨⟨hdata ▸ hs, hctrl⟩, .of_held hio ?_⟩
  rw [FtpSession.held, FtpSession.held, hdata, hpasv]

theorem changeDir_spec (hs : s.dataSockId < 0) {name : String} {dir : List Char} {access : Bool}
    (h : changeDir name rootPath s dir access = some (s', io)) : Between s s' ∧ Accounts io s s' := by
  obtain ⟨r, _, hr⟩ := Option.map_eq_some_iff.mp h
  obtain ⟨rfl, rfl⟩ := Prod.mk.inj hr
  refine said_spec hs rfl rfl rfl ?_
  split_ifs
  · rfl
  · rfl

theorem fileOp_spec (hs : s.dataSockId < 0) {name : String} {pcArg : List Char} {ok : Bool}
    (h : fileOp name s pcArg ok = some (s', io)) : Between s s' ∧ Accounts io s s' := by
  obtain ⟨_, _, hr⟩ := Option.map_eq_some_iff.mp h
  obtain ⟨rfl, rfl⟩ := Prod.mk.inj hr
  refine said_spec hs rfl rfl rfl ?_
  split_ifs
  · rfl
  · rfl

theorem setType_spec (hs : s.dataSockId < 0) (pcArg : List Char) :
    Between s (setType s pcArg).1 ∧ Accounts (setType s pcArg).2 s (setType s pcArg).1 := by
  rw [setType]
  split_ifs
  · exact said_spec hs rfl rfl rfl rfl
  · exact said_spec hs rfl rfl rfl rfl
  · exact said_spec hs rfl rfl rfl rfl

theorem ftpsLoggedIn_spec (hs : s.dataSockId < 0) {pcCmd : String} {pcArg : List Char}
    (h : ftpsLoggedIn rootPath s pcCmd pcArg a = some (s', io)) :
    Between s s' ∧ Accounts io s s' := by
  have hsaid {t : FtpSession} {code : ℕ} {message : String}
      (h : some (t, [Io.reply code message]) = some (s', io)) (ht : t = s) :
      Between s s' ∧ Accounts io s s' := by
    obtain ⟨rfl, rfl⟩ := Prod.mk.inj (Option.some.inj h)
    subst ht
    exact said_spec hs rfl rfl rfl rfl
  unfold ftpsLoggedIn at h
  split at h
  · exact changeDir_spec hs h
  · exact changeDir_spec hs h
  · exact hsaid h rfl
  · exact hsaid h rfl
  · exact hsaid h rfl
  · exact hsaid h rfl
  · rw [port_spec] at h
    obtain ⟨rfl, rfl⟩ := Prod.mk.inj (Option.some.inj h)
    exact ⟨close_between s, (close_kept s).replies rfl⟩
  · have := pasv_spec s a.pasv
    rwa [Option.some.inj h] at this
  · have := setType_spec hs pcArg
    rwa [Option.some.inj h] at this
  · exact list_spec hs h
  · exact list_spec hs h
  · obtain ⟨t, _, hr⟩ := Option.map_eq_some_iff.mp h
    obtain ⟨rfl, rfl⟩ := Prod.mk.inj hr
    exact said_spec hs rfl rfl rfl (entries_ofReply _)
  · obtain ⟨_, _, hr⟩ := Option.map_eq_some_iff.mp h
    have := retr_spec hs a.sock a.retr
    rwa [hr] at this
  · obtain ⟨_, _, hr⟩ := Option.map_eq_some_iff.mp h
    have := stor_spec hs a.sock a.stor
    rwa [hr] at this
  · exact hsaid h rfl
  · exact fileOp_spec hs h
  · exact fileOp_spec hs h
  · exact fileOp_spec hs h
  · exact hsaid h rfl
  · obtain ⟨reply, hreply, hr⟩ := Option.map_eq_some_iff.mp h
    obtain ⟨code, message, rfl, _⟩ := siteReply_spec hreply
    exact hsaid (congrArg some hr) rfl
  · exact hsaid h rfl
  · exact hsaid h rfl

theorem ftpsDoCmd_spec (hs : s.dataSockId < 0) {pcCmd : String} {pcArg : List Char}
    (h : ftpsDoCmd rootPath s pcCmd pcArg a = some (s', io)) : Between s s' ∧ Accounts io s s' := by
  unfold ftpsDoCmd at h
  dsimp only at h
  split at h
  · obtain ⟨rfl, rfl⟩ := Prod.mk.inj (Option.some.inj h)
    exact said_spec hs rfl rfl rfl rfl
  · obtain ⟨rfl, rfl⟩ := Prod.mk.inj (Option.some.inj h)
    exact said_spec hs rfl rfl rfl rfl
  · obtain ⟨rfl, rfl⟩ := Prod.mk.inj (Option.some.inj h)
    exact said_spec hs rfl rfl rfl rfl
  · rw [if_neg (by decide)] at h
    obtain ⟨hbetween, hkept⟩ := ftpsLoggedIn_spec (s := { s with login := true }) hs h
    exact ⟨⟨hbetween.data, hbetween.ctrl⟩, hkept⟩

end Commands

section Conversations
variable {rootPath : List Char} {sock : ℤ} {peer : SockAddr} {c c' : Conversation} {e : Message}

/-- The sockets out, beside those of number 0. -/
def Conversation.out (sock : ℤ) (c : Conversation) : Multiset ℤ :=
  if c.running then sock ::ₘ c.session.held else 0

structure Booked (sock : ℤ) (c : Conversation) : Prop where
  between : c.running = true → c.session.dataSockId < 0 ∧ c.session.ctrlSockId = sock
  books : Tallies (entries c.io) {sock} (c.out sock)

theorem Booked.line (hc : Booked sock c) (hrun : c.running = true) {s' : FtpSession} {io : List Io}
    (hbetween : Between c.session s') (hkept : Accounts io c.session s') :
    Booked sock { c with session := s', io := c.io ++ io } := by
  refine ⟨fun _ => ⟨hbetween.data, hbetween.ctrl.trans (hc.between hrun).2⟩, ?_⟩
  have hbooks := hc.books
  rw [Conversation.out, if_pos hrun] at hbooks ⊢
  rw [entries_append]
  exact hbooks.append (Tallies.cons hkept sock)

theorem Booked.finish (hc : Booked sock c) (hrun : c.running = true) : Booked sock c.finish := by
  refine ⟨fun h => absurd h (by simp [Conversation.finish]), ?_⟩
  have hbooks := hc.books
  rw [Conversation.out, if_pos hrun] at hbooks
  rw [Conversation.finish, entries_append, entries_append, (hc.between hrun).2]
  apply (hbooks.append (Tallies.cons (close_kept c.session) sock)).append
  exact .of_settles (.closed sock 0)

theorem Booked.exec (hc : Booked sock c) (h : c.exec rootPath e = some c') : Booked sock c' := by
  cases e with
  | hangup =>
    rw [Conversation.exec] at h
    split_ifs at h with hrun
    obtain rfl := Option.some.inj h
    exact hc.finish hrun
  | line pcCmd pcArg a =>
    rw [Conversation.exec] at h
    split_ifs at h with hrun hquit
    · obtain rfl := Option.some.inj h
      obtain ⟨hdata, hctrl⟩ := hc.between hrun
      exact Booked.finish (hc.line hrun ⟨hdata, rfl⟩ (.of_held rfl rfl)) hrun
    · obtain ⟨r, hr, rfl⟩ := Option.map_eq_some_iff.mp h
      obtain ⟨hbetween, hkept⟩ := ftpsDoCmd_spec (hc.between hrun).1 hr
      exact hc.line hrun hbetween hkept

end Conversations

end DfewOS.Ftp
