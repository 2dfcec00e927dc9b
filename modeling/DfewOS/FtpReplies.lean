import DfewOS.FtpSockets

/-!
# The replies of an FTP session

How many final replies the client gets for each of its commands.
-/

namespace DfewOS.Ftp
open Transition

/-- A reply that is not one of the preliminary ones. -/
def Io.final : Io → Bool
  | .reply code _ => 200 ≤ code
  | .opened _ | .closed _ | .connect _ _ => false

def Io.asksLogin : Io → Bool
  | .reply code _ => code = 530
  | .opened _ | .closed _ | .connect _ _ => false

/-- `n` final replies, and none that asks for a login. -/
structure Answered (io : List Io) (n : ℕ) : Prop where
  finals : io.countP Io.final = n
  granted : ∀ x ∈ io, x.asksLogin = false

namespace Answered
variable {io io' : List Io} {n m : ℕ}

theorem nil : Answered [] 0 := ⟨rfl, by simp⟩

theorem append (h : Answered io n) (h' : Answered io' m) : Answered (io ++ io') (n + m) := by
  refine ⟨?_, fun x hx => ?_⟩
  · rw [List.countP_append, h.finals, h'.finals]
  · rcases List.mem_append.mp hx with hx | hx
    · exact h.granted x hx
    · exact h'.granted x hx

theorem before (h : Answered io 0) (h' : Answered io' n) : Answered (io ++ io') n := by
  have happend := h.append h'
  rwa [Nat.zero_add] at happend

theorem after (h : Answered io n) (h' : Answered io' 0) : Answered (io ++ io') n := h.append h'

theorem single {x : Io} (hx : x.asksLogin = false) : Answered [x] (if x.final then 1 else 0) := by
  refine ⟨List.countP_singleton, fun y hy => ?_⟩
  rwa [List.mem_singleton.mp hy]

theorem reply {code : ℕ} {message : String} (h : 200 ≤ code) (h' : code ≠ 530) :
    Answered [.reply code message] 1 := by
  have hsingle := single (x := .reply code message) (decide_eq_false h')
  rwa [Io.final, if_pos (decide_eq_true h)] at hsingle

theorem cons {x : Io} (h : Answered io n) (hx : x.final = false) (hx' : x.asksLogin = false) :
    Answered (x :: io) n := by
  have hsingle := single hx'
  rw [hx, if_neg (by decide)] at hsingle
  exact hsingle.before h

end Answered

section Replies
variable {s s' : FtpSession} {io : List Io} {a : Answers} {rootPath : List Char}

theorem close_answered (s : FtpSession) : Answered (ftpsCloseDataSock s).2 0 := by
  rw [ftpsCloseDataSock]
  dsimp only
  split_ifs
  · exact .cons .nil rfl rfl
  · exact .cons .nil rfl rfl
  · exact .nil

theorem connectData_answered (s : FtpSession) (a : SockAnswers) :
    ((connectData s a).1 < 0 ∧ Answered (connectData s a).2 1) ∨
      (0 ≤ (connectData s a).1 ∧ Answered (connectData s a).2 0) := by
  have hclosed (message : String) : Answered [.reply 425 message, .closed a.socket] 1 :=
    .after (.reply (by decide) (by decide)) (.cons .nil rfl rfl)
  rw [connectData]
  split_ifs with hsock
  · exact .inl ⟨hsock, .reply (by decide) (by decide)⟩
  · exact .inr ⟨not_lt.mp hsock, .cons (.cons .nil rfl rfl) rfl rfl⟩
  · exact .inl ⟨noSock, .cons (.cons (hclosed _) rfl rfl) rfl rfl⟩
  · exact .inr ⟨not_lt.mp hsock, .cons (.cons .nil rfl rfl) rfl rfl⟩
  · exact .inl ⟨noSock, .cons (.cons (hclosed _) rfl rfl) rfl rfl⟩
  · exact .inl ⟨noSock, .cons (hclosed _) rfl rfl⟩

def FtpSession.noData (s : FtpSession) (a : SockAnswers) : Prop := (ftpsGetDataSock s a).2.1 < 0

instance (s : FtpSession) (a : SockAnswers) : Decidable (s.noData a) :=
  inferInstanceAs (Decidable ((ftpsGetDataSock s a).2.1 < 0))

theorem noData_answered {a : SockAnswers} (h : s.noData a) :
    Answered (ftpsGetDataSock s a).2.2 1 := by
  rw [FtpSession.noData, ftpsGetDataSock] at h
  rw [ftpsGetDataSock]
  dsimp only at h ⊢
  split_ifs at h ⊢ with hpasv
  · rcases connectData_answered s a with ⟨_, hio⟩ | ⟨hpos, _⟩
    · exact hio
    · exact absurd h (not_lt.mpr hpos)
  · exact absurd h hpasv

theorem data_answered {a : SockAnswers} (h : ¬ s.noData a) :
    Answered (ftpsGetDataSock s a).2.2 0 := by
  rw [FtpSession.noData, ftpsGetDataSock] at h
  rw [ftpsGetDataSock]
  dsimp only at h ⊢
  split_ifs at h ⊢ with hpasv
  · rcases connectData_answered s a with ⟨hneg, _⟩ | ⟨_, hio⟩
    · exact absurd hneg h
    · exact hio
  · exact .nil

theorem list_answered {fileName : List Char} {wide : Bool} {a : ListAnswers}
    (h : ftpsCmdLIST s fileName wide a = some (s', io)) : Answered io 1 := by
  rw [ftpsCmdLIST] at h
  dsimp only at h
  split_ifs at h with hsock
  · obtain ⟨_, rfl⟩ := Prod.mk.inj (Option.some.inj h)
    exact .cons (noData_answered hsock) rfl rfl
  · obtain ⟨path, _, hr⟩ := Option.map_eq_some_iff.mp h
    obtain ⟨_, rfl⟩ := Prod.mk.inj hr
    apply ((Answered.cons (data_answered hsock) rfl rfl).after (close_answered _)).before
    split_ifs
    · exact .reply (by decide) (by decide)
    · exact .reply (by decide) (by decide)

def PasvAnswers.late (a : PasvAnswers) : Prop :=
  0 ≤ a.socket ∧ a.bind ∧ a.listen ∧ a.accept < 0

instance (a : PasvAnswers) : Decidable a.late :=
  inferInstanceAs (Decidable (0 ≤ a.socket ∧ a.bind ∧ a.listen ∧ a.accept < 0))

theorem pasv_answered (s : FtpSession) (a : PasvAnswers) :
    Answered (ftpsCmdPASV s a).2 (if a.late then 2 else 1) := by
  have hclose := close_answered s
  have hfailed : Answered [.reply 425 "Can't open passive connection.", .closed a.socket] 1 :=
    .after (.reply (by decide) (by decide)) (.cons .nil rfl rfl)
  have hbegin : Answered ((ftpsCloseDataSock s).2 ++ [.opened a.socket, .reply 227 (pasvMessage a)])
      1 := hclose.before (.cons (.reply (by decide) (by decide)) rfl rfl)
  rw [ftpsCmdPASV]
  by_cases hsock : a.socket < 0
  · rw [if_pos hsock, if_neg fun h => absurd h.1 (not_le.mpr hsock)]
    exact hclose.before (.reply (by decide) (by decide))
  by_cases hfail : a.bind = false ∨ a.listen = false
  · rw [if_neg hsock, if_pos hfail, if_neg]
    · exact (hclose.after (.cons .nil rfl rfl)).before hfailed
    · rintro ⟨_, hbind, hlisten, _⟩
      rw [hbind, hlisten] at hfail
      exact absurd hfail (by decide)
  have hup : a.bind = true ∧ a.listen = true := by
    constructor
    · exact Bool.eq_true_of_not_eq_false fun h => hfail (.inl h)
    · exact Bool.eq_true_of_not_eq_false fun h => hfail (.inr h)
  rw [if_neg hsock, if_neg hfail]
  by_cases haccept : a.accept < 0
  · rw [if_pos haccept, if_pos ⟨not_lt.mp hsock, hup.1, hup.2, haccept⟩]
    exact hbegin.append hfailed
  · rw [if_neg haccept, if_neg fun h => absurd h.2.2.2 haccept]
    exact hbegin.after (.cons (.cons .nil rfl rfl) rfl rfl)

theorem modeReply_answered (mode : TransMode) : Answered [.ofReply (modeReply mode)] 0 := by
  rw [modeReply]
  split_ifs
  · exact .cons .nil rfl rfl
  · exact .cons .nil rfl rfl

theorem retr_replies (mode : TransMode) {a : RetrAnswers} (h : ¬ (a.fd < 0 ∨ a.stat = none)) :
    ∃ last, (ftpsCmdRETR mode a).replies = [modeReply mode, last] ∧ 200 ≤ last.1 ∧ last.1 ≠ 530 := by
  obtain ⟨size, hsize⟩ := Option.ne_none_iff_exists'.mp fun hstat => h (.inr hstat)
  rw [ftpsCmdRETR, if_neg fun hfd => h (.inl hfd), hsize]
  dsimp only
  split_ifs
  · exact ⟨_, rfl, by decide, by decide⟩
  · exact ⟨_, rfl, by decide, by decide⟩
  · exact ⟨_, rfl, by decide, by decide⟩
  · exact ⟨_, rfl, by decide, by decide⟩

theorem stor_replies (mode : TransMode) (a : StorAnswers) :
    ∃ last, (ftpsCmdSTOR mode a).replies = [modeReply mode, last] ∧ 200 ≤ last.1 ∧ last.1 ≠ 530 := by
  rw [ftpsCmdSTOR]
  dsimp only
  split_ifs
  · exact ⟨_, rfl, by decide, by decide⟩
  · exact ⟨_, rfl, by decide, by decide⟩
  · exact ⟨_, rfl, by decide, by decide⟩
  · exact ⟨_, rfl, by decide, by decide⟩
  · exact ⟨_, rfl, by decide, by decide⟩
  · exact ⟨_, rfl, by decide, by decide⟩

theorem transfer_answered {replies : List (ℕ × String)} {mode : TransMode} {last : ℕ × String}
    (hreplies : replies = [modeReply mode, last]) (hlast : 200 ≤ last.1 ∧ last.1 ≠ 530)
    {middle : List Io} {n : ℕ} (hmiddle : Answered middle n) :
    Answered ((replies.take 1).map Io.ofReply ++ middle ++ (replies.drop 1).map Io.ofReply)
      (n + 1) := by
  subst hreplies
  exact ((modeReply_answered mode).before hmiddle).append (.reply hlast.1 hlast.2)

theorem retr_answered (s : FtpSession) (sock : SockAnswers) (a : RetrAnswers) :
    Answered (sessionRETR s sock a).2
      (if 0 ≤ a.fd ∧ a.stat ≠ none ∧ s.noData sock then 2 else 1) := by
  rw [sessionRETR]
  by_cases hfile : a.fd < 0 ∨ a.stat = none
  · rw [if_pos hfile, if_neg fun h => hfile.elim (not_lt.mpr h.1) h.2.1]
    rw [ftpsCmdRETR]
    by_cases hfd : a.fd < 0
    · rw [if_pos hfd]
      exact .reply (by decide) (by decide)
    · rw [if_neg hfd, hfile.resolve_left hfd]
      exact .reply (by decide) (by decide)
  obtain ⟨last, hreplies, hlast⟩ := retr_replies (a := { a with sock := (ftpsGetDataSock s sock).2.1 })
    s.transMode hfile
  rw [if_neg hfile]
  dsimp only
  rw [List.append_assoc (List.map _ _)]
  by_cases hdata : s.noData sock
  · rw [if_pos ⟨not_lt.mp fun h => hfile (.inl h), fun h => hfile (.inr h), hdata⟩]
    exact transfer_answered hreplies hlast ((noData_answered hdata).after (close_answered _))
  · rw [if_neg fun h => hdata h.2.2]
    exact transfer_answered hreplies hlast ((data_answered hdata).after (close_answered _))

theorem stor_answered (s : FtpSession) (sock : SockAnswers) (a : StorAnswers) :
    Answered (sessionSTOR s sock a).2 (if s.noData sock then 2 else 1) := by
  obtain ⟨last, hreplies, hlast⟩ := stor_replies s.transMode
    { a with sock := (ftpsGetDataSock s sock).2.1 }
  rw [sessionSTOR]
  by_cases hdata : s.noData sock
  · rw [if_pos hdata, if_pos (show (ftpsGetDataSock s sock).2.1 < 0 from hdata)]
    exact transfer_answered hreplies hlast (noData_answered hdata)
  rw [if_neg hdata, if_neg (show ¬ (ftpsGetDataSock s sock).2.1 < 0 from hdata)]
  split_ifs
  · exact (transfer_answered hreplies hlast (data_answered hdata)).after (close_answered _)
  · rw [List.append_assoc (List.map _ _)]
    exact transfer_answered hreplies hlast ((data_answered hdata).after (close_answered _))

theorem rnfr_answered {fuel cBuffer : ℕ} {a : RnfrAnswers} {currentPath fileName : List UInt8}
    {byte : ℕ → UInt8} {t : RnfrTrace}
    (h : ftpsCmdRNFR fuel a currentPath fileName byte cBuffer = some t) :
    Answered (t.replies.map Io.ofReply) 2 := by
  have hreply (last : ℕ × String) (hlast : 200 ≤ last.1) (hlast' : last.1 ≠ 530) :
      Answered ([needInfo, last].map Io.ofReply) 2 :=
    Answered.append (show Answered [.ofReply needInfo] 1 from .reply (by decide) (by decide))
      (.reply hlast hlast')
  have hinterpret (h : interpret fuel a currentPath fileName (Memory.fresh byte) cBuffer = some t) :
      Answered (t.replies.map Io.ofReply) 2 := by
    obtain ⟨d, _, h⟩ := Option.bind_eq_some_iff.mp h
    dsimp only at h
    by_cases hrnto : (strcmpZero rnto d.memory d.cmd).2 = true
    · rw [if_pos hrnto] at h
      obtain ⟨old, _, h⟩ := Option.bind_eq_some_iff.mp h
      obtain ⟨args, _, h⟩ := Option.bind_eq_some_iff.mp h
      obtain ⟨new, _, rfl⟩ := Option.map_eq_some_iff.mp h
      dsimp only
      split_ifs
      · exact hreply _ (by decide) (by decide)
      · exact hreply _ (by decide) (by decide)
    · rw [if_neg hrnto] at h
      obtain rfl := Option.some.inj h
      exact hreply notFollow (by decide) (by decide)
  rw [ftpsCmdRNFR] at h
  split at h
  · split_ifs at h
    obtain rfl := Option.some.inj h
    exact hreply notFollow (by decide) (by decide)
  · exact hinterpret h
  · exact hinterpret h

def finalReplies (s : FtpSession) (a : Answers) : String → ℕ
  | "HELP" => 0
  | "RNFR" => 2
  | "PASV" => if a.pasv.late then 2 else 1
  | "RETR" => if 0 ≤ a.retr.fd ∧ a.retr.stat ≠ none ∧ s.noData a.sock then 2 else 1
  | "STOR" => if s.noData a.sock then 2 else 1
  | _ => 1

theorem finalReplies_other {pcCmd : String} (hhelp : pcCmd ≠ "HELP") (hrnfr : pcCmd ≠ "RNFR")
    (hpasv : pcCmd ≠ "PASV") (hretr : pcCmd ≠ "RETR") (hstor : pcCmd ≠ "STOR") :
    finalReplies s a pcCmd = 1 := by
  unfold finalReplies
  split
  · exact absurd rfl hhelp
  · exact absurd rfl hrnfr
  · exact absurd rfl hpasv
  · exact absurd rfl hretr
  · exact absurd rfl hstor
  · rfl

theorem changeDir_answered {name : String} {dir : List Char} {access : Bool}
    (h : changeDir name rootPath s dir access = some (s', io)) : Answered io 1 := by
  obtain ⟨r, _, hr⟩ := Option.map_eq_some_iff.mp h
  obtain ⟨_, rfl⟩ := Prod.mk.inj hr
  split_ifs
  · exact .reply (by decide) (by decide)
  · exact .reply (by decide) (by decide)

theorem fileOp_answered {name : String} {pcArg : List Char} {ok : Bool}
    (h : fileOp name s pcArg ok = some (s', io)) : Answered io 1 := by
  obtain ⟨_, _, hr⟩ := Option.map_eq_some_iff.mp h
  obtain ⟨_, rfl⟩ := Prod.mk.inj hr
  split_ifs
  · exact .reply (by decide) (by decide)
  · exact .reply (by decide) (by decide)

theorem setType_answered (s : FtpSession) (pcArg : List Char) :
    Answered (setType s pcArg).2 1 := by
  rw [setType]
  split_ifs
  · exact .reply (by decide) (by decide)
  · exact .reply (by decide) (by decide)
  · exact .reply (by decide) (by decide)

theorem siteReply_granted {pcArg : List Char} {chmod : Bool} {x : Io}
    (h : siteReply s pcArg chmod = some x) : Answered [x] 1 := by
  rw [siteReply, if_neg (show ¬ sscanfFields = 2 by decide)] at h
  split_ifs at h
  · obtain rfl := Option.some.inj h
    exact .reply (by decide) (by decide)
  · obtain rfl := Option.some.inj h
    exact .reply (by decide) (by decide)

theorem ftpsLoggedIn_answered {pcCmd : String} {pcArg : List Char}
    (h : ftpsLoggedIn rootPath s pcCmd pcArg a = some (s', io)) (hhelp : pcCmd ≠ "HELP") :
    Answered io (finalReplies s a pcCmd) := by
  have hsaid {t : FtpSession} {code : ℕ} {message : String}
      (h : some (t, [Io.reply code message]) = some (s', io)) (hcode : 200 ≤ code)
      (hcode' : code ≠ 530) : Answered io 1 := by
    obtain ⟨_, rfl⟩ := Prod.mk.inj (Option.some.inj h)
    exact .reply hcode hcode'
  unfold ftpsLoggedIn at h
  split at h
  · exact changeDir_answered h
  · exact changeDir_answered h
  · exact hsaid h (by decide) (by decide)
  · exact hsaid h (by decide) (by decide)
  · exact hsaid h (by decide) (by decide)
  · exact hsaid h (by decide) (by decide)
  · rw [port_spec] at h
    obtain ⟨_, rfl⟩ := Prod.mk.inj (Option.some.inj h)
    exact (close_answered s).before (.reply (by decide) (by decide))
  · have := pasv_answered s a.pasv
    rwa [Option.some.inj h] at this
  · have := setType_answered s pcArg
    rwa [Option.some.inj h] at this
  · exact list_answered h
  · exact list_answered h
  · obtain ⟨t, ht, hr⟩ := Option.map_eq_some_iff.mp h
    obtain ⟨_, rfl⟩ := Prod.mk.inj hr
    exact rnfr_answered ht
  · obtain ⟨_, _, hr⟩ := Option.map_eq_some_iff.mp h
    have := retr_answered s a.sock a.retr
    rwa [hr] at this
  · obtain ⟨_, _, hr⟩ := Option.map_eq_some_iff.mp h
    have := stor_answered s a.sock a.stor
    rwa [hr] at this
  · exact hsaid h (by decide) (by decide)
  · exact fileOp_answered h
  · exact fileOp_answered h
  · exact fileOp_answered h
  · exact hsaid h (by decide) (by decide)
  · obtain ⟨x, hx, hr⟩ := Option.map_eq_some_iff.mp h
    obtain ⟨_, rfl⟩ := Prod.mk.inj hr
    exact siteReply_granted hx
  · exact hsaid h (by decide) (by decide)
  · rw [finalReplies_other hhelp (by assumption) (by assumption) (by assumption) (by assumption)]
    exact hsaid h (by decide) (by decide)

theorem ftpsDoCmd_answered {pcCmd : String} {pcArg : List Char}
    (h : ftpsDoCmd rootPath s pcCmd pcArg a = some (s', io)) :
    Answered io (finalReplies s a pcCmd) := by
  unfold ftpsDoCmd at h
  dsimp only at h
  split at h
  · obtain ⟨_, rfl⟩ := Prod.mk.inj (Option.some.inj h)
    exact .reply (by decide) (by decide)
  · obtain ⟨_, rfl⟩ := Prod.mk.inj (Option.some.inj h)
    exact .reply (by decide) (by decide)
  · obtain ⟨_, rfl⟩ := Prod.mk.inj (Option.some.inj h)
    exact .nil
  · rw [if_neg (by decide)] at h
    exact ftpsLoggedIn_answered (s := { s with login := true }) h (by assumption)

def Message.finalReplies (s : FtpSession) : Message → ℕ
  | .hangup => 0
  | .line pcCmd _ a => if pcCmd = "QUIT" then 1 else Ftp.finalReplies s a pcCmd

/-- `conversations` with the number of final replies that are due, from the greeting on. -/
def repliedConversations (rootPath : List Char) (sock : ℤ) (peer : SockAddr) :
    System (Conversation × ℕ) Message :=
  (conversations rootPath sock peer).withGhost 1 fun c e _ n => n + e.finalReplies c.session

theorem Conversation.finish_answered {c : Conversation} {n : ℕ} (hc : Answered c.io n) :
    Answered c.finish.io n :=
  (hc.after (close_answered c.session)).after (.cons .nil rfl rfl)

theorem Conversation.exec_answered {c c' : Conversation} {e : Message} {n : ℕ}
    (h : c.exec rootPath e = some c') (hc : Answered c.io n) :
    Answered c'.io (n + e.finalReplies c.session) := by
  cases e with
  | hangup =>
    rw [Conversation.exec] at h
    split_ifs at h
    obtain rfl := Option.some.inj h
    exact finish_answered hc
  | line pcCmd pcArg a =>
    rw [Conversation.exec] at h
    rw [Message.finalReplies]
    split_ifs at h ⊢
    · obtain rfl := Option.some.inj h
      exact finish_answered (hc.append (.reply (by decide) (by decide)))
    · obtain ⟨r, hr, rfl⟩ := Option.map_eq_some_iff.mp h
      exact hc.append (ftpsDoCmd_answered hr)

end Replies

end DfewOS.Ftp
