import DfewOS.FtpSockets

/-!
# Where an FTP session stays

The directory of a session and the address of its connections, as far as the
root path itself stays.
-/

namespace DfewOS.Ftp
open Transition

section Confined
variable {s s' : FtpSession} {io : List Io} {a : Answers} {rootPath : List Char} {peer : SockAddr}

/-- What a client cannot change: the directory and the address of its connections. -/
structure Confined (rootPath : List Char) (peer : SockAddr) (s : FtpSession) : Prop where
  path : s.currentPath = rootPath
  peer : s.defaultSockaddrIn = peer
  useDefault : s.useDefaultAddr = true

def Io.goesTo (peer : SockAddr) : Io → Prop
  | .connect _ dest => dest = peer
  | .reply _ _ | .opened _ | .closed _ => True

def ConnectsTo (peer : SockAddr) (io : List Io) : Prop := ∀ x ∈ io, x.goesTo peer

theorem ConnectsTo.nil : ConnectsTo peer [] := by simp [ConnectsTo]

theorem ConnectsTo.cons {x : Io} (hx : x.goesTo peer) (h : ConnectsTo peer io) :
    ConnectsTo peer (x :: io) := List.forall_mem_cons.mpr ⟨hx, h⟩

theorem ConnectsTo.append {io' : List Io} (h : ConnectsTo peer io) (h' : ConnectsTo peer io') :
    ConnectsTo peer (io ++ io') := List.forall_mem_append.mpr ⟨h, h'⟩

theorem ConnectsTo.replies (rs : List (ℕ × String)) : ConnectsTo peer (rs.map Io.ofReply) := by
  intro x hx
  obtain ⟨r, _, rfl⟩ := List.mem_map.mp hx
  exact trivial

theorem ConnectsTo.reply (code : ℕ) (message : String) : ConnectsTo peer [.reply code message] :=
  .cons trivial .nil

theorem scanName_eq (pcArg : List Char) : scanName pcArg = [] := by
  rw [scanName, NumText.sscanf, if_neg (by decide)]
  rfl

theorem ftpsCd_stays (hroot : rootPath.getLast? = some '/') (hlen : rootPath.length < pathLenMax - 1)
    {dir : List Char} (hdir : dir = ['.'] ∨ dir = ['.', '.'] ∨ dir = []) {access : Bool}
    {r : List Char × Dlist.OsStatus} (h : ftpsCd rootPath rootPath dir access = some r) :
    r.1 = rootPath := by
  rcases hdir with rfl | rfl | rfl
  · obtain rfl := Option.some.inj h
    rfl
  · rw [ftpsCd, if_neg (by decide), if_pos rfl, if_neg (fun h => h rfl)] at h
    obtain rfl := Option.some.inj h
    rfl
  · rw [ftpsCd, if_neg (by decide), if_neg (by decide)] at h
    have hpath : tempAbsPath rootPath rootPath [] = some rootPath := by
      have hne : ¬ rootPath <+: [] := by
        rw [List.prefix_nil]
        rintro rfl
        exact absurd hroot (by decide)
      have hcat (n : ℕ) : strncat rootPath [] n = rootPath := List.append_nil rootPath
      rw [tempAbsPath, if_neg hne]
      dsimp only
      rw [hcat, if_pos (by omega), List.take_of_length_le (by omega)]
    rw [hpath, Option.bind_some, appendSlash, hroot] at h
    dsimp only at h
    rw [if_pos rfl] at h
    split_ifs at h
    · obtain rfl := Option.some.inj h
      rfl
    · obtain rfl := Option.some.inj h
      rfl

structure Stays (rootPath : List Char) (peer : SockAddr) (s' : FtpSession) (io : List Io) : Prop where
  confined : Confined rootPath peer s'
  connects : ConnectsTo peer io

theorem close_stays (hs : Confined rootPath peer s) :
    Stays rootPath peer (ftpsCloseDataSock s).1 (ftpsCloseDataSock s).2 := by
  refine ⟨⟨hs.path, hs.peer, rfl⟩, ?_⟩
  rw [ftpsCloseDataSock]
  dsimp only
  split_ifs
  · exact .cons trivial .nil
  · exact .cons trivial .nil
  · exact .nil

theorem getDataSock_stays (hs : Confined rootPath peer s) (a : SockAnswers) :
    Stays rootPath peer (ftpsGetDataSock s a).1 (ftpsGetDataSock s a).2.2 := by
  refine ⟨⟨hs.path, hs.peer, rfl⟩, ?_⟩
  have hdest : (if s.useDefaultAddr then s.defaultSockaddrIn else s.dataSockaddrIn) = peer := by
    rw [hs.useDefault, if_pos rfl, hs.peer]
  rw [ftpsGetDataSock]
  dsimp only
  split_ifs
  · rw [connectData, hdest]
    split_ifs
    · exact .reply _ _
    · exact .cons trivial (.cons rfl .nil)
    · exact .cons trivial (.cons rfl (.cons trivial (.cons trivial .nil)))
    · exact .cons trivial (.cons trivial (.cons trivial .nil))
  · exact .nil

theorem list_stays (hs : Confined rootPath peer s) {fileName : List Char} {wide : Bool}
    {a : ListAnswers} (h : ftpsCmdLIST s fileName wide a = some (s', io)) :
    Stays rootPath peer s' io := by
  have hget := getDataSock_stays hs a.sock
  have hclose := close_stays hget.confined
  rw [ftpsCmdLIST] at h
  dsimp only at h
  split_ifs at h
  · obtain ⟨rfl, rfl⟩ := Prod.mk.inj (Option.some.inj h)
    exact ⟨hget.confined, .cons trivial hget.connects⟩
  · obtain ⟨path, _, hr⟩ := Option.map_eq_some_iff.mp h
    obtain ⟨rfl, rfl⟩ := Prod.mk.inj hr
    refine ⟨hclose.confined, ?_⟩
    have hbegin (message : String) : ConnectsTo peer (.reply 150 message :: (ftpsGetDataSock s a.sock).2.2) :=
      .cons trivial hget.connects
    apply ((hbegin _).append hclose.connects).append
    split_ifs
    · exact .reply _ _
    · exact .reply _ _

theorem pasv_stays (hs : Confined rootPath peer s) (a : PasvAnswers) :
    Stays rootPath peer (ftpsCmdPASV s a).1 (ftpsCmdPASV s a).2 := by
  have hclose := close_stays hs
  have hconfined := hclose.confined
  have hopened : ConnectsTo peer [.opened a.socket] := .cons trivial .nil
  have hbegin : ConnectsTo peer [.opened a.socket, .reply 227 (pasvMessage a)] :=
    .cons trivial (.reply _ _)
  have hfailed : ConnectsTo peer [.reply 425 "Can't open passive connection.", .closed a.socket] :=
    .cons trivial (.cons trivial .nil)
  have haccepted : ConnectsTo peer [.opened a.accept, .closed a.socket] :=
    .cons trivial (.cons trivial .nil)
  rw [ftpsCmdPASV]
  dsimp only
  split_ifs
  · exact ⟨hconfined, hclose.connects.append (.reply _ _)⟩
  · exact ⟨hconfined, (hclose.connects.append hopened).append hfailed⟩
  · exact ⟨⟨hconfined.path, hconfined.peer, rfl⟩, (hclose.connects.append hbegin).append hfailed⟩
  · exact ⟨⟨hconfined.path, hconfined.peer, rfl⟩, (hclose.connects.append hbegin).append haccepted⟩

theorem retr_stays (hs : Confined rootPath peer s) (sock : SockAnswers) (a : RetrAnswers) :
    Stays rootPath peer (sessionRETR s sock a).1 (sessionRETR s sock a).2 := by
  have hget := getDataSock_stays hs sock
  have hclose := close_stays hget.confined
  rw [sessionRETR]
  split_ifs
  · exact ⟨hs, .replies _⟩
  · exact ⟨hclose.confined, (((ConnectsTo.replies _).append hget.connects).append
      hclose.connects).append (.replies _)⟩

theorem stor_stays (hs : Confined rootPath peer s) (sock : SockAnswers) (a : StorAnswers) :
    Stays rootPath peer (sessionSTOR s sock a).1 (sessionSTOR s sock a).2 := by
  have hget := getDataSock_stays hs sock
  have hclose := close_stays hget.confined
  have hbegin := fun rs => (ConnectsTo.replies rs).append hget.connects
  rw [sessionSTOR]
  split_ifs
  · exact ⟨hget.confined, (hbegin _).append (.replies _)⟩
  · exact ⟨hclose.confined, ((hbegin _).append (.replies _)).append hclose.connects⟩
  · exact ⟨hclose.confined, ((hbegin _).append hclose.connects).append (.replies _)⟩

section Logged
variable (hroot : rootPath.getLast? = some '/') (hlen : rootPath.length < pathLenMax - 1)
include hroot hlen

theorem changeDir_stays (hs : Confined rootPath peer s) {name : String} {dir : List Char}
    (hdir : dir = ['.'] ∨ dir = ['.', '.'] ∨ dir = []) {access : Bool}
    (h : changeDir name rootPath s dir access = some (s', io)) : Stays rootPath peer s' io := by
  obtain ⟨r, hcd, hr⟩ := Option.map_eq_some_iff.mp h
  obtain ⟨rfl, rfl⟩ := Prod.mk.inj hr
  rw [hs.path] at hcd
  refine ⟨⟨ftpsCd_stays hroot hlen hdir hcd, hs.peer, hs.useDefault⟩, ?_⟩
  split_ifs
  · exact .reply _ _
  · exact .reply _ _

theorem ftpsLoggedIn_stays (hs : Confined rootPath peer s) {pcCmd : String} {pcArg : List Char}
    (h : ftpsLoggedIn rootPath s pcCmd pcArg a = some (s', io)) : Stays rootPath peer s' io := by
  have hsaid {code : ℕ} {message : String} (h : some (s, [Io.reply code message]) = some (s', io)) :
      Stays rootPath peer s' io := by
    obtain ⟨rfl, rfl⟩ := Prod.mk.inj (Option.some.inj h)
    exact ⟨hs, .reply _ _⟩
  have hfile {name : String} (h : fileOp name s pcArg a.done = some (s', io)) :
      Stays rootPath peer s' io := by
    obtain ⟨_, _, hr⟩ := Option.map_eq_some_iff.mp h
    split_ifs at hr
    · exact hsaid (congrArg some hr)
    · exact hsaid (congrArg some hr)
  unfold ftpsLoggedIn at h
  split at h
  · refine changeDir_stays hroot hlen hs ?_ h
    rw [scanName_eq]
    split_ifs
    · exact .inr (.inr rfl)
    · exact .inl rfl
  · exact changeDir_stays hroot hlen hs (.inr (.inl rfl)) h
  · exact hsaid h
  · exact hsaid h
  · exact hsaid h
  · exact hsaid h
  · rw [port_spec] at h
    obtain ⟨rfl, rfl⟩ := Prod.mk.inj (Option.some.inj h)
    exact ⟨(close_stays hs).confined, (close_stays hs).connects.append (.reply _ _)⟩
  · have := pasv_stays hs a.pasv
    rwa [Option.some.inj h] at this
  · rw [setType] at h
    split_ifs at h
    · obtain ⟨rfl, rfl⟩ := Prod.mk.inj (Option.some.inj h)
      exact ⟨⟨hs.path, hs.peer, hs.useDefault⟩, .reply _ _⟩
    · obtain ⟨rfl, rfl⟩ := Prod.mk.inj (Option.some.inj h)
      exact ⟨⟨hs.path, hs.peer, hs.useDefault⟩, .reply _ _⟩
    · obtain ⟨rfl, rfl⟩ := Prod.mk.inj (Option.some.inj h)
      exact ⟨⟨hs.path, hs.peer, hs.useDefault⟩, .reply _ _⟩
  · exact list_stays hs h
  · exact list_stays hs h
  · obtain ⟨t, _, hr⟩ := Option.map_eq_some_iff.mp h
    obtain ⟨rfl, rfl⟩ := Prod.mk.inj hr
    exact ⟨hs, .replies _⟩
  · obtain ⟨_, _, hr⟩ := Option.map_eq_some_iff.mp h
    have := retr_stays hs a.sock a.retr
    rwa [hr] at this
  · obtain ⟨_, _, hr⟩ := Option.map_eq_some_iff.mp h
    have := stor_stays hs a.sock a.stor
    rwa [hr] at this
  · exact hsaid h
  · exact hfile h
  · exact hfile h
  · exact hfile h
  · exact hsaid h
  · obtain ⟨reply, hreply, hr⟩ := Option.map_eq_some_iff.mp h
    obtain ⟨code, message, rfl, _⟩ := siteReply_spec hreply
    exact hsaid (congrArg some hr)
  · exact hsaid h
  · exact hsaid h

theorem ftpsDoCmd_stays (hs : Confined rootPath peer s) {pcCmd : String} {pcArg : List Char}
    (h : ftpsDoCmd rootPath s pcCmd pcArg a = some (s', io)) : Stays rootPath peer s' io := by
  have hlogin (login : Bool) : Confined rootPath peer { s with login := login } :=
    ⟨hs.path, hs.peer, hs.useDefault⟩
  unfold ftpsDoCmd at h
  dsimp only at h
  split at h
  · obtain ⟨rfl, rfl⟩ := Prod.mk.inj (Option.some.inj h)
    exact ⟨hlogin false, .reply _ _⟩
  · obtain ⟨rfl, rfl⟩ := Prod.mk.inj (Option.some.inj h)
    exact ⟨hlogin true, .reply _ _⟩
  · obtain ⟨rfl, rfl⟩ := Prod.mk.inj (Option.some.inj h)
    exact ⟨hlogin true, .nil⟩
  · rw [if_neg (by decide)] at h
    exact ftpsLoggedIn_stays hroot hlen (hlogin true) h

theorem exec_stays {c c' : Conversation} {e : Message} (hs : Stays rootPath peer c.session c.io)
    (h : c.exec rootPath e = some c') : Stays rootPath peer c'.session c'.io := by
  have hfinish (c : Conversation) (hs : Stays rootPath peer c.session c.io) :
      Stays rootPath peer c.finish.session c.finish.io := by
    have hclose := close_stays hs.confined
    have hconfined := hclose.confined
    exact ⟨⟨hconfined.path, hconfined.peer, rfl⟩,
      (hs.connects.append hclose.connects).append (.cons trivial .nil)⟩
  cases e with
  | hangup =>
    rw [Conversation.exec] at h
    split_ifs at h
    obtain rfl := Option.some.inj h
    exact hfinish c hs
  | line pcCmd pcArg a =>
    rw [Conversation.exec] at h
    split_ifs at h
    · obtain rfl := Option.some.inj h
      exact hfinish _ ⟨hs.confined, hs.connects.append (.reply _ _)⟩
    · obtain ⟨r, hr, rfl⟩ := Option.map_eq_some_iff.mp h
      have hcmd := ftpsDoCmd_stays hroot hlen hs.confined hr
      exact ⟨hcmd.confined, hs.connects.append hcmd.connects⟩

end Logged

end Confined

end DfewOS.Ftp
