import DfewOS.FtpSessions

/-!
# The session limit

The listener compares the length of the list, from which session tasks are missing that
have not run yet or are about to end, and it lets a connection pass while the list is just
full. What it refuses it closes and frees.
-/

namespace DfewOS.Ftp
open Transition (System Run Reachable)

variable {s s' : Server} {e : ServerEvent}

/-! ## Refused connections -/

/-- The connection that the listener has in its hands. -/
def Listen.conn : Listen → Option ℕ
  | .accept => none
  | .count conn | .closeFull conn | .malloc conn | .getsockname conn | .taskCreate conn
  | .errorHandle conn _ => some conn

/-- The connection whose `FTP_SESSION` the listener has in its hands. -/
def Listen.session : Listen → Option ℕ
  | .getsockname conn | .taskCreate conn | .errorHandle conn true => some conn
  | _ => none

/-- An open socket or an allocated session has a task or is in the listener's hands. -/
structure Kept (s : Server) : Prop where
  openConn : ∀ n, s.openConn n = true → n ∈ s.created ∨ s.listen.conn = some n
  session : ∀ n, s.session n = true → n ∈ s.created ∨ s.listen.session = some n

theorem update_true {f : ℕ → Bool} {a n : ℕ} (h : Function.update f a true n = true) :
    n = a ∨ f n = true := by
  by_cases hn : n = a
  · exact Or.inl hn
  · rw [Function.update_of_ne hn] at h
    exact Or.inr h

theorem update_false {f : ℕ → Bool} {a n : ℕ} (h : Function.update f a false n = true) :
    n ≠ a ∧ f n = true := by
  by_cases hn : n = a
  · rw [hn, Function.update_self] at h
    cases h
  · rw [Function.update_of_ne hn] at h
    exact ⟨hn, h⟩

structure Shrinks (s s' : Server) : Prop where
  listen : s'.listen = s.listen
  created : s'.created = s.created
  alive : s'.alive ≤ s.alive
  openConn : ∀ n, s'.openConn n = true → s.openConn n = true
  session : ∀ n, s'.session n = true → s.session n = true

theorem execSession_shrinks (h : s.execSession e = some s') : Shrinks s s' := by
  unfold Server.execSession at h
  split at h
  · rename_i conn
    split_ifs at h with hmem
    cases h
    have hlen := List.length_erase_of_mem hmem
    have hpos := List.length_pos_of_mem hmem
    refine ⟨rfl, rfl, ?_, fun _ h => h, fun _ h => h⟩
    simp only [Server.alive, List.length_append, List.length_singleton, hlen]
    omega
  · split_ifs at h with hmem
    cases h
    exact ⟨rfl, rfl, Nat.le_refl _, fun _ h => (update_false h).2, fun _ h => h⟩
  · split_ifs at h with hmem
    cases h
    have hlen := List.length_erase_of_mem hmem.1
    have hpos := List.length_pos_of_mem hmem.1
    refine ⟨rfl, rfl, ?_, fun _ h => h, fun _ h => h⟩
    simp only [Server.alive, List.length_append, List.length_singleton, hlen]
    omega
  · split_ifs at h with hmem
    cases h
    have hlen := List.length_erase_of_mem hmem
    refine ⟨rfl, rfl, ?_, fun _ h => h, fun _ h => (update_false h).2⟩
    simp only [Server.alive, hlen]
    omega
  · cases h

theorem exec_cases (h : s.exec e = some s') :
    Shrinks s s' ∨ s.execListen s.listen e = some s' := by
  cases e with
  | start conn => exact Or.inl (execSession_shrinks (e := .start conn) h)
  | closeCtrl conn => exact Or.inl (execSession_shrinks (e := .closeCtrl conn) h)
  | leave conn => exact Or.inl (execSession_shrinks (e := .leave conn) h)
  | finish conn => exact Or.inl (execSession_shrinks (e := .finish conn) h)
  | _ => exact Or.inr h

theorem Kept.exec (hk : Kept s) (h : s.exec e = some s') : Kept s' := by
  have hopen := hk.openConn
  have hsession := hk.session
  rcases exec_cases h with hs | hl
  · refine ⟨fun n hn => ?_, fun n hn => ?_⟩
    · rw [hs.created, hs.listen]
      exact hopen n (hs.openConn n hn)
    · rw [hs.created, hs.listen]
      exact hsession n (hs.session n hn)
  · generalize hlisten : s.listen = l at *
    unfold Server.execListen at hl
    split at hl
    · -- accept
      split_ifs at hl
      · cases hl
        refine ⟨fun n hn => ?_, hsession⟩
        rcases update_true hn with rfl | hn
        · exact Or.inr rfl
        · exact (hopen n hn).imp_right fun h => nomatch h
      · cases hl
        rw [← hlisten] at hopen hsession
        exact ⟨hopen, hsession⟩
    · -- the check
      split_ifs at hl <;> cases hl <;> exact ⟨hopen, hsession⟩
    · -- a full server
      cases hl
      refine ⟨fun n hn => ?_, hsession⟩
      obtain ⟨hne, hn⟩ := update_false hn
      exact (hopen n hn).imp_right fun h => absurd (Option.some.inj h).symm hne
    · -- malloc
      split_ifs at hl
      · cases hl
        refine ⟨hopen, fun n hn => ?_⟩
        rcases update_true hn with rfl | hn
        · exact Or.inr rfl
        · exact (hsession n hn).imp_right fun h => nomatch h
      · cases hl
        exact ⟨hopen, hsession⟩
    · -- getsockname
      split_ifs at hl <;> cases hl <;> exact ⟨hopen, hsession⟩
    · -- task_create
      split_ifs at hl
      · cases hl
        refine ⟨fun n hn => Or.inl ?_, fun n hn => Or.inl ?_⟩
        · rcases hopen n hn with h | h
          · exact List.mem_append_left _ h
          · exact List.mem_append_right _ (by simpa using (Option.some.inj h).symm)
        · rcases hsession n hn with h | h
          · exact List.mem_append_left _ h
          · exact List.mem_append_right _ (by simpa using (Option.some.inj h).symm)
      · cases hl
        exact ⟨hopen, hsession⟩
    · -- error_handle
      rename_i conn session
      cases hl
      refine ⟨fun n hn => ?_, fun n hn => ?_⟩
      · obtain ⟨hne, hn⟩ := update_false hn
        exact (hopen n hn).imp_right fun h => absurd (Option.some.inj h).symm hne
      · cases session with
        | true =>
          obtain ⟨hne, hn⟩ := update_false hn
          exact (hsession n hn).imp_right fun h => absurd (Option.some.inj h).symm hne
        | false => exact (hsession n hn).imp_right fun h => nomatch h
    · cases hl

theorem kept_of_reachable {ok : Server → ServerEvent → Prop} (h : Reachable server ok s) :
    Kept s := by
  apply Reachable.invariant (I := Kept) ?_ ?_ h
  · rintro s rfl
    exact ⟨fun n hn => Or.inl (by cases hn), fun n hn => Or.inl (by cases hn)⟩
  · intro s e s' hk _ hs
    exact hk.exec hs

/-! ## The limit -/

/-- Where the check lets a connection pass, no session task is missing from the list, and the list
is not just full. -/
def Server.Counts (s : Server) : ServerEvent → Prop
  | .count => s.sessionList.length ≤ ftpServerMaxLinks →
      s.starting = [] ∧ s.ending = [] ∧ s.sessionList.length ≠ ftpServerMaxLinks
  | _ => True

instance (s : Server) (e : ServerEvent) : Decidable (s.Counts e) :=
  match e with
  | .count => inferInstanceAs (Decidable (_ → _))
  | .accept _ | .closeFull | .malloc _ | .getsockname _ | .taskCreate _ | .errorHandle
  | .start _ | .closeCtrl _ | .leave _ | .finish _ => isTrue trivial

theorem Server.Counts.room (h : s.Counts .count) (hpass : s.sessionList.length ≤ ftpServerMaxLinks) :
    s.alive < ftpServerMaxLinks := by
  obtain ⟨hstarting, hending, hfull⟩ := h hpass
  have hless := Nat.lt_of_le_of_ne hpass hfull
  simpa [Server.alive, hstarting, hending] using hless

def Listen.passed : Listen → Bool
  | .malloc _ | .getsockname _ | .taskCreate _ => true
  | _ => false

structure Limited (s : Server) : Prop where
  limit : s.alive ≤ ftpServerMaxLinks
  room : s.listen.passed = true → s.alive < ftpServerMaxLinks

theorem Limited.exec (hk : Limited s) (hc : s.Counts e) (h : s.exec e = some s') :
    Limited s' := by
  have hlimit := hk.limit
  have hroom := hk.room
  rcases exec_cases h with hs | hl
  · have halive := hs.alive
    refine ⟨by omega, fun hp => ?_⟩
    rw [hs.listen] at hp
    exact Nat.lt_of_le_of_lt halive (hroom hp)
  · generalize hlisten : s.listen = l at *
    unfold Server.execListen at hl
    split at hl
    · split_ifs at hl
      · cases hl
        exact ⟨hlimit, fun hp => nomatch hp⟩
      · cases hl
        exact ⟨hlimit, fun hp => by rw [hlisten] at hp; cases hp⟩
    · split_ifs at hl with hfull
      · cases hl
        exact ⟨hlimit, fun hp => nomatch hp⟩
      · cases hl
        exact ⟨hlimit, fun _ => hc.room (by omega)⟩
    · cases hl
      exact ⟨hlimit, fun hp => nomatch hp⟩
    · split_ifs at hl
      · cases hl
        exact ⟨hlimit, fun _ => hroom rfl⟩
      · cases hl
        exact ⟨hlimit, fun hp => nomatch hp⟩
    · split_ifs at hl
      · cases hl
        exact ⟨hlimit, fun _ => hroom rfl⟩
      · cases hl
        exact ⟨hlimit, fun hp => nomatch hp⟩
    · split_ifs at hl
      · -- the new task takes the room that the check has seen
        cases hl
        have hless := hroom rfl
        refine ⟨?_, fun hp => nomatch hp⟩
        simp only [Server.alive, List.length_append, List.length_singleton] at hless ⊢
        omega
      · cases hl
        exact ⟨hlimit, fun hp => nomatch hp⟩
    · cases hl
      exact ⟨hlimit, fun hp => nomatch hp⟩
    · cases hl

/-- The limit is kept in every run in which no session task is missing from the list when the
listener lets a connection pass, and the list is not just full then; in every run at all, what
the listener did not give a task is closed and freed when it waits again. -/
theorem session_limit (s : Server) :
    (Reachable server Server.Counts s → s.alive ≤ ftpServerMaxLinks) ∧
      (Reachable server (fun _ _ => True) s → s.listen = .accept →
        ∀ conn, conn ∉ s.created → s.openConn conn = false ∧ s.session conn = false) := by
  constructor
  · intro h
    have hlimited : Limited s := by
      apply Reachable.invariant (I := Limited) ?_ ?_ h
      · rintro s rfl
        exact ⟨by decide, fun hp => nomatch hp⟩
      · intro s e s' hk hc hs
        exact hk.exec hc hs
    exact hlimited.limit
  · intro h hwait conn hconn
    have hkept := kept_of_reachable h
    rw [Bool.eq_false_iff, Bool.eq_false_iff]
    refine ⟨fun hopen => ?_, fun hsession => ?_⟩
    · rcases hkept.openConn conn hopen with hmem | hhand
      · exact hconn hmem
      · rw [hwait] at hhand
        cases hhand
    · rcases hkept.session conn hsession with hmem | hhand
      · exact hconn hmem
      · rw [hwait] at hhand
        cases hhand

/-- The state behind the events, if each of them meets the condition. -/
def Server.replay (s : Server) : List ServerEvent → Option Server
  | [] => some s
  | e :: es => if s.Counts e then (s.exec e).bind fun s' => s'.replay es else none

theorem reachable_replay {es : List ServerEvent} (h : Reachable server Server.Counts s)
    (hes : s.replay es = some s') : Reachable server Server.Counts s' := by
  induction es generalizing s with
  | nil => exact Option.some.inj hes ▸ h
  | cons e es ih =>
    rw [Server.replay] at hes
    split_ifs at hes with hcounts
    obtain ⟨s₁, hexec, hes⟩ := Option.bind_eq_some_iff.mp hes
    exact ih (h.step hcounts hexec) hes

def client (conn : ℕ) : List ServerEvent :=
  [.accept true, .count, .malloc true, .getsockname true, .taskCreate true, .start conn]

/-- Three clients, of which the first goes, a fourth one, and one for which no memory is left. -/
theorem session_limit_clients : ∃ s, Reachable server Server.Counts s ∧
    s.sessionList = [1, 2, 3] ∧ s.alive ≤ ftpServerMaxLinks ∧ s.openConn 4 = false := by
  obtain ⟨s, hs, hfact⟩ := Option.map_eq_some_iff.mp (show
    (Server.boot.replay (client 0 ++ client 1 ++ client 2 ++
        [.closeCtrl 0, .leave 0, .finish 0] ++ client 3 ++
        [.accept true, .count, .malloc false, .errorHandle])).map
      (fun s => (s.sessionList, s.listen, s.created)) = some ([1, 2, 3], .accept, [0, 1, 2, 3]) by decide)
  obtain ⟨hlist, hwait, hcreated⟩ : s.sessionList = [1, 2, 3] ∧ s.listen = .accept ∧
      s.created = [0, 1, 2, 3] := by simpa using hfact
  have hreach := reachable_replay (Reachable.init rfl) hs
  obtain ⟨hlimit, hrefused⟩ := session_limit s
  have hclosed := hrefused (hreach.mono fun _ _ _ => trivial) hwait 4 (by rw [hcreated]; decide)
  exact ⟨s, hreach, hlist, hlimit hreach, hclosed.1⟩

theorem reachable_exec (h : Reachable server (fun _ _ => True) s) (he : s.exec e = some s') :
    Reachable server (fun _ _ => True) s' :=
  h.step trivial he

/-- Connections that come before a session task runs find an empty list, however many they
are. -/
theorem alive_unbounded (n : ℕ) :
    ∃ s, Reachable server (fun _ _ => True) s ∧ s.listen = .accept ∧ s.sessionList = [] ∧
      s.alive = n := by
  induction n with
  | zero => exact ⟨Server.boot, Reachable.init rfl, rfl, rfl, rfl⟩
  | succ n ih =>
    obtain ⟨⟨listen, starting, sessionList, ending, nextConn, openConn, session, created⟩, hs,
      rfl, rfl, halive⟩ := ih
    have haccept := reachable_exec (e := .accept true) hs rfl
    have hcount := reachable_exec (e := .count) haccept rfl
    have hmalloc := reachable_exec (e := .malloc true) hcount rfl
    have hname := reachable_exec (e := .getsockname true) hmalloc rfl
    have htask := reachable_exec (e := .taskCreate true) hname rfl
    refine ⟨_, htask, rfl, rfl, ?_⟩
    simp only [Server.alive, List.length_append, List.length_singleton] at halive ⊢
    omega

theorem twenty_one_sessions :
    ∃ s, Reachable server (fun _ _ => True) s ∧ ftpServerMaxLinks < s.alive := by
  obtain ⟨s, hs, -, -, halive⟩ := alive_unbounded 21
  exact ⟨s, hs, by rw [halive]; decide⟩

end DfewOS.Ftp
