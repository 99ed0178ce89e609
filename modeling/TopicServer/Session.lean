import TopicServer.Lib.Lts
import TopicServer.Server
/-!
# Session — the tables agree with the connections

Four structures say who is connected: the poll array, the set of user names, the map of the users, the map of the
descriptors.  `Inv` is how they agree between two steps; `Move` says once everything a step can do while they agree, and
the invariant of every run (`session_invariant`) is read off it.
-/
namespace Ts

open Text (ascii)

def Server.fds (srv : Server) : List Fd := srv.pollStruct.live.map (·.fd)

/-- The descriptors of the clients: all but standard input and the two sockets. -/
def Server.clientFds (srv : Server) : List Fd := srv.fds.drop 3

/-- The places of a loop that goes on; the client loop starts past the first three entries. -/
def Pc.Ok : Pc → Prop
  | .clients i => 3 ≤ i
  | .exited => False
  | _ => True

/-- **The session invariant.** -/
structure Server.Inv (srv : Server) : Prop where
  wf : srv.pollStruct.Wf
  three : 3 ≤ srv.fds.length
  loop : srv.pc.Ok
  nodup : srv.fds.Nodup
  keys : ∀ fd, fd ∈ srv.clientFds ↔ fd ∈ srv.fdsToUsers
  binding : ∀ fd u, srv.fdsToUsers.lookup fd = some u ↔
    ∃ e, srv.userSubscriptions.lookup u = some e ∧ e.active = true ∧ e.fd = fd
  users : ∀ u, u ∈ srv.userSubscriptions ↔ u ∈ srv.userIdSet
  names : ∀ u ∈ srv.userIdSet, u ≠ [] ∧ blank ∉ u

/-! ## What a step can do -/

/-- The three tables say what they said before. -/
structure SameTables (srv srv' : Server) : Prop where
  userIdSet : srv'.userIdSet = srv.userIdSet
  userSubscriptions : ∀ u, srv'.userSubscriptions.lookup u = srv.userSubscriptions.lookup u
  fdsToUsers : srv'.fdsToUsers = srv.fdsToUsers

/-- The command a frame asks for; none when it has no topic or its first word is not a command. -/
def commandOf (buff : Bytes) : Option Command :=
  let (command, topic) := Server.readCommand buff
  if topic = [] then none
  else if command = ascii "unsubscribe" then some ⟨false, topic⟩
  else if command = ascii "subscribe" then some ⟨true, topic⟩
  else none

/-- The subscriptions a name has collected. -/
def Server.subscriptionsOf (srv : Server) (u : Bytes) : List Subscription :=
  ((srv.userSubscriptions.lookup u).map (·.subscriptions)).getD []

/-- The messages and the closes `freeMemory` goes through. -/
def Server.farewell (srv : Server) : List Act :=
  srv.clientFds.map (fun fd => .sendTcp fd (ascii "shutdown")) ++ (srv.fds.drop 1).map .close

/-- The connection gets as far as its login: its option is set, and the poll array has room or can grow. -/
def Server.Serves (srv : Server) (c : Login) : Prop :=
  c.nagleOk = true ∧ (srv.pollStruct.nfds = srv.pollStruct.maxSize → c.reallocOk = true)

/-- **Everything a step can do** while the tables agree. -/
inductive Move (host : Host) (srv : Server) : Event → List Act → Server → Prop
  | exit {ev : Event} {srv' : Server} : srv'.pc = .exited → SameTables srv srv' → srv'.fds = [] →
      (∀ c, ev ≠ .accept c) → (∀ b ok, ev ≠ .recv b ok) → Move host srv ev srv.farewell srv'
  | quiet {ev : Event} {srv' : Server} : srv'.Inv → SameTables srv srv' → srv'.fds = srv.fds →
      (∀ c, ev ≠ .accept (some c)) → (∀ b ok, ev ≠ .recv b ok) → Move host srv ev [] srv'
  | dropped (acts : List Act) {c : Login} {srv' : Server} : srv'.Inv → SameTables srv srv' → srv'.fds = srv.fds →
      ¬ srv.Serves c → acts = [] ∨ acts = [.sendTcp c.connfd (ascii "shutdown")] →
      Move host srv (.accept (some c)) (.accept c.connfd :: acts ++ [.close c.connfd]) srv'
  | refused (acts : List Act) {c : Login} {srv' : Server} : srv'.Inv → SameTables srv srv' → srv'.fds = srv.fds →
      srv.Serves c → (acts = [] ∧ (c.buff.1 = [] ∨ blank ∈ c.buff.1) ∨ acts = [Server.alreadyConnected c.buff] ∧
        ∃ e, srv.userSubscriptions.lookup c.buff.1 = some e ∧ e.active = true) →
      Move host srv (.accept (some c)) (.accept c.connfd :: .recv c.connfd c.buff :: acts ++
        [.sendTcp c.connfd (ascii "shutdown"), .close c.connfd]) srv'
  | login {c : Login} {srv' : Server} : c.buff.1 ≠ [] → blank ∉ c.buff.1 →
      (∀ e, srv.userSubscriptions.lookup c.buff.1 = some e → e.active = false) →
      srv'.pollStruct.Wf → srv'.pc = .poll → srv'.fds = srv.fds ++ [c.connfd] →
      srv'.userIdSet = insert c.buff.1 srv.userIdSet →
      srv'.userSubscriptions =
        srv.userSubscriptions.insert c.buff.1 ⟨srv.subscriptionsOf c.buff, true, c.connfd⟩ →
      srv'.fdsToUsers = srv.fdsToUsers.insert c.connfd c.buff.1 →
      Move host srv (.accept (some c)) [.accept c.connfd, .recv c.connfd c.buff, Server.newClient c.buff c.cli] srv'
  | datagram {d : Option (Bytes × SockaddrIn)} {order : List Bytes} {acts : List Act} {srv' : Server} :
      srv'.Inv → SameTables srv srv' → srv'.fds = srv.fds → Server.udpBranch host srv d order = some (srv', acts) →
      Move host srv (.recvfrom d order) acts srv'
  | logout {ok : Bool} {h : 0 ∉ ([] : Bytes)} {fd : Fd} {u : Bytes} {e : UserIdSubscriptions} {a b : List Fd} {i : Nat}
      {srv' : Server} : srv.fdsToUsers.lookup fd = some u → srv.userSubscriptions.lookup u = some e →
      srv.fds = a ++ fd :: b → 3 ≤ a.length → 3 ≤ i →
      srv'.pollStruct.Wf → srv'.pc = .clients i → srv'.fds = a ++ b →
      srv'.userIdSet = srv.userIdSet →
      srv'.userSubscriptions = srv.userSubscriptions.insert u { e with active := false } →
      srv'.fdsToUsers = srv.fdsToUsers.erase fd →
      Move host srv (.recv ⟨[], h⟩ ok) [.recv fd [], .close fd, Server.disconnected u] srv'
  | ignored {buff : CText} {ok : Bool} {fd : Fd} {srv' : Server} : buff.1 ≠ [] → fd ∈ srv.clientFds →
      (ok = true → commandOf buff = none) → srv'.Inv → SameTables srv srv' → srv'.fds = srv.fds →
      Move host srv (.recv buff ok) [.recv fd buff] srv'
  | command {buff : CText} {fd : Fd} {u : Bytes} {e : UserIdSubscriptions} {c : Command} {s : Subscription} {i : Nat}
      {srv' : Server} : buff.1 ≠ [] → fd ∈ srv.clientFds → srv.fdsToUsers.lookup fd = some u →
      srv.userSubscriptions.lookup u = some e → commandOf buff = some c →
      newSubscription host c.expression c.subscribed = some s → 3 ≤ i →
      srv'.pollStruct = srv.pollStruct → srv'.pc = .clients i → srv'.userIdSet = srv.userIdSet →
      srv'.userSubscriptions = srv.userSubscriptions.insert u { e with subscriptions := e.subscriptions ++ [s] } →
      srv'.fdsToUsers = srv.fdsToUsers → Move host srv (.recv buff true) [.recv fd buff] srv'

namespace Server

theorem Inv.length_fds {srv : Server} (h : srv.Inv) : srv.fds.length = srv.pollStruct.nfds := by
  rw [fds, List.length_map, h.wf.length_live]

theorem Inv.three_le {srv : Server} (h : srv.Inv) : 3 ≤ srv.pollStruct.nfds := h.length_fds ▸ h.three

theorem Inv.of_same {srv srv' : Server} (h : srv.Inv) (hwf : srv'.pollStruct.Wf) (ht : SameTables srv srv')
    (hf : srv'.fds = srv.fds) (hpc : srv'.pc.Ok) : srv'.Inv where
  wf := hwf
  three := hf ▸ h.three
  loop := hpc
  nodup := hf ▸ h.nodup
  keys := by rw [clientFds, hf, ht.fdsToUsers]; exact h.keys
  binding := by simpa only [ht.fdsToUsers, ht.userSubscriptions] using h.binding
  users := by simpa only [ht.userIdSet, Table.mem_iff_lookup, ht.userSubscriptions] using h.users
  names := by rw [ht.userIdSet]; exact h.names

theorem Inv.user {srv : Server} (h : srv.Inv) {fd : Fd} (hfd : fd ∈ srv.clientFds) :
    ∃ u e, srv.fdsToUsers.lookup fd = some u ∧ srv.userSubscriptions.lookup u = some e ∧ e.active = true ∧
      e.fd = fd := by
  obtain ⟨u, hu⟩ := Table.mem_iff_lookup.1 ((h.keys fd).1 hfd)
  obtain ⟨e, he, hact, hefd⟩ := (h.binding fd u).1 hu
  exact ⟨u, e, hu, he, hact, hefd⟩

theorem Inv.user_unique {srv : Server} (h : srv.Inv) {u u' : Bytes} {e e' : UserIdSubscriptions}
    (he : srv.userSubscriptions.lookup u = some e) (hact : e.active = true)
    (he' : srv.userSubscriptions.lookup u' = some e') (hact' : e'.active = true) (hfd : e.fd = e'.fd) : u = u' := by
  have hu := (h.binding e.fd u).2 ⟨e, he, hact, rfl⟩
  have hu' := (h.binding e.fd u').2 ⟨e', he', hact', hfd.symm⟩
  exact Option.some.inj (hu.symm.trans hu')

theorem Inv.fd_unique {srv : Server} (h : srv.Inv) {u : Bytes} {fd fd' : Fd}
    (hu : srv.fdsToUsers.lookup fd = some u) (hu' : srv.fdsToUsers.lookup fd' = some u) : fd = fd' := by
  obtain ⟨e, he, -, rfl⟩ := (h.binding fd u).1 hu
  obtain ⟨e', he', -, rfl⟩ := (h.binding fd' u).1 hu'
  rw [Option.some.inj (he.symm.trans he')]

theorem fds_setRevents {srv : Server} (h : srv.pollStruct.Wf) {revents : List UInt16}
    (hr : revents.length = srv.pollStruct.nfds) : (srv.pollStruct.setRevents revents).live.map (·.fd) = srv.fds := by
  rw [PollAdjustable.setRevents_live h hr, fds, List.map_zipWith]
  refine List.ext_getElem ?_ ?_
  · simp [h.length_live, hr]
  · simp

theorem dispatch_ok {p : PollAdjustable} {pc : Pc} (h : dispatch p = some pc) : pc.Ok := by
  unfold dispatch at h
  obtain ⟨x, -, h⟩ := Option.bind_eq_some_iff.1 h
  split at h
  · cases h
    trivial
  obtain ⟨y, -, h⟩ := Option.bind_eq_some_iff.1 h
  split at h
  · cases h
    trivial
  obtain ⟨z, -, h⟩ := Option.bind_eq_some_iff.1 h
  split at h
  · cases h
    trivial
  · cases h
    exact Nat.le_refl 3

theorem exit_move {host : Host} {srv srv' : Server} (srv₁ : Server) {ev : Event} {acts : List Act} (h : srv.Inv)
    (hp : srv₁.pollStruct = srv.pollStruct) (ht : SameTables srv srv₁) (hacc : ∀ c, ev ≠ .accept c)
    (hrecv : ∀ b ok, ev ≠ .recv b ok) (hstep : exit srv₁ = some (srv', acts)) : Move host srv ev acts srv' := by
  simp only [exit, hp, PollAdjustable.freeMemory_eq h.wf h.three_le, Option.bind_eq_bind, Option.bind_some] at hstep
  obtain ⟨rfl, rfl⟩ := Prod.mk.inj (Option.some.inj hstep)
  have hacts : (srv.pollStruct.live.drop 3).map (fun x => Act.sendTcp x.fd (ascii "shutdown")) ++
      (srv.pollStruct.live.drop 1).map (fun x => Act.close x.fd) = srv.farewell := by
    simp [farewell, clientFds, fds, List.map_drop, Function.comp_def]
  rw [hacts]
  exact .exit rfl ⟨ht.userIdSet, ht.userSubscriptions, ht.fdsToUsers⟩ rfl hacc hrecv

theorem pollStep_move {host : Host} {srv srv' : Server} {revents : Option (List UInt16)} {acts : List Act}
    (h : srv.Inv) (hstep : pollStep srv revents = some (srv', acts)) : Move host srv (.poll revents) acts srv' := by
  cases revents with
  | none => exact exit_move srv h rfl ⟨rfl, fun _ => rfl, rfl⟩ (by simp) (by simp) hstep
  | some revents =>
    by_cases hr : revents.length = srv.pollStruct.nfds
    · cases hd : dispatch (srv.pollStruct.setRevents revents) with
      | none => simp [pollStep, hr, hd] at hstep
      | some pc =>
        obtain ⟨rfl, rfl⟩ : _ ∧ [] = acts := by simpa [pollStep, hr, hd] using hstep
        have hfds := fds_setRevents h.wf hr
        exact .quiet (h.of_same (PollAdjustable.setRevents_wf h.wf hr) ⟨rfl, fun _ => rfl, rfl⟩ hfds (dispatch_ok hd))
          ⟨rfl, fun _ => rfl, rfl⟩ hfds (by simp) (by simp)
    · simp [pollStep, hr] at hstep

theorem stdinBranch_move {host : Host} {srv srv' : Server} {input : Bytes} {acts : List Act} (h : srv.Inv)
    (hstep : stdinBranch srv input = some (srv', acts)) : Move host srv (.fgets input) acts srv' := by
  unfold stdinBranch at hstep
  obtain ⟨⟨b, rest⟩, -, hstep⟩ := Option.bind_eq_some_iff.1 hstep
  obtain ⟨b', -, hstep⟩ := Option.bind_eq_some_iff.1 hstep
  obtain ⟨eq, -, hstep⟩ := Option.bind_eq_some_iff.1 hstep
  split at hstep
  · exact exit_move { srv with stdin_buffer := b' } h rfl ⟨rfl, fun _ => rfl, rfl⟩ (by simp) (by simp) hstep
  · obtain ⟨rfl, rfl⟩ := Prod.mk.inj (Option.some.inj hstep)
    exact .quiet (h.of_same h.wf ⟨rfl, fun _ => rfl, rfl⟩ rfl trivial) ⟨rfl, fun _ => rfl, rfl⟩ rfl (by simp) (by simp)

theorem refuse_fds {srv : Server} {p : PollAdjustable} {x : Pollfd} (connfd : Fd) (hwf : p.Wf)
    (hlive : p.live = srv.pollStruct.live ++ [x]) (srv₁ : Server) (hp : srv₁.pollStruct = p) :
    (refuse srv₁ connfd).1.pollStruct.Wf ∧ (refuse srv₁ connfd).1.fds = srv.fds := by
  subst hp
  refine ⟨PollAdjustable.removeLast_wf hwf connfd, ?_⟩
  have hdrop := PollAdjustable.removeLast_live hwf connfd
  rw [hlive, List.dropLast_concat] at hdrop
  exact congrArg (List.map (·.fd)) hdrop

theorem acceptBranch_move {host : Host} {srv srv' : Server} {c : Option Login} {acts : List Act} (h : srv.Inv)
    (hstep : acceptBranch host srv c = some (srv', acts)) : Move host srv (.accept c) acts srv' := by
  cases c with
  | none =>
    obtain ⟨rfl, rfl⟩ := Prod.mk.inj (Option.some.inj hstep)
    exact .quiet (h.of_same h.wf ⟨rfl, fun _ => rfl, rfl⟩ rfl trivial) ⟨rfl, fun _ => rfl, rfl⟩ rfl (by simp) (by simp)
  | some c =>
    by_cases hnagle : c.nagleOk = true
    swap
    · obtain ⟨rfl, rfl⟩ : _ ∧ [Act.accept c.connfd, .close c.connfd] = acts := by
        simpa [acceptBranch, hnagle] using hstep
      exact .dropped [] (h.of_same h.wf ⟨rfl, fun _ => rfl, rfl⟩ rfl trivial) ⟨rfl, fun _ => rfl, rfl⟩ rfl
        (fun hs => hnagle hs.1) (Or.inl rfl)
    rcases PollAdjustable.addFd_cases host h.wf c.connfd c.reallocOk with
      ⟨hadd, hfull, hno⟩ | ⟨hroom, p, r, hadd, hwf, hlive⟩
    · obtain ⟨rfl, rfl⟩ : _ ∧ [Act.accept c.connfd, .sendTcp c.connfd (ascii "shutdown"), .close c.connfd] = acts := by
        simpa [acceptBranch, hnagle, hadd] using hstep
      exact .dropped [_] (h.of_same h.wf ⟨rfl, fun _ => rfl, rfl⟩ rfl trivial) ⟨rfl, fun _ => rfl, rfl⟩ rfl
        (fun hs => absurd (hs.2 hfull) (by simp [hno])) (Or.inr rfl)
    simp only [acceptBranch, hnagle, hadd, Option.bind_eq_bind, Option.bind_some, Bool.not_true, Bool.false_eq_true,
      if_false, if_neg (show (1 : Int) ≠ -1 by decide)] at hstep
    obtain ⟨rfl, rfl⟩ := Prod.mk.inj (Option.some.inj hstep)
    have hfds : p.live.map (·.fd) = srv.fds ++ [c.connfd] := by rw [hlive, List.map_append]; rfl
    have hrefuse : ∀ srv', srv' = (refuse { srv with pollStruct := p, pc := .poll } c.connfd).1 →
        srv'.Inv ∧ SameTables srv srv' ∧ srv'.fds = srv.fds := by
      rintro srv' rfl
      obtain ⟨hrwf, hrfds⟩ := refuse_fds c.connfd hwf hlive { srv with pollStruct := p, pc := .poll } rfl
      have hsame : SameTables srv (refuse { srv with pollStruct := p, pc := .poll } c.connfd).1 :=
        ⟨rfl, fun _ => rfl, rfl⟩
      exact ⟨h.of_same hrwf hsame hrfds trivial, hsame, hrfds⟩
    unfold login
    by_cases hname : c.buff.1 ≠ [] ∧ blank ∉ c.buff.1
    swap
    · -- no name: refused
      rw [if_neg hname]
      obtain ⟨hinv, hsame, hrfds⟩ := hrefuse _ rfl
      refine .refused [] hinv hsame hrfds ⟨hnagle, hroom⟩ (Or.inl ⟨rfl, ?_⟩)
      rwa [not_and_or, not_not, not_not] at hname
    rw [if_pos hname]
    by_cases hnew : c.buff.1 ∉ srv.userIdSet
    · -- a new name
      rw [if_pos hnew]
      have hnone : srv.userSubscriptions.lookup c.buff.1 = none :=
        AList.lookup_eq_none.2 (fun hm => hnew ((h.users _).1 hm))
      have hsubs : srv.subscriptionsOf c.buff = [] := by simp [subscriptionsOf, hnone]
      exact .login hname.1 hname.2 (by simp [hnone]) hwf rfl hfds rfl (by simp [hsubs, UserIdSubscriptions.mk']) rfl
    rw [if_neg hnew]
    rw [not_not] at hnew
    obtain ⟨e, he⟩ := Table.mem_iff_lookup.1 ((h.users _).2 hnew)
    simp only [Table.entry_of_lookup he]
    by_cases hact : e.active = true
    · -- the name is in use: refused
      rw [if_neg (by simp [hact])]
      obtain ⟨hinv, hsame, hrfds⟩ := hrefuse _ rfl
      exact .refused [alreadyConnected c.buff] hinv hsame hrfds ⟨hnagle, hroom⟩ (Or.inr ⟨rfl, e, he, hact⟩)
    · -- the name comes back
      rw [if_pos (by simp [hact])]
      refine .login hname.1 hname.2 ?_ hwf rfl hfds (Finset.insert_eq_of_mem hnew).symm ?_ rfl
      · rintro e' he'
        rw [he, Option.some.injEq] at he'
        simpa [← he'] using hact
      · simp [subscriptionsOf, he]

theorem udpBranch_same {host : Host} {srv srv' : Server} {d : Option (Bytes × SockaddrIn)} {order : List Bytes}
    {acts : List Act} (hstep : udpBranch host srv d order = some (srv', acts)) : srv' = { srv with pc := .poll } := by
  unfold udpBranch at hstep
  obtain ⟨toSend, -, hstep⟩ := Option.bind_eq_some_iff.1 hstep
  split at hstep
  · obtain ⟨topic, -, hstep⟩ := Option.bind_eq_some_iff.1 hstep
    obtain ⟨acts', -, hstep⟩ := Option.bind_eq_some_iff.1 hstep
    exact (Prod.mk.inj (Option.some.inj hstep)).1.symm
  · exact (Prod.mk.inj (Option.some.inj hstep)).1.symm

theorem readCommand_piece (s : Bytes) : (readCommand s).2 <:+: s := by
  have hrest : (Text.word s).2 <:+ s :=
    (List.dropWhile_suffix _).trans (List.dropWhile_suffix _)
  exact (Text.word_fst_piece _).trans hrest.isInfix

/-- What becomes of the server when a frame of `userId` has been gone through: a command adds one entry, anything else
changes nothing. -/
def Done (host : Host) (srv : Server) (userId : Bytes) (e : UserIdSubscriptions) (buff : Bytes) (ok : Bool)
    (srv' : Server) : Prop :=
  (SameTables srv srv' ∧ srv'.pollStruct = srv.pollStruct ∧ srv'.pc = srv.pc ∧ (ok = true → commandOf buff = none)) ∨
    ok = true ∧ ∃ c s, commandOf buff = some c ∧ newSubscription host c.expression c.subscribed = some s ∧
      srv' = { srv with
        userSubscriptions := srv.userSubscriptions.insert userId { e with subscriptions := e.subscriptions ++ [s] } }

theorem addAction_done {host : Host} {srv srv' : Server} {userId buff : Bytes} {e : UserIdSubscriptions}
    (he : srv.userSubscriptions.lookup userId = some e) {sub : Bool}
    (h : (addAction host e (readCommand buff).2 sub).bind (fun u => some { srv with
      userSubscriptions := srv.userSubscriptions.insert userId u }) = some srv')
    (hcmd : (readCommand buff).2 ≠ [] → commandOf buff = some ⟨sub, (readCommand buff).2⟩) :
    Done host srv userId e buff true srv' := by
  obtain ⟨e', he', h⟩ := Option.bind_eq_some_iff.1 h
  obtain rfl := Option.some.inj h
  rcases addAction_cases he' with ⟨hnil, rfl⟩ | ⟨hne, s, hs, rfl⟩
  · refine Or.inl ⟨⟨rfl, fun u => ?_, rfl⟩, rfl, rfl, fun _ => by simp [commandOf, hnil]⟩
    rw [Table.lookup_insert_if]
    split
    · rename_i hu
      rw [hu, he]
    · rfl
  · exact Or.inr ⟨rfl, _, s, hcmd hne, hs, rfl⟩

theorem command_done {host : Host} (srv : Server) {srv' : Server} {userId buff : Bytes} {ok : Bool}
    {e : UserIdSubscriptions}
    (h0 : 0 ∉ buff) (he : srv.userSubscriptions.lookup userId = some e)
    (h : command host srv userId buff ok = some srv') : Done host srv userId e buff ok srv' := by
  have htopic : 0 ∉ (readCommand buff).2 := fun hm => h0 ((readCommand_piece buff).subset hm)
  cases ok with
  | false =>
    obtain rfl : srv = srv' := by simpa [command] using h
    exact Or.inl ⟨⟨rfl, fun _ => rfl, rfl⟩, rfl, rfl, fun h => absurd h (by simp)⟩
  | true =>
    have hhold := Mem.holds_terminated htopic []
    simp only [command, hhold.strdup_eq, hhold.cstr_eq, Table.entry_of_lookup he, Bool.not_true, Bool.false_eq_true,
      if_false, Option.bind_eq_bind, Option.bind_some] at h
    split at h
    · rename_i hun
      exact addAction_done he h (fun hne => by simp [commandOf, hne, hun])
    · rename_i hun
      split at h
      · rename_i hsub
        have hword : ascii "subscribe" ≠ ascii "unsubscribe" := by decide
        exact addAction_done he h (fun hne => by simp [commandOf, hne, hsub, hword])
      · rename_i hsub
        obtain rfl := Option.some.inj h
        exact Or.inl ⟨⟨rfl, fun _ => rfl, rfl⟩, rfl, rfl, fun _ => by simp [commandOf, hun, hsub]⟩

theorem clientData_move {host : Host} {srv srv' : Server} {buff : CText} {ok : Bool} {acts : List Act} {i j : Nat}
    {x : Pollfd} (h : srv.Inv) (hi : 3 ≤ i) (hj : 3 ≤ j) (hx : srv.pollStruct.live[i]? = some x)
    (hstep : clientData host { srv with pc := .clients j } x.fd buff ok = some (srv', acts)) :
    Move host srv (.recv buff ok) acts srv' := by
  obtain ⟨hilt, hxi⟩ := List.getElem?_eq_some_iff.1 hx
  have hsplit : srv.pollStruct.live = srv.pollStruct.live.take i ++ x :: srv.pollStruct.live.drop (i + 1) := by
    rw [← hxi, List.cons_getElem_drop_succ, List.take_append_drop]
  have hfds : srv.fds = (srv.pollStruct.live.take i).map (·.fd) ++
      x.fd :: (srv.pollStruct.live.drop (i + 1)).map (·.fd) := by
    conv => lhs; rw [fds, hsplit, List.map_append, List.map_cons]
  have halen : ((srv.pollStruct.live.take i).map (·.fd)).length = i := by
    rw [List.length_map, List.length_take]
    omega
  have hclient : x.fd ∈ srv.clientFds := by
    rw [clientFds, hfds, List.drop_append_of_le_length (by omega)]
    exact List.mem_append_right _ List.mem_cons_self
  obtain ⟨u, e, hu, he, hact, hefd⟩ := h.user hclient
  simp only [clientData, Table.entry_of_lookup hu] at hstep
  by_cases hb : buff.1 = []
  · obtain ⟨buff, h0⟩ := buff
    subst hb
    -- the entry is the first one of its descriptor
    have hfirst : ∀ y ∈ srv.pollStruct.live.take i, y.fd ≠ x.fd := by
      intro y hy hyx
      have hnd := h.nodup
      rw [hfds, List.nodup_append] at hnd
      exact hnd.2.2 _ (List.mem_map_of_mem hy) _ List.mem_cons_self hyx
    obtain ⟨p, hrem, hwf, hlive⟩ := PollAdjustable.remove_spec h.wf hsplit hfirst
    simp only [hrem, Table.entry_of_lookup he, Option.bind_eq_bind, Option.bind_some, if_true] at hstep
    obtain ⟨rfl, rfl⟩ := Prod.mk.inj (Option.some.inj hstep)
    exact .logout hu he hfds (by omega) hj hwf rfl (by rw [fds, hlive, List.map_append]) rfl rfl rfl
  · rw [if_neg hb] at hstep
    obtain ⟨srv₁, hcmd, hstep⟩ := Option.bind_eq_some_iff.1 hstep
    obtain ⟨rfl, rfl⟩ := Prod.mk.inj (Option.some.inj hstep)
    rcases command_done { srv with pc := .clients j } buff.2 he hcmd with
      ⟨hsame, hp, hpc, hnone⟩ | ⟨rfl, c, s, hc, hs, rfl⟩
    · have hsame : SameTables srv srv₁ := ⟨hsame.userIdSet, hsame.userSubscriptions, hsame.fdsToUsers⟩
      have hfds' : srv₁.fds = srv.fds := by rw [fds, hp, fds]
      exact .ignored hb hclient hnone (h.of_same (hp ▸ h.wf) hsame hfds' (hpc ▸ hj)) hsame hfds'
    · exact .command hb hclient hu he hc hs hj rfl rfl rfl rfl rfl

theorem clientStep_move {host : Host} {srv srv' : Server} {ev : Event} {acts : List Act} {i : Nat} (h : srv.Inv)
    (hi : 3 ≤ i) (hstep : clientStep host srv i ev = some (srv', acts)) : Move host srv ev acts srv' := by
  cases ev with
  | next =>
    have hquiet : ∀ pc : Pc, pc.Ok → Move host srv .next [] { srv with pc } := fun pc hpc =>
      .quiet (h.of_same h.wf ⟨rfl, fun _ => rfl, rfl⟩ rfl hpc) ⟨rfl, fun _ => rfl, rfl⟩ rfl (by simp) (by simp)
    by_cases hend : srv.pollStruct.nfds ≤ i
    · obtain ⟨rfl, rfl⟩ : _ ∧ [] = acts := by simpa [clientStep, hend] using hstep
      exact hquiet .poll trivial
    · simp only [clientStep, if_neg hend, Option.bind_eq_bind] at hstep
      obtain ⟨-, -, hstep⟩ := Option.bind_eq_some_iff.1 hstep
      obtain ⟨x, -, hstep⟩ := Option.bind_eq_some_iff.1 hstep
      split at hstep
      · cases hstep
      · obtain ⟨rfl, rfl⟩ := Prod.mk.inj (Option.some.inj hstep)
        exact hquiet (.clients (i + 1)) (Nat.le_succ_of_le hi)
  | recv buff ok =>
    by_cases hend : srv.pollStruct.nfds ≤ i
    · simp [clientStep, hend] at hstep
    · simp only [clientStep, if_neg hend, Option.bind_eq_bind] at hstep
      obtain ⟨-, -, hstep⟩ := Option.bind_eq_some_iff.1 hstep
      obtain ⟨x, hx, hstep⟩ := Option.bind_eq_some_iff.1 hstep
      split at hstep
      · cases hstep
      · rw [PollAdjustable.Wf.getElem?_live (by omega)] at hx
        exact clientData_move h hi (by omega) hx hstep
  | _ => cases hstep

end Server

/-- **A step of the server is one of the moves.** -/
theorem step_move {host : Host} {srv srv' : Server} {ev : Event} {acts : List Act} (h : srv.Inv)
    (hstep : srv.step host ev = some (srv', acts)) : Move host srv ev acts srv' := by
  unfold Server.step at hstep
  split at hstep
  · exact Server.pollStep_move h hstep
  · exact Server.stdinBranch_move h hstep
  · exact Server.acceptBranch_move h hstep
  · split at hstep
    · obtain rfl := Server.udpBranch_same hstep
      exact .datagram (h.of_same h.wf ⟨rfl, fun _ => rfl, rfl⟩ rfl trivial) ⟨rfl, fun _ => rfl, rfl⟩ rfl hstep
    · cases hstep
  · rename_i i hpc
    have hi : 3 ≤ i := by
      have := h.loop
      rwa [hpc] at this
    exact Server.clientStep_move h hi hstep
  · cases hstep

/-! ## What becomes of the subscriptions -/

theorem subscriptionsOf_of_lookup {srv : Server} {u : Bytes} {e : UserIdSubscriptions}
    (h : srv.userSubscriptions.lookup u = some e) : srv.subscriptionsOf u = e.subscriptions := by
  rw [Server.subscriptionsOf, h]
  rfl

theorem SameTables.subscriptionsOf {srv srv' : Server} (h : SameTables srv srv') (u : Bytes) :
    srv'.subscriptionsOf u = srv.subscriptionsOf u := by
  rw [Server.subscriptionsOf, h.userSubscriptions, Server.subscriptionsOf]

theorem subscriptionsOf_insert {srv srv' : Server} {u : Bytes} {e : UserIdSubscriptions}
    (h : srv'.userSubscriptions = srv.userSubscriptions.insert u e) (v : Bytes) :
    srv'.subscriptionsOf v = if v = u then e.subscriptions else srv.subscriptionsOf v := by
  rw [Server.subscriptionsOf, h, Table.lookup_insert_if]
  split <;> rfl

theorem subscriptionsOf_kept {srv srv' : Server} {u : Bytes} {e : UserIdSubscriptions}
    (h : srv'.userSubscriptions = srv.userSubscriptions.insert u e) (he : e.subscriptions = srv.subscriptionsOf u)
    (v : Bytes) : srv'.subscriptionsOf v = srv.subscriptionsOf v := by
  rw [subscriptionsOf_insert h]
  split
  · rename_i hv
    rw [he, hv]
  · rfl

theorem subscriptionsOf_added {srv srv' : Server} {u : Bytes} {e : UserIdSubscriptions} {s : Subscription}
    (h : srv'.userSubscriptions = srv.userSubscriptions.insert u { e with subscriptions := e.subscriptions ++ [s] })
    (he : srv.userSubscriptions.lookup u = some e) (v : Bytes) :
    srv'.subscriptionsOf v = srv.subscriptionsOf v ++ if v = u then [s] else [] := by
  rw [subscriptionsOf_insert h]
  split
  · rename_i hv
    rw [hv, subscriptionsOf_of_lookup he]
  · rw [List.append_nil]

theorem clientFds_congr {srv srv' : Server} (h : srv'.fds = srv.fds) : srv'.clientFds = srv.clientFds := by
  unfold Server.clientFds
  rw [h]

theorem commandOf_eq_some {buff : Bytes} {c : Command} (h : commandOf buff = some c) :
    c.expression = (Server.readCommand buff).2 ∧ c.expression ≠ [] := by
  simp only [commandOf] at h
  split at h
  · cases h
  · rename_i hne
    split at h
    · cases h
      exact ⟨rfl, hne⟩
    · split at h
      · cases h
        exact ⟨rfl, hne⟩
      · cases h

/-- **Only a command of the user's own adds a subscription**, and nothing takes one away. -/
theorem Move.subscriptionsOf {host : Host} {srv srv' : Server} {ev : Event} {acts : List Act}
    (hm : Move host srv ev acts srv') (v : Bytes) : srv'.subscriptionsOf v = srv.subscriptionsOf v ∨
      ∃ buff fd c s, ev = .recv buff true ∧ acts = [.recv fd buff] ∧ srv.fdsToUsers.lookup fd = some v ∧
        commandOf buff = some c ∧ newSubscription host c.expression c.subscribed = some s ∧
        srv'.subscriptionsOf v = srv.subscriptionsOf v ++ [s] := by
  cases hm with
  | exit _ hsame => exact Or.inl (hsame.subscriptionsOf v)
  | quiet _ hsame => exact Or.inl (hsame.subscriptionsOf v)
  | dropped _ _ hsame => exact Or.inl (hsame.subscriptionsOf v)
  | refused _ _ hsame => exact Or.inl (hsame.subscriptionsOf v)
  | login _ _ _ _ _ _ _ hsubs => exact Or.inl (subscriptionsOf_kept hsubs rfl v)
  | datagram _ hsame => exact Or.inl (hsame.subscriptionsOf v)
  | logout _ he _ _ _ _ _ _ _ hsubs =>
    exact Or.inl (subscriptionsOf_kept hsubs (subscriptionsOf_of_lookup he).symm v)
  | ignored _ _ _ _ hsame => exact Or.inl (hsame.subscriptionsOf v)
  | command _ _ hu he hc hs _ _ _ _ hsubs =>
    rw [subscriptionsOf_added hsubs he]
    split
    · rename_i hv
      exact Or.inr ⟨_, _, _, _, rfl, rfl, hv ▸ hu, hc, hs, rfl⟩
    · exact Or.inl (List.append_nil _)

/-! ## The invariant is kept -/

theorem clientFds_append {srv : Server} {a b : List Fd} (h : srv.fds = a ++ b) (ha : 3 ≤ a.length) :
    srv.clientFds = a.drop 3 ++ b := by
  rw [Server.clientFds, h, List.drop_append_of_le_length ha]

theorem login_inv {srv srv' : Server} {u : Bytes} {fd : Fd} {subs : List Subscription} (h : srv.Inv) (hne : u ≠ [])
    (hsp : blank ∉ u) (hoff : ∀ e, srv.userSubscriptions.lookup u = some e → e.active = false) (hfresh : fd ∉ srv.fds)
    (hwf : srv'.pollStruct.Wf) (hpc : srv'.pc = .poll) (hfds : srv'.fds = srv.fds ++ [fd])
    (hset : srv'.userIdSet = insert u srv.userIdSet)
    (hsubs : srv'.userSubscriptions = srv.userSubscriptions.insert u ⟨subs, true, fd⟩)
    (husers : srv'.fdsToUsers = srv.fdsToUsers.insert fd u) : srv'.Inv where
  wf := hwf
  three := by
    rw [hfds, List.length_append]
    exact Nat.le_add_right_of_le h.three
  loop := by rw [hpc]; trivial
  nodup := by
    rw [hfds, List.nodup_append]
    refine ⟨h.nodup, List.nodup_singleton _, fun x hx y hy hxy => ?_⟩
    exact hfresh (List.mem_singleton.1 hy ▸ hxy ▸ hx)
  keys := fun x => by
    have hold : srv.clientFds = srv.fds.drop 3 := rfl
    rw [clientFds_append hfds h.three, husers, AList.mem_insert, ← h.keys, hold, List.mem_append, List.mem_singleton,
      or_comm]
  binding := fun x v => by
    have hunbound : ∀ v e, srv.userSubscriptions.lookup v = some e → e.active = true → e.fd ≠ fd := by
      rintro v e he hact rfl
      have hkey := Table.mem_iff_lookup.2 ⟨v, (h.binding e.fd v).2 ⟨e, he, hact, rfl⟩⟩
      exact hfresh (List.mem_of_mem_drop ((h.keys _).2 hkey))
    rw [husers, hsubs, Table.lookup_insert_if, Table.lookup_insert_if]
    by_cases hx : x = fd
    · by_cases hv : v = u
      · simp [hx, hv]
      · simp only [hx, hv, if_true, if_false]
        constructor
        · intro huv
          exact absurd (Option.some.inj huv).symm hv
        · rintro ⟨e, he, hact, hefd⟩
          exact absurd hefd (hunbound v e he hact)
    · by_cases hv : v = u
      · simp only [hx, hv, if_true, if_false, h.binding x u]
        constructor
        · rintro ⟨e, he, hact, -⟩
          exact absurd hact (by simp [hoff e he])
        · rintro ⟨e, he, -, hefd⟩
          obtain rfl := Option.some.inj he
          exact absurd hefd.symm hx
      · simp only [hx, hv, if_false]
        exact h.binding x v
  users := fun v => by rw [hsubs, hset, AList.mem_insert, Finset.mem_insert, h.users]
  names := fun v hv => by
    rw [hset, Finset.mem_insert] at hv
    rcases hv with rfl | hv
    · exact ⟨hne, hsp⟩
    · exact h.names v hv

theorem logout_inv {srv srv' : Server} {u : Bytes} {fd : Fd} {e : UserIdSubscriptions} {a b : List Fd} {i : Nat}
    (h : srv.Inv) (hu : srv.fdsToUsers.lookup fd = some u) (he : srv.userSubscriptions.lookup u = some e)
    (hsplit : srv.fds = a ++ fd :: b) (ha : 3 ≤ a.length) (hi : 3 ≤ i) (hwf : srv'.pollStruct.Wf)
    (hpc : srv'.pc = .clients i) (hfds : srv'.fds = a ++ b) (hset : srv'.userIdSet = srv.userIdSet)
    (hsubs : srv'.userSubscriptions = srv.userSubscriptions.insert u { e with active := false })
    (husers : srv'.fdsToUsers = srv.fdsToUsers.erase fd) : srv'.Inv where
  wf := hwf
  three := by
    rw [hfds, List.length_append]
    exact Nat.le_add_right_of_le ha
  loop := by rw [hpc]; exact hi
  nodup := by
    rw [hfds]
    exact (hsplit ▸ h.nodup).sublist (List.Sublist.append_left (List.sublist_cons_self fd b) a)
  keys := fun x => by
    have hnd : (a.drop 3 ++ fd :: b).Nodup := by
      rw [← clientFds_append hsplit ha]
      exact h.nodup.sublist (List.drop_sublist 3 _)
    have hnot : fd ∉ a.drop 3 ++ b := by
      rw [List.nodup_middle, List.nodup_cons] at hnd
      exact hnd.1
    rw [clientFds_append hfds ha, husers, AList.mem_erase, ← h.keys, clientFds_append hsplit ha]
    by_cases hx : x = fd
    · simp only [hx, ne_eq, not_true_eq_false, false_and, iff_false]
      exact hnot
    · simp [hx]
  binding := fun x v => by
    obtain ⟨e', he', hact, hefd⟩ := (h.binding fd u).1 hu
    rw [he, Option.some.injEq] at he'
    subst he'
    rw [husers, hsubs, Table.lookup_erase_if, Table.lookup_insert_if]
    by_cases hx : x = fd
    · by_cases hv : v = u
      · simp [hx, hv]
      · simp only [hx, hv, if_true, if_false, reduceCtorEq, false_iff]
        -- another user active on `fd` would be its user
        intro hother
        have := (h.binding fd v).2 hother
        rw [hu, Option.some.injEq] at this
        exact hv this.symm
    · by_cases hv : v = u
      · simp only [hx, hv, if_true, if_false, h.binding x u, he]
        constructor
        · rintro ⟨e', he', -, hefd'⟩
          obtain rfl := Option.some.inj he'
          exact absurd (hefd'.symm.trans hefd) hx
        · rintro ⟨e', he', hact', -⟩
          obtain rfl := Option.some.inj he'
          cases hact'
      · simp only [hx, hv, if_false]
        exact h.binding x v
  users := fun v => by
    rw [hsubs, hset, AList.mem_insert, ← h.users]
    exact or_iff_right_of_imp (fun hv => hv ▸ Table.mem_iff_lookup.2 ⟨e, he⟩)
  names := hset ▸ h.names

theorem command_inv {srv srv' : Server} {u : Bytes} {e : UserIdSubscriptions} {subs : List Subscription} {i : Nat}
    (h : srv.Inv) (he : srv.userSubscriptions.lookup u = some e) (hi : 3 ≤ i)
    (hp : srv'.pollStruct = srv.pollStruct) (hpc : srv'.pc = .clients i) (hset : srv'.userIdSet = srv.userIdSet)
    (hsubs : srv'.userSubscriptions = srv.userSubscriptions.insert u { e with subscriptions := subs })
    (husers : srv'.fdsToUsers = srv.fdsToUsers) : srv'.Inv where
  wf := hp ▸ h.wf
  three := by rw [Server.fds, hp]; exact h.three
  loop := by rw [hpc]; exact hi
  nodup := by rw [Server.fds, hp]; exact h.nodup
  keys := by rw [Server.clientFds, Server.fds, hp, husers]; exact h.keys
  binding := fun x v => by
    rw [husers, hsubs, Table.lookup_insert_if, h.binding]
    by_cases hv : v = u
    · subst hv
      simp [he]
    · rw [if_neg hv]
  users := fun v => by
    rw [hsubs, hset, AList.mem_insert, ← h.users]
    exact or_iff_right_of_imp (fun hv => hv ▸ Table.mem_iff_lookup.2 ⟨e, he⟩)
  names := hset ▸ h.names

/-- **Every move keeps the invariant**, until the server ends. -/
theorem Move.inv {host : Host} {srv srv' : Server} {ev : Event} {acts : List Act} (h : srv.Inv)
    (hfresh : ∀ fd, Act.accept fd ∈ acts → fd ∉ srv.fds) (hm : Move host srv ev acts srv') :
    srv'.pc = .exited ∨ srv'.Inv := by
  cases hm with
  | exit hpc => exact Or.inl hpc
  | quiet hi => exact Or.inr hi
  | dropped _ hi => exact Or.inr hi
  | refused _ hi => exact Or.inr hi
  | login hne hsp hoff hwf hpc hfds hset hsubs husers =>
    exact Or.inr (login_inv h hne hsp hoff (hfresh _ List.mem_cons_self) hwf hpc hfds hset hsubs husers)
  | datagram hi => exact Or.inr hi
  | logout hu he hsplit ha hi hwf hpc hfds hset hsubs husers =>
    exact Or.inr (logout_inv h hu he hsplit ha hi hwf hpc hfds hset hsubs husers)
  | ignored _ _ _ hi => exact Or.inr hi
  | command _ _ _ he _ _ hi hp hpc hset hsubs husers =>
    exact Or.inr (command_inv h he hi hp hpc hset hsubs husers)

/-! ## Runs -/

/-- The server in its process: which descriptors are open. -/
structure Proc where
  server : Server
  opened : Finset Fd

def kernelAct (opened : Finset Fd) : Act → Finset Fd
  | .accept fd => insert fd opened
  | .close fd => opened.erase fd
  | _ => opened

/-- A step of the process whose sends all go out; those that do not are in `Life.Step`.  `accept` never gives a descriptor
that is open. -/
structure Proc.Step (host : Host) (p : Proc) (e : Event × List Act) (q : Proc) : Prop where
  step : p.server.step host e.1 = some (q.server, e.2)
  fresh : ∀ fd, Act.accept fd ∈ e.2 → fd ∉ p.opened
  opened : q.opened = e.2.foldl kernelAct p.opened

def Proc.next (host : Host) (p : Proc) (ev : Event) : Option ((Event × List Act) × Proc) :=
  (p.server.step host ev).bind fun (server, acts) =>
    if ∀ fd ∈ p.opened, Act.accept fd ∉ acts then some ((ev, acts), ⟨server, acts.foldl kernelAct p.opened⟩) else none

theorem Proc.next_step {host : Host} (p : Proc) (ev : Event) (e : Event × List Act) (q : Proc)
    (h : p.next host ev = some (e, q)) : p.Step host e q := by
  obtain ⟨⟨server, acts⟩, hstep, h⟩ := Option.bind_eq_some_iff.1 h
  by_cases hfresh : ∀ fd ∈ p.opened, Act.accept fd ∉ acts
  · simp only [if_pos hfresh] at h
    obtain ⟨rfl, rfl⟩ := Prod.mk.inj (Option.some.inj h)
    exact ⟨hstep, fun fd hfd hmem => hfresh fd hmem hfd, rfl⟩
  · simp [if_neg hfresh] at h

theorem Proc.next_label {host : Host} {p q : Proc} {ev : Event} {e : Event × List Act}
    (h : p.next host ev = some (e, q)) : e.1 = ev := by
  obtain ⟨⟨server, acts⟩, -, h⟩ := Option.bind_eq_some_iff.1 h
  by_cases hfresh : ∀ fd ∈ p.opened, Act.accept fd ∉ acts
  · simp only [if_pos hfresh] at h
    rw [← (Prod.mk.inj (Option.some.inj h)).1]
  · simp [if_neg hfresh] at h

def Proc.boot (host : Host) (listenfd udp_socket : Fd) : Option Proc :=
  (Server.start host listenfd udp_socket).map (⟨·, {0, listenfd, udp_socket}⟩)

/-- The process as it enters the main loop, with its two sockets. -/
def Proc.Start (host : Host) (p : Proc) : Prop :=
  ∃ listenfd udp_socket, listenfd ≠ 0 ∧ udp_socket ≠ 0 ∧ listenfd ≠ udp_socket ∧
    Proc.boot host listenfd udp_socket = some p

theorem start_inv {host : Host} {p : Proc} (h : p.Start host) :
    p.server.Inv ∧ (∀ fd ∈ p.server.fds, fd ∈ p.opened) ∧ p.server.pc = .poll ∧ p.server.userSubscriptions = ∅ ∧
      p.server.fdsToUsers = ∅ := by
  obtain ⟨l, u, hl, hu, hlu, hboot⟩ := h
  obtain ⟨srv, hstart, rfl⟩ := Option.map_eq_some_iff.1 hboot
  have hadd : ∀ {q : PollAdjustable} (fd : Fd), q.Wf →
      ∃ q' r, q.addFd host fd true = some (1, q') ∧ q'.Wf ∧ q'.live = q.live ++ [⟨fd, pollin, r⟩] := by
    intro q fd hq
    rcases PollAdjustable.addFd_cases host hq fd true with ⟨-, -, h⟩ | ⟨-, h⟩
    · cases h
    · exact h
  obtain ⟨p₁, r₁, hadd₁, hwf₁, hlive₁⟩ := hadd 0 (PollAdjustable.initPoll_wf host)
  obtain ⟨p₂, r₂, hadd₂, hwf₂, hlive₂⟩ := hadd l hwf₁
  obtain ⟨p₃, r₃, hadd₃, hwf₃, hlive₃⟩ := hadd u hwf₂
  simp only [Server.start, hadd₁, hadd₂, hadd₃, Option.bind_eq_bind, Option.bind_some] at hstart
  have hserver := (Option.some.inj hstart).symm
  have hfds : srv.fds = [0, l, u] := by
    rw [hserver, Server.fds, hlive₃, hlive₂, hlive₁, PollAdjustable.initPoll_live]
    rfl
  have htables : srv.userSubscriptions = ∅ ∧ srv.fdsToUsers = ∅ ∧ srv.userIdSet = ∅ := by
    rw [hserver]
    exact ⟨rfl, rfl, rfl⟩
  refine ⟨?_, ?_, by rw [hserver], htables.1, htables.2.1⟩
  · exact
      { wf := by rw [hserver]; exact hwf₃
        three := by rw [hfds]; simp
        loop := by rw [hserver]; trivial
        nodup := by rw [hfds]; simp [Ne.symm hl, Ne.symm hu, hlu]
        keys := fun fd => by rw [Server.clientFds, hfds, htables.2.1]; simp
        binding := fun fd v => by rw [htables.1, htables.2.1]; simp
        users := fun v => by rw [htables.1, htables.2.2]; simp
        names := fun v hv => by rw [htables.2.2] at hv; simp at hv }
  · intro fd hfd
    rw [hfds] at hfd
    simpa using hfd

def Proc.Inv (p : Proc) : Prop :=
  p.server.pc = .exited ∨ p.server.Inv ∧ ∀ fd ∈ p.server.fds, fd ∈ p.opened

theorem step_exited {host : Host} {srv : Server} (h : srv.pc = .exited) (ev : Event) : srv.step host ev = none := by
  unfold Server.step
  rw [h]

theorem deliver_sends {host : Host} {subs : Table.Map Bytes UserIdSubscriptions} {toSend topic : Bytes} :
    ∀ {order : List Bytes} {acts : List Act}, Server.deliver host subs toSend topic order = some acts →
      ∀ a ∈ acts, ∃ fd, a = .sendTcp fd toSend
  | [], acts, h => by
    obtain rfl := Option.some.inj h
    simp
  | u :: order, acts, h => by
    obtain ⟨value, -, h⟩ := Option.bind_eq_some_iff.1 h
    obtain ⟨res, -, h⟩ := Option.bind_eq_some_iff.1 h
    obtain ⟨acts', hrest, h⟩ := Option.bind_eq_some_iff.1 h
    obtain rfl := Option.some.inj h
    have ih := deliver_sends hrest
    cases res with
    | false => exact ih
    | true =>
      intro a ha
      rcases List.mem_cons.1 ha with rfl | ha
      · exact ⟨_, rfl⟩
      · exact ih a ha

theorem udpBranch_sends {host : Host} {srv srv' : Server} {d : Option (Bytes × SockaddrIn)} {order : List Bytes}
    {acts : List Act} (h : Server.udpBranch host srv d order = some (srv', acts)) :
    ∀ a ∈ acts, ∃ fd str, a = .sendTcp fd str := by
  unfold Server.udpBranch at h
  obtain ⟨toSend, -, h⟩ := Option.bind_eq_some_iff.1 h
  split at h
  · obtain ⟨topic, -, h⟩ := Option.bind_eq_some_iff.1 h
    obtain ⟨acts', hdeliver, h⟩ := Option.bind_eq_some_iff.1 h
    obtain rfl := (Prod.mk.inj (Option.some.inj h)).2
    intro a ha
    obtain ⟨fd, rfl⟩ := deliver_sends hdeliver a ha
    exact ⟨fd, toSend, rfl⟩
  · obtain rfl := (Prod.mk.inj (Option.some.inj h)).2
    simp

theorem foldl_kernelAct_idle {opened : Finset Fd} : ∀ {acts : List Act}, (∀ a ∈ acts, kernelAct opened a = opened) →
    acts.foldl kernelAct opened = opened
  | [], _ => rfl
  | a :: acts, h => by
    rw [List.foldl_cons, h a List.mem_cons_self]
    exact foldl_kernelAct_idle (fun x hx => h x (List.mem_cons_of_mem _ hx))

theorem foldl_kernelAct_sends {acts : List Act} (opened : Finset Fd) (h : ∀ a ∈ acts, ∃ fd str, a = .sendTcp fd str) :
    acts.foldl kernelAct opened = opened := by
  apply foldl_kernelAct_idle
  intro a ha
  obtain ⟨fd, str, rfl⟩ := h a ha
  rfl

theorem Move.opened {host : Host} {srv srv' : Server} {ev : Event} {acts : List Act} {opened : Finset Fd} (h : srv.Inv)
    (hopen : ∀ fd ∈ srv.fds, fd ∈ opened) (hfresh : ∀ fd, Act.accept fd ∈ acts → fd ∉ opened)
    (hpc : srv'.pc ≠ .exited) (hm : Move host srv ev acts srv') :
    ∀ fd ∈ srv'.fds, fd ∈ acts.foldl kernelAct opened := by
  cases hm with
  | exit hexit => exact absurd hexit hpc
  | quiet _ _ hfds => exact hfds ▸ hopen
  | dropped acts _ _ hfds _ hacts =>
    have hnew := hfresh _ List.mem_cons_self
    rcases hacts with rfl | rfl
    · simpa [kernelAct, Finset.erase_insert hnew, hfds] using hopen
    · simpa [kernelAct, Finset.erase_insert hnew, hfds] using hopen
  | refused acts _ _ hfds _ hacts =>
    have hnew := hfresh _ List.mem_cons_self
    rcases hacts with ⟨rfl, -⟩ | ⟨rfl, -⟩
    · simpa [kernelAct, Finset.erase_insert hnew, hfds] using hopen
    · simpa [kernelAct, Server.alreadyConnected, Finset.erase_insert hnew, hfds] using hopen
  | login _ _ _ _ _ hfds =>
    intro x hx
    rw [hfds, List.mem_append, List.mem_singleton] at hx
    simp only [List.foldl_cons, List.foldl_nil, kernelAct, Server.newClient, Finset.mem_insert]
    exact hx.symm.imp id (hopen x)
  | datagram _ _ hfds hbranch =>
    rw [hfds, foldl_kernelAct_sends opened (udpBranch_sends hbranch)]
    exact hopen
  | @logout _ _ fd _ _ a b _ _ _ _ hsplit _ _ _ _ hfds =>
    intro x hx
    have hnd := h.nodup
    rw [hsplit, List.nodup_middle, List.nodup_cons] at hnd
    rw [hfds] at hx
    simp only [List.foldl_cons, List.foldl_nil, kernelAct, Server.disconnected, Finset.mem_erase]
    refine ⟨fun hxfd => hnd.1 (hxfd ▸ hx), hopen x ?_⟩
    rw [hsplit]
    exact List.mem_append.2 ((List.mem_append.1 hx).imp id (List.mem_cons_of_mem _))
  | ignored _ _ _ _ _ hfds => exact hfds ▸ hopen
  | command _ _ _ _ _ _ _ hp => simpa [Server.fds, hp, kernelAct] using hopen

/-- **A step that starts from agreeing tables is a move and keeps them agreeing.** -/
theorem Proc.Step.move {host : Host} {p q : Proc} {e : Event × List Act} (hp : p.Inv) (h : p.Step host e q) :
    p.server.Inv ∧ Move host p.server e.1 e.2 q.server ∧ q.Inv := by
  rcases hp with hexit | ⟨hinv, hopen⟩
  · exact absurd h.step (by simp [step_exited hexit])
  have hmove := step_move hinv h.step
  refine ⟨hinv, hmove, ?_⟩
  rcases hmove.inv hinv (fun fd hfd hmem => h.fresh fd hfd (hopen fd hmem)) with hexit | hinv'
  · exact Or.inl hexit
  by_cases hpc : q.server.pc = .exited
  · exact Or.inl hpc
  · exact Or.inr ⟨hinv', h.opened ▸ hmove.opened hinv hopen h.fresh hpc⟩

theorem run_inv {host : Host} {p₀ p : Proc} {tr : List (Event × List Act)} (h₀ : p₀.Start host)
    (hrun : Lts.Run (Proc.Step host) p₀ tr p) : p.Inv :=
  hrun.invariant (Or.inr ⟨(start_inv h₀).1, (start_inv h₀).2.1⟩) (fun _ _ _ hp h => (h.move hp).2.2)

theorem farewell_count {srv : Server} (h : srv.Inv) (fd : Fd) (str : Bytes) : srv.farewell.count (.sendTcp fd str) =
    if fd ∈ srv.clientFds ∧ str = ascii "shutdown" then 1 else 0 := by
  have hnd : (srv.clientFds.map (fun x => Act.sendTcp x (ascii "shutdown"))).Nodup :=
    (h.nodup.sublist (List.drop_sublist 3 _)).map (fun x y hxy => (Act.sendTcp.inj hxy).1)
  have hclose : ((srv.fds.drop 1).map Act.close).count (.sendTcp fd str) = 0 := by
    apply List.count_eq_zero.2
    intro hm
    obtain ⟨x, -, hx⟩ := List.mem_map.1 hm
    cases hx
  have hmem : Act.sendTcp fd str ∈ srv.clientFds.map (fun x => Act.sendTcp x (ascii "shutdown")) ↔
      fd ∈ srv.clientFds ∧ str = ascii "shutdown" := by
    simp only [List.mem_map, Act.sendTcp.injEq]
    constructor
    · rintro ⟨x, hx, rfl, rfl⟩
      exact ⟨hx, rfl⟩
    · rintro ⟨hfd, rfl⟩
      exact ⟨fd, hfd, rfl, rfl⟩
  rw [Server.farewell, List.count_append, hclose, hnd.count, Nat.add_zero]
  simp only [hmem]

theorem exit_farewell {host : Host} {srv srv' : Server} {ev : Event} {acts : List Act}
    (hm : Move host srv ev acts srv') (hpc : srv'.pc = .exited) : acts = srv.farewell := by
  have hno : srv'.Inv → acts = srv.farewell := fun hi => absurd hi.loop (by simp [hpc, Pc.Ok])
  cases hm with
  | exit => rfl
  | quiet hi => exact hno hi
  | dropped _ hi => exact hno hi
  | refused _ hi => exact hno hi
  | login _ _ _ _ hpoll => simp [hpc] at hpoll
  | datagram hi => exact hno hi
  | logout _ _ _ _ _ _ hclients => simp [hpc] at hclients
  | ignored _ _ _ hi => exact hno hi
  | command _ _ _ _ _ _ _ _ hclients => simp [hpc] at hclients

/-- **The session invariant of every run**: the clients in the poll array, the two maps and the set of names agree, no
lookup of the client loop makes a new entry, and the loop that ends the server tells exactly the active users, each
once. -/
theorem session_invariant {host : Host} {p₀ p : Proc} {tr : List (Event × List Act)} (h₀ : p₀.Start host)
    (hrun : Lts.Run (Proc.Step host) p₀ tr p) (hpc : p.server.pc ≠ .exited) :
    p.server.clientFds.Nodup ∧ (∀ fd, fd ∈ p.server.clientFds ↔ fd ∈ p.server.fdsToUsers) ∧
    (∀ fd u, p.server.fdsToUsers.lookup fd = some u ↔
      ∃ e, p.server.userSubscriptions.lookup u = some e ∧ e.active = true ∧ e.fd = fd) ∧
    (∀ u u' e e', p.server.userSubscriptions.lookup u = some e → e.active = true →
      p.server.userSubscriptions.lookup u' = some e' → e'.active = true → e.fd = e'.fd → u = u') ∧
    (∀ u fd fd', p.server.fdsToUsers.lookup fd = some u → p.server.fdsToUsers.lookup fd' = some u → fd = fd') ∧
    (∀ u, u ∈ p.server.userSubscriptions ↔ u ∈ p.server.userIdSet) ∧
    (∀ u ∈ p.server.userIdSet, u ≠ [] ∧ blank ∉ u) ∧
    (∀ fd ∈ p.server.clientFds, ∃ u e, ∀ du de, Table.entry p.server.fdsToUsers fd du = (u, p.server.fdsToUsers) ∧
      Table.entry p.server.userSubscriptions u de = (e, p.server.userSubscriptions)) ∧
    (∀ e q, p.Step host e q → q.server.pc = .exited →
      (∀ u v, p.server.userSubscriptions.lookup u = some v → v.active = true →
        e.2.count (.sendTcp v.fd (ascii "shutdown")) = 1) ∧
      ∀ fd str, Act.sendTcp fd str ∈ e.2 → str = ascii "shutdown" ∧
        ∃ u v, p.server.userSubscriptions.lookup u = some v ∧ v.active = true ∧ v.fd = fd) := by
  have hp := run_inv h₀ hrun
  have hi : p.server.Inv := (hp.resolve_left hpc).1
  refine ⟨hi.nodup.sublist (List.drop_sublist 3 _), hi.keys, hi.binding,
    fun _ _ _ _ he hact he' hact' hfd => hi.user_unique he hact he' hact' hfd,
    fun _ _ _ hu hu' => hi.fd_unique hu hu', hi.users, hi.names, ?_, ?_⟩
  · intro fd hfd
    obtain ⟨u, e, hu, he, -, -⟩ := hi.user hfd
    exact ⟨u, e, fun du de => ⟨Table.entry_of_lookup hu du, Table.entry_of_lookup he de⟩⟩
  · intro e q hstep hexit
    rw [exit_farewell (hstep.move hp).2.1 hexit]
    constructor
    · intro u v hv hact
      have hfd := (hi.keys v.fd).2 (Table.mem_iff_lookup.2 ⟨u, (hi.binding v.fd u).2 ⟨v, hv, hact, rfl⟩⟩)
      rw [farewell_count hi, if_pos ⟨hfd, rfl⟩]
    · intro fd str hmem
      have hcount := List.count_pos_iff.2 hmem
      rw [farewell_count hi] at hcount
      split at hcount
      · rename_i h
        obtain ⟨u, v, -, hv, hact, hfd⟩ := hi.user h.1
        exact ⟨h.2, u, v, hv, hact, hfd⟩
      · exact absurd hcount (Nat.lt_irrefl 0)

/-- Users `a` and `b` log in and `a` leaves. -/
theorem session_invariant_two_users : ∃ p : Proc, p.server.clientFds = [6] ∧
    [97] ∈ p.server.userIdSet ∧ p.server.fdsToUsers.lookup 6 = some [98] ∧
    (∃ e, p.server.userSubscriptions.lookup [98] = some e ∧ e.active = true ∧ e.fd = 6) ∧
    ∀ u, u ∈ p.server.userSubscriptions ↔ u ∈ p.server.userIdSet := by
  have hrun : ((Proc.boot exactHost 3 4).bind fun p₀ => (Lts.exec (Proc.next exactHost) p₀ [.poll (some [0, 1, 0]),
      .accept (some ⟨5, ⟨(127, 0, 0, 1), (0, 9)⟩, true, true, ⟨[97], by decide⟩⟩), .poll (some [0, 1, 0, 0]),
      .accept (some ⟨6, ⟨(127, 0, 0, 1), (0, 10)⟩, true, true, ⟨[98], by decide⟩⟩), .poll (some [0, 0, 0, 1, 0]),
      .recv ⟨[], by decide⟩ true, .next]).map fun r => (r.2.server.clientFds, r.2.server.pc,
        decide ([97] ∈ r.2.server.userIdSet), r.2.server.fdsToUsers.lookup 6)) = some ([6], .poll, true, some [98]) := by
    decide +kernel
  obtain ⟨p₀, hboot, hrun⟩ := Option.bind_eq_some_iff.1 hrun
  obtain ⟨⟨tr, p⟩, hexec, hp⟩ := Option.map_eq_some_iff.1 hrun
  simp only [Prod.mk.injEq, decide_eq_true_eq] at hp
  obtain ⟨hfds, hpc, hname, huser⟩ := hp
  obtain ⟨-, -, hbinding, -, -, husers, -⟩ := session_invariant ⟨3, 4, by decide, by decide, by decide, hboot⟩
    (Lts.exec_run Proc.next_step .nil hexec) (by rw [hpc]; decide)
  exact ⟨p, hfds, hname, huser, (hbinding 6 [98]).1 huser, husers⟩

end Ts
