import TopicServer.Order
/-!
# Relogin — when a user who has left may come back

A name is refused as connected while its session has not ended on the server's side, and a session ends when the end of
its connection is read.  The server asks its listening socket before its clients, so a new connection may be taken while
the end of the old one still waits to be read: the name is then refused although nobody uses it.  `relogin_iff` says
that this is the only way.
-/
namespace Ts

open Text (ascii)

namespace Net

def pendingOn (n : Net) (fd : Fd) : Bool := ((n.onFd.lookup fd).bind (n.conns[·]?)).any (·.chan.pending)

/-- There is something to do at an index of the poll array; standard input and datagrams come from outside. -/
def pending (n : Net) : Nat → Bool
  | 0 => true
  | 1 => !n.backlog.isEmpty
  | 2 => true
  | i => (n.server.fds[i]?).any n.pendingOn

/-- What `poll` reports is there. -/
def polled (n : Net) : NetEvent → Bool
  | .server (.poll (some revents)) => revents.zipIdx.all fun r => r.1 &&& pollin = 0 || n.pending r.2
  | _ => true

/-- A step in which `poll` reports a set of descriptors that have something to do. -/
def Round (host : Host) : Net → NetEvent × List Act → Net → Prop := Lts.Along (Step host) fun n e => n.polled e.1

def registered (n : Net) (u : Bytes) : Option Nat :=
  (n.server.userSubscriptions.lookup u).bind fun v => if v.active then n.onFd.lookup v.fd else none

/-- The connection that is taken next, with the connections that were closed before it was requested. -/
def head (n : Net) : Option Conn := n.backlog.head?.bind (n.conns[·]?)

/-- A name that is refused as connected is in use: the connection it is logged in on was not closed when the new one was
requested. -/
def Fair (n : Net) : NetEvent × List Act → Prop
  | (.server (.accept (some c)), acts) => Server.alreadyConnected c.buff ∈ acts →
      ∃ r conn, n.registered c.buff = some r ∧ n.head = some conn ∧ r ∉ conn.closedBefore
  | _ => True

/-- A user whose last connection was closed when the new one was requested is logged in. -/
def Readmits (n : Net) : NetEvent × List Act → Prop
  | (.server (.accept (some c)), acts) => c.buff.1 ≠ [] → blank ∉ c.buff.1 → n.server.Serves c →
      ∀ r conn, (n.sessionsOf c.buff).getLast? = some r → n.head = some conn → r ∈ conn.closedBefore →
        Act.close c.connfd ∉ acts
  | _ => True

/-- When a connection is taken and gives a name, the server has already read the ends of those connections of the name's
sessions that were closed when the new one was requested, and has let go of them. -/
def Settled (n : Net) : NetEvent × List Act → Prop
  | (.server (.accept (some c)), _) => n.server.Serves c →
      ∀ r conn, (c.buff.1, r) ∈ n.sessions → n.head = some conn → r ∈ conn.closedBefore →
        ∀ fd, n.onFd.lookup fd ≠ some r
  | _ => True

/-! ## The name's connection -/

theorem registered_iff {n : Net} (hi : n.server.Inv) (h : n.Links) {u : Bytes} {r : Nat} :
    n.registered u = some r ↔ (u, r) ∈ n.sessions ∧ ∃ fd, n.onFd.lookup fd = some r := by
  constructor
  · intro hreg
    obtain ⟨v, hv, hreg⟩ := Option.bind_eq_some_iff.1 hreg
    obtain ⟨hact, hfd⟩ := Option.ite_none_right_eq_some.1 hreg
    obtain ⟨pre, hpre⟩ := h.current v.fd u r ((hi.binding v.fd u).2 ⟨v, hv, hact, rfl⟩) hfd
    exact ⟨mem_sessionsOf.1 (by rw [hpre]; exact List.mem_append_right _ List.mem_cons_self), v.fd, hfd⟩
  · rintro ⟨hmem, fd, hfd⟩
    obtain ⟨v, e, hv, he, hact, hefd⟩ := hi.user ((h.bound fd).2 ⟨r, hfd⟩)
    obtain ⟨pre, hpre⟩ := h.current fd v r hv hfd
    obtain rfl : u = v :=
      h.apart hmem (mem_sessionsOf.1 (by rw [hpre]; exact List.mem_append_right _ List.mem_cons_self))
    rw [registered, he, Option.bind_some, if_pos hact, hefd, hfd]

theorem last_of_registered {n : Net} (hi : n.server.Inv) (h : n.Links) {u : Bytes} {r : Nat}
    (hreg : n.registered u = some r) : (n.sessionsOf u).getLast? = some r := by
  obtain ⟨v, hv, hreg⟩ := Option.bind_eq_some_iff.1 hreg
  obtain ⟨hact, hfd⟩ := Option.ite_none_right_eq_some.1 hreg
  obtain ⟨pre, hpre⟩ := h.current v.fd u r ((hi.binding v.fd u).2 ⟨v, hv, hact, rfl⟩) hfd
  rw [hpre, List.getLast?_concat]

theorem registered_of_active {n : Net} (hi : n.server.Inv) (h : n.Links) {u : Bytes} {e : UserIdSubscriptions}
    (he : n.server.userSubscriptions.lookup u = some e) (hact : e.active = true) : ∃ r, n.registered u = some r := by
  have hfd := (hi.keys e.fd).2 (Table.mem_iff_lookup.2 ⟨u, (hi.binding e.fd u).2 ⟨e, he, hact, rfl⟩⟩)
  obtain ⟨r, hr⟩ := (h.bound e.fd).1 hfd
  exact ⟨r, by rw [registered, he, Option.bind_some, if_pos hact, hr]⟩

theorem registered_none {n : Net} {u : Bytes}
    (hoff : ∀ e, n.server.userSubscriptions.lookup u = some e → e.active = false) : n.registered u = none := by
  cases he : n.server.userSubscriptions.lookup u with
  | none => rw [registered, he, Option.bind_none]
  | some e => rw [registered, he, Option.bind_some, hoff e he, if_neg Bool.false_ne_true]

theorem newClient_ne_alreadyConnected (buff : Bytes) (cli : SockaddrIn) :
    Server.newClient buff cli ≠ Server.alreadyConnected buff := by
  intro h
  have hnew : ascii "New client " = 78 :: ascii "ew client " := by decide
  have hold : ascii "Client " = 67 :: ascii "lient " := by decide
  have htext := Act.cout.inj h
  simp only [hnew, hold, List.cons_append, List.cons.injEq] at htext
  exact absurd htext.1 (by decide)

/-! ## Steps that take a connection -/

/-- **A step refuses nobody wrongly** exactly when the name's old connections were let go of before. -/
theorem accept_iff {host : Host} {n n₁ : Net} {proc : Proc} {c : Login} {acts : List Act} (hp : n.proc.Inv)
    (h : n.Links) (hproc : n.proc.Step host (.accept (some c), acts) proc) (hfold : acts.foldlM act n = some n₁) :
    (n.Fair (.server (.accept (some c)), acts) ↔ n.Settled (.server (.accept (some c)), acts)) ∧
      (n.Readmits (.server (.accept (some c)), acts) ↔ n.Settled (.server (.accept (some c)), acts)) := by
  obtain ⟨hi, hmove, -⟩ := hproc.move hp
  have hloose : n.registered c.buff = none → n.Settled (.server (.accept (some c)), acts) :=
    fun hnone _ r conn hmem _ _ fd hfd => by
      rw [(registered_iff hi h).2 ⟨hmem, fd, hfd⟩] at hnone
      cases hnone
  cases hmove with
  | exit _ _ _ hacc => exact absurd rfl (hacc _)
  | quiet _ _ _ hacc => exact absurd rfl (hacc _)
  | dropped tail _ _ _ hnot htail =>
    have hfair : Server.alreadyConnected c.buff ∉ Act.accept c.connfd :: tail ++ [.close c.connfd] := by
      rcases htail with rfl | rfl <;> simp [Server.alreadyConnected]
    exact ⟨iff_of_true (fun ha => absurd ha hfair) (fun hs => absurd hs hnot),
      iff_of_true (fun _ _ hs => absurd hs hnot) (fun hs => absurd hs hnot)⟩
  | login hne hsp hoff =>
    have hsettled := hloose (registered_none hoff)
    refine ⟨iff_of_true (fun ha => ?_) hsettled, iff_of_true (fun _ _ _ r conn _ _ _ => ?_) hsettled⟩
    · rw [List.mem_cons, List.mem_cons, List.mem_singleton] at ha
      rcases ha with ha | ha | ha
      · cases ha
      · cases ha
      · exact absurd ha.symm (newClient_ne_alreadyConnected c.buff c.cli)
    · simp [Server.newClient]
  | refused tail _ _ _ hserves htail =>
    rcases htail with ⟨rfl, hname⟩ | ⟨rfl, e, he, hact⟩
    · -- no name has a blank or is empty
      have hnone : n.registered c.buff = none := by
        cases hlook : n.server.userSubscriptions.lookup c.buff.1 with
        | none => rw [registered, hlook, Option.bind_none]
        | some e =>
          obtain ⟨hne, hsp⟩ := hi.names _ ((hi.users _).1 (Table.mem_iff_lookup.2 ⟨e, hlook⟩))
          exact absurd hname (by simp [hne, hsp])
      refine ⟨iff_of_true (fun ha => ?_) (hloose hnone), iff_of_true (fun hne hsp => ?_) (hloose hnone)⟩
      · simp [Server.alreadyConnected] at ha
      · exact absurd hname (by simp [hne, hsp])
    · obtain ⟨r, hr⟩ := registered_of_active hi h he hact
      obtain ⟨hmem, fd, hfd⟩ := (registered_iff hi h).1 hr
      obtain ⟨conn, hconn⟩ : ∃ conn, n.head = some conn := by
        rw [List.foldlM_cons] at hfold
        obtain ⟨n₂, haccept, -⟩ := Option.bind_eq_some_iff.1 hfold
        obtain ⟨k, rest, hqueue, -⟩ := act_accept haccept
        obtain ⟨-, -, conn, hconn, -⟩ := h.waiting k (hqueue ▸ List.mem_cons_self)
        exact ⟨conn, by rw [head, hqueue, List.head?_cons, Option.bind_some, hconn]⟩
      have hsettled : n.Settled (.server (.accept (some c)), []) ↔ r ∉ conn.closedBefore := by
        constructor
        · exact fun hs hclosed => hs hserves r conn hmem hconn hclosed fd hfd
        · intro hopen _ r' conn' hmem' hconn' hclosed fd' hfd'
          have hr' := (registered_iff hi h).2 ⟨hmem', fd', hfd'⟩
          rw [Option.some.inj (hr'.symm.trans hr), Option.some.inj (hconn'.symm.trans hconn)] at hclosed
          exact hopen hclosed
      obtain ⟨hne, hsp⟩ := hi.names _ ((hi.users _).1 (Table.mem_iff_lookup.2 ⟨e, he⟩))
      refine ⟨Iff.trans ⟨fun hf => ?_, fun hopen _ => ⟨r, conn, hr, hconn, hopen⟩⟩ hsettled.symm,
        Iff.trans ⟨fun hf hclosed => ?_, fun hopen _ _ _ r' conn' hlast hconn' hclosed => ?_⟩ hsettled.symm⟩
      · obtain ⟨r', conn', hr', hconn', hopen⟩ := hf (by simp)
        rwa [Option.some.inj (hr.symm.trans hr'), Option.some.inj (hconn.symm.trans hconn')]
      · exact hf hne hsp hserves r conn (last_of_registered hi h hr) hconn hclosed (by simp)
      · rw [Option.some.inj (hlast.symm.trans (last_of_registered hi h hr)),
          Option.some.inj (hconn'.symm.trans hconn)] at hclosed
        exact absurd hclosed hopen

theorem step_iff {host : Host} {n n' : Net} {e : NetEvent × List Act} (hp : n.proc.Inv) (h : n.Links)
    (hstep : n.Step host e n') : (n.Fair e ↔ n.Settled e) ∧ (n.Readmits e ↔ n.Settled e) := by
  obtain ⟨ev, acts⟩ := e
  rcases hstep.cases with ⟨hnone, -⟩ | ⟨ev, acts, proc, n₁, heq, hproc, hfold, -⟩
  · cases ev with
    | server ev => cases hnone
    | _ => exact ⟨Iff.rfl, Iff.rfl⟩
  · obtain ⟨rfl, rfl⟩ := Prod.mk.inj heq
    cases ev with
    | accept c =>
      cases c with
      | some c => exact accept_iff hp h hproc hfold
      | none => exact ⟨Iff.rfl, Iff.rfl⟩
    | _ => exact ⟨Iff.rfl, Iff.rfl⟩

/-- **A name is refused wrongly exactly when its old connection still waits to be read**: along a run no name is refused
as connected but by a connection that was open when the new one was requested, and every user whose last connection was
closed by then is logged in, if and only if the server always reads the end of a name's old connection before it takes
the new one. -/
theorem relogin_iff {host : Host} {n₀ n : Net} {tr : List (NetEvent × List Act)} (h₀ : n₀.Start host) :
    (Lts.Run (Lts.Along (Round host) Fair) n₀ tr n ↔ Lts.Run (Lts.Along (Round host) Settled) n₀ tr n) ∧
      (Lts.Run (Lts.Along (Round host) Readmits) n₀ tr n ↔ Lts.Run (Lts.Along (Round host) Settled) n₀ tr n) := by
  have hkept : ∀ s e t, s.proc.Inv ∧ s.Links → Round host s e t → t.proc.Inv ∧ t.Links := fun s e t hs hstep =>
    ⟨(Step.kept hstep.1 hs.1 hs.2).1, (Step.kept hstep.1 hs.1 hs.2).2.1⟩
  have h0 : n₀.proc.Inv ∧ n₀.Links := ⟨h₀.kept.1, h₀.kept.2.1⟩
  constructor
  · exact Lts.Run.along_iff h0 hkept fun s e t hs hstep => (step_iff hs.1 hs.2 hstep.1).1
  · exact Lts.Run.along_iff h0 hkept fun s e t hs hstep => (step_iff hs.1 hs.2 hstep.1).2

def admits : NetEvent × List Act → Bool
  | (.server (.accept (some c)), acts) => !acts.contains (Server.alreadyConnected c.buff)
  | _ => true

theorem fair_of_admits (n : Net) (e : NetEvent × List Act) (h : admits e = true) : n.Fair e := by
  unfold Fair
  split
  · intro hmem
    simp [admits, hmem] at h
  · trivial

def round (host : Host) : Net → NetEvent → Option ((NetEvent × List Act) × Net) :=
  Lts.filter (next host) fun n e => n.polled e.1

theorem round_step {host : Host} : ∀ n ev e n', round host n ev = some (e, n') → Round host n e n' :=
  Lts.filter_along next_step fun _ _ h => h

/-- A user leaves, the server reads the end of the connection, the user comes back. -/
theorem relogin_settled : ∃ n₀ tr n, n₀.Start exactHost ∧ n.sessions = [([97], 0), ([97], 1)] ∧
    Lts.Run (Lts.Along (Round exactHost) Settled) n₀ tr n ∧ Lts.Run (Lts.Along (Round exactHost) Readmits) n₀ tr n := by
  have hrun : ((Proc.boot exactHost 3 4).bind fun p₀ =>
      (Lts.exec (Lts.filter (round exactHost) fun _ => admits) (boot p₀) [.connect, .send 0 ⟨[97], by decide⟩,
        .server (.poll (some [0, 1, 0])),
        .server (.accept (some ⟨5, ⟨(127, 0, 0, 1), (0, 9)⟩, true, true, ⟨[97], by decide⟩⟩)), .close 0,
        .server (.poll (some [0, 0, 0, 1])), .server (.recv ⟨[], by decide⟩ true), .server .next,
        .connect, .send 1 ⟨[97], by decide⟩, .server (.poll (some [0, 1, 0])),
        .server (.accept (some ⟨5, ⟨(127, 0, 0, 1), (0, 10)⟩, true, true, ⟨[97], by decide⟩⟩))]).map
          fun r => r.2.sessions) = some [([97], 0), ([97], 1)] := by decide +kernel
  obtain ⟨p₀, hboot, hrun⟩ := Option.bind_eq_some_iff.1 hrun
  obtain ⟨⟨tr, n⟩, hexec, hn⟩ := Option.map_eq_some_iff.1 hrun
  have h₀ : (boot p₀).Start exactHost := ⟨⟨3, 4, by decide, by decide, by decide, hboot⟩, rfl⟩
  have hfair : Lts.Run (Lts.Along (Round exactHost) Fair) (boot p₀) tr n :=
    Lts.exec_run (Lts.filter_along round_step fair_of_admits) .nil hexec
  have hsettled := (relogin_iff h₀).1.1 hfair
  exact ⟨boot p₀, tr, n, h₀, hn, hsettled, (relogin_iff h₀).2.2 hsettled⟩

/-- A user leaves and comes back before the server reads the end of the connection: both wait when `poll` returns, and
the new connection is asked for first. -/
theorem refused_unfair : ∃ n₀ tr n e n', n₀.Start exactHost ∧ Lts.Run (Round exactHost) n₀ tr n ∧
    Round exactHost n e n' ∧ n.closedNow = [0] ∧ ¬ n.Fair e := by
  have hrun : ((Proc.boot exactHost 3 4).bind fun p₀ => (Lts.exec (round exactHost) (boot p₀) [.connect,
      .send 0 ⟨[97], by decide⟩, .server (.poll (some [0, 1, 0])),
      .server (.accept (some ⟨5, ⟨(127, 0, 0, 1), (0, 9)⟩, true, true, ⟨[97], by decide⟩⟩)), .close 0,
      .connect, .send 1 ⟨[97], by decide⟩, .server (.poll (some [0, 1, 0, 1]))]).bind fun r =>
        (round exactHost r.2 (.server (.accept (some ⟨6, ⟨(127, 0, 0, 1), (0, 10)⟩, true, true,
          ⟨[97], by decide⟩⟩)))).map fun s => (s.1.2.contains (Server.alreadyConnected [97]), r.2.registered [97],
            r.2.head.map (·.closedBefore), r.2.closedNow)) = some (true, some 0, some [0], [0]) := by decide +kernel
  obtain ⟨p₀, hboot, hrun⟩ := Option.bind_eq_some_iff.1 hrun
  obtain ⟨⟨tr, n⟩, hexec, hrun⟩ := Option.bind_eq_some_iff.1 hrun
  obtain ⟨⟨⟨ev, acts⟩, n'⟩, hnext, hn⟩ := Option.map_eq_some_iff.1 hrun
  simp only [Prod.mk.injEq, List.contains_iff_mem] at hn
  obtain ⟨hmem, hreg, hhead, hclosed⟩ := hn
  have h₀ : (boot p₀).Start exactHost := ⟨⟨3, 4, by decide, by decide, by decide, hboot⟩, rfl⟩
  have hlabel : ev = _ := next_label (Option.filter_eq_some_iff.1 hnext).1
  refine ⟨boot p₀, tr, n, (ev, acts), n', h₀, Lts.exec_run round_step .nil hexec, round_step _ _ _ _ hnext, hclosed,
    fun hfair => ?_⟩
  rw [hlabel] at hfair
  obtain ⟨r, conn, hr, hconn, hopen⟩ := hfair hmem
  rw [hconn, Option.map_some, Option.some.injEq] at hhead
  rw [hreg, Option.some.injEq] at hr
  rw [hhead, ← hr] at hopen
  exact hopen List.mem_cons_self

end Net

end Ts
