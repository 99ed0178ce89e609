import TopicServer.Lib.Fifo
import TopicServer.Session
/-!
# Net — the server and its connections

A connection is a channel of frames that its peer may close.  Peers connect, send and close whenever they like; the
server's acts are what moves its side: `accept` takes the oldest connection that was requested, a read takes the next
frame or the end, `close` lets a descriptor go.  The logins are written down as they succeed.  `Step.cases` says once
what a step of all this can do.
-/
namespace Ts

open Text (ascii)

/-- A frame, as `applicationProtocol` gives its payload: a C string that is not empty. -/
abbrev Frame := { s : Bytes // s ≠ [] ∧ 0 ∉ s }

/-- A connection, and the connections that their peers had closed when it was requested. -/
structure Conn where
  chan : Fifo.Chan Frame
  closedBefore : List Nat

structure Net where
  proc : Proc
  conns : List Conn
  backlog : List Nat
  onFd : Table.Map Fd Nat
  sessions : List (Bytes × Nat)

inductive NetEvent
  | connect
  | send (k : Nat) (m : Frame)
  | close (k : Nat)
  | server (ev : Event)

namespace Net

abbrev server (n : Net) : Server := n.proc.server

def closedNow (n : Net) : List Nat :=
  (List.range n.conns.length).filter fun k => (n.conns[k]?).any (·.chan.closed)

def act (n : Net) : Act → Option Net
  | .accept fd =>
    match n.backlog with
    | [] => none
    | k :: backlog => some { n with backlog, onFd := n.onFd.insert fd k }
  | .recv fd buff => do
    let k ← n.onFd.lookup fd
    let conn ← n.conns[k]?
    let (m, chan) ← conn.chan.take
    if (m.map (·.1)).getD [] = buff then some { n with conns := n.conns.set k { conn with chan } } else none
  | .close fd => some { n with onFd := n.onFd.erase fd }
  | _ => some n

/-- The login a step of the server completes: the name, and the connection it takes from the backlog. -/
def logins (n : Net) : Event → List Act → List (Bytes × Nat)
  | .accept (some c), acts => if Act.close c.connfd ∈ acts then [] else (n.backlog.head?.map (c.buff.1, ·)).toList
  | _, _ => []

def next (host : Host) (n : Net) : NetEvent → Option ((NetEvent × List Act) × Net)
  | .connect => some ((.connect, []), { n with
      conns := n.conns ++ [⟨.new, n.closedNow⟩], backlog := n.backlog ++ [n.conns.length] })
  | .send k m => do
    let conn ← n.conns[k]?
    let chan ← conn.chan.send m
    return ((.send k m, []), { n with conns := n.conns.set k { conn with chan } })
  | .close k => do
    let conn ← n.conns[k]?
    return ((.close k, []), { n with conns := n.conns.set k { conn with chan := conn.chan.close } })
  | .server ev => do
    let ((_, acts), proc) ← n.proc.next host ev
    let n' ← acts.foldlM act n
    return ((.server ev, acts), { n' with proc, sessions := n.sessions ++ n.logins ev acts })

def Step (host : Host) (n : Net) (e : NetEvent × List Act) (n' : Net) : Prop := n.next host e.1 = some (e, n')

theorem next_label {host : Host} {n n' : Net} {ev : NetEvent} {e : NetEvent × List Act}
    (h : n.next host ev = some (e, n')) : e.1 = ev := by
  cases ev with
  | connect => rw [← (Prod.mk.inj (Option.some.inj h)).1]
  | send k m =>
    obtain ⟨conn, -, h⟩ := Option.bind_eq_some_iff.1 h
    obtain ⟨chan, -, h⟩ := Option.bind_eq_some_iff.1 h
    rw [← (Prod.mk.inj (Option.some.inj h)).1]
  | close k =>
    obtain ⟨conn, -, h⟩ := Option.bind_eq_some_iff.1 h
    rw [← (Prod.mk.inj (Option.some.inj h)).1]
  | server ev =>
    obtain ⟨⟨⟨ev', acts⟩, proc⟩, -, h⟩ := Option.bind_eq_some_iff.1 h
    obtain ⟨n₁, -, h⟩ := Option.bind_eq_some_iff.1 h
    rw [← (Prod.mk.inj (Option.some.inj h)).1]

theorem next_step {host : Host} (n : Net) (ev : NetEvent) (e : NetEvent × List Act) (n' : Net)
    (h : n.next host ev = some (e, n')) : n.Step host e n' := by
  rw [Step, next_label h]
  exact h

def boot (proc : Proc) : Net := ⟨proc, [], [], ∅, []⟩

def Start (host : Host) (n : Net) : Prop := n.proc.Start host ∧ n = boot n.proc

/-- The connections of a name's sessions, in the order of the logins. -/
def sessionsOf (n : Net) (u : Bytes) : List Nat := n.sessions.filterMap fun s => if s.1 = u then some s.2 else none

/-- The frames taken from a connection after the login. -/
def framesOf (n : Net) (k : Nat) : List Frame := ((n.conns[k]?).map (·.chan.read.tail)).getD []

def commandsOf (n : Net) (k : Nat) : List Command := (n.framesOf k).filterMap fun m => commandOf m.1

def serverStep : NetEvent × List Act → Option (Event × List Act)
  | (.server ev, acts) => some (ev, acts)
  | _ => none

/-! ## What a step can do -/

theorem foldlM_sends : ∀ {acts : List Act} (n : Net), (∀ a ∈ acts, ∃ fd str, a = .sendTcp fd str) →
    acts.foldlM act n = some n
  | [], _, _ => rfl
  | a :: acts, n, h => by
    obtain ⟨fd, str, rfl⟩ := h a List.mem_cons_self
    show acts.foldlM act n = some n
    exact foldlM_sends n (fun x hx => h x (List.mem_cons_of_mem _ hx))

theorem foldlM_farewell : ∀ {acts : List Act} {n n' : Net},
    (∀ a ∈ acts, (∃ fd str, a = .sendTcp fd str) ∨ ∃ fd, a = .close fd) → acts.foldlM act n = some n' →
    n'.conns = n.conns ∧ n'.backlog = n.backlog ∧
      ∀ fd k, n'.onFd.lookup fd = some k → n.onFd.lookup fd = some k ∧ Act.close fd ∉ acts
  | [], n, n', _, h => by
    obtain rfl := Option.some.inj h
    exact ⟨rfl, rfl, fun _ _ h => ⟨h, List.not_mem_nil⟩⟩
  | a :: acts, n, n', hall, h => by
    rw [List.foldlM_cons] at h
    obtain ⟨n₁, h₁, h⟩ := Option.bind_eq_some_iff.1 h
    obtain ⟨hconns, hback, hsub⟩ := foldlM_farewell (fun x hx => hall x (List.mem_cons_of_mem _ hx)) h
    rcases hall a List.mem_cons_self with ⟨fd, str, rfl⟩ | ⟨fd, rfl⟩
    · obtain rfl := Option.some.inj h₁
      exact ⟨hconns, hback, fun x k hx => ⟨(hsub x k hx).1, by simp [(hsub x k hx).2]⟩⟩
    · obtain rfl := Option.some.inj h₁
      refine ⟨hconns, hback, fun x k hx => ?_⟩
      obtain ⟨hold, hopen⟩ := hsub x k hx
      obtain ⟨hxfd, hold⟩ := Table.lookup_erase_eq_some.1 hold
      exact ⟨hold, by simp [hxfd, hopen]⟩

theorem act_recv {n n' : Net} {fd : Fd} {buff : Bytes} (h : n.act (.recv fd buff) = some n') :
    ∃ k conn, n.onFd.lookup fd = some k ∧ n.conns[k]? = some conn ∧
      (buff = [] ∧ conn.chan.closed = true ∧ conn.chan.read = conn.chan.sent ∧ n' = n ∨
        ∃ (m : Frame) (chan : Fifo.Chan Frame), m.1 = buff ∧ chan.read = conn.chan.read ++ [m] ∧
          n' = { n with conns := n.conns.set k { conn with chan } }) := by
  obtain ⟨k, hk, h⟩ := Option.bind_eq_some_iff.1 h
  obtain ⟨conn, hconn, h⟩ := Option.bind_eq_some_iff.1 h
  obtain ⟨⟨m, chan⟩, htake, h⟩ := Option.bind_eq_some_iff.1 h
  by_cases hbuff : (m.map (·.1)).getD [] = buff
  swap
  · simp only [if_neg hbuff] at h
    cases h
  simp only [if_pos hbuff] at h
  obtain rfl := Option.some.inj h
  refine ⟨k, conn, hk, hconn, ?_⟩
  cases m with
  | none =>
    obtain ⟨rfl, hclosed, hread⟩ := Fifo.Chan.take_end htake
    obtain ⟨hk', rfl⟩ := List.getElem?_eq_some_iff.1 hconn
    have hset : n.conns.set k { n.conns[k] with chan := n.conns[k].chan } = n.conns := List.set_getElem_self hk'
    exact Or.inl ⟨hbuff.symm, hclosed, hread, by rw [hset]⟩
  | some m => exact Or.inr ⟨m, chan, hbuff, (Fifo.Chan.take_message htake).1, rfl⟩

theorem foldlM_recv {n n' : Net} {fd : Fd} {buff : Bytes} (hne : buff ≠ [])
    (h : [Act.recv fd buff].foldlM act n = some n') : ∃ k conn, ∃ (m : Frame) (chan : Fifo.Chan Frame),
      n.onFd.lookup fd = some k ∧ n.conns[k]? = some conn ∧ m.1 = buff ∧ chan.read = conn.chan.read ++ [m] ∧
        n' = { n with conns := n.conns.set k { conn with chan } } := by
  rw [List.foldlM_cons] at h
  obtain ⟨n₁, hrecv, h⟩ := Option.bind_eq_some_iff.1 h
  obtain rfl := Option.some.inj h
  obtain ⟨k, conn, hk, hconn, ⟨hempty, -⟩ | ⟨m, chan, hm, hread, heq⟩⟩ := act_recv hrecv
  · exact absurd hempty hne
  · exact ⟨k, conn, m, chan, hk, hconn, hm, hread, heq⟩

theorem act_accept {n n' : Net} {fd : Fd} (h : n.act (.accept fd) = some n') :
    ∃ k rest, n.backlog = k :: rest ∧ n' = { n with backlog := rest, onFd := n.onFd.insert fd k } := by
  unfold act at h
  dsimp only at h
  split at h
  · cases h
  · rename_i k rest hback
    exact ⟨k, rest, hback, (Option.some.inj h).symm⟩

theorem foldlM_accept_recv {n n' : Net} {fd : Fd} {buff : Bytes} {acts : List Act}
    (h : (.accept fd :: .recv fd buff :: acts).foldlM act n = some n') :
    ∃ k rest conn n₁, n.backlog = k :: rest ∧ n.conns[k]? = some conn ∧ acts.foldlM act n₁ = some n' ∧
      (buff = [] ∧ n₁ = { n with backlog := rest, onFd := n.onFd.insert fd k } ∨
        ∃ (m : Frame) (chan : Fifo.Chan Frame), m.1 = buff ∧ chan.read = conn.chan.read ++ [m] ∧
          n₁ = { n with
            conns := n.conns.set k { conn with chan }, backlog := rest, onFd := n.onFd.insert fd k }) := by
  rw [List.foldlM_cons] at h
  obtain ⟨n₂, haccept, h⟩ := Option.bind_eq_some_iff.1 h
  obtain ⟨k, rest, hqueue, rfl⟩ := act_accept haccept
  obtain ⟨n₁, hrecv, h⟩ := Option.bind_eq_some_iff.1 h
  obtain ⟨j, conn, hj, hconn, htake⟩ := act_recv hrecv
  obtain rfl : k = j := by
    rw [Table.lookup_insert_if, if_pos rfl] at hj
    exact Option.some.inj hj
  refine ⟨k, rest, conn, n₁, hqueue, hconn, h, ?_⟩
  rcases htake with ⟨hempty, -, -, rfl⟩ | ⟨m, chan, hm, hread, rfl⟩
  · exact Or.inl ⟨hempty, rfl⟩
  · exact Or.inr ⟨m, chan, hm, hread, rfl⟩

/-- **Everything a step can do**: a connection is requested, a peer sends or closes, or the server takes a step. -/
theorem Step.cases {host : Host} {n n' : Net} {e : NetEvent × List Act} (h : n.Step host e n') :
    (serverStep e = none ∧
      (n' = { n with conns := n.conns ++ [⟨.new, n.closedNow⟩], backlog := n.backlog ++ [n.conns.length] } ∨
        ∃ k conn conn', n.conns[k]? = some conn ∧ conn'.chan.read = conn.chan.read ∧
          n' = { n with conns := n.conns.set k conn' })) ∨
      ∃ ev acts proc n₁, e = (.server ev, acts) ∧ n.proc.Step host (ev, acts) proc ∧ acts.foldlM act n = some n₁ ∧
        n' = { n₁ with proc, sessions := n.sessions ++ n.logins ev acts } := by
  obtain ⟨ev, acts⟩ := e
  cases ev with
  | connect =>
    obtain rfl := (Prod.mk.inj (Option.some.inj h)).2
    exact Or.inl ⟨rfl, Or.inl rfl⟩
  | send k m =>
    obtain ⟨conn, hk, h⟩ := Option.bind_eq_some_iff.1 h
    obtain ⟨chan, hsend, h⟩ := Option.bind_eq_some_iff.1 h
    obtain rfl := (Prod.mk.inj (Option.some.inj h)).2
    exact Or.inl ⟨rfl, Or.inr ⟨k, conn, { conn with chan }, hk, by rw [Fifo.Chan.send_eq_some hsend], rfl⟩⟩
  | close k =>
    obtain ⟨conn, hk, h⟩ := Option.bind_eq_some_iff.1 h
    obtain rfl := (Prod.mk.inj (Option.some.inj h)).2
    exact Or.inl ⟨rfl, Or.inr ⟨k, conn, { conn with chan := conn.chan.close }, hk, rfl, rfl⟩⟩
  | server ev =>
    obtain ⟨⟨⟨ev', acts'⟩, proc⟩, hproc, h⟩ := Option.bind_eq_some_iff.1 h
    obtain ⟨n₁, hfold, h⟩ := Option.bind_eq_some_iff.1 h
    obtain ⟨hlabel, rfl⟩ := Prod.mk.inj (Option.some.inj h)
    obtain rfl : acts' = acts := (Prod.mk.inj hlabel).2
    obtain rfl : ev' = ev := Proc.next_label hproc
    exact Or.inr ⟨ev', acts', proc, n₁, rfl, Proc.next_step _ _ _ _ hproc, hfold, rfl⟩

theorem logins_none {n : Net} {ev : Event} {acts : List Act} (h : ∀ c, ev ≠ .accept (some c)) :
    n.logins ev acts = [] := by
  unfold logins
  split
  · exact absurd rfl (h _)
  · rfl

theorem logins_closed {n : Net} {c : Login} {acts : List Act} (h : Act.close c.connfd ∈ acts) :
    n.logins (.accept (some c)) acts = [] :=
  if_pos h

end Net

end Ts
