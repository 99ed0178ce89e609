import TopicServer.Lines
import TopicServer.Order
import TopicServer.Stream
/-!
# System — the server and its subscribers

The two programs together.  Every connection has a subscriber at its other end: it sends its name when it is started and
then goes round its own loop, on lines of its own input and on what the server has sent it, until it reads `exit`, is
told to shut down or gets a signal.  What one program sends the other takes off in order, a frame at a time.  No frame
comes from anywhere else.

This is so as long as nothing gets in the way, and the runs of the system are meant as runs in which nothing does: no
send and no read of a connection fails, a name and a text have 1 to 1699 bytes, and no subscriber reads on at the end of
its input, which holds no `0`.
-/
namespace Ts

open Text (ascii)

/-- How a subscriber is started: its name, its machine, the descriptor of its connection, and what will be typed. -/
structure Launch where
  name : Frame
  host : Host
  socket_cli : Fd
  input : CText

/-- A subscriber that has been started: its program, the rounds it has gone, and what the server sends it. -/
structure Peer where
  cli : Client
  rounds : List (ClientEvent × List Act)
  inbox : Fifo.Chan Frame

structure Sys where
  net : Net
  peers : List Peer

inductive SysEvent
  | connect (c : Launch)
  | stdin (k : Nat)
  | notification (k : Nat)
  | signal (k : Nat)
  | server (ev : Event)

/-- `shutdown_client`; what it prints goes to the standard error. -/
def Client.shutdownClient (cli : Client) : Option (Client × List Act) :=
  if cli.running then some ({ cli with running := false }, [.close cli.socket_cli]) else none

/-- What `applicationProtocol` gives the subscriber: the text of a frame, or nothing at the end of the file. -/
def received : Option Frame → CText
  | some m => ⟨m.1, m.2.2⟩
  | none => ⟨[], List.not_mem_nil⟩

namespace Sys

/-- What an act of the `k`-th subscriber does to its connection. -/
def clientAct (host : Host) (k : Nat) (n : Net) : Act → Option Net
  | .sendTcp _ str => if h : str ≠ [] ∧ 0 ∉ str then (n.next host (.send k ⟨str, h⟩)).map (·.2) else none
  | .close _ => (n.next host (.close k)).map (·.2)
  | _ => some n

/-- What an act of the server puts in the subscribers' way: a text that fits the buffer it is received in, or the end. -/
def mail (s : Sys) : Act → Option (List Peer)
  | .sendTcp fd str => do
    let k ← s.net.onFd.lookup fd
    let peer ← s.peers[k]?
    if h : (str ≠ [] ∧ 0 ∉ str) ∧ str.length < 1700 then
      let inbox ← peer.inbox.send ⟨str, h.1⟩
      return s.peers.set k { peer with inbox }
    else none
  | .close fd =>
    match s.net.onFd.lookup fd with
    | some k => some (s.peers.modify k fun peer => { peer with inbox := peer.inbox.close })
    | none => some s.peers
  | _ => some s.peers

def act (s : Sys) (a : Act) : Option Sys := do
  let peers ← s.mail a
  let net ← s.net.act a
  return ⟨net, peers⟩

def goes (host : Host) (s : Sys) (k : Nat) (peer : Peer) (acts : List Act) : Option Sys := do
  let net ← acts.foldlM (clientAct host k) s.net
  return ⟨net, s.peers.set k peer⟩

def next (host : Host) (s : Sys) : SysEvent → Option ((SysEvent × List Act) × Sys)
  | .connect c => do
    let (_, net) ← s.net.next host .connect
    let (_, net) ← net.next host (.send s.net.conns.length c.name)
    return ((.connect c, []), ⟨net, s.peers ++ [⟨Client.start c.host c.socket_cli c.input, [], .new⟩]⟩)
  | .stdin k => do
    let peer ← s.peers[k]?
    -- what is read at the end of the input is in `EndOfInput`
    if peer.cli.input = [] then none
    let (cli, acts) ← peer.cli.step .stdin
    let s ← s.goes host k { peer with cli, rounds := peer.rounds ++ [(.stdin, acts)] } acts
    return ((.stdin k, acts), s)
  | .notification k => do
    let peer ← s.peers[k]?
    let (m, inbox) ← peer.inbox.take
    let (cli, acts) ← peer.cli.step (.notification (received m))
    let s ← s.goes host k ⟨cli, peer.rounds ++ [(.notification (received m), acts)], inbox⟩ acts
    return ((.notification k, acts), s)
  | .signal k => do
    let peer ← s.peers[k]?
    let (cli, acts) ← peer.cli.shutdownClient
    let s ← s.goes host k { peer with cli } acts
    return ((.signal k, acts), s)
  | .server ev => do
    let ((_, acts), proc) ← s.net.proc.next host ev
    let s' ← acts.foldlM act s
    return ((.server ev, acts),
      { s' with net := { s'.net with proc, sessions := s.net.sessions ++ s.net.logins ev acts } })

def Step (host : Host) (s : Sys) (e : SysEvent × List Act) (s' : Sys) : Prop := s.next host e.1 = some (e, s')

def boot (proc : Proc) : Sys := ⟨Net.boot proc, []⟩

def Start (host : Host) (s : Sys) : Prop := s.net.proc.Start host ∧ s = boot s.net.proc

def serverStep : SysEvent × List Act → Option (Event × List Act)
  | (.server ev, acts) => some (ev, acts)
  | _ => none

def serverSteps (tr : List (SysEvent × List Act)) : List (Event × List Act) := tr.filterMap serverStep

/-- The subscribers that have been started, the `k`-th on the `k`-th connection. -/
def started (tr : List (SysEvent × List Act)) : List Launch := tr.filterMap fun
  | (.connect c, _) => some c
  | _ => none

end Sys

/-! ## What a step can do -/

/-- What a subscriber can do, with the acts it does. -/
inductive Peer.Goes (peer : Peer) : List Act → Peer → Prop
  | stdin {cli : Client} {acts : List Act} : peer.cli.Trans (.stdin, acts) cli →
      Peer.Goes peer acts ⟨cli, peer.rounds ++ [(.stdin, acts)], peer.inbox⟩
  | notification {cli : Client} {acts : List Act} {m : Option Frame} {inbox : Fifo.Chan Frame} :
      peer.inbox.take = some (m, inbox) → peer.cli.step (.notification (received m)) = some (cli, acts) →
      Peer.Goes peer acts ⟨cli, peer.rounds ++ [(.notification (received m), acts)], inbox⟩
  | signal : peer.cli.running = true →
      Peer.Goes peer [.close peer.cli.socket_cli] ⟨{ peer.cli with running := false }, peer.rounds, peer.inbox⟩

namespace Sys

/-- **Everything a step can do**: a subscriber is started, one of those started goes on, or the server takes a step. -/
inductive Move (host : Host) (s : Sys) : SysEvent × List Act → Sys → Prop
  | connect {c : Launch} {net₁ net : Net} :
      s.net.Step host (.connect, []) net₁ → net₁.Step host (.send s.net.conns.length c.name, []) net →
      Move host s (.connect c, []) ⟨net, s.peers ++ [⟨Client.start c.host c.socket_cli c.input, [], .new⟩]⟩
  | peer {e : SysEvent} {k : Nat} {peer peer' : Peer} {acts : List Act} {net : Net} : serverStep (e, acts) = none →
      started [(e, acts)] = [] → s.peers[k]? = some peer → peer.Goes acts peer' →
        acts.foldlM (clientAct host k) s.net = some net →
      Move host s (e, acts) ⟨net, s.peers.set k peer'⟩
  | server {ev : Event} {acts : List Act} {proc : Proc} {s₁ : Sys} :
      s.net.proc.next host ev = some ((ev, acts), proc) → acts.foldlM act s = some s₁ → Move host s (.server ev, acts)
        { s₁ with net := { s₁.net with proc, sessions := s.net.sessions ++ s.net.logins ev acts } }

theorem next_peer {host : Host} {n n' : Net} {k : Nat} {ev : NetEvent} {e : NetEvent × List Act}
    (hev : (∃ m, ev = .send k m) ∨ ev = .close k) (h : n.next host ev = some (e, n')) : n.Step host (ev, []) n' := by
  rcases hev with ⟨m, rfl⟩ | rfl
  · obtain ⟨conn, hk, h⟩ := Option.bind_eq_some_iff.1 h
    obtain ⟨chan, hsend, h⟩ := Option.bind_eq_some_iff.1 h
    obtain rfl := (Prod.mk.inj (Option.some.inj h)).2
    simp only [Net.Step, Net.next, hk, hsend, Option.bind_eq_bind, Option.bind_some]
    rfl
  · obtain ⟨conn, hk, h⟩ := Option.bind_eq_some_iff.1 h
    obtain rfl := (Prod.mk.inj (Option.some.inj h)).2
    simp only [Net.Step, Net.next, hk, Option.bind_eq_bind, Option.bind_some]
    rfl

theorem next_label {host : Host} {s s' : Sys} {ev : SysEvent} {e : SysEvent × List Act}
    (h : s.next host ev = some (e, s')) : e.1 = ev := by
  unfold next at h
  cases ev with
  | connect c =>
    dsimp only at h
    obtain ⟨⟨_, _⟩, -, h⟩ := Option.bind_eq_some_iff.1 h
    obtain ⟨⟨_, _⟩, -, h⟩ := Option.bind_eq_some_iff.1 h
    rw [← (Prod.mk.inj (Option.some.inj h)).1]
  | stdin k =>
    dsimp only at h
    obtain ⟨peer, -, h⟩ := Option.bind_eq_some_iff.1 h
    split at h
    · cases h
    · obtain ⟨⟨_, _⟩, -, h⟩ := Option.bind_eq_some_iff.1 h
      obtain ⟨_, -, h⟩ := Option.bind_eq_some_iff.1 h
      rw [← (Prod.mk.inj (Option.some.inj h)).1]
  | notification k =>
    dsimp only at h
    obtain ⟨peer, -, h⟩ := Option.bind_eq_some_iff.1 h
    obtain ⟨⟨_, _⟩, -, h⟩ := Option.bind_eq_some_iff.1 h
    obtain ⟨⟨_, _⟩, -, h⟩ := Option.bind_eq_some_iff.1 h
    obtain ⟨_, -, h⟩ := Option.bind_eq_some_iff.1 h
    rw [← (Prod.mk.inj (Option.some.inj h)).1]
  | signal k =>
    dsimp only at h
    obtain ⟨peer, -, h⟩ := Option.bind_eq_some_iff.1 h
    obtain ⟨⟨_, _⟩, -, h⟩ := Option.bind_eq_some_iff.1 h
    obtain ⟨_, -, h⟩ := Option.bind_eq_some_iff.1 h
    rw [← (Prod.mk.inj (Option.some.inj h)).1]
  | server ev =>
    dsimp only at h
    obtain ⟨⟨⟨_, _⟩, _⟩, -, h⟩ := Option.bind_eq_some_iff.1 h
    obtain ⟨_, -, h⟩ := Option.bind_eq_some_iff.1 h
    rw [← (Prod.mk.inj (Option.some.inj h)).1]

theorem next_step {host : Host} (s : Sys) (ev : SysEvent) (e : SysEvent × List Act) (s' : Sys)
    (h : s.next host ev = some (e, s')) : s.Step host e s' := by
  rw [Step, next_label h]
  exact h

theorem Step.move {host : Host} {s s' : Sys} {e : SysEvent × List Act} (h : s.Step host e s') : Move host s e s' := by
  obtain ⟨ev, acts⟩ := e
  unfold Step next at h
  cases ev with
  | connect c =>
    obtain ⟨⟨e₁, net₁⟩, hconnect, h⟩ := Option.bind_eq_some_iff.1 h
    obtain ⟨⟨e₂, net⟩, hsend, h⟩ := Option.bind_eq_some_iff.1 h
    obtain ⟨hlabel, rfl⟩ := Prod.mk.inj (Option.some.inj h)
    obtain rfl : [] = acts := (Prod.mk.inj hlabel).2
    obtain rfl := (Prod.mk.inj (Option.some.inj hconnect)).2
    exact .connect rfl (next_peer (Or.inl ⟨_, rfl⟩) hsend)
  | stdin k =>
    obtain ⟨peer, hpeer, h⟩ := Option.bind_eq_some_iff.1 h
    dsimp only at h
    split at h
    · cases h
    rename_i hin
    obtain ⟨⟨cli, acts'⟩, hstep, h⟩ := Option.bind_eq_some_iff.1 h
    obtain ⟨s₁, hgoes, h⟩ := Option.bind_eq_some_iff.1 h
    obtain ⟨net, hfold, hs₁⟩ := Option.bind_eq_some_iff.1 hgoes
    obtain ⟨hlabel, rfl⟩ := Prod.mk.inj (Option.some.inj h)
    obtain rfl : acts' = acts := (Prod.mk.inj hlabel).2
    obtain rfl := Option.some.inj hs₁
    exact .peer rfl rfl hpeer (.stdin ⟨hstep, fun _ => hin⟩) hfold
  | notification k =>
    obtain ⟨peer, hpeer, h⟩ := Option.bind_eq_some_iff.1 h
    obtain ⟨⟨m, inbox⟩, htake, h⟩ := Option.bind_eq_some_iff.1 h
    obtain ⟨⟨cli, acts'⟩, hstep, h⟩ := Option.bind_eq_some_iff.1 h
    obtain ⟨s₁, hgoes, h⟩ := Option.bind_eq_some_iff.1 h
    obtain ⟨net, hfold, hs₁⟩ := Option.bind_eq_some_iff.1 hgoes
    obtain ⟨hlabel, rfl⟩ := Prod.mk.inj (Option.some.inj h)
    obtain rfl : acts' = acts := (Prod.mk.inj hlabel).2
    obtain rfl := Option.some.inj hs₁
    exact .peer rfl rfl hpeer (.notification htake hstep) hfold
  | signal k =>
    obtain ⟨peer, hpeer, h⟩ := Option.bind_eq_some_iff.1 h
    obtain ⟨⟨cli, acts'⟩, hstep, h⟩ := Option.bind_eq_some_iff.1 h
    obtain ⟨s₁, hgoes, h⟩ := Option.bind_eq_some_iff.1 h
    obtain ⟨net, hfold, hs₁⟩ := Option.bind_eq_some_iff.1 hgoes
    obtain ⟨hlabel, rfl⟩ := Prod.mk.inj (Option.some.inj h)
    obtain rfl : acts' = acts := (Prod.mk.inj hlabel).2
    obtain rfl := Option.some.inj hs₁
    unfold Client.shutdownClient at hstep
    split at hstep
    · rename_i hgo
      obtain ⟨rfl, rfl⟩ := Prod.mk.inj (Option.some.inj hstep)
      exact .peer rfl rfl hpeer (.signal hgo) hfold
    · cases hstep
  | server ev =>
    obtain ⟨⟨⟨ev', acts'⟩, proc⟩, hproc, h⟩ := Option.bind_eq_some_iff.1 h
    obtain ⟨s₁, hfold, h⟩ := Option.bind_eq_some_iff.1 h
    obtain ⟨hlabel, rfl⟩ := Prod.mk.inj (Option.some.inj h)
    obtain rfl : acts' = acts := (Prod.mk.inj hlabel).2
    obtain rfl : ev' = ev := Proc.next_label hproc
    exact .server hproc hfold

/-! ## Two ends of a connection -/

/-- What the acts of the `k`-th subscriber change: its frames wait behind those it has sent before. -/
structure Grown (host : Host) (k : Nat) (texts : List Bytes) (n n' : Net) : Prop where
  run : ∃ tr, Lts.Run (Net.Step host) n tr n' ∧ tr.filterMap Net.serverStep = []
  proc : n'.proc = n.proc
  onFd : n'.onFd = n.onFd
  backlog : n'.backlog = n.backlog
  sessions : n'.sessions = n.sessions
  length : n'.conns.length = n.conns.length
  read : ∀ j : Nat, (n'.conns[j]?).map (fun c : Conn => c.chan.read) = (n.conns[j]?).map (fun c : Conn => c.chan.read)
  sent : ∀ j : Nat, (n'.conns[j]?).map (fun c : Conn => c.chan.sent.map (·.1)) =
    (n.conns[j]?).map fun c : Conn => c.chan.sent.map (·.1) ++ if j = k then texts else []

theorem Grown.refl (host : Host) (k : Nat) (n : Net) : Grown host k [] n n :=
  ⟨⟨[], .nil, rfl⟩, rfl, rfl, rfl, rfl, rfl, fun _ => rfl, fun j => by simp⟩

theorem Grown.trans {host : Host} {k : Nat} {a b : List Bytes} {n n₁ n' : Net} (h : Grown host k a n n₁)
    (h' : Grown host k b n₁ n') : Grown host k (a ++ b) n n' where
  run := by
    obtain ⟨tr, hrun, hnone⟩ := h.run
    obtain ⟨tr', hrun', hnone'⟩ := h'.run
    exact ⟨tr ++ tr', hrun.append hrun', by rw [List.filterMap_append, hnone, hnone', List.append_nil]⟩
  proc := h'.proc.trans h.proc
  onFd := h'.onFd.trans h.onFd
  backlog := h'.backlog.trans h.backlog
  sessions := h'.sessions.trans h.sessions
  length := h'.length.trans h.length
  read := fun j => (h'.read j).trans (h.read j)
  sent := fun j => by
    have hmid := h.sent j
    rw [h'.sent j]
    cases hj : n.conns[j]? with
    | none =>
      rw [hj, Option.map_none, Option.map_eq_none_iff] at hmid
      rw [hmid]
      rfl
    | some c =>
      rw [hj, Option.map_some, Option.map_eq_some_iff] at hmid
      obtain ⟨c₁, hc₁, hsent⟩ := hmid
      rw [hc₁, Option.map_some, Option.map_some, hsent, List.append_assoc]
      by_cases hjk : j = k <;> simp [hjk]

theorem grown_set {host : Host} {k : Nat} {texts : List Bytes} {n : Net} {conn : Conn} {chan : Fifo.Chan Frame}
    {ev : NetEvent} (hk : n.conns[k]? = some conn) (hread : chan.read = conn.chan.read)
    (hsent : chan.sent.map (·.1) = conn.chan.sent.map (·.1) ++ texts) (hev : Net.serverStep (ev, []) = none)
    (hstep : n.Step host (ev, []) { n with conns := n.conns.set k { conn with chan } }) :
    Grown host k texts n { n with conns := n.conns.set k { conn with chan } } where
  run := ⟨[(ev, [])], Lts.Run.nil.snoc hstep, by simp [hev]⟩
  proc := rfl
  onFd := rfl
  backlog := rfl
  sessions := rfl
  length := List.length_set ..
  read := fun j => by
    by_cases hjk : j = k
    · subst hjk
      rw [List.getElem?_set_self (List.getElem?_eq_some_iff.1 hk).1, hk, Option.map_some, Option.map_some, hread]
    · rw [List.getElem?_set_ne (Ne.symm hjk)]
  sent := fun j => by
    by_cases hjk : j = k
    · subst hjk
      rw [List.getElem?_set_self (List.getElem?_eq_some_iff.1 hk).1, hk, Option.map_some, Option.map_some, hsent,
        if_pos rfl]
    · rw [List.getElem?_set_ne (Ne.symm hjk)]
      simp [hjk]

theorem clientAct_grown {host : Host} {k : Nat} {n n' : Net} {a : Act} (h : clientAct host k n a = some n') :
    Grown host k (frames [a]) n n' := by
  cases a with
  | sendTcp fd str =>
    unfold clientAct at h
    dsimp only at h
    split at h
    · rename_i hstr
      obtain ⟨⟨e, n₁⟩, hnext, rfl⟩ := Option.map_eq_some_iff.1 h
      have hstep := next_peer (Or.inl ⟨_, rfl⟩) hnext
      obtain ⟨conn, hk, hnext⟩ := Option.bind_eq_some_iff.1 hnext
      obtain ⟨chan, hsend, hnext⟩ := Option.bind_eq_some_iff.1 hnext
      obtain rfl := (Prod.mk.inj (Option.some.inj hnext)).2
      obtain ⟨hread, hsent⟩ := Fifo.Chan.sent_send hsend
      exact grown_set hk hread (by rw [hsent, List.map_append]; rfl) rfl hstep
    · cases h
  | close fd =>
    obtain ⟨⟨e, n₁⟩, hnext, rfl⟩ := Option.map_eq_some_iff.1 h
    have hstep := next_peer (Or.inr rfl) hnext
    obtain ⟨conn, hk, hnext⟩ := Option.bind_eq_some_iff.1 hnext
    obtain rfl := (Prod.mk.inj (Option.some.inj hnext)).2
    exact grown_set hk rfl (List.append_nil _).symm rfl hstep
  | accept fd =>
    obtain rfl := Option.some.inj h
    exact .refl host k n
  | recv fd buff =>
    obtain rfl := Option.some.inj h
    exact .refl host k n
  | cout line =>
    obtain rfl := Option.some.inj h
    exact .refl host k n

theorem clientActs_grown {host : Host} {k : Nat} : ∀ {acts : List Act} {n n' : Net},
    acts.foldlM (clientAct host k) n = some n' → Grown host k (frames acts) n n'
  | [], n, n', h => by
    obtain rfl := Option.some.inj h
    exact .refl host k n
  | a :: acts, n, n', h => by
    rw [List.foldlM_cons] at h
    obtain ⟨n₁, h₁, h⟩ := Option.bind_eq_some_iff.1 h
    exact frames_append [a] acts ▸ (clientAct_grown h₁).trans (clientActs_grown h)

/-- What the acts of the server leave as it was: what the subscribers have done and sent. -/
structure Kept (s s' : Sys) : Prop where
  peers : ∀ k : Nat, (s'.peers[k]?).map (fun p : Peer => (p.cli, p.rounds, p.inbox.read)) =
    (s.peers[k]?).map fun p : Peer => (p.cli, p.rounds, p.inbox.read)
  conns : ∀ k : Nat, (s'.net.conns[k]?).map (fun c : Conn => c.chan.sent) =
    (s.net.conns[k]?).map (fun c : Conn => c.chan.sent)

theorem Kept.refl (s : Sys) : Kept s s := ⟨fun _ => rfl, fun _ => rfl⟩

theorem Kept.trans {s s₁ s' : Sys} (h : Kept s s₁) (h' : Kept s₁ s') : Kept s s' :=
  ⟨fun k => (h'.peers k).trans (h.peers k), fun k => (h'.conns k).trans (h.conns k)⟩

theorem mail_kept {s : Sys} {a : Act} {peers : List Peer} (h : s.mail a = some peers) (k : Nat) :
    (peers[k]?).map (fun p : Peer => (p.cli, p.rounds, p.inbox.read)) =
      (s.peers[k]?).map fun p : Peer => (p.cli, p.rounds, p.inbox.read) := by
  cases a with
  | sendTcp fd str =>
    obtain ⟨j, -, h⟩ := Option.bind_eq_some_iff.1 h
    obtain ⟨peer, hpeer, h⟩ := Option.bind_eq_some_iff.1 h
    split at h
    · obtain ⟨inbox, hsend, h⟩ := Option.bind_eq_some_iff.1 h
      obtain rfl := Option.some.inj h
      by_cases hkj : k = j
      · subst hkj
        rw [List.getElem?_set_self (List.getElem?_eq_some_iff.1 hpeer).1, hpeer, Option.map_some, Option.map_some,
          (Fifo.Chan.sent_send hsend).1]
      · rw [List.getElem?_set_ne (Ne.symm hkj)]
    · cases h
  | close fd =>
    unfold mail at h
    dsimp only at h
    split at h
    · rename_i j _
      obtain rfl := Option.some.inj h
      rw [List.getElem?_modify]
      cases s.peers[k]? with
      | none => rfl
      | some p =>
        rw [Option.map_eq_map, Option.map_some, Option.map_some, Option.map_some]
        split <;> rfl
    · obtain rfl := Option.some.inj h
      rfl
  | accept fd =>
    obtain rfl := Option.some.inj h
    rfl
  | recv fd buff =>
    obtain rfl := Option.some.inj h
    rfl
  | cout line =>
    obtain rfl := Option.some.inj h
    rfl

theorem netAct_keeps {β : Type} {f : Fifo.Chan Frame → β}
    (hf : ∀ {chan chan' : Fifo.Chan Frame} {m : Option Frame}, chan.take = some (m, chan') → f chan' = f chan)
    {n n' : Net}
    {a : Act} (h : n.act a = some n') (k : Nat) :
    (n'.conns[k]?).map (fun c : Conn => f c.chan) = (n.conns[k]?).map fun c : Conn => f c.chan := by
  cases a with
  | recv fd buff =>
    obtain ⟨j, -, h⟩ := Option.bind_eq_some_iff.1 h
    obtain ⟨conn, hconn, h⟩ := Option.bind_eq_some_iff.1 h
    obtain ⟨⟨m, chan⟩, htake, h⟩ := Option.bind_eq_some_iff.1 h
    dsimp only at h
    split at h
    · obtain rfl := Option.some.inj h
      by_cases hkj : k = j
      · subst hkj
        rw [List.getElem?_set_self (List.getElem?_eq_some_iff.1 hconn).1, hconn, Option.map_some, Option.map_some,
          hf htake]
      · rw [List.getElem?_set_ne (Ne.symm hkj)]
    · cases h
  | accept fd =>
    obtain ⟨j, rest, -, rfl⟩ := Net.act_accept h
    rfl
  | sendTcp fd str =>
    obtain rfl := Option.some.inj h
    rfl
  | close fd =>
    obtain rfl := Option.some.inj h
    rfl
  | cout line =>
    obtain rfl := Option.some.inj h
    rfl

theorem act_parts {s s' : Sys} {a : Act} (h : s.act a = some s') :
    s.mail a = some s'.peers ∧ s.net.act a = some s'.net := by
  obtain ⟨peers, hmail, h⟩ := Option.bind_eq_some_iff.1 h
  obtain ⟨net, hnet, h⟩ := Option.bind_eq_some_iff.1 h
  obtain rfl := Option.some.inj h
  exact ⟨hmail, hnet⟩

/-- **A step of the server** does to the connections what it does without the subscribers, and leaves what they have done
as it was. -/
theorem acts_kept : ∀ {acts : List Act} {s s' : Sys}, acts.foldlM act s = some s' →
    acts.foldlM Net.act s.net = some s'.net ∧ Kept s s'
  | [], s, s', h => by
    obtain rfl := Option.some.inj h
    exact ⟨rfl, .refl s⟩
  | a :: acts, s, s', h => by
    rw [List.foldlM_cons] at h
    obtain ⟨s₁, h₁, h⟩ := Option.bind_eq_some_iff.1 h
    obtain ⟨hmail, hnet⟩ := act_parts h₁
    obtain ⟨hfold, hkept⟩ := acts_kept h
    refine ⟨?_, Kept.trans ⟨mail_kept hmail, netAct_keeps (fun htake => (Fifo.Chan.take_kept htake).1) hnet⟩ hkept⟩
    rw [List.foldlM_cons, hnet]
    exact hfold

theorem connect_net {host : Host} {n net₁ net : Net} {name : Frame} (h₁ : n.Step host (.connect, []) net₁)
    (h : net₁.Step host (.send n.conns.length name, []) net) : net = { n with
      conns := n.conns ++ [⟨⟨[], [name], false⟩, n.closedNow⟩], backlog := n.backlog ++ [n.conns.length] } := by
  obtain rfl := (Prod.mk.inj (Option.some.inj h₁)).2
  obtain ⟨conn, hconn, h⟩ := Option.bind_eq_some_iff.1 h
  obtain ⟨chan, hsend, h⟩ := Option.bind_eq_some_iff.1 h
  obtain rfl := (Prod.mk.inj (Option.some.inj h)).2
  obtain rfl : ⟨.new, n.closedNow⟩ = conn := Option.some.inj (List.getElem?_concat_length.symm.trans hconn)
  obtain rfl : ⟨[], [name], false⟩ = chan := Option.some.inj hsend
  simp

/-- **A step of the system is a run of the connections**, with the same step of the server's in it. -/
theorem Move.net {host : Host} {s s' : Sys} {e : SysEvent × List Act} (h : Move host s e s') :
    ∃ tr, Lts.Run (Net.Step host) s.net tr s'.net ∧ tr.filterMap Net.serverStep = (serverStep e).toList := by
  cases h with
  | connect h₁ h => exact ⟨_, (Lts.Run.nil.snoc h₁).snoc h, rfl⟩
  | peer hnone _ _ _ hfold =>
    rw [hnone]
    exact (clientActs_grown hfold).run
  | @server ev acts proc s₁ hproc hfold =>
    refine ⟨_, Lts.Run.nil.snoc (e := (.server ev, acts)) ?_, rfl⟩
    simp only [Net.Step, Net.next, hproc, (acts_kept hfold).1, Option.bind_eq_bind, Option.bind_some]
    rfl

theorem run_net {host : Host} {s₀ s : Sys} {tr : List (SysEvent × List Act)} (hrun : Lts.Run (Step host) s₀ tr s) :
    ∃ ntr, Lts.Run (Net.Step host) s₀.net ntr s.net ∧ ntr.filterMap Net.serverStep = serverSteps tr := by
  obtain ⟨ntr, n, hnet, hsteps, rfl⟩ := hrun.matched (R := fun s n => n = s.net) (L := fun _ => True) rfl
    (fun s e s' n hn _ h => by
      obtain ⟨ntr, hnet, hstep⟩ := h.move.net
      exact ⟨ntr, _, hn ▸ hnet, hstep, rfl⟩) (fun _ _ => trivial)
  exact ⟨ntr, hnet, hsteps⟩

theorem run_proc {host : Host} {s₀ s : Sys} {tr : List (SysEvent × List Act)} (hrun : Lts.Run (Step host) s₀ tr s) :
    Lts.Run (Proc.Step host) s₀.net.proc (serverSteps tr) s.net.proc := by
  obtain ⟨ntr, hnet, hsteps⟩ := run_net hrun
  exact hsteps ▸ Net.run_proc hnet

theorem run_links {host : Host} {s₀ s : Sys} {tr : List (SysEvent × List Act)} (h₀ : s₀.Start host)
    (hrun : Lts.Run (Step host) s₀ tr s) : s.net.proc.Inv ∧ s.net.Links := by
  obtain ⟨ntr, hnet, -⟩ := run_net hrun
  have hstart : s₀.net.Start host := ⟨h₀.1, by rw [h₀.2]; rfl⟩
  refine hnet.invariant (P := fun n => n.proc.Inv ∧ n.Links) ⟨hstart.kept.1, hstart.kept.2.1⟩ fun _ _ _ h hstep => ?_
  obtain ⟨hp, hlinks, -⟩ := Net.Step.kept hstep h.1 h.2
  exact ⟨hp, hlinks⟩

end Sys

/-! ## What a subscriber has done -/

/-- A round on a line: the connection is closed at `exit`, or a command goes out on it and its topic is printed, or
nothing. -/
theorem Client.step_line {cli cli' : Client} {acts : List Act} (h : cli.step .stdin = some (cli', acts)) :
    cli.running = true ∧ cli'.socket_cli = cli.socket_cli ∧
      (cli'.running = false ∧ acts = [.close cli.socket_cli] ∨ cli'.running = true ∧
        (acts = [] ∨ ∃ str line, acts = [.sendTcp cli.socket_cli str, .cout line])) := by
  unfold step at h
  dsimp only at h
  split at h
  · cases h
  rename_i hgo
  have hgo : cli.running = true := by simpa using hgo
  obtain ⟨⟨b, rest⟩, -, h⟩ := Option.bind_eq_some_iff.1 h
  obtain ⟨b', -, h⟩ := Option.bind_eq_some_iff.1 h
  obtain ⟨eq, -, h⟩ := Option.bind_eq_some_iff.1 h
  split at h
  · obtain ⟨rfl, rfl⟩ := Prod.mk.inj (Option.some.inj h)
    exact ⟨hgo, rfl, Or.inl ⟨rfl, rfl⟩⟩
  · obtain ⟨acts', hcommand, h⟩ := Option.bind_eq_some_iff.1 h
    obtain ⟨rfl, rfl⟩ := Prod.mk.inj (Option.some.inj h)
    refine ⟨hgo, rfl, Or.inr ⟨hgo, ?_⟩⟩
    have hline : ∀ {n : Nat} {echo : Bytes}, sendLine cli.socket_cli b' n echo = some acts' →
        acts' = [] ∨ ∃ str line, acts' = [.sendTcp cli.socket_cli str, .cout line] := by
      intro n echo hsend
      obtain ⟨ok, -, hsend⟩ := Option.bind_eq_some_iff.1 hsend
      split at hsend
      · obtain ⟨str, -, hsend⟩ := Option.bind_eq_some_iff.1 hsend
        obtain ⟨topic, -, hsend⟩ := Option.bind_eq_some_iff.1 hsend
        exact Or.inr ⟨str, echo ++ topic, (Option.some.inj hsend).symm⟩
      · exact Or.inl (Option.some.inj hsend).symm
    obtain ⟨isSub, -, hcommand⟩ := Option.bind_eq_some_iff.1 hcommand
    split at hcommand
    · exact hline hcommand
    · obtain ⟨isUnsub, -, hcommand⟩ := Option.bind_eq_some_iff.1 hcommand
      split at hcommand
      · exact hline hcommand
      · exact Or.inl (Option.some.inj hcommand).symm

theorem Client.step_notification {cli cli' : Client} {buff : CText} {acts : List Act}
    (h : cli.step (.notification buff) = some (cli', acts)) : cli.running = true ∧
      (buff.1 = ascii "shutdown" ∧ cli' = { cli with running := false } ∧ acts = [.close cli.socket_cli] ∨
        buff.1 ≠ ascii "shutdown" ∧ cli' = cli ∧ acts = if buff.1 = [] then [] else [.cout buff.1]) := by
  unfold step at h
  dsimp only at h
  split at h
  · cases h
  rename_i hgo
  have hgo : cli.running = true := by simpa using hgo
  refine ⟨hgo, ?_⟩
  split at h
  · obtain ⟨rfl, rfl⟩ := Prod.mk.inj (Option.some.inj h)
    exact Or.inl ⟨‹_›, rfl, rfl⟩
  · rename_i hne
    split at h
    · rename_i hnil
      obtain ⟨rfl, rfl⟩ := Prod.mk.inj (Option.some.inj h)
      exact Or.inr ⟨hne, rfl, by rw [if_neg hnil]⟩
    · rename_i hnil
      obtain ⟨rfl, rfl⟩ := Prod.mk.inj (Option.some.inj h)
      rw [not_not] at hnil
      exact Or.inr ⟨hne, rfl, by rw [if_pos hnil]⟩

/-- The texts that the rounds have taken off the connection. -/
def heard (rounds : List (ClientEvent × List Act)) : List Bytes := rounds.filterMap fun
  | (.notification buff, _) => if buff.1 = [] then none else some buff.1
  | _ => none

/-- The frames that the rounds have sent. -/
def uttered (rounds : List (ClientEvent × List Act)) : List Bytes := frames (rounds.flatMap (·.2))

theorem uttered_snoc (rounds : List (ClientEvent × List Act)) (e : ClientEvent × List Act) :
    uttered (rounds ++ [e]) = uttered rounds ++ frames e.2 := by
  simp [uttered, frames_append]

/-- The lines that the rounds have printed for what they took off the connection. -/
def shown (rounds : List (ClientEvent × List Act)) : List Bytes := rounds.flatMap fun
  | (.notification _, acts) => acts.filterMap fun
    | .cout line => some line
    | _ => none
  | _ => []

/-- **A subscriber prints all it hears**, in order and once, but for the word that ends it, and hears nothing after
that. -/
theorem shown_heard {cli₀ cli : Client} {rounds : List (ClientEvent × List Act)}
    (hrun : Lts.Run Client.Trans cli₀ rounds cli) :
    (cli.running = true → ascii "shutdown" ∉ heard rounds) ∧
      shown rounds = (heard rounds).filter (· ≠ ascii "shutdown") := by
  refine hrun.history (P := fun rounds cli => (cli.running = true → ascii "shutdown" ∉ heard rounds) ∧
      shown rounds = (heard rounds).filter (· ≠ ascii "shutdown")) ⟨fun _ => List.not_mem_nil, rfl⟩ ?_
  rintro rounds cli ⟨ev, acts⟩ cli' - ⟨hgoes, hshown⟩ htrans
  have hheard : heard (rounds ++ [(ev, acts)]) = heard rounds ++ heard [(ev, acts)] := List.filterMap_append
  have hshow : shown (rounds ++ [(ev, acts)]) = shown rounds ++ shown [(ev, acts)] := List.flatMap_append
  rw [hheard, hshow, List.filter_append, hshown]
  cases ev with
  | stdin =>
    obtain ⟨hgo, -⟩ := Client.step_line htrans.1
    have hnone : heard [(ClientEvent.stdin, acts)] = [] := rfl
    rw [hnone, List.append_nil]
    exact ⟨fun _ => hgoes hgo, rfl⟩
  | notification buff =>
    obtain ⟨hgo, ⟨hword, rfl, hacts⟩ | ⟨hword, rfl, hacts⟩⟩ := Client.step_notification htrans.1
    · obtain rfl : acts = _ := hacts
      refine ⟨fun hgo' => (by cases hgo'), ?_⟩
      simp [shown, heard, hword]
    · obtain rfl : acts = _ := hacts
      by_cases hnil : buff.1 = []
      · have hnone : heard [(ClientEvent.notification buff, ([] : List Act))] = [] := by simp [heard, hnil]
        have hno : shown [(ClientEvent.notification buff, [])] = [] := rfl
        rw [if_pos hnil, hnone, hno, List.append_nil]
        exact ⟨hgoes, by rw [List.filter_nil]⟩
      · have hone : heard [(ClientEvent.notification buff, [Act.cout buff.1])] = [buff.1] := by simp [heard, hnil]
        have hline : shown [(ClientEvent.notification buff, [Act.cout buff.1])] = [buff.1] := rfl
        rw [if_neg hnil, hone, hline, List.mem_append, List.mem_singleton]
        exact ⟨fun _ => not_or.2 ⟨hgoes hgo, Ne.symm hword⟩, by simp [hword]⟩

/-- What holds of a subscriber that was started so, when `texts` have been sent on its connection. -/
structure Peer.Ok (c : Launch) (peer : Peer) (texts : List Bytes) : Prop where
  run : ∃ cli, Lts.Run Client.Trans (Client.start c.host c.socket_cli c.input) peer.rounds cli ∧
    (peer.cli = cli ∨ peer.cli = { cli with running := false })
  sent : texts = c.name.1 :: uttered peer.rounds
  heard : heard peer.rounds = peer.inbox.read.map (·.1)

theorem Peer.Goes.ok {c : Launch} {peer peer' : Peer} {acts : List Act} {texts : List Bytes} (h : peer.Goes acts peer')
    (hok : peer.Ok c texts) : peer'.Ok c (texts ++ frames acts) := by
  obtain ⟨cli₀, hrun, hcli⟩ := hok.run
  have hlive : peer.cli.running = true → peer.cli = cli₀ := fun hgo => by
    rcases hcli with hcli | hcli
    · exact hcli
    · rw [hcli] at hgo
      cases hgo
  cases h with
  | @stdin cli acts htrans =>
    rw [hlive (Client.step_line htrans.1).1] at htrans
    exact
      { run := ⟨cli, hrun.snoc htrans, Or.inl rfl⟩
        sent := by rw [hok.sent, uttered_snoc, List.cons_append]
        heard := by rw [← hok.heard]; simp [Ts.heard] }
  | @notification cli acts m inbox htake hstep =>
    rw [hlive (Client.step_notification hstep).1] at hstep
    exact
      { run := ⟨cli, hrun.snoc ⟨hstep, fun h => nomatch h⟩, Or.inl rfl⟩
        sent := by rw [hok.sent, uttered_snoc, List.cons_append]
        heard := by
          cases m with
          | none =>
            rw [(Fifo.Chan.take_end htake).1, ← hok.heard]
            simp [Ts.heard, received]
          | some m =>
            rw [(Fifo.Chan.take_message htake).1, List.map_append, ← hok.heard]
            simp [Ts.heard, received, m.2.1] }
  | signal hgo =>
    have hnone : frames [.close peer.cli.socket_cli] = [] := rfl
    exact
      { run := ⟨cli₀, hrun, Or.inr (by rw [hlive hgo])⟩
        sent := by rw [hok.sent, hnone, List.append_nil]
        heard := hok.heard }

theorem Peer.Ok.sends {c : Launch} {peer : Peer} {texts : List Bytes} (h : peer.Ok c texts) {str : Bytes}
    (hstr : str ∈ uttered peer.rounds) : Sends str := by
  obtain ⟨cli, hrun, -⟩ := h.run
  obtain ⟨a, ha, hsend⟩ := List.mem_filterMap.1 hstr
  obtain ⟨e, he, hae⟩ := List.mem_flatMap.1 ha
  -- a subscriber sends on its own connection
  have hlabels := (hrun.labels (P := fun cli => cli.socket_cli = c.socket_cli)
    (Q := fun e => ∀ x str, Act.sendTcp x str ∈ e.2 → x = c.socket_cli) rfl ?_).2 e he
  · cases a with
    | sendTcp x str' =>
      obtain rfl : str' = str := Option.some.inj hsend
      exact ⟨c.host, c.socket_cli, c.input, peer.rounds, cli, c.input.2, hrun, e, he, hlabels x str' hae ▸ hae⟩
    | _ => cases hsend
  · rintro cli ⟨ev, acts⟩ cli' hfd htrans
    cases ev with
    | stdin =>
      obtain ⟨-, hfd', ⟨-, hacts⟩ | ⟨-, hacts | ⟨str, line, hacts⟩⟩⟩ := Client.step_line htrans.1
      · exact ⟨hfd'.trans hfd, by simp [show acts = _ from hacts]⟩
      · exact ⟨hfd'.trans hfd, by simp [show acts = _ from hacts]⟩
      · refine ⟨hfd'.trans hfd, fun x str hx => ?_⟩
        rw [show acts = _ from hacts] at hx
        simp only [List.mem_cons, Act.sendTcp.injEq, List.not_mem_nil, or_false, reduceCtorEq] at hx
        exact hx.1.trans hfd
    | notification buff =>
      obtain ⟨-, ⟨-, rfl, hacts⟩ | ⟨-, rfl, hacts⟩⟩ := Client.step_notification htrans.1
      · exact ⟨hfd, by simp [show acts = _ from hacts]⟩
      · refine ⟨hfd, fun x str hx => ?_⟩
        rw [show acts = _ from hacts] at hx
        split at hx
        · cases hx
        · cases List.mem_singleton.1 hx

theorem Move.reads {host : Host} {srv srv' : Server} {ev : Event} {acts : List Act} {buff : CText}
    (hm : Move host srv ev acts srv') (hframe : ev.frame = some buff) (hne : buff.1 ≠ []) :
    ∃ fd ∈ srv.clientFds, acts = [.recv fd buff] := by
  have hno : (∀ b ok, ev ≠ .recv b ok) → False := fun hrecv => by
    cases ev with
    | recv b ok => exact hrecv b ok rfl
    | _ => cases hframe
  cases hm with
  | exit _ _ _ _ hrecv => exact (hno hrecv).elim
  | quiet _ _ _ _ hrecv => exact (hno hrecv).elim
  | dropped => cases hframe
  | refused => cases hframe
  | login => cases hframe
  | datagram => cases hframe
  | logout =>
    obtain rfl := Option.some.inj hframe
    exact absurd rfl hne
  | ignored _ hfd =>
    obtain rfl := Option.some.inj hframe
    exact ⟨_, hfd, rfl⟩
  | command _ hfd =>
    obtain rfl := Option.some.inj hframe
    exact ⟨_, hfd, rfl⟩

namespace Sys

/-- **Every subscriber is one that was started**, and what is on its connection is what it has sent. -/
structure Ok (cs : List Launch) (s : Sys) : Prop where
  length : s.peers.length = s.net.conns.length
  started : cs.length = s.net.conns.length
  peer : ∀ (k : Nat) (c : Launch) (peer : Peer) (conn : Conn), cs[k]? = some c → s.peers[k]? = some peer →
    s.net.conns[k]? = some conn → peer.Ok c (conn.chan.sent.map (·.1))

theorem Ok.of_conn {cs : List Launch} {s : Sys} (h : s.Ok cs) {k : Nat} {conn : Conn}
    (hconn : s.net.conns[k]? = some conn) :
    ∃ c peer, cs[k]? = some c ∧ s.peers[k]? = some peer ∧ peer.Ok c (conn.chan.sent.map (·.1)) := by
  have hlt := (List.getElem?_eq_some_iff.1 hconn).1
  have hc := List.getElem?_eq_getElem (h.started ▸ hlt)
  have hpeer := List.getElem?_eq_getElem (h.length ▸ hlt)
  exact ⟨_, _, hc, hpeer, h.peer k _ _ conn hc hpeer hconn⟩

theorem Ok.of_peer {cs : List Launch} {s : Sys} (h : s.Ok cs) {k : Nat} {peer : Peer} (hpeer : s.peers[k]? = some peer) :
    ∃ c conn, cs[k]? = some c ∧ s.net.conns[k]? = some conn ∧ peer.Ok c (conn.chan.sent.map (·.1)) := by
  have hconn := List.getElem?_eq_getElem (h.length ▸ (List.getElem?_eq_some_iff.1 hpeer).1)
  obtain ⟨c, peer', hc, hpeer', hok⟩ := h.of_conn hconn
  obtain rfl := Option.some.inj (hpeer'.symm.trans hpeer)
  exact ⟨c, _, hc, hconn, hok⟩

theorem length_of_map_getElem? {α β : Type} {f : α → β} {l l' : List α}
    (h : ∀ k : Nat, (l'[k]?).map f = (l[k]?).map f) : l'.length = l.length := by
  have hmap : l'.map f = l.map f := List.ext_getElem? fun k => by rw [List.getElem?_map, List.getElem?_map, h k]
  simpa using congrArg List.length hmap

theorem Move.ok {host : Host} {s s' : Sys} {e : SysEvent × List Act} {cs : List Launch} (h : Move host s e s')
    (hok : s.Ok cs) : s'.Ok (cs ++ Sys.started [e]) := by
  cases h with
  | @connect c net₁ net h₁ h =>
    obtain rfl := connect_net h₁ h
    have hone : Sys.started [(SysEvent.connect c, [])] = [c] := rfl
    rw [hone]
    refine ⟨by simp [hok.length], by simp [hok.started], fun k c' peer conn hc hpeer hconn => ?_⟩
    have hlt : k < s.net.conns.length + 1 := by simpa using (List.getElem?_eq_some_iff.1 hconn).1
    rcases Nat.lt_succ_iff_lt_or_eq.1 hlt with hk | rfl
    · rw [List.getElem?_append_left (hok.started ▸ hk)] at hc
      rw [List.getElem?_append_left (hok.length ▸ hk)] at hpeer
      rw [List.getElem?_append_left hk] at hconn
      exact hok.peer k c' peer conn hc hpeer hconn
    · rw [← hok.started, List.getElem?_concat_length] at hc
      rw [← hok.length, List.getElem?_concat_length] at hpeer
      rw [List.getElem?_concat_length] at hconn
      obtain rfl := Option.some.inj hc
      obtain rfl := Option.some.inj hpeer
      obtain rfl := Option.some.inj hconn
      exact ⟨⟨_, .nil, Or.inl rfl⟩, rfl, rfl⟩
  | @peer e k peer₀ peer' acts net _ hold hpeer₀ hgoes hfold =>
    have hgrown := clientActs_grown hfold
    rw [hold, List.append_nil]
    refine ⟨by rw [List.length_set, hok.length, hgrown.length], by rw [hok.started, hgrown.length],
      fun j c peer conn hc hpeer hconn => ?_⟩
    have hsent := hgrown.sent j
    rw [hconn, Option.map_some] at hsent
    obtain ⟨conn₀, hconn₀, hsent⟩ := Option.map_eq_some_iff.1 hsent.symm
    rw [← hsent]
    by_cases hjk : j = k
    · subst hjk
      rw [List.getElem?_set_self (List.getElem?_eq_some_iff.1 hpeer₀).1] at hpeer
      obtain rfl := Option.some.inj hpeer
      rw [if_pos rfl]
      exact hgoes.ok (hok.peer j c peer₀ conn₀ hc hpeer₀ hconn₀)
    · rw [List.getElem?_set_ne (Ne.symm hjk)] at hpeer
      rw [if_neg hjk, List.append_nil]
      exact hok.peer j c peer conn₀ hc hpeer hconn₀
  | @server ev acts proc s₁ _ hfold =>
    have hkept := (acts_kept hfold).2
    have hconns := length_of_map_getElem? hkept.conns
    have hold : Sys.started [(SysEvent.server ev, acts)] = [] := rfl
    rw [hold, List.append_nil]
    refine ⟨?_, hok.started.trans hconns.symm, fun k c peer conn hc hpeer hconn => ?_⟩
    · have hpeers := length_of_map_getElem? hkept.peers
      exact hpeers.trans (hok.length.trans hconns.symm)
    · have hdeeds := hkept.peers k
      have hsent := hkept.conns k
      rw [show _ = some peer from hpeer, Option.map_some] at hdeeds
      rw [show _ = some conn from hconn, Option.map_some] at hsent
      obtain ⟨peer₀, hpeer₀, hdeeds⟩ := Option.map_eq_some_iff.1 hdeeds.symm
      obtain ⟨conn₀, hconn₀, hsent⟩ := Option.map_eq_some_iff.1 hsent.symm
      obtain ⟨hcli, hrounds, hread⟩ : peer₀.cli = peer.cli ∧ peer₀.rounds = peer.rounds ∧
          peer₀.inbox.read = peer.inbox.read := by simpa using hdeeds
      obtain ⟨hrun, hname, hheard⟩ := hok.peer k c peer₀ conn₀ hc hpeer₀ hconn₀
      rw [hsent] at hname
      rw [hcli, hrounds] at hrun
      rw [hrounds] at hname hheard
      rw [hread] at hheard
      exact ⟨hrun, hname, hheard⟩

theorem Ok.next_frame {cs : List Launch} {s : Sys} (hok : s.Ok cs) (hi : s.net.server.Inv) (hlinks : s.net.Links)
    {fd : Fd} {k : Nat} {conn : Conn} {m : Frame} {chan : Fifo.Chan Frame} (hfd : fd ∈ s.net.server.clientFds)
    (hk : s.net.onFd.lookup fd = some k) (hconn : s.net.conns[k]? = some conn)
    (htake : conn.chan.take = some (some m, chan)) : SubscriberFrame m.1 := by
  obtain ⟨hread, hsent, -⟩ := Fifo.Chan.take_message htake
  obtain ⟨u, -, hu, -⟩ := hi.user hfd
  obtain ⟨pre, hpre⟩ := hlinks.current fd u k hu hk
  obtain ⟨conn₀, m₀, rest, hconn₀, hfirst, -⟩ := hlinks.begun (u, k)
    (Net.mem_sessionsOf.1 (hpre ▸ List.mem_append_right _ List.mem_cons_self))
  obtain rfl := Option.some.inj (hconn₀.symm.trans hconn)
  obtain ⟨c, peer, -, -, hpeerOk⟩ := hok.of_conn hconn
  have hname := hpeerOk.sent
  -- the name has been read, so the frame is behind it
  have hall : conn₀.chan.sent = m₀ :: (rest ++ m :: chan.unread) := by
    rw [← hsent, Fifo.Chan.sent, hread, hfirst]
    simp
  rw [hall, List.map_cons] at hname
  refine ⟨m.1, hpeerOk.sends ?_, List.prefix_refl _⟩
  rw [← (List.cons.inj hname).2]
  exact List.mem_map_of_mem (List.mem_append_right _ List.mem_cons_self)

theorem Move.fromSubscribers {host : Host} {s s' : Sys} {e : SysEvent × List Act} (h : Move host s e s')
    {cs : List Launch} (hp : s.net.proc.Inv) (hlinks : s.net.Links) (hok : s.Ok cs) {ev : Event} {acts : List Act}
    (he : serverStep e = some (ev, acts)) : FromSubscribers (ev, acts) := by
  intro buff hframe
  by_cases hne : buff.1 = []
  · exact Or.inl hne
  right
  cases h with
  | connect => cases he
  | peer hnone => cases hnone.symm.trans he
  | server hproc hfold =>
    obtain ⟨rfl, rfl⟩ := Prod.mk.inj (Option.some.inj he)
    obtain ⟨hi, hmove, -⟩ := (Proc.next_step _ _ _ _ hproc).move hp
    have hnet := (acts_kept hfold).1
    obtain ⟨fd, hfd, rfl⟩ := hmove.reads hframe hne
    rw [List.foldlM_cons] at hnet
    obtain ⟨n₁, hrecv, -⟩ := Option.bind_eq_some_iff.1 hnet
    obtain ⟨k, hk, hrecv⟩ := Option.bind_eq_some_iff.1 hrecv
    obtain ⟨conn, hconn, hrecv⟩ := Option.bind_eq_some_iff.1 hrecv
    obtain ⟨⟨m, chan⟩, htake, hrecv⟩ := Option.bind_eq_some_iff.1 hrecv
    obtain ⟨m, rfl, hm⟩ : ∃ m', m = some m' ∧ m'.1 = buff.1 := by
      dsimp only at hrecv
      split at hrecv
      · rename_i hbuff
        cases m with
        | none => exact absurd hbuff.symm hne
        | some m => exact ⟨m, rfl, hbuff⟩
      · cases hrecv
    exact hm ▸ hok.next_frame hi hlinks hfd hk hconn htake

theorem run_ok {host : Host} {s₀ s : Sys} {tr : List (SysEvent × List Act)} (h₀ : s₀.Start host)
    (hrun : Lts.Run (Step host) s₀ tr s) : s.Ok (started tr) ∧ ∀ e ∈ serverSteps tr, FromSubscribers e := by
  refine hrun.history (P := fun tr s => s.Ok (started tr) ∧ ∀ e ∈ serverSteps tr, FromSubscribers e) ?_ ?_
  · rw [h₀.2]
    exact ⟨⟨rfl, rfl, fun k c peer conn _ hpeer => by simp [boot] at hpeer⟩, fun e he => by simp [serverSteps] at he⟩
  · rintro tr s e s' hrun ⟨hok, hfrom⟩ hstep
    obtain ⟨hp, hlinks⟩ := run_links h₀ hrun
    refine ⟨?_, fun e' he' => ?_⟩
    · rw [show started (tr ++ [e]) = started tr ++ started [e] from List.filterMap_append]
      exact hstep.move.ok hok
    rw [serverSteps, List.filterMap_append, List.mem_append] at he'
    rcases he' with hpast | hlast
    · exact hfrom e' hpast
    · obtain ⟨x, hx, hstep'⟩ := List.mem_filterMap.1 hlast
      obtain rfl := List.mem_singleton.1 hx
      exact hstep.move.fromSubscribers hp hlinks hok hstep'

/-- **A session is of the subscriber that was started under its name**: what has been read of it, behind the name, and
what is still under way is what that one has sent. -/
theorem run_session {host : Host} {s₀ s : Sys} {tr : List (SysEvent × List Act)} (h₀ : s₀.Start host)
    (hrun : Lts.Run (Step host) s₀ tr s) {u : Bytes} {k : Nat} (hmem : (u, k) ∈ s.net.sessions) :
    ∃ c peer conn, (started tr)[k]? = some c ∧ c.name.1 = u ∧ s.peers[k]? = some peer ∧ s.net.conns[k]? = some conn ∧
      peer.Ok c (u :: uttered peer.rounds) ∧ (s.net.framesOf k ++ conn.chan.unread).map (·.1) = uttered peer.rounds := by
  obtain ⟨hok, -⟩ := run_ok h₀ hrun
  obtain ⟨-, hlinks⟩ := run_links h₀ hrun
  obtain ⟨conn, m, rest, hconn, hfirst, hm⟩ := hlinks.begun (u, k) hmem
  obtain ⟨c, peer, hc, hpeer, hpeerOk⟩ := hok.of_conn hconn
  have hsent : conn.chan.sent = m :: (rest ++ conn.chan.unread) := by
    rw [Fifo.Chan.sent, show conn.chan.read = _ from hfirst, List.cons_append]
  have hframes : s.net.framesOf k = rest := by
    rw [Net.framesOf, show s.net.conns[k]? = _ from hconn, Option.map_some, Option.getD_some,
      show conn.chan.read = _ from hfirst, List.tail_cons]
  have hall := hpeerOk.sent
  rw [hsent, List.map_cons] at hall
  obtain ⟨hname, htexts⟩ := List.cons.inj hall
  have hu : c.name.1 = u := hname.symm.trans hm
  rw [hpeerOk.sent, hu] at hpeerOk
  exact ⟨c, peer, conn, hc, hu, hpeer, hconn, hpeerOk, by rw [hframes, htexts]⟩

/-- **No frame comes from anywhere else**: in every run of the system, however the steps are interleaved, each frame the
client loop reads is a command line that the subscriber at the other end has sent; so all that is kept has 1 to 50
bytes, no white space and no double slash.  A session is of the subscriber that was started under its name on that
connection; what has been read of it, and what is still under way, is what its subscriber has sent behind the name, in
order, nothing lost or doubled. -/
theorem frames_exact {host : Host} {s₀ s : Sys} {tr : List (SysEvent × List Act)} (h₀ : s₀.Start host)
    (hrun : Lts.Run (Step host) s₀ tr s) :
    (∀ e ∈ serverSteps tr, FromSubscribers e) ∧ AllStored s.net.proc ∧
    ∀ u k, (u, k) ∈ s.net.sessions → ∃ c peer conn, (started tr)[k]? = some c ∧ c.name.1 = u ∧
      s.peers[k]? = some peer ∧ s.net.conns[k]? = some conn ∧
      (s.net.framesOf k ++ conn.chan.unread).map (·.1) = uttered peer.rounds := by
  obtain ⟨-, hfrom⟩ := run_ok h₀ hrun
  refine ⟨hfrom, run_stored h₀.1 (run_proc hrun) hfrom, fun u k hmem => ?_⟩
  obtain ⟨c, peer, conn, hc, hname, hpeer, hconn, -, hframes⟩ := run_session h₀ hrun hmem
  exact ⟨c, peer, conn, hc, hname, hpeer, hconn, hframes⟩

theorem frames_exact_session : ∃ s : Sys, s.net.sessions = [([97], 0)] ∧
    ∃ peer conn, s.peers[0]? = some peer ∧ s.net.conns[0]? = some conn ∧
      (s.net.framesOf 0 ++ conn.chan.unread).map (·.1) = uttered peer.rounds := by
  have hrun : ((Proc.boot exactHost 3 4).bind fun p₀ => (Lts.exec (Sys.next exactHost) (boot p₀)
      [.connect ⟨⟨[97], by decide⟩, exactHost, 3, ⟨ascii "subscribe a/*\nunsubscribe b\n", by decide⟩⟩, .stdin 0,
        .server (.poll (some [0, 1, 0])),
        .server (.accept (some ⟨5, ⟨(127, 0, 0, 1), (0, 9)⟩, true, true, ⟨[97], by decide⟩⟩)),
        .server (.poll (some [0, 0, 0, 1])), .server (.recv ⟨ascii "subscribe a/*", by decide⟩ true), .stdin 0]).map
      fun r => r.2.net.sessions) = some [([97], 0)] := by decide +kernel
  obtain ⟨p₀, hboot, hrun⟩ := Option.bind_eq_some_iff.1 hrun
  obtain ⟨⟨tr, s⟩, hexec, hs⟩ := Option.map_eq_some_iff.1 hrun
  have h₀ : (boot p₀).Start exactHost := ⟨⟨3, 4, by decide, by decide, by decide, hboot⟩, rfl⟩
  have hlast : Lts.Run (Step exactHost) (boot p₀) tr s := Lts.exec_run next_step .nil hexec
  obtain ⟨-, -, hsessions⟩ := frames_exact h₀ hlast
  obtain ⟨c, peer, conn, -, -, hpeer, hconn, hframes⟩ := hsessions [97] 0 (by
    rw [show s.net.sessions = _ from hs]
    exact List.mem_cons_self)
  exact ⟨s, hs, peer, conn, hpeer, hconn, hframes⟩

end Sys

end Ts
