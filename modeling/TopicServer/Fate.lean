import TopicServer.EndToEnd
/-!
# Fate — what becomes of every subscriber

A subscriber that has been started waits until its connection is taken; then it is logged in or sent away.  A connection
that is not bound any more has been closed by the server, and the server closes one only when it has told the subscriber
to shut down, when the subscriber has closed it, or when an option of it could not be set.  So a subscriber that goes on
is waited for, is in its session, or is about to end (`nobody_forgotten`), in the runs of the system, where no send
fails.
-/
namespace Ts

open Text (ascii)

namespace Sys

/-! ## What acts do to a subscriber -/

/-- **What an act does to a subscriber**: nothing, or it sends to it or closes on the descriptor that it is bound to. -/
theorem act_peer {s s' : Sys} {a : Act} {k : Nat} {peer : Peer} (ha : s.act a = some s')
    (hpeer : s.peers[k]? = some peer) : ∃ inbox, s'.peers[k]? = some { peer with inbox } ∧
      (inbox = peer.inbox ∧ (∀ fd, s.net.onFd.lookup fd = some k → a ≠ .close fd) ∨
        ∃ fd, s.net.onFd.lookup fd = some k ∧ ((∃ str m, a = .sendTcp fd str ∧ peer.inbox.send m = some inbox) ∨
          a = .close fd ∧ inbox = peer.inbox.close)) := by
  obtain ⟨hmail, -⟩ := act_parts ha
  cases a with
  | sendTcp fd str =>
    obtain ⟨j, hj, hmail⟩ := Option.bind_eq_some_iff.1 hmail
    obtain ⟨peer₀, hpeer₀, hmail⟩ := Option.bind_eq_some_iff.1 hmail
    split at hmail
    · obtain ⟨inbox, hsend, hmail⟩ := Option.bind_eq_some_iff.1 hmail
      have hpeers : s.peers.set j { peer₀ with inbox } = s'.peers := Option.some.inj hmail
      rw [← hpeers]
      by_cases hjk : j = k
      · subst hjk
        obtain rfl := Option.some.inj (hpeer₀.symm.trans hpeer)
        exact ⟨inbox, List.getElem?_set_self (List.getElem?_eq_some_iff.1 hpeer).1,
          Or.inr ⟨fd, hj, Or.inl ⟨str, _, rfl, hsend⟩⟩⟩
      · exact ⟨peer.inbox, by rw [List.getElem?_set_ne hjk, hpeer], Or.inl ⟨rfl, fun _ _ h => nomatch h⟩⟩
    · cases hmail
  | close fd =>
    have hother : ∀ {j : Option Nat}, s.net.onFd.lookup fd = j → j ≠ some k →
        ∀ x, s.net.onFd.lookup x = some k → Act.close fd ≠ .close x := fun hj hne x hx hsame =>
      hne (hj.symm.trans (Act.close.inj hsame ▸ hx))
    unfold mail at hmail
    dsimp only at hmail
    split at hmail
    · rename_i j hj
      rw [← Option.some.inj hmail, List.getElem?_modify, hpeer, Option.map_eq_map, Option.map_some]
      by_cases hjk : j = k
      · subst hjk
        exact ⟨peer.inbox.close, by rw [if_pos rfl], Or.inr ⟨fd, hj, Or.inr ⟨rfl, rfl⟩⟩⟩
      · exact ⟨peer.inbox, by rw [if_neg hjk], Or.inl ⟨rfl, hother hj fun h => hjk (Option.some.inj h)⟩⟩
    · rename_i hj
      rw [← Option.some.inj hmail, hpeer]
      exact ⟨peer.inbox, rfl, Or.inl ⟨rfl, hother hj (by simp)⟩⟩
  | accept fd =>
    rw [← Option.some.inj hmail, hpeer]
    exact ⟨peer.inbox, rfl, Or.inl ⟨rfl, fun _ _ h => nomatch h⟩⟩
  | recv fd buff =>
    rw [← Option.some.inj hmail, hpeer]
    exact ⟨peer.inbox, rfl, Or.inl ⟨rfl, fun _ _ h => nomatch h⟩⟩
  | cout line =>
    rw [← Option.some.inj hmail, hpeer]
    exact ⟨peer.inbox, rfl, Or.inl ⟨rfl, fun _ _ h => nomatch h⟩⟩

theorem act_bound {s s' : Sys} {a : Act} (ha : s.act a = some s') (hacc : ∀ fd, a ≠ .accept fd) :
    s'.net.backlog = s.net.backlog ∧ ∀ x k, s.net.onFd.lookup x = some k → a ≠ .close x →
      s'.net.onFd.lookup x = some k := by
  obtain ⟨-, hnet⟩ := act_parts ha
  cases a with
  | accept fd => exact absurd rfl (hacc fd)
  | sendTcp fd str =>
    obtain hnet : s.net = s'.net := Option.some.inj hnet
    rw [hnet]
    exact ⟨rfl, fun _ _ h _ => h⟩
  | close fd =>
    obtain hnet : { s.net with onFd := s.net.onFd.erase fd } = s'.net := Option.some.inj hnet
    rw [← hnet]
    refine ⟨rfl, fun x k hx hne => ?_⟩
    exact Table.lookup_erase_eq_some.2 ⟨fun hxfd => hne (hxfd ▸ rfl), hx⟩
  | recv fd buff =>
    obtain ⟨k, conn, -, -, ⟨-, -, -, hsame⟩ | ⟨m, chan, -, -, hsame⟩⟩ := Net.act_recv hnet
    · rw [hsame]
      exact ⟨rfl, fun _ _ h _ => h⟩
    · rw [hsame]
      exact ⟨rfl, fun _ _ h _ => h⟩
  | cout line =>
    obtain hnet : s.net = s'.net := Option.some.inj hnet
    rw [hnet]
    exact ⟨rfl, fun _ _ h _ => h⟩

theorem acts_peer : ∀ {acts past : List Act} {s s' : Sys} {k : Nat} {peer : Peer}, Wires past s →
    acts.foldlM act s = some s' → (∀ fd, Act.accept fd ∉ acts) → s.peers[k]? = some peer →
      ∃ inbox, s'.peers[k]? = some { peer with inbox } ∧ (peer.inbox.closed = true → inbox = peer.inbox) ∧
        (k ∈ s.net.backlog → k ∈ s'.net.backlog ∧ inbox = peer.inbox) ∧
        ∀ fd, s.net.onFd.lookup fd = some k → peer.inbox.closed = false →
          s'.net.onFd.lookup fd = some k ∧ inbox.closed = false ∨ inbox.closed = true ∧
            ∃ a b, acts = a ++ .close fd :: b ∧ inbox.sent.map (·.1) = sentOn fd (past ++ a)
  | [], past, s, s', k, peer, _, hfold, _, hpeer => by
    obtain rfl := Option.some.inj hfold
    exact ⟨peer.inbox, hpeer, fun _ => rfl, fun hk => ⟨hk, rfl⟩, fun _ hfd hopen => Or.inl ⟨hfd, hopen⟩⟩
  | a :: acts, past, s, s', k, peer, hw, hfold, hacc, hpeer => by
    rw [List.foldlM_cons] at hfold
    obtain ⟨s₁, h₁, hfold⟩ := Option.bind_eq_some_iff.1 hfold
    have hfirst : ∀ fd, a ≠ .accept fd := fun fd ha => hacc fd (ha ▸ List.mem_cons_self)
    obtain ⟨hback, hkeep⟩ := act_bound h₁ hfirst
    obtain ⟨inbox₁, hpeer₁, hone⟩ := act_peer h₁ hpeer
    obtain ⟨inbox, hpeer', hclosed, hwaits, hbound⟩ := acts_peer (hw.act h₁) hfold
      (fun fd h => hacc fd (List.mem_cons_of_mem a h)) hpeer₁
    refine ⟨inbox, hpeer', fun hc => ?_, fun hk => ?_, fun fd hfd hopen => ?_⟩
    · -- nothing is sent on a closed connection, and it stays closed
      have hsame : inbox₁ = peer.inbox := by
        rcases hone with ⟨hone, -⟩ | ⟨fd, -, ⟨str, m, -, hsend⟩ | ⟨-, hclose⟩⟩
        · exact hone
        · simp [Fifo.Chan.send, hc] at hsend
        · rw [hclose, Fifo.Chan.close, ← hc]
      exact (hclosed (hsame ▸ hc)).trans hsame
    · have hsame : inbox₁ = peer.inbox := (hone.resolve_right fun ⟨fd, hfd, _⟩ => (hw.free k hk).1 fd hfd).1
      obtain ⟨hk', hsame'⟩ := hwaits (hback ▸ hk)
      exact ⟨hk', hsame'.trans hsame⟩
    · by_cases hclose : a = .close fd
      · -- this act closes it
        obtain ⟨peer₀, hpeer₀, hstream⟩ := hw.stream fd k hfd
        obtain rfl := Option.some.inj (hpeer₀.symm.trans hpeer)
        have hshut : inbox₁ = peer₀.inbox.close := by
          rcases hone with ⟨-, hone⟩ | ⟨x, -, ⟨str, m, hsend, -⟩ | ⟨-, hshut⟩⟩
          · exact absurd hclose (hone fd hfd)
          · exact absurd (hclose.symm.trans hsend) (by simp)
          · exact hshut
        have hlast : inbox = inbox₁ := hclosed (by rw [hshut]; rfl)
        refine Or.inr ⟨by rw [hlast, hshut]; rfl, [], acts, by rw [hclose]; rfl, ?_⟩
        rw [hlast, hshut, List.append_nil]
        exact hstream
      · have hfd₁ := hkeep fd k hfd hclose
        have hopen₁ : inbox₁.closed = false := by
          rcases hone with ⟨hone, -⟩ | ⟨x, hx, ⟨str, m, -, hsend⟩ | ⟨hclose', -⟩⟩
          · rw [hone, hopen]
          · rw [Fifo.Chan.send_eq_some hsend]
            exact hopen
          · exact absurd (hw.single fd x k hfd hx ▸ hclose') hclose
        rcases hbound fd hfd₁ hopen₁ with hstays | ⟨hc, b, b', hacts, hsent⟩
        · exact Or.inl hstays
        · refine Or.inr ⟨hc, a :: b, b', by rw [hacts]; rfl, ?_⟩
          rw [hsent, List.append_assoc]
          rfl

/-! ## A subscriber that goes on has not closed its connection -/

/-- Whoever has closed a connection has ended. -/
def Open (s : Sys) : Prop := ∀ (k : Nat) (peer : Peer) (conn : Conn), s.peers[k]? = some peer →
  s.net.conns[k]? = some conn → peer.cli.running = true → conn.chan.closed = false

theorem clientAct_open {host : Host} {k j : Nat} {n n' : Net} {a : Act} {conn' : Conn}
    (h : clientAct host k n a = some n') (hconn' : n'.conns[j]? = some conn') : ∃ conn, n.conns[j]? = some conn ∧
      (conn'.chan.closed = conn.chan.closed ∨ j = k ∧ ∃ fd, a = .close fd) := by
  have hset : ∀ {conn : Conn} {chan : Fifo.Chan Frame}, n.conns[k]? = some conn →
      n'.conns = n.conns.set k { conn with chan } → (chan.closed = conn.chan.closed ∨ ∃ fd, a = .close fd) →
      ∃ conn, n.conns[j]? = some conn ∧ (conn'.chan.closed = conn.chan.closed ∨ j = k ∧ ∃ fd, a = .close fd) := by
    intro conn chan hk hconns hclosed
    rw [hconns] at hconn'
    by_cases hjk : j = k
    · subst hjk
      rw [List.getElem?_set_self (List.getElem?_eq_some_iff.1 hk).1] at hconn'
      obtain rfl := Option.some.inj hconn'
      exact ⟨conn, hk, hclosed.imp id fun hclose => ⟨rfl, hclose⟩⟩
    · rw [List.getElem?_set_ne (Ne.symm hjk)] at hconn'
      exact ⟨conn', hconn', Or.inl rfl⟩
  cases a with
  | sendTcp fd str =>
    unfold clientAct at h
    dsimp only at h
    split at h
    · obtain ⟨⟨e, n₁⟩, hnext, rfl⟩ := Option.map_eq_some_iff.1 h
      obtain ⟨conn, hk, hnext⟩ := Option.bind_eq_some_iff.1 hnext
      obtain ⟨chan, hsend, hnext⟩ := Option.bind_eq_some_iff.1 hnext
      obtain rfl := (Prod.mk.inj (Option.some.inj hnext)).2
      exact hset hk rfl (Or.inl (by rw [Fifo.Chan.send_eq_some hsend]))
    · cases h
  | close fd =>
    obtain ⟨⟨e, n₁⟩, hnext, rfl⟩ := Option.map_eq_some_iff.1 h
    obtain ⟨conn, hk, hnext⟩ := Option.bind_eq_some_iff.1 hnext
    obtain rfl := (Prod.mk.inj (Option.some.inj hnext)).2
    exact hset hk rfl (Or.inr ⟨fd, rfl⟩)
  | accept fd =>
    obtain rfl := Option.some.inj h
    exact ⟨conn', hconn', Or.inl rfl⟩
  | recv fd buff =>
    obtain rfl := Option.some.inj h
    exact ⟨conn', hconn', Or.inl rfl⟩
  | cout line =>
    obtain rfl := Option.some.inj h
    exact ⟨conn', hconn', Or.inl rfl⟩

theorem clientActs_open {host : Host} {k j : Nat} : ∀ {acts : List Act} {n n' : Net} {conn' : Conn},
    acts.foldlM (clientAct host k) n = some n' → n'.conns[j]? = some conn' → ∃ conn, n.conns[j]? = some conn ∧
      (conn'.chan.closed = conn.chan.closed ∨ j = k ∧ ∃ fd, Act.close fd ∈ acts)
  | [], n, n', conn', h, hconn' => by
    obtain rfl := Option.some.inj h
    exact ⟨conn', hconn', Or.inl rfl⟩
  | a :: acts, n, n', conn', h, hconn' => by
    rw [List.foldlM_cons] at h
    obtain ⟨n₁, h₁, h⟩ := Option.bind_eq_some_iff.1 h
    obtain ⟨conn₁, hconn₁, hlast⟩ := clientActs_open h hconn'
    obtain ⟨conn, hconn, hfirst⟩ := clientAct_open h₁ hconn₁
    refine ⟨conn, hconn, ?_⟩
    rcases hlast with hlast | ⟨hjk, fd, hfd⟩
    · rcases hfirst with hfirst | ⟨hjk, fd, hfd⟩
      · exact Or.inl (hlast.trans hfirst)
      · exact Or.inr ⟨hjk, fd, hfd ▸ List.mem_cons_self⟩
    · exact Or.inr ⟨hjk, fd, List.mem_cons_of_mem a hfd⟩

theorem goes_open {peer peer' : Peer} {acts : List Act} (h : peer.Goes acts peer') (hgo : peer'.cli.running = true) :
    peer.cli.running = true ∧ ∀ fd, Act.close fd ∉ acts := by
  cases h with
  | stdin htrans =>
    obtain ⟨hrun, -, ⟨hend, -⟩ | ⟨-, hacts | ⟨str, line, hacts⟩⟩⟩ := Client.step_line htrans.1
    · exact absurd (hend.symm.trans hgo) (by simp)
    · exact ⟨hrun, by simp [show acts = _ from hacts]⟩
    · exact ⟨hrun, by simp [show acts = _ from hacts]⟩
  | notification htake hstep =>
    obtain ⟨hrun, ⟨-, hend, -⟩ | ⟨-, -, hacts⟩⟩ := Client.step_notification hstep
    · rw [hend] at hgo
      cases hgo
    · refine ⟨hrun, fun fd hfd => ?_⟩
      rw [hacts] at hfd
      split at hfd
      · cases hfd
      · cases List.mem_singleton.1 hfd
  | signal hrun => cases hgo

theorem netActs_open : ∀ {acts : List Act} {n n' : Net}, acts.foldlM Net.act n = some n' → ∀ k : Nat,
    (n'.conns[k]?).map (fun c : Conn => c.chan.closed) = (n.conns[k]?).map fun c : Conn => c.chan.closed
  | [], n, n', h, k => by
    obtain rfl := Option.some.inj h
    rfl
  | a :: acts, n, n', h, k => by
    rw [List.foldlM_cons] at h
    obtain ⟨n₁, h₁, h⟩ := Option.bind_eq_some_iff.1 h
    exact (netActs_open h k).trans (netAct_keeps (fun htake => (Fifo.Chan.take_kept htake).2) h₁ k)

theorem Move.open {host : Host} {s s' : Sys} {e : SysEvent × List Act} {cs : List Launch} (h : Move host s e s')
    (hok : s.Ok cs) (hopen : s.Open) : s'.Open := by
  cases h with
  | @connect c net₁ net h₁ h =>
    obtain rfl := connect_net h₁ h
    intro k peer conn hpeer hconn hgo
    have hlt : k < s.net.conns.length + 1 := by simpa using (List.getElem?_eq_some_iff.1 hconn).1
    rcases Nat.lt_succ_iff_lt_or_eq.1 hlt with hk | rfl
    · rw [List.getElem?_append_left (hok.length ▸ hk)] at hpeer
      rw [List.getElem?_append_left hk] at hconn
      exact hopen k peer conn hpeer hconn hgo
    · rw [List.getElem?_concat_length] at hconn
      obtain rfl := Option.some.inj hconn
      rfl
  | @peer e k peer₀ peer' acts net _ _ hpeer₀ hgoes hfold =>
    intro j peer conn hpeer hconn hgo
    obtain ⟨conn₀, hconn₀, hclosed⟩ := clientActs_open hfold hconn
    by_cases hjk : j = k
    · subst hjk
      rw [List.getElem?_set_self (List.getElem?_eq_some_iff.1 hpeer₀).1] at hpeer
      obtain rfl := Option.some.inj hpeer
      obtain ⟨hgo₀, hnone⟩ := goes_open hgoes hgo
      have hsame := hclosed.resolve_right fun ⟨_, fd, hfd⟩ => hnone fd hfd
      exact hsame.trans (hopen j peer₀ conn₀ hpeer₀ hconn₀ hgo₀)
    · rw [List.getElem?_set_ne (Ne.symm hjk)] at hpeer
      have hsame := hclosed.resolve_right fun h => hjk h.1
      exact hsame.trans (hopen j peer conn₀ hpeer hconn₀ hgo)
  | @server ev acts proc s₁ _ hfold =>
    intro k peer conn hpeer hconn hgo
    obtain ⟨hnet, hkept⟩ := acts_kept hfold
    have hdeeds := hkept.peers k
    have hclosed := netActs_open hnet k
    rw [show _ = some peer from hpeer, Option.map_some] at hdeeds
    rw [show _ = some conn from hconn, Option.map_some] at hclosed
    obtain ⟨peer₀, hpeer₀, hdeeds⟩ := Option.map_eq_some_iff.1 hdeeds.symm
    obtain ⟨conn₀, hconn₀, hclosed⟩ := Option.map_eq_some_iff.1 hclosed.symm
    obtain ⟨hcli, -⟩ := Prod.mk.inj hdeeds
    rw [← hclosed]
    exact hopen k peer₀ conn₀ hpeer₀ hconn₀ (hcli ▸ hgo)

theorem run_open {host : Host} {s₀ s : Sys} {tr : List (SysEvent × List Act)} (h₀ : s₀.Start host)
    (hrun : Lts.Run (Step host) s₀ tr s) : s.Open := by
  refine hrun.history (P := fun _ s => s.Open) ?_ ?_
  · rw [h₀.2]
    exact fun k peer conn hpeer => by simp [boot] at hpeer
  · exact fun tr s e s' hrun hopen hstep => hstep.move.open (run_ok h₀ hrun).1 hopen

/-! ## The fates -/

/-- What can have become of the `k`-th subscriber when the server has taken the steps `steps`. -/
inductive Fate (steps : List (Event × List Act)) (s : Sys) (k : Nat) (peer : Peer) : Prop
  | ended : peer.cli.running = false → Fate steps s k peer
  | waits : k ∈ s.net.backlog → peer.inbox.closed = false → Fate steps s k peer
  | bound {fd : Fd} : s.net.onFd.lookup fd = some k → peer.inbox.closed = false → Fate steps s k peer
  | told (before : List Bytes) : peer.inbox.closed = true → peer.inbox.sent.map (·.1) = before ++ [ascii "shutdown"] →
      ascii "shutdown" ∉ before → Fate steps s k peer
  | cut {c : Login} : peer.inbox.closed = true → peer.inbox.sent = [] → c.nagleOk = false →
      (.accept (some c), [.accept c.connfd, .close c.connfd]) ∈ steps → Fate steps s k peer

theorem Fate.mono {steps more : List (Event × List Act)} {s s' : Sys} {k : Nat} {peer peer' : Peer}
    (h : Fate steps s k peer) (hcli : peer.cli.running = false → peer'.cli.running = false)
    (hinbox : peer'.inbox.sent = peer.inbox.sent ∧ peer'.inbox.closed = peer.inbox.closed)
    (hback : k ∈ s.net.backlog → k ∈ s'.net.backlog)
    (hbind : ∀ fd, s.net.onFd.lookup fd = some k → s'.net.onFd.lookup fd = some k) :
    Fate (steps ++ more) s' k peer' := by
  obtain ⟨hsent, hclosed⟩ := hinbox
  cases h with
  | ended hend => exact .ended (hcli hend)
  | waits hk hopen => exact .waits (hback hk) (hclosed.trans hopen)
  | bound hfd hopen => exact .bound (hbind _ hfd) (hclosed.trans hopen)
  | told before hc htext hbefore => exact .told before (hclosed.trans hc) (by rw [hsent, htext]) hbefore
  | cut hc hnil hoption hmem => exact .cut (hclosed.trans hc) (hsent.trans hnil) hoption (List.mem_append_left _ hmem)

theorem Fate.acts {steps more : List (Event × List Act)} {past acts : List Act} {s s' : Sys} {k : Nat} {peer peer' : Peer}
    (h : Fate steps s k peer) (hw : Wires past s) (hfold : acts.foldlM act s = some s')
    (hacc : ∀ fd, Act.accept fd ∉ acts) (hpeer : s.peers[k]? = some peer) (hpeer' : s'.peers[k]? = some peer')
    (hclose : ∀ fd a b, s.net.onFd.lookup fd = some k → acts = a ++ .close fd :: b → peer'.inbox.closed = true →
      peer'.inbox.sent.map (·.1) = sentOn fd (past ++ a) → Fate (steps ++ more) s' k peer') :
    Fate (steps ++ more) s' k peer' := by
  obtain ⟨inbox, hmoved, hclosed, hwaits, hbound⟩ := acts_peer hw hfold hacc hpeer
  obtain rfl := Option.some.inj (hmoved.symm.trans hpeer')
  cases h with
  | ended hend => exact .ended hend
  | waits hk hopen =>
    obtain ⟨hk', hsame⟩ := hwaits hk
    exact .waits hk' ((congrArg Fifo.Chan.closed hsame).trans hopen)
  | bound hfd hopen =>
    rcases hbound _ hfd hopen with ⟨hfd', hopen'⟩ | ⟨hc, a, b, hacts, hsent⟩
    · exact .bound hfd' hopen'
    · exact hclose _ a b hfd hacts hc hsent
  | told before hc htext hbefore =>
    have hsame := hclosed hc
    exact .told before ((congrArg Fifo.Chan.closed hsame).trans hc)
      ((congrArg (·.sent.map (·.1)) hsame).trans htext) hbefore
  | cut hc hnil hoption hmem =>
    have hsame := hclosed hc
    exact .cut ((congrArg Fifo.Chan.closed hsame).trans hc) ((congrArg Fifo.Chan.sent hsame).trans hnil) hoption
      (List.mem_append_left _ hmem)

theorem accept_moves {s s' : Sys} {fd : Fd} (ha : s.act (.accept fd) = some s')
    (hfresh : ∀ k, s.net.onFd.lookup fd ≠ some k) : s'.peers = s.peers ∧
      (∀ k ∈ s.net.backlog, k ∈ s'.net.backlog ∨ s'.net.onFd.lookup fd = some k) ∧
      ∀ x k, s.net.onFd.lookup x = some k → s'.net.onFd.lookup x = some k := by
  obtain ⟨hmail, hnet⟩ := act_parts ha
  obtain ⟨j, rest, hqueue, hnet⟩ := Net.act_accept hnet
  refine ⟨(Option.some.inj hmail).symm, fun k hk => ?_, fun x k hx => ?_⟩
  · rw [hqueue] at hk
    rw [hnet]
    rcases List.mem_cons.1 hk with rfl | hk
    · exact Or.inr (by rw [Table.lookup_insert_if, if_pos rfl])
    · exact Or.inl hk
  · rw [hnet, Table.lookup_insert_if, if_neg]
    · exact hx
    · rintro rfl
      exact hfresh k hx

/-- **A connection that is taken, and what else is done**: only what is closed on its descriptor is decided about. -/
theorem Fate.visit {steps more : List (Event × List Act)} {past acts : List Act} {s s' : Sys} {k : Nat}
    {peer peer' : Peer}
    {x : Fd} (h : Fate steps s k peer) (hw : Wires past s) (hfold : (.accept x :: acts).foldlM act s = some s')
    (hfresh : ∀ k, s.net.onFd.lookup x ≠ some k) (hacc : ∀ fd, Act.accept fd ∉ acts)
    (hcloses : ∀ fd, Act.close fd ∈ acts → fd = x) (hpeer : s.peers[k]? = some peer) (hpeer' : s'.peers[k]? = some peer')
    (hclose : ∀ a b, acts = a ++ .close x :: b → peer'.inbox.closed = true →
      peer'.inbox.sent.map (·.1) = sendsTo x a → Fate (steps ++ more) s' k peer') : Fate (steps ++ more) s' k peer' := by
  rw [List.foldlM_cons] at hfold
  obtain ⟨s₁, h₁, hfold⟩ := Option.bind_eq_some_iff.1 hfold
  obtain ⟨hpeers, hwaits, hbind⟩ := accept_moves h₁ hfresh
  have hfate : Fate (steps ++ []) s₁ k peer := by
    by_cases hk : k ∈ s.net.backlog ∧ peer.inbox.closed = false
    · rcases hwaits k hk.1 with hk' | hx
      · exact .waits hk' hk.2
      · exact .bound hx hk.2
    · cases h with
      | waits hk' hopen => exact absurd ⟨hk', hopen⟩ hk
      | ended hend => exact .ended hend
      | bound hfd hopen => exact .bound (hbind _ _ hfd) hopen
      | told before hc htext hbefore => exact .told before hc htext hbefore
      | cut hc hnil hoption hmem => exact .cut hc hnil hoption (List.mem_append_left _ hmem)
  rw [List.append_nil] at hfate
  refine hfate.acts (hw.act h₁) hfold hacc (by rw [hpeers, hpeer]) hpeer' fun fd a b _ hacts hc hsent => ?_
  obtain rfl : fd = x := hcloses fd (by
    rw [hacts]
    exact List.mem_append_right _ List.mem_cons_self)
  refine hclose a b hacts hc ?_
  have hnone : Act.accept fd ∉ a := fun ha => hacc fd (by
    rw [hacts]
    exact List.mem_append_left _ ha)
  rw [hsent, sentOn_append _ hnone, sentOn_snoc, sentAct, if_pos rfl, List.nil_append]

theorem Fate.turned {steps more : List (Event × List Act)} {past : List Act} {s s' : Sys} {k : Nat} {peer peer' : Peer}
    {x : Fd} (h : Fate steps s k peer) (mid : List Act) (hw : Wires past s)
    (hfold : (.accept x :: (mid ++ [.close x])).foldlM act s = some s') (hfresh : ∀ k, s.net.onFd.lookup x ≠ some k)
    (hmid : ∀ fd, Act.accept fd ∉ mid ∧ Act.close fd ∉ mid) (hpeer : s.peers[k]? = some peer)
    (hpeer' : s'.peers[k]? = some peer') (hclose : peer'.inbox.closed = true →
      peer'.inbox.sent.map (·.1) = sendsTo x mid → Fate (steps ++ more) s' k peer') :
    Fate (steps ++ more) s' k peer' := by
  refine h.visit hw hfold hfresh (fun fd hfd => ?_) (fun fd hfd => ?_) hpeer hpeer' fun a b hacts hc hsent => ?_
  · rcases List.mem_append.1 hfd with hfd | hfd
    · exact (hmid fd).1 hfd
    · cases List.mem_singleton.1 hfd
  · rcases List.mem_append.1 hfd with hfd | hfd
    · exact absurd hfd (hmid fd).2
    · exact Act.close.inj (List.mem_singleton.1 hfd)
  · obtain ⟨rfl, -⟩ := (List.append_cons_inj_of_notMem (hmid x).2 List.not_mem_nil).1 hacts
    exact hclose hc hsent

theorem step_dropped {host : Host} {srv srv' : Server} {c : Login}
    (h : srv.step host (.accept (some c)) = some (srv', [.accept c.connfd, .close c.connfd])) : c.nagleOk = false := by
  by_contra hoption
  rw [Bool.not_eq_false] at hoption
  cases hpc : srv.pc with
  | listen =>
    simp only [Server.step, hpc, Server.acceptBranch, hoption, Bool.not_true, Bool.false_eq_true, if_false] at h
    obtain ⟨⟨rc, p⟩, -, h⟩ := Option.bind_eq_some_iff.1 h
    dsimp only at h
    split at h
    · simpa using (Prod.mk.inj (Option.some.inj h)).2
    · simpa using (Prod.mk.inj (Option.some.inj h)).2
  | clients i => simp [Server.step, hpc, Server.clientStep] at h
  | _ => simp [Server.step, hpc] at h

theorem farewell_split {srv : Server} (hi : srv.Inv) {fd : Fd} {a b : List Act} (hfd : fd ∈ srv.clientFds)
    (h : srv.farewell = a ++ .close fd :: b) : sendsTo fd a = [ascii "shutdown"] := by
  have hsplit : sendsTo fd srv.farewell = sendsTo fd a ++ sendsTo fd (.close fd :: b) := by
    rw [h, sendsTo, List.filterMap_append]
    rfl
  have hnone : sendsTo fd (.close fd :: b) = [] := sendsTo_none fun str hstr => by
    obtain hstr := (List.mem_cons.1 hstr).resolve_left (by simp)
    -- behind a close there are closes only
    have hcloses : ∀ x ∈ (srv.fds.drop 1).map Act.close, x ≠ .sendTcp fd str := fun x hx => by
      obtain ⟨y, -, rfl⟩ := List.mem_map.1 hx
      simp
    rw [Server.farewell] at h
    rcases List.append_eq_append_iff.1 h with ⟨c, -, hc⟩ | ⟨c, hsends, hc⟩
    · exact hcloses _ (by rw [hc]; exact List.mem_append_right _ (List.mem_cons_of_mem _ hstr)) rfl
    · cases c with
      | nil =>
        rw [List.nil_append] at hc
        exact hcloses _ (by rw [← hc]; exact List.mem_cons_of_mem _ hstr) rfl
      | cons y c =>
        have hy : y ∈ srv.clientFds.map fun fd => Act.sendTcp fd (ascii "shutdown") := by
          rw [hsends]
          exact List.mem_append_right _ List.mem_cons_self
        rw [← (List.cons.inj hc).1] at hy
        simp at hy
  rw [sendsTo_farewell hi hfd, hnone, List.append_nil] at hsplit
  exact hsplit.symm

/-- **A step of the server decides about no subscriber without a reason.** -/
theorem server_fate {host : Host} {s s₁ : Sys} {ev : Event} {acts past : List Act} {proc : Proc}
    {steps : List (Event × List Act)} {k : Nat} {peer peer' : Peer} (hi : s.net.server.Inv) (hlinks : s.net.Links)
    (hw : Wires past s) (hopen : s.Open) (hstep : s.net.proc.Step host (ev, acts) proc)
    (hmove : Ts.Move host s.net.server ev acts proc.server) (hfds : ∀ fd ∈ s.net.server.fds, fd ∈ s.net.proc.opened)
    (hquiet : ∀ fd k, s.net.onFd.lookup fd = some k → ascii "shutdown" ∉ sentOn fd past)
    (hfold : acts.foldlM act s = some s₁) (hpeer : s.peers[k]? = some peer) (hpeer' : s₁.peers[k]? = some peer')
    (h : Fate steps s k peer) : Fate (steps ++ [(ev, acts)]) s₁ k peer' := by
  have hfresh : ∀ fd, Act.accept fd ∈ acts → ∀ k, s.net.onFd.lookup fd ≠ some k := fun fd hacc k hk =>
    hstep.fresh fd hacc (hfds fd (List.mem_of_mem_drop ((hlinks.bound fd).2 ⟨k, hk⟩)))
  have hidle : (∀ fd, Act.accept fd ∉ acts) → (∀ fd, Act.close fd ∉ acts) → Fate (steps ++ [(ev, acts)]) s₁ k peer' :=
    fun hacc hclose => h.acts hw hfold hacc hpeer hpeer' fun fd a b _ hacts => absurd (by
      rw [hacts]
      exact List.mem_append_right _ List.mem_cons_self) (hclose fd)
  cases hmove with
  | exit =>
    have hacc : ∀ fd, Act.accept fd ∉ s.net.server.farewell := fun fd hmem => by
      rcases List.mem_append.1 hmem with hmem | hmem
      · obtain ⟨x, -, hx⟩ := List.mem_map.1 hmem
        cases hx
      · obtain ⟨x, -, hx⟩ := List.mem_map.1 hmem
        cases hx
    refine h.acts hw hfold hacc hpeer hpeer' fun fd a b hfd hacts hc hsent => ?_
    have hnone : Act.accept fd ∉ a := fun ha => hacc fd (by
      rw [hacts]
      exact List.mem_append_left _ ha)
    rw [sentOn_append _ hnone, farewell_split hi ((hlinks.bound fd).2 ⟨k, hfd⟩) hacts] at hsent
    exact .told _ hc hsent (hquiet fd k hfd)
  | quiet => exact hidle (fun _ => List.not_mem_nil) (fun _ => List.not_mem_nil)
  | @dropped mid c _ _ _ _ _ hmid =>
    rcases hmid with rfl | rfl
    · refine h.turned [] hw hfold (hfresh _ List.mem_cons_self) (by simp) hpeer hpeer' fun hc hsent => ?_
      exact .cut hc (List.map_eq_nil_iff.1 hsent) (step_dropped hstep.step) (List.mem_append_right _ List.mem_cons_self)
    · refine h.turned [.sendTcp c.connfd (ascii "shutdown")] hw hfold (hfresh _ List.mem_cons_self) (by simp) hpeer
        hpeer' fun hc hsent => .told [] hc ?_ List.not_mem_nil
      rw [hsent]
      simp [sendsTo]
  | @refused said c _ _ _ _ _ hsaid =>
    have hsaid : (∀ fd, Act.accept fd ∉ said ∧ Act.close fd ∉ said) ∧ sendsTo c.connfd said = [] := by
      rcases hsaid with ⟨rfl, -⟩ | ⟨rfl, -⟩
      · exact ⟨by simp, rfl⟩
      · exact ⟨by simp [Server.alreadyConnected], rfl⟩
    refine h.turned (.recv c.connfd c.buff :: said ++ [.sendTcp c.connfd (ascii "shutdown")]) hw
      (by simpa using hfold) (hfresh _ List.mem_cons_self) (by simpa using hsaid.1) hpeer hpeer'
      fun hc hsent => .told [] hc ?_ List.not_mem_nil
    have hsplit : sendsTo c.connfd (.recv c.connfd c.buff :: said ++ [.sendTcp c.connfd (ascii "shutdown")]) =
        sendsTo c.connfd said ++ [ascii "shutdown"] := by simp [sendsTo]
    rw [hsent, hsplit, hsaid.2]
  | @login c =>
    exact h.visit hw hfold (hfresh _ List.mem_cons_self) (by simp [Server.newClient])
      (by simp [Server.newClient]) hpeer hpeer' fun a b hacts => by
        have hmem : Act.close c.connfd ∈ [Act.recv c.connfd c.buff, Server.newClient c.buff c.cli] := by
          rw [hacts]
          exact List.mem_append_right _ List.mem_cons_self
        simp [Server.newClient] at hmem
  | datagram _ _ _ hbranch =>
    have hsends := udpBranch_sends hbranch
    exact hidle (fun fd h => by obtain ⟨x, str, hx⟩ := hsends _ h; cases hx)
      (fun fd h => by obtain ⟨x, str, hx⟩ := hsends _ h; cases hx)
  | @logout _ _ fd u =>
    refine h.acts hw hfold (by simp [Server.disconnected]) hpeer hpeer' fun x a b hx hacts _ _ => .ended ?_
    obtain rfl : x = fd := by
      have hmem : Act.close x ∈ [Act.recv fd [], .close fd, Server.disconnected u] := by
        rw [hacts]
        exact List.mem_append_right _ List.mem_cons_self
      simpa [Server.disconnected] using hmem
    by_contra hgo
    rw [Bool.not_eq_false] at hgo
    -- its end has been read, so the subscriber has closed it
    have hdeeds := (acts_kept hfold).2.peers k
    rw [hpeer, hpeer', Option.map_some, Option.map_some, Option.some.injEq] at hdeeds
    obtain ⟨hcli, -⟩ := Prod.mk.inj hdeeds
    have hnet := (acts_kept hfold).1
    rw [List.foldlM_cons] at hnet
    obtain ⟨n₁, hrecv, -⟩ := Option.bind_eq_some_iff.1 hnet
    obtain ⟨j, conn, hj, hconn, ⟨-, hclosed, -⟩ | ⟨m, chan, hm, -⟩⟩ := Net.act_recv hrecv
    · obtain rfl := Option.some.inj (hx.symm.trans hj)
      exact absurd (hclosed.symm.trans (hopen k peer conn hpeer hconn (hcli ▸ hgo))) (by simp)
    · exact m.2.1 hm
  | ignored => exact hidle (by simp) (by simp)
  | command => exact hidle (by simp) (by simp)

theorem goes_runs {peer peer' : Peer} {acts : List Act} (h : peer.Goes acts peer') : peer.cli.running = true := by
  cases h with
  | stdin htrans => exact (Client.step_line htrans.1).1
  | notification _ hstep => exact (Client.step_notification hstep).1
  | signal hgo => exact hgo

/-- While the server runs, nobody who is bound has been told to shut down. -/
theorem run_quiet {host : Host} {s₀ s : Sys} {tr : List (SysEvent × List Act)} (h₀ : s₀.Start host)
    (hrun : Lts.Run (Step host) s₀ tr s) (hpc : s.net.server.pc ≠ .exited) {fd : Fd} {k : Nat}
    (hk : s.net.onFd.lookup fd = some k) : ascii "shutdown" ∉ sentOn fd (actsOf (serverSteps tr)) := by
  obtain ⟨hp, hlinks⟩ := run_links h₀ hrun
  have hi := (hp.resolve_left hpc).1
  obtain ⟨u, -, hu, -⟩ := hi.user ((hlinks.bound fd).2 ⟨k, hk⟩)
  have hsim := (run_sim h₀.1 (run_proc hrun)).2
  rw [run_stream h₀.1 (run_proc hrun) (run_ok h₀ hrun).2 fd u ((hsim.session fd).trans hu)]
  exact (run_posted h₀.1 (run_proc hrun)).1 hpc fd

theorem run_fate {host : Host} {s₀ s : Sys} {tr : List (SysEvent × List Act)} (h₀ : s₀.Start host)
    (hrun : Lts.Run (Step host) s₀ tr s) : ∀ (k : Nat) (peer : Peer), s.peers[k]? = some peer →
      Fate (serverSteps tr) s k peer := by
  refine hrun.history (P := fun tr s => ∀ (k : Nat) (peer : Peer), s.peers[k]? = some peer →
    Fate (serverSteps tr) s k peer) ?_ ?_
  · rw [h₀.2]
    exact fun k peer hpeer => by simp [boot] at hpeer
  · rintro tr s e s' hrun ih hstep k peer' hpeer'
    have hsteps : serverSteps (tr ++ [e]) = serverSteps tr ++ (serverStep e).toList := by
      rw [serverSteps, List.filterMap_append]
      cases he : serverStep e <;> simp [serverSteps, he]
    rw [hsteps]
    cases hstep.move with
    | @connect c net₁ net h₁ h =>
      obtain rfl := connect_net h₁ h
      have hlt : k < s.peers.length + 1 := by simpa using (List.getElem?_eq_some_iff.1 hpeer').1
      rcases Nat.lt_succ_iff_lt_or_eq.1 hlt with hk | rfl
      · rw [List.getElem?_append_left hk] at hpeer'
        exact (ih k peer' hpeer').mono id ⟨rfl, rfl⟩ (fun hk => List.mem_append_left _ hk) (fun _ h => h)
      · rw [List.getElem?_concat_length] at hpeer'
        obtain rfl := Option.some.inj hpeer'
        refine .waits ?_ rfl
        rw [(run_ok h₀ hrun).1.length]
        exact List.mem_append_right _ List.mem_cons_self
    | @peer e j peer₀ peer₁ acts net hnone _ hpeer₀ hgoes hfold =>
      have hgrown := clientActs_grown hfold
      have hlift : ∀ {peer : Peer}, Fate (serverSteps tr) s k peer →
          (peer.cli.running = false → peer'.cli.running = false) →
          (peer'.inbox.sent = peer.inbox.sent ∧ peer'.inbox.closed = peer.inbox.closed) →
          Fate (serverSteps tr ++ (serverStep (e, acts)).toList) ⟨net, s.peers.set j peer₁⟩ k peer' :=
            fun h hcli hinbox =>
        h.mono hcli hinbox (by rw [hgrown.backlog]; exact id) (by rw [hgrown.onFd]; exact fun _ h => h)
      by_cases hkj : k = j
      · subst hkj
        rw [List.getElem?_set_self (List.getElem?_eq_some_iff.1 hpeer₀).1] at hpeer'
        obtain rfl := Option.some.inj hpeer'
        refine hlift (ih k peer₀ hpeer₀) (fun hend => ?_) (goes_kept hgoes)
        exact absurd (hend.symm.trans (goes_runs hgoes)) (by simp)
      · rw [List.getElem?_set_ne (Ne.symm hkj)] at hpeer'
        exact hlift (ih k peer' hpeer') id ⟨rfl, rfl⟩
    | @server ev acts proc s₁ hproc hfold =>
      obtain ⟨hp, hlinks⟩ := run_links h₀ hrun
      have hproc' := Proc.next_step _ _ _ _ hproc
      obtain ⟨hi, hmove, -⟩ := hproc'.move hp
      have hgo : s.net.server.pc ≠ .exited := fun hexit => absurd hi.loop (by simp [hexit, Pc.Ok])
      have hpeers := length_of_map_getElem? (acts_kept hfold).2.peers
      obtain ⟨peer, hpeer⟩ : ∃ peer, s.peers[k]? = some peer :=
        ⟨_, List.getElem?_eq_getElem (hpeers ▸ (List.getElem?_eq_some_iff.1 hpeer').1)⟩
      have hfate := server_fate hi hlinks (run_wires h₀ hrun) (run_open h₀ hrun) hproc' hmove (hp.resolve_left hgo).2
        (fun fd k hk => run_quiet h₀ hrun hgo hk) hfold hpeer hpeer' (ih k peer hpeer)
      rw [← List.append_nil (_ ++ _)]
      exact hfate.mono id ⟨rfl, rfl⟩ id fun _ h => h

theorem run_ended {host : Host} {s₀ s : Sys} {tr : List (SysEvent × List Act)} (h₀ : s₀.Start host)
    (hrun : Lts.Run (Step host) s₀ tr s) : s.net.server.pc = .exited → s.net.server.fds = [] := by
  refine ((run_proc hrun).invariant (P := fun p => p.Inv ∧ (p.server.pc = .exited → p.server.fds = [])) ⟨?_, ?_⟩ ?_).2
  · exact Or.inr ⟨(start_inv h₀.1).1, (start_inv h₀.1).2.1⟩
  · exact fun hexit => absurd ((start_inv h₀.1).2.2.1.symm.trans hexit) (by simp)
  · rintro p e q ⟨hp, -⟩ hstep
    obtain ⟨-, hmove, hq⟩ := hstep.move hp
    exact ⟨hq, fun hexit => (hmove.exits hexit).2.2.2.2⟩

/-- **Nobody is forgotten**: in every state that a run of the system reaches, however the steps are interleaved, a
subscriber that goes on is in one of four cases.  Its connection waits to be taken, and nothing has been sent to it.  Or
it is logged in under its own name, on the connection of that name's last session.  Or it has been told to shut down,
and as many rounds of its own as there are texts under way to it, with no step of anybody else's, end it.  Or the server
has let its connection go without a word, which it does only when it could not set an option of it. -/
theorem nobody_forgotten {host : Host} {s₀ s : Sys} {tr : List (SysEvent × List Act)} (h₀ : s₀.Start host)
    (hrun : Lts.Run (Step host) s₀ tr s) {k : Nat} {c : Launch} {peer : Peer} (hc : (started tr)[k]? = some c)
    (hpeer : s.peers[k]? = some peer) (hgo : peer.cli.running = true) :
    k ∈ s.net.backlog ∧ peer.inbox = .new ∨
    (∃ fd pre, s.net.server.fdsToUsers.lookup fd = some c.name.1 ∧ s.net.onFd.lookup fd = some k ∧
      s.net.sessionsOf c.name.1 = pre ++ [k] ∧ peer.inbox.closed = false) ∨
    (∃ tr' s' peer', Lts.Run (Step host) s tr' s' ∧
      tr'.map (·.1) = List.replicate peer.inbox.unread.length (.notification k) ∧
      s'.peers[k]? = some peer' ∧ peer'.cli.running = false) ∨
    peer.inbox = ⟨[], [], true⟩ ∧ ∃ login : Login, login.nagleOk = false ∧
      (.accept (some login), [.accept login.connfd, .close login.connfd]) ∈ serverSteps tr := by
  obtain ⟨hok, -⟩ := run_ok h₀ hrun
  obtain ⟨hp, hlinks⟩ := run_links h₀ hrun
  cases run_fate h₀ hrun k peer hpeer with
  | ended hend => exact absurd (hend.symm.trans hgo) (by simp)
  | waits hk hopen =>
    obtain ⟨-, peer₀, hpeer₀, hnil⟩ := (run_wires h₀ hrun).free k hk
    obtain rfl := Option.some.inj (hpeer₀.symm.trans hpeer)
    exact Or.inl ⟨hk, by rw [Fifo.Chan.eq_of_sent_nil hnil, hopen]; rfl⟩
  | @bound fd hfd hopen =>
    have hclient := (hlinks.bound fd).2 ⟨k, hfd⟩
    have hserves : s.net.server.pc ≠ .exited := fun hexit => by
      rw [Server.clientFds, run_ended h₀ hrun hexit] at hclient
      cases hclient
    obtain ⟨u, -, hu, -⟩ := (hp.resolve_left hserves).1.user hclient
    obtain ⟨pre, hpre⟩ := hlinks.current fd u k hu hfd
    obtain ⟨c', -, -, hc', hname, -⟩ := run_session h₀ hrun
      (Net.mem_sessionsOf.1 (hpre ▸ List.mem_append_right _ List.mem_cons_self))
    obtain rfl := Option.some.inj (hc.symm.trans hc')
    subst hname
    exact Or.inr (Or.inl ⟨fd, pre, hu, hfd, hpre, hopen⟩)
  | told _ _ hsent hbefore =>
    obtain ⟨c', conn, -, hconn, hpeerOk⟩ := hok.of_peer hpeer
    obtain ⟨tr', s', peer', hrun', hlabels, hpeer', hend, -⟩ := stops hpeer hconn hpeerOk hgo hsent hbefore
    exact Or.inr (Or.inr (Or.inl ⟨tr', s', peer', hrun', hlabels, hpeer', hend⟩))
  | @cut login hclosed hnil hoption hmem =>
    exact Or.inr (Or.inr (Or.inr ⟨by rw [Fifo.Chan.eq_of_sent_nil hnil, hclosed], login, hoption, hmem⟩))

theorem nobody_forgotten_refused : ∃ (s s' : Sys) (tr' : List (SysEvent × List Act)) (peer' : Peer),
    s.net.sessions = [([97], 0)] ∧ s.peers.length = 2 ∧ Lts.Run (Step exactHost) s tr' s' ∧
      tr'.map (·.1) = [.notification 1] ∧ s'.peers[1]? = some peer' ∧ peer'.cli.running = false := by
  have hrun : ((Proc.boot exactHost 3 4).bind fun p₀ => (Lts.exec (Sys.next exactHost) (boot p₀)
      [.connect ⟨⟨[97], by decide⟩, exactHost, 3, ⟨[], by decide⟩⟩,
        .connect ⟨⟨[97], by decide⟩, exactHost, 3, ⟨[], by decide⟩⟩, .server (.poll (some [0, 1, 0])),
        .server (.accept (some ⟨5, ⟨(127, 0, 0, 1), (0, 9)⟩, true, true, ⟨[97], by decide⟩⟩)),
        .server (.poll (some [0, 1, 0, 0])),
        .server (.accept (some ⟨6, ⟨(127, 0, 0, 1), (0, 10)⟩, true, true, ⟨[97], by decide⟩⟩))]).map fun r =>
      decide (r.2.net.sessions = [([97], 0)]) && decide (r.2.net.backlog = []) && decide (r.2.peers.length = 2) &&
        (r.2.peers[1]?).all fun peer => peer.cli.running && decide (peer.inbox.unread.length = 1) && peer.inbox.closed) =
      some true := by decide +kernel
  obtain ⟨p₀, hboot, hrun⟩ := Option.bind_eq_some_iff.1 hrun
  obtain ⟨⟨tr, s⟩, hexec, hs⟩ := Option.map_eq_some_iff.1 hrun
  simp only [Bool.and_eq_true, decide_eq_true_eq] at hs
  obtain ⟨⟨⟨hsessions, hback⟩, hlength⟩, hone⟩ := hs
  have h₀ : (boot p₀).Start exactHost := ⟨⟨3, 4, by decide, by decide, by decide, hboot⟩, rfl⟩
  have hlast : Lts.Run (Step exactHost) (boot p₀) tr s := Lts.exec_run next_step .nil hexec
  obtain ⟨peer, hpeer⟩ : ∃ peer, s.peers[1]? = some peer :=
    ⟨_, List.getElem?_eq_getElem (by rw [show s.peers.length = 2 from hlength]; decide)⟩
  simp only [hpeer, Option.all_some, Bool.and_eq_true, decide_eq_true_eq] at hone
  obtain ⟨⟨hgo, hunread⟩, hclosed⟩ := hone
  obtain ⟨c, -, hc, -⟩ := (run_ok h₀ hlast).1.of_peer hpeer
  rcases nobody_forgotten h₀ hlast hc hpeer hgo with ⟨hk, -⟩ | ⟨_, _, _, _, _, hopen⟩ | ⟨tr', s', peer', hstops⟩ |
    ⟨hnil, -⟩
  · rw [show s.net.backlog = [] from hback] at hk
    cases hk
  · exact absurd (hclosed.symm.trans hopen) (by simp)
  · obtain ⟨hrun', hlabels, hpeer', hend⟩ := hstops
    exact ⟨s, s', tr', peer', hsessions, hlength, hrun', by rw [hlabels, hunread]; rfl, hpeer', hend⟩
  · rw [hnil] at hunread
    cases hunread

end Sys

end Ts
