import TopicServer.System
/-!
# EndToEnd — what each subscriber is told

A text the server sends on a descriptor reaches the subscriber whose connection was last taken on it.  So what a
subscriber has heard, and what is still under way to it, is what the broker of the run posts to its user's session
(`end_to_end`), and a subscriber that is left when the server has ended finds the word that ends it (`exit_stops`).  As
in all runs of the system no send fails; a server that a signal has ended has told nobody.
-/
namespace Ts

open Text (ascii)

namespace Sys

/-- **What ties the subscribers to the descriptors**, when the server has done the acts `past`. -/
structure Wires (past : List Act) (s : Sys) : Prop where
  single : ∀ fd fd' k, s.net.onFd.lookup fd = some k → s.net.onFd.lookup fd' = some k → fd = fd'
  free : ∀ k ∈ s.net.backlog, (∀ fd, s.net.onFd.lookup fd ≠ some k) ∧
    ∃ peer, s.peers[k]? = some peer ∧ peer.inbox.sent = []
  queued : s.net.backlog.Nodup
  stream : ∀ fd k, s.net.onFd.lookup fd = some k →
    ∃ peer, s.peers[k]? = some peer ∧ peer.inbox.sent.map (·.1) = sentOn fd past

theorem sentOn_snoc (fd : Fd) (past : List Act) (a : Act) : sentOn fd (past ++ [a]) = sentAct fd (sentOn fd past) a := by
  rw [sentOn, List.foldl_append]
  rfl

theorem Wires.idle {past : List Act} {s s' : Sys} {a : Act} (h : Wires past s) (hidle : ∀ fd l, sentAct fd l a = l)
    (hbind : ∀ fd k, s'.net.onFd.lookup fd = some k → s.net.onFd.lookup fd = some k)
    (hback : s'.net.backlog = s.net.backlog)
    (hpeers : ∀ k : Nat, (s'.peers[k]?).map (fun p : Peer => p.inbox.sent) =
      (s.peers[k]?).map fun p : Peer => p.inbox.sent) : Wires (past ++ [a]) s' := by
  have hkeep : ∀ {k : Nat} {peer : Peer}, s.peers[k]? = some peer →
      ∃ peer', s'.peers[k]? = some peer' ∧ peer'.inbox.sent = peer.inbox.sent := fun {k peer} hpeer => by
    have hk := hpeers k
    rw [hpeer, Option.map_some] at hk
    exact Option.map_eq_some_iff.1 hk
  exact
    { single := fun fd fd' k hk hk' => h.single fd fd' k (hbind _ _ hk) (hbind _ _ hk')
      free := fun k hk => by
        obtain ⟨hnew, peer, hpeer, hnil⟩ := h.free k (hback ▸ hk)
        obtain ⟨peer', hpeer', hsent⟩ := hkeep hpeer
        exact ⟨fun fd hb => hnew fd (hbind fd k hb), peer', hpeer', hsent.trans hnil⟩
      queued := hback ▸ h.queued
      stream := fun fd k hk => by
        obtain ⟨peer, hpeer, hstream⟩ := h.stream fd k (hbind fd k hk)
        obtain ⟨peer', hpeer', hsent⟩ := hkeep hpeer
        exact ⟨peer', hpeer', by rw [hsent, hstream, sentOn_snoc, hidle]⟩ }

theorem close_sent {s : Sys} {fd : Fd} {peers : List Peer} (h : s.mail (.close fd) = some peers) (k : Nat) :
    (peers[k]?).map (fun p : Peer => p.inbox.sent) = (s.peers[k]?).map fun p : Peer => p.inbox.sent := by
  unfold mail at h
  dsimp only at h
  split at h
  · rw [← Option.some.inj h, List.getElem?_modify]
    cases s.peers[k]? with
    | none => rfl
    | some peer =>
      rw [Option.map_eq_map, Option.map_some, Option.map_some, Option.map_some]
      split <;> rfl
  · rw [← Option.some.inj h]

theorem Wires.act {past : List Act} {s s' : Sys} {a : Act} (h : Wires past s) (ha : s.act a = some s') :
    Wires (past ++ [a]) s' := by
  obtain ⟨hmail, hnet⟩ := act_parts ha
  cases a with
  | accept fd =>
    obtain ⟨k, rest, hqueue, hnet⟩ := Net.act_accept hnet
    obtain hpeers : s.peers = s'.peers := Option.some.inj hmail
    have hqueued := h.queued
    rw [hqueue, List.nodup_cons] at hqueued
    obtain ⟨hnew, peer, hpeer, hnil⟩ := h.free k (hqueue ▸ List.mem_cons_self)
    have hlookup : ∀ x, s'.net.onFd.lookup x = if x = fd then some k else s.net.onFd.lookup x := fun x => by
      rw [hnet, Table.lookup_insert_if]
    have hback : s'.net.backlog = rest := by rw [hnet]
    exact
      { single := fun x y j hx hy => by
          rw [hlookup] at hx hy
          split at hx <;> split at hy
          · rename_i hxfd hyfd
            rw [hxfd, hyfd]
          · exact absurd (Option.some.inj hx ▸ hy) (hnew y)
          · exact absurd (Option.some.inj hy ▸ hx) (hnew x)
          · exact h.single x y j hx hy
        free := fun j hj => by
          rw [hback] at hj
          obtain ⟨hnew', peer', hpeer', hnil'⟩ := h.free j (hqueue ▸ List.mem_cons_of_mem _ hj)
          refine ⟨fun x hx => ?_, peer', hpeers ▸ hpeer', hnil'⟩
          rw [hlookup] at hx
          split at hx
          · exact hqueued.1 (Option.some.inj hx ▸ hj)
          · exact hnew' x hx
        queued := hback ▸ hqueued.2
        stream := fun x j hx => by
          rw [hlookup] at hx
          rw [sentOn_snoc, sentAct, ← hpeers]
          split at hx
          · rename_i hxfd
            rw [← Option.some.inj hx, if_pos hxfd.symm]
            exact ⟨peer, hpeer, by rw [hnil]; rfl⟩
          · rename_i hxfd
            rw [if_neg (Ne.symm hxfd)]
            exact h.stream x j hx }
  | sendTcp fd str =>
    obtain hnet : s.net = s'.net := Option.some.inj hnet
    obtain ⟨k, hk, hmail⟩ := Option.bind_eq_some_iff.1 hmail
    obtain ⟨peer, hpeer, hmail⟩ := Option.bind_eq_some_iff.1 hmail
    split at hmail
    swap
    · cases hmail
    obtain ⟨inbox, hsend, hmail⟩ := Option.bind_eq_some_iff.1 hmail
    have hpeers : s.peers.set k { peer with inbox } = s'.peers := Option.some.inj hmail
    have hsent := (Fifo.Chan.sent_send hsend).2
    have hlt := (List.getElem?_eq_some_iff.1 hpeer).1
    exact
      { single := hnet ▸ h.single
        free := fun j hj => by
          rw [← hnet] at hj ⊢
          obtain ⟨hnew, peer', hpeer', hnil⟩ := h.free j hj
          have hjk : k ≠ j := fun hjk => hnew fd (hjk ▸ hk)
          exact ⟨hnew, peer', by rw [← hpeers, List.getElem?_set_ne hjk, hpeer'], hnil⟩
        queued := hnet ▸ h.queued
        stream := fun x j hx => by
          rw [← hnet] at hx
          rw [sentOn_snoc, sentAct, ← hpeers]
          by_cases hjk : j = k
          · -- no other descriptor is of this connection
            subst hjk
            obtain ⟨peer', hpeer', hstream⟩ := h.stream x j hx
            obtain rfl := Option.some.inj (hpeer'.symm.trans hpeer)
            rw [if_pos (h.single fd x j hk hx), List.getElem?_set_self hlt]
            exact ⟨_, rfl, by rw [hsent, List.map_append, hstream]; rfl⟩
          · have hne : fd ≠ x := by
              rintro rfl
              exact hjk (Option.some.inj (hx.symm.trans hk))
            rw [if_neg hne, List.getElem?_set_ne (Ne.symm hjk)]
            exact h.stream x j hx }
  | close fd =>
    obtain hnet : { s.net with onFd := s.net.onFd.erase fd } = s'.net := Option.some.inj hnet
    refine h.idle (fun _ _ => rfl) (fun x k hx => ?_) (by rw [← hnet]) (close_sent hmail)
    rw [← hnet] at hx
    exact (Table.lookup_erase_eq_some.1 hx).2
  | recv fd buff =>
    obtain hpeers : s.peers = s'.peers := Option.some.inj hmail
    obtain ⟨k, conn, -, -, ⟨-, -, -, hsame⟩ | ⟨m, chan, -, -, hsame⟩⟩ := Net.act_recv hnet
    · exact h.idle (fun _ _ => rfl) (fun x k hx => by rwa [hsame] at hx) (by rw [hsame]) fun k => by rw [hpeers]
    · exact h.idle (fun _ _ => rfl) (fun x k hx => by rwa [hsame] at hx) (by rw [hsame]) fun k => by rw [hpeers]
  | cout line =>
    obtain hpeers : s.peers = s'.peers := Option.some.inj hmail
    obtain hnet : s.net = s'.net := Option.some.inj hnet
    exact h.idle (fun _ _ => rfl) (fun x k hx => by rwa [← hnet] at hx) (by rw [hnet]) fun k => by rw [hpeers]

theorem Wires.acts : ∀ {acts past : List Act} {s s' : Sys}, Wires past s → acts.foldlM Sys.act s = some s' →
    Wires (past ++ acts) s'
  | [], past, s, s', h, hfold => by
    obtain rfl := Option.some.inj hfold
    rwa [List.append_nil]
  | a :: acts, past, s, s', h, hfold => by
    rw [List.foldlM_cons] at hfold
    obtain ⟨s₁, h₁, hfold⟩ := Option.bind_eq_some_iff.1 hfold
    rw [← List.singleton_append, ← List.append_assoc]
    exact (h.act h₁).acts hfold

theorem goes_kept {peer peer' : Peer} {acts : List Act} (h : peer.Goes acts peer') :
    peer'.inbox.sent = peer.inbox.sent ∧ peer'.inbox.closed = peer.inbox.closed := by
  cases h with
  | stdin => exact ⟨rfl, rfl⟩
  | notification htake => exact Fifo.Chan.take_kept htake
  | signal => exact ⟨rfl, rfl⟩

theorem Move.wires {host : Host} {s s' : Sys} {e : SysEvent × List Act} {past : List Act} (h : Move host s e s')
    {cs : List Launch} (hok : s.Ok cs) (hlinks : s.net.Links) (hw : Wires past s) :
    Wires (past ++ actsOf (serverStep e).toList) s' := by
  cases h with
  | @connect c net₁ net h₁ h =>
    obtain rfl := connect_net h₁ h
    have hold : ∀ {k : Nat} {peer : Peer}, s.peers[k]? = some peer →
        (s.peers ++ [⟨Client.start c.host c.socket_cli c.input, [], .new⟩])[k]? = some peer := fun hpeer => by
      rw [List.getElem?_append_left (List.getElem?_eq_some_iff.1 hpeer).1, hpeer]
    have hnew : ∀ x, s.net.onFd.lookup x ≠ some s.net.conns.length := fun x hx =>
      Nat.lt_irrefl _ (hlinks.known x _ hx)
    rw [show past ++ actsOf (serverStep (.connect c, [])).toList = past from List.append_nil past]
    exact
      { single := hw.single
        free := fun k hk => by
          rcases List.mem_append.1 hk with hk | hk
          · obtain ⟨hfree, peer, hpeer, hnil⟩ := hw.free k hk
            exact ⟨hfree, peer, hold hpeer, hnil⟩
          · obtain rfl := List.mem_singleton.1 hk
            exact ⟨hnew, _, by rw [← hok.length, List.getElem?_concat_length], rfl⟩
        queued := by
          apply hw.queued.append (List.nodup_singleton _)
          intro k hk hk'
          obtain rfl := List.mem_singleton.1 hk'
          obtain ⟨-, peer, hpeer, -⟩ := hw.free _ hk
          exact absurd (List.getElem?_eq_some_iff.1 hpeer).1 (by rw [hok.length]; exact Nat.lt_irrefl _)
        stream := fun x k hx => by
          obtain ⟨peer, hpeer, hstream⟩ := hw.stream x k hx
          exact ⟨peer, hold hpeer, hstream⟩ }
  | @peer e k peer₀ peer' acts net hnone _ hpeer₀ hgoes hfold =>
    have hgrown := clientActs_grown hfold
    have hsent := (goes_kept hgoes).1
    have hkeep : ∀ {j : Nat} {peer : Peer}, s.peers[j]? = some peer →
        ∃ p, (s.peers.set k peer')[j]? = some p ∧ p.inbox.sent = peer.inbox.sent := fun {j peer} hpeer => by
      by_cases hjk : j = k
      · subst hjk
        obtain rfl := Option.some.inj (hpeer.symm.trans hpeer₀)
        exact ⟨peer', List.getElem?_set_self (List.getElem?_eq_some_iff.1 hpeer).1, hsent⟩
      · exact ⟨peer, by rw [List.getElem?_set_ne (Ne.symm hjk), hpeer], rfl⟩
    rw [hnone, show past ++ actsOf (none : Option (Event × List Act)).toList = past from List.append_nil past]
    exact
      { single := by rw [hgrown.onFd]; exact hw.single
        free := fun j hj => by
          rw [hgrown.backlog] at hj
          rw [hgrown.onFd]
          obtain ⟨hfree, peer, hpeer, hnil⟩ := hw.free j hj
          obtain ⟨p, hp, hsame⟩ := hkeep hpeer
          exact ⟨hfree, p, hp, hsame.trans hnil⟩
        queued := by rw [hgrown.backlog]; exact hw.queued
        stream := fun x j hx => by
          rw [hgrown.onFd] at hx
          obtain ⟨peer, hpeer, hstream⟩ := hw.stream x j hx
          obtain ⟨p, hp, hsame⟩ := hkeep hpeer
          exact ⟨p, hp, by rw [hsame, hstream]⟩ }
  | @server ev acts proc s₁ hproc hfold =>
    obtain ⟨hsingle, hfree, hqueued, hstream⟩ := hw.acts hfold
    rw [show actsOf (serverStep (.server ev, acts)).toList = acts from List.append_nil acts]
    exact ⟨hsingle, hfree, hqueued, hstream⟩

theorem run_wires {host : Host} {s₀ s : Sys} {tr : List (SysEvent × List Act)} (h₀ : s₀.Start host)
    (hrun : Lts.Run (Step host) s₀ tr s) : Wires (actsOf (serverSteps tr)) s := by
  refine hrun.history (P := fun tr s => Wires (actsOf (serverSteps tr)) s) ?_ ?_
  · rw [h₀.2]
    exact ⟨fun _ _ _ h => by simp [boot, Net.boot] at h, fun _ h => by simp [boot, Net.boot] at h,
      by simp [boot, Net.boot], fun _ _ h => by simp [boot, Net.boot] at h⟩
  · rintro tr s e s' hrun hw hstep
    have hacts : actsOf (serverSteps (tr ++ [e])) = actsOf (serverSteps tr) ++ actsOf (serverStep e).toList := by
      rw [serverSteps, List.filterMap_append, actsOf, List.flatMap_append]
      cases he : serverStep e <;> simp [serverSteps, actsOf, he]
    rw [hacts]
    exact hstep.move.wires (run_ok h₀ hrun).1 (run_links h₀ hrun).2 hw

/-! ## Who is told what -/

theorem closes_sent : ∀ {fds : List Fd} {s s' : Sys}, (fds.map Act.close).foldlM Sys.act s = some s' → ∀ k : Nat,
    (s'.peers[k]?).map (fun p : Peer => p.inbox.sent) = (s.peers[k]?).map fun p : Peer => p.inbox.sent
  | [], s, s', h, k => by
    obtain rfl := Option.some.inj h
    rfl
  | fd :: fds, s, s', h, k => by
    rw [List.map_cons, List.foldlM_cons] at h
    obtain ⟨s₁, h₁, h⟩ := Option.bind_eq_some_iff.1 h
    exact (closes_sent h k).trans (close_sent (act_parts h₁).1 k)

theorem Wires.farewell {past : List Act} {s s' : Sys} (hw : Wires past s)
    (hfold : s.net.server.farewell.foldlM Sys.act s = some s') {fd : Fd} {k : Nat} (hk : s.net.onFd.lookup fd = some k) :
    ∃ peer, s'.peers[k]? = some peer ∧ peer.inbox.sent.map (·.1) = sentOn fd (past ++ s.net.server.farewell) := by
  have hsends : ∀ a ∈ s.net.server.clientFds.map (fun fd => Act.sendTcp fd (ascii "shutdown")),
      ∃ fd str, a = .sendTcp fd str := fun a ha => by
    obtain ⟨x, -, rfl⟩ := List.mem_map.1 ha
    exact ⟨x, _, rfl⟩
  have hcloses : ∀ a ∈ (s.net.server.fds.drop 1).map Act.close, ∃ x, a = .close x := fun a ha => by
    obtain ⟨x, -, rfl⟩ := List.mem_map.1 ha
    exact ⟨x, rfl⟩
  rw [Server.farewell, List.foldlM_append] at hfold
  obtain ⟨s₁, htold, hclosed⟩ := Option.bind_eq_some_iff.1 hfold
  have hnet : s.net = s₁.net :=
    Option.some.inj ((Net.foldlM_sends s.net hsends).symm.trans (acts_kept htold).1)
  obtain ⟨peer, hpeer, hstream⟩ := (hw.acts htold).stream fd k (hnet ▸ hk)
  have hsent := closes_sent hclosed k
  rw [hpeer, Option.map_some] at hsent
  obtain ⟨peer', hpeer', hsame⟩ := Option.map_eq_some_iff.1 hsent
  refine ⟨peer', hpeer', ?_⟩
  have hacc : Act.accept fd ∉ (s.net.server.fds.drop 1).map Act.close := fun h => by
    obtain ⟨x, hx⟩ := hcloses _ h
    cases hx
  have hnone : sendsTo fd ((s.net.server.fds.drop 1).map Act.close) = [] := sendsTo_none fun str h => by
    obtain ⟨x, hx⟩ := hcloses _ h
    cases hx
  rw [hsame, hstream, Server.farewell, ← List.append_assoc, sentOn_append _ hacc, hnone, List.append_nil]

theorem bound_session {host : Host} {s₀ s : Sys} {tr : List (SysEvent × List Act)} (h₀ : s₀.Start host)
    (hrun : Lts.Run (Step host) s₀ tr s) (hpc : s.net.server.pc ≠ .exited) {fd : Fd} {u : Bytes}
    (hu : s.net.server.fdsToUsers.lookup fd = some u) :
    ∃ k pre, s.net.onFd.lookup fd = some k ∧ s.net.sessionsOf u = pre ++ [k] := by
  obtain ⟨hp, hlinks⟩ := run_links h₀ hrun
  have hi := (hp.resolve_left hpc).1
  obtain ⟨k, hk⟩ := (hlinks.bound fd).1 ((hi.keys fd).2 (Table.mem_iff_lookup.2 ⟨u, hu⟩))
  obtain ⟨pre, hpre⟩ := hlinks.current fd u k hu hk
  exact ⟨k, pre, hk, hpre⟩

/-- **What has been sent on a user's connection has been sent to the subscriber of its last session.** -/
theorem run_told {host : Host} {s₀ s : Sys} {tr : List (SysEvent × List Act)} (h₀ : s₀.Start host)
    (hrun : Lts.Run (Step host) s₀ tr s) : ∀ fd u, (observed (serverSteps tr)).session fd = some u →
      ∃ k pre peer, s.net.sessionsOf u = pre ++ [k] ∧ s.peers[k]? = some peer ∧
        peer.inbox.sent.map (·.1) = sentOn fd (actsOf (serverSteps tr)) := by
  refine hrun.history (P := fun tr s => ∀ fd u, (observed (serverSteps tr)).session fd = some u →
      ∃ k pre peer, s.net.sessionsOf u = pre ++ [k] ∧ s.peers[k]? = some peer ∧
        peer.inbox.sent.map (·.1) = sentOn fd (actsOf (serverSteps tr))) (fun fd u h => by cases h) ?_
  rintro tr s e s' hrun ih hstep fd u hu
  have hrun' := hrun.snoc hstep
  have hsim' := (run_sim h₀.1 (run_proc hrun')).2
  by_cases hpc : s'.net.server.pc = .exited
  swap
  · obtain ⟨k, pre, hk, hpre⟩ := bound_session h₀ hrun' hpc ((hsim'.session fd).symm.trans hu)
    obtain ⟨peer, hpeer, hstream⟩ := (run_wires h₀ hrun').stream fd k hk
    exact ⟨k, pre, peer, hpre, hpeer, hstream⟩
  obtain ⟨hp, hlinks⟩ := run_links h₀ hrun
  have hpast : serverStep e = none → serverSteps (tr ++ [e]) = serverSteps tr := fun hnone => by
    simp [serverSteps, hnone]
  cases hstep.move with
  | @connect c net₁ net hnet₁ hnet =>
    rw [hpast rfl] at hu ⊢
    obtain rfl := connect_net hnet₁ hnet
    obtain ⟨k, pre, peer, hpre, hpeer, hsent⟩ := ih fd u hu
    exact ⟨k, pre, peer, hpre, by rw [List.getElem?_append_left (List.getElem?_eq_some_iff.1 hpeer).1, hpeer], hsent⟩
  | @peer e k' peer₀ peer' acts net hnone _ hpeer₀ hgoes hfold =>
    rw [hpast hnone] at hu ⊢
    obtain ⟨k, pre, peer, hpre, hpeer, hsent⟩ := ih fd u hu
    have hsess : net.sessionsOf u = s.net.sessionsOf u := by rw [Net.sessionsOf_congr (clientActs_grown hfold).sessions]
    by_cases hk : k = k'
    · subst hk
      obtain rfl := Option.some.inj (hpeer.symm.trans hpeer₀)
      refine ⟨k, pre, peer', hsess.trans hpre, List.getElem?_set_self (List.getElem?_eq_some_iff.1 hpeer).1, ?_⟩
      rw [(goes_kept hgoes).1, hsent]
    · exact ⟨k, pre, peer, hsess.trans hpre, by rw [List.getElem?_set_ne (Ne.symm hk), hpeer], hsent⟩
  | @server ev acts proc s₁ hproc hfold =>
    -- the step that ends the server
    have hproc' := Proc.next_step _ _ _ _ hproc
    obtain ⟨hi, hmove, -⟩ := hproc'.move hp
    have hgoes : s.net.server.pc ≠ .exited := fun hexit => absurd hi.loop (by simp [hexit, Pc.Ok])
    obtain ⟨rfl, hsame, hacc, -⟩ := hmove.exits hpc
    have hbefore : s.net.server.fdsToUsers.lookup fd = some u := by
      rw [← hsame.fdsToUsers]
      exact (hsim'.session fd).symm.trans hu
    obtain ⟨k, pre, hk, hpre⟩ := bound_session h₀ hrun hgoes hbefore
    obtain ⟨peer, hpeer, hsent⟩ := (run_wires h₀ hrun).farewell hfold hk
    have hacts : actsOf (serverSteps (tr ++ [(.server ev, s.net.server.farewell)])) =
        actsOf (serverSteps tr) ++ s.net.server.farewell := by simp [serverSteps, serverStep, actsOf]
    refine ⟨k, pre, peer, ?_, hpeer, by rw [hacts, hsent]⟩
    rw [← hpre]
    exact congrFun (Net.sessionsOf_congr (by simp [Net.logins_none fun c => hacc (some c)])) u

/-- **What a subscriber has heard and what is still under way to it** are what is posted to its user's session. -/
theorem run_hears {host : Host} {s₀ s : Sys} {tr : List (SysEvent × List Act)} (h₀ : s₀.Start host)
    (hrun : Lts.Run (Step host) s₀ tr s) {fd : Fd} {u : Bytes} (hu : (observed (serverSteps tr)).session fd = some u) :
    ∃ k pre c peer conn texts, s.net.sessionsOf u = pre ++ [k] ∧ s.peers[k]? = some peer ∧
      s.net.conns[k]? = some conn ∧ peer.Ok c texts ∧
      heard peer.rounds ++ peer.inbox.unread.map (·.1) = (posted host (serverSteps tr)).sent fd := by
  obtain ⟨k, pre, peer, hpre, hpeer, hsent⟩ := run_told h₀ hrun fd u hu
  obtain ⟨hok, hfrom⟩ := run_ok h₀ hrun
  obtain ⟨c, conn, -, hconn, hpeerOk⟩ := hok.of_peer hpeer
  refine ⟨k, pre, c, peer, conn, _, hpre, hpeer, hconn, hpeerOk, ?_⟩
  rw [hpeerOk.heard, ← List.map_append]
  exact hsent.trans (run_stream h₀.1 (run_proc hrun) hfrom fd u hu)

/-- **From a datagram to the screen**: in every run of the system, however the steps are interleaved, what the
subscriber of a user's last session has taken off its connection, followed by what is still under way to it, is what the
broker of the run posts to that session: the text of each datagram the user receives, in the order of the datagrams, and
`shutdown` at the end if and only if the server has ended.  All that it has taken off it has printed, once and in order,
but for that word. -/
theorem end_to_end {host : Host} {s₀ s : Sys} {tr : List (SysEvent × List Act)} (h₀ : s₀.Start host)
    (hrun : Lts.Run (Step host) s₀ tr s) {fd : Fd} {u : Bytes} (hu : (observed (serverSteps tr)).session fd = some u) :
    ∃ k pre peer, s.net.sessionsOf u = pre ++ [k] ∧ s.peers[k]? = some peer ∧
      heard peer.rounds ++ peer.inbox.unread.map (·.1) = (posted host (serverSteps tr)).sent fd ∧
      shown peer.rounds = (heard peer.rounds).filter (· ≠ ascii "shutdown") ∧
      (ascii "shutdown" ∈ (posted host (serverSteps tr)).sent fd ↔ s.net.server.pc = .exited) := by
  obtain ⟨k, pre, c, peer, conn, texts, hpre, hpeer, -, hok, hall⟩ := run_hears h₀ hrun hu
  obtain ⟨cli, hcli, -⟩ := hok.run
  obtain ⟨hgoes, hexit⟩ := run_posted h₀.1 (run_proc hrun)
  refine ⟨k, pre, peer, hpre, hpeer, hall, (shown_heard hcli).2, fun hmem => ?_, fun hpc => ?_⟩
  · by_contra hpc
    exact hgoes hpc fd hmem
  · obtain ⟨before, hbefore, -⟩ := hexit hpc fd u hu
    rw [hbefore]
    exact List.mem_append_right _ List.mem_cons_self

theorem end_to_end_prints : ∃ (tr : List (SysEvent × List Act)) (s : Sys) (peer : Peer), s.peers[0]? = some peer ∧
    shown peer.rounds = [ascii "127.0.0.1:8080 - a/b - STRING - x"] ∧
      (posted exactHost (serverSteps tr)).sent 5 = [ascii "127.0.0.1:8080 - a/b - STRING - x"] := by
  have hrun : ((Proc.boot exactHost 3 4).bind fun p₀ => (Lts.exec (Sys.next exactHost) (boot p₀)
      [.connect ⟨⟨[97], by decide⟩, exactHost, 3, ⟨ascii "subscribe a/*\n", by decide⟩⟩, .stdin 0,
        .server (.poll (some [0, 1, 0])),
        .server (.accept (some ⟨5, ⟨(127, 0, 0, 1), (0, 9)⟩, true, true, ⟨[97], by decide⟩⟩)),
        .server (.poll (some [0, 0, 0, 1])), .server (.recv ⟨ascii "subscribe a/*", by decide⟩ true), .server .next,
        .server (.poll (some [0, 0, 1, 0])),
        .server (.recvfrom (some (ascii "a/b" ++ List.replicate 47 0 ++ [3, 120], ⟨(127, 0, 0, 1), (31, 144)⟩)) [[97]]),
        .notification 0]).map fun r => (decide ((observed (serverSteps r.1)).session 5 = some [97]) &&
          decide (r.2.net.sessionsOf [97] = [0]) && r.2.peers.all fun peer => decide (peer.inbox.unread = []) &&
            decide (shown peer.rounds = [ascii "127.0.0.1:8080 - a/b - STRING - x"]) &&
              decide (heard peer.rounds = [ascii "127.0.0.1:8080 - a/b - STRING - x"]))) = some true := by
    decide +kernel
  obtain ⟨p₀, hboot, hrun⟩ := Option.bind_eq_some_iff.1 hrun
  obtain ⟨⟨tr, s⟩, hexec, hs⟩ := Option.map_eq_some_iff.1 hrun
  simp only [Bool.and_eq_true, decide_eq_true_eq, List.all_eq_true] at hs
  obtain ⟨⟨hsession, hlogins⟩, hpeers⟩ := hs
  have h₀ : (boot p₀).Start exactHost := ⟨⟨3, 4, by decide, by decide, by decide, hboot⟩, rfl⟩
  have hlast : Lts.Run (Step exactHost) (boot p₀) tr s := Lts.exec_run next_step .nil hexec
  obtain ⟨k, pre, peer, hpre, hpeer, hall, -, -⟩ := end_to_end h₀ hlast hsession
  have hk : pre = [] ∧ k = 0 := by
    rw [hlogins] at hpre
    cases pre with
    | nil => exact ⟨rfl, (List.cons.inj hpre).1.symm⟩
    | cons a pre => simp at hpre
  obtain ⟨-, rfl⟩ := hk
  obtain ⟨⟨hunread, hshown⟩, hheard⟩ := hpeers peer (List.mem_of_getElem? hpeer)
  exact ⟨tr, s, peer, hpeer, hshown, by rw [← hall, hheard, hunread]; rfl⟩

/-! ## The end of the subscribers -/

theorem step_prints {host : Host} {s : Sys} {k : Nat} {peer : Peer} {m : Frame} {rest : List Frame}
    (hpeer : s.peers[k]? = some peer) (hgo : peer.cli.running = true) (hunread : peer.inbox.unread = m :: rest)
    (hm : m.1 ≠ ascii "shutdown") : s.Step host (.notification k, [.cout m.1]) ⟨s.net, s.peers.set k ⟨peer.cli,
      peer.rounds ++ [(.notification (received (some m)), [.cout m.1])],
        ⟨peer.inbox.read ++ [m], rest, peer.inbox.closed⟩⟩⟩ := by
  have htake : peer.inbox.take = some (some m, ⟨peer.inbox.read ++ [m], rest, peer.inbox.closed⟩) := by
    simp only [Fifo.Chan.take, hunread]
  have hround : peer.cli.step (.notification (received (some m))) = some (peer.cli, [.cout m.1]) := by
    simp [Client.step, received, hgo, hm, m.2.1]
  simp only [Step, next, hpeer, htake, hround, goes, Option.bind_eq_bind, Option.bind_some]
  rfl

theorem step_ends {host : Host} {s : Sys} {k : Nat} {peer : Peer} {conn : Conn} {m : Frame} {rest : List Frame}
    (hpeer : s.peers[k]? = some peer) (hconn : s.net.conns[k]? = some conn) (hgo : peer.cli.running = true)
    (hunread : peer.inbox.unread = m :: rest) (hm : m.1 = ascii "shutdown") : ∃ net,
      s.Step host (.notification k, [.close peer.cli.socket_cli]) ⟨net, s.peers.set k ⟨{ peer.cli with running := false },
        peer.rounds ++ [(.notification (received (some m)), [.close peer.cli.socket_cli])],
          ⟨peer.inbox.read ++ [m], rest, peer.inbox.closed⟩⟩⟩ := by
  have htake : peer.inbox.take = some (some m, ⟨peer.inbox.read ++ [m], rest, peer.inbox.closed⟩) := by
    simp only [Fifo.Chan.take, hunread]
  have hround : peer.cli.step (.notification (received (some m))) =
      some ({ peer.cli with running := false }, [.close peer.cli.socket_cli]) := by
    simp [Client.step, received, hgo, hm]
  refine ⟨{ s.net with conns := s.net.conns.set k { conn with chan := conn.chan.close } }, ?_⟩
  simp only [Step, next, hpeer, htake, hround, goes, List.foldlM_cons, List.foldlM_nil, clientAct, Net.next, hconn,
    Option.bind_eq_bind, Option.bind_some]
  rfl

/-- **A subscriber that finds the word that ends it** behind other texts prints those and ends. -/
theorem drains {host : Host} {k : Nat} {conn : Conn} {word : Frame} (hword : word.1 = ascii "shutdown") :
    ∀ (ms : List Frame) {s : Sys} {peer : Peer}, s.peers[k]? = some peer → s.net.conns[k]? = some conn →
      peer.cli.running = true → peer.inbox.unread = ms ++ [word] → (∀ m ∈ ms, m.1 ≠ ascii "shutdown") →
      ∃ tr s' peer', Lts.Run (Step host) s tr s' ∧ tr.map (·.1) = List.replicate (ms.length + 1) (.notification k) ∧
        s'.peers[k]? = some peer' ∧ peer'.cli.running = false ∧ shown peer'.rounds = shown peer.rounds ++ ms.map (·.1)
  | [], s, peer, hpeer, hconn, hgo, hunread, _ => by
    obtain ⟨net, hstep⟩ : ∃ net, s.Step host _ ⟨net, _⟩ := step_ends hpeer hconn hgo hunread hword
    refine ⟨_, _, _, Lts.Run.nil.snoc hstep, rfl, List.getElem?_set_self (List.getElem?_eq_some_iff.1 hpeer).1, rfl, ?_⟩
    simp [shown]
  | m :: ms, s, peer, hpeer, hconn, hgo, hunread, hms => by
    have hstep : s.Step host _ _ := step_prints hpeer hgo hunread (hms m List.mem_cons_self)
    have hnext : (s.peers.set k ⟨peer.cli, peer.rounds ++ [(.notification (received (some m)), [.cout m.1])],
        ⟨peer.inbox.read ++ [m], ms ++ [word], peer.inbox.closed⟩⟩)[k]? = some _ :=
      List.getElem?_set_self (List.getElem?_eq_some_iff.1 hpeer).1
    obtain ⟨tr, s', peer', hrun, hlabels, hpeer', hend, hshown⟩ := drains hword ms (s := ⟨s.net, _⟩) hnext hconn hgo rfl
      fun m' hm' => hms m' (List.mem_cons_of_mem m hm')
    refine ⟨_, s', peer', (Lts.Run.nil.snoc hstep).append hrun, ?_, hpeer', hend, ?_⟩
    · rw [List.map_append, hlabels, List.length_cons, List.replicate_succ]
      rfl
    · rw [hshown, List.map_cons]
      simp [shown]

theorem stops {host : Host} {s : Sys} {k : Nat} {c : Launch} {peer : Peer} {conn : Conn} {texts before : List Bytes}
    (hpeer : s.peers[k]? = some peer) (hconn : s.net.conns[k]? = some conn) (hok : peer.Ok c texts)
    (hgo : peer.cli.running = true) (hsent : peer.inbox.sent.map (·.1) = before ++ [ascii "shutdown"])
    (hbefore : ascii "shutdown" ∉ before) : ∃ tr s' peer', Lts.Run (Step host) s tr s' ∧
      tr.map (·.1) = List.replicate peer.inbox.unread.length (.notification k) ∧ s'.peers[k]? = some peer' ∧
        peer'.cli.running = false ∧ shown peer'.rounds ++ [ascii "shutdown"] = peer.inbox.sent.map (·.1) := by
  obtain ⟨cli, hcli, hend⟩ := hok.run
  obtain rfl : peer.cli = cli := hend.resolve_right fun hstop => by
    rw [hstop] at hgo
    cases hgo
  obtain ⟨hgoes, hshown⟩ := shown_heard hcli
  have hnot := hgoes hgo
  have hkept : (heard peer.rounds).filter (· ≠ ascii "shutdown") = heard peer.rounds := by
    apply List.filter_eq_self.2
    intro str hstr
    exact decide_eq_true fun hword => hnot (hword ▸ hstr)
  -- what it has heard is before that word, so the word is the last of what is under way
  have hall : heard peer.rounds ++ peer.inbox.unread.map (·.1) = before ++ [ascii "shutdown"] := by
    rw [hok.heard, ← List.map_append]
    exact hsent
  have hlast : peer.inbox.unread ≠ [] := fun hnil => by
    rw [hnil, List.map_nil, List.append_nil] at hall
    exact hnot (hall ▸ List.mem_append_right _ List.mem_cons_self)
  obtain ⟨ms, word, hunread⟩ : ∃ ms word, peer.inbox.unread = ms ++ [word] :=
    ⟨_, _, (List.dropLast_append_getLast hlast).symm⟩
  rw [hunread, List.map_append, ← List.append_assoc] at hall
  obtain ⟨hmiddle, hword⟩ := List.append_inj' hall rfl
  have hms : ∀ m ∈ ms, m.1 ≠ ascii "shutdown" := fun m hm hbad =>
    hbefore (hmiddle ▸ List.mem_append_right _ (List.mem_map.2 ⟨m, hm, hbad⟩))
  obtain ⟨tr, s', peer', hrun, hlabels, hpeer', hstopped, hshown'⟩ :=
    drains (List.cons.inj hword).1 ms hpeer hconn hgo hunread hms
  refine ⟨tr, s', peer', hrun, ?_, hpeer', hstopped, ?_⟩
  · rw [hlabels, hunread, List.length_append, List.length_singleton]
  · rw [hshown', hshown, hkept, hmiddle, hsent]

/-- **The server takes its subscribers with it**: in every state that a run of the system reaches after the server has
ended, by `exit` or a failing `poll`, the subscriber of a user's last session, if it goes on, has the word that ends it
before it: as many rounds as there are texts under way to it, with no step of anybody else's, print the rest of what its
session was posted and end it. -/
theorem exit_stops {host : Host} {s₀ s : Sys} {tr : List (SysEvent × List Act)} (h₀ : s₀.Start host)
    (hrun : Lts.Run (Step host) s₀ tr s) (hpc : s.net.server.pc = .exited) {fd : Fd} {u : Bytes}
    (hu : (observed (serverSteps tr)).session fd = some u) :
    ∃ k pre peer, s.net.sessionsOf u = pre ++ [k] ∧ s.peers[k]? = some peer ∧ (peer.cli.running = true →
      ∃ tr' s' peer', Lts.Run (Step host) s tr' s' ∧
        tr'.map (·.1) = List.replicate peer.inbox.unread.length (.notification k) ∧
        s'.peers[k]? = some peer' ∧ peer'.cli.running = false ∧
        shown peer'.rounds ++ [ascii "shutdown"] = (posted host (serverSteps tr)).sent fd) := by
  obtain ⟨k, pre, c, peer, conn, texts, hpre, hpeer, hconn, hok, hall⟩ := run_hears h₀ hrun hu
  refine ⟨k, pre, peer, hpre, hpeer, fun hgo => ?_⟩
  obtain ⟨before, hposted, hbefore⟩ := (run_posted h₀.1 (run_proc hrun)).2 hpc fd u hu
  have hsent : peer.inbox.sent.map (·.1) = (posted host (serverSteps tr)).sent fd := by
    rw [← hall, hok.heard, ← List.map_append]
    rfl
  rw [← hsent]
  exact stops hpeer hconn hok hgo (hsent.trans hposted) hbefore

theorem exit_stops_drains : ∃ (s s' : Sys) (tr' : List (SysEvent × List Act)) (peer' : Peer),
    s.net.server.pc = .exited ∧ Lts.Run (Step exactHost) s tr' s' ∧
      tr'.map (·.1) = [.notification 0, .notification 0] ∧ s'.peers[0]? = some peer' ∧ peer'.cli.running = false := by
  have hrun : ((Proc.boot exactHost 3 4).bind fun p₀ => (Lts.exec (Sys.next exactHost) (boot p₀)
      [.connect ⟨⟨[97], by decide⟩, exactHost, 3, ⟨ascii "subscribe a/*\n", by decide⟩⟩, .stdin 0,
        .server (.poll (some [0, 1, 0])),
        .server (.accept (some ⟨5, ⟨(127, 0, 0, 1), (0, 9)⟩, true, true, ⟨[97], by decide⟩⟩)),
        .server (.poll (some [0, 0, 0, 1])), .server (.recv ⟨ascii "subscribe a/*", by decide⟩ true), .server .next,
        .server (.poll (some [0, 0, 1, 0])),
        .server (.recvfrom (some (ascii "a/b" ++ List.replicate 47 0 ++ [3, 120], ⟨(127, 0, 0, 1), (31, 144)⟩)) [[97]]),
        .server (.poll none)]).map fun r => (decide ((observed (serverSteps r.1)).session 5 = some [97]) &&
          decide (r.2.net.sessionsOf [97] = [0]) && decide (r.2.net.server.pc = .exited) &&
            r.2.peers.all fun peer => peer.cli.running && decide (peer.inbox.unread.length = 2))) = some true := by
    decide +kernel
  obtain ⟨p₀, hboot, hrun⟩ := Option.bind_eq_some_iff.1 hrun
  obtain ⟨⟨tr, s⟩, hexec, hs⟩ := Option.map_eq_some_iff.1 hrun
  simp only [Bool.and_eq_true, decide_eq_true_eq, List.all_eq_true] at hs
  obtain ⟨⟨⟨hsession, hlogins⟩, hpc⟩, hpeers⟩ := hs
  have h₀ : (boot p₀).Start exactHost := ⟨⟨3, 4, by decide, by decide, by decide, hboot⟩, rfl⟩
  have hlast : Lts.Run (Step exactHost) (boot p₀) tr s := Lts.exec_run next_step .nil hexec
  obtain ⟨k, pre, peer, hpre, hpeer, hstops⟩ := exit_stops h₀ hlast hpc hsession
  have hk : pre = [] ∧ k = 0 := by
    rw [hlogins] at hpre
    cases pre with
    | nil => exact ⟨rfl, (List.cons.inj hpre).1.symm⟩
    | cons a pre => simp at hpre
  obtain ⟨-, rfl⟩ := hk
  obtain ⟨hgo, hlength⟩ := hpeers peer (List.mem_of_getElem? hpeer)
  obtain ⟨tr', s', peer', hrun', hlabels, hpeer', hend, -⟩ := hstops hgo
  exact ⟨s, s', tr', peer', hpc, hrun', by rw [hlabels, hlength]; rfl, hpeer', hend⟩

end Sys

end Ts
