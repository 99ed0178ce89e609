import TopicServer.Lib.PubSub
import TopicServer.Capacity
/-!
# Delivery — who receives a datagram

The broker of a run is made from what the run shows: the logins that were not closed again, the ends of connections, the
frames read on them.  The server's tables stand for it (`Sim`), and `delivery_correct` says of every datagram that the
connections it is sent on are those on which that broker's user receives its topic.
-/
namespace Ts

open Text (ascii)
open PubSub (Broker Last)

abbrev Observer := Broker Fd Bytes Command

def observe (b : Observer) : Event × List Act → Observer
  | (.accept (some c), acts) => if Act.close c.connfd ∈ acts then b else b.login c.connfd c.buff
  | (.recv buff ok, .recv fd _ :: _) =>
    if buff.1 = [] then b.logout fd
    else match b.session fd, (if ok then commandOf buff else none) with
      | some u, some c => b.command u c
      | _, _ => b
  | _ => b

def observed (tr : List (Event × List Act)) : Observer := tr.foldl observe Broker.empty

/-- A command matches a topic: the subscription made of it does, on fresh copies of the two strings. -/
def Command.Matches (host : Host) (c : Command) (t : Bytes) : Prop :=
  ∃ s eb tb, newSubscription host c.expression c.subscribed = some s ∧
    s.matchBufs host (c.expression ++ [0]) (t ++ [0]) = some (true, eb, tb)

/-! ## The tables stand for the broker -/

/-- **The simulation relation.** -/
structure Sim (host : Host) (srv : Server) (b : Observer) : Prop where
  session : ∀ fd, b.session fd = srv.fdsToUsers.lookup fd
  history : ∀ u, b.history u = (srv.subscriptionsOf u).map (·.command)
  made : ∀ u, ∀ s ∈ srv.subscriptionsOf u, newSubscription host s.getExpression s.isSubscribed = some s

theorem Sim.of_same {host : Host} {srv srv' : Server} {b : Observer} (h : Sim host srv b) (ht : SameTables srv srv') :
    Sim host srv' b where
  session := fun fd => by rw [ht.fdsToUsers, h.session]
  history := fun u => by rw [ht.subscriptionsOf, h.history]
  made := fun u => by rw [ht.subscriptionsOf]; exact h.made u

/-- **A move is what the broker sees of it.** -/
theorem Move.sim {host : Host} {srv srv' : Server} {ev : Event} {acts : List Act} {b : Observer}
    (hm : Move host srv ev acts srv') (h : Sim host srv b) : Sim host srv' (observe b (ev, acts)) := by
  cases hm with
  | exit _ hsame _ hacc hrecv =>
    cases ev with
    | accept c => exact absurd rfl (hacc c)
    | recv b ok => exact absurd rfl (hrecv b ok)
    | _ => exact h.of_same hsame
  | quiet _ hsame _ hacc hrecv =>
    cases ev with
    | accept c =>
      cases c with
      | none => exact h.of_same hsame
      | some c => exact absurd rfl (hacc c)
    | recv b ok => exact absurd rfl (hrecv b ok)
    | _ => exact h.of_same hsame
  | dropped acts _ hsame => simpa [observe] using h.of_same hsame
  | refused acts _ hsame => simpa [observe] using h.of_same hsame
  | @login c _ _ _ _ _ _ _ _ hsubs husers =>
    have hclose : Act.close c.connfd ∉ [Act.accept c.connfd, .recv c.connfd c.buff, Server.newClient c.buff c.cli] := by
      simp [Server.newClient]
    rw [observe, if_neg hclose]
    have hkeep := subscriptionsOf_kept hsubs rfl
    exact
      { session := fun fd => by rw [husers, Table.lookup_insert_if, Broker.session_login, h.session]
        history := fun u => by rw [hkeep, Broker.history_login, h.history]
        made := fun u => by rw [hkeep]; exact h.made u }
  | datagram _ hsame => exact h.of_same hsame
  | logout _ he _ _ _ _ _ _ _ hsubs husers =>
    have hkeep := subscriptionsOf_kept hsubs (subscriptionsOf_of_lookup he).symm
    exact
      { session := fun fd => by
          rw [husers, Table.lookup_erase_if]
          simp only [observe, if_true, Broker.session_logout, h.session]
        history := fun u => by simp only [observe, if_true, Broker.history_logout, hkeep, h.history]
        made := fun u => by rw [hkeep]; exact h.made u }
  | @ignored buff ok fd _ hne _ hnone _ hsame =>
    have hcmd : (if ok = true then commandOf buff else none) = none := by
      cases ok with
      | false => rfl
      | true => exact hnone rfl
    simp only [observe, if_neg hne, hcmd]
    cases b.session fd with
    | none => exact h.of_same hsame
    | some u => exact h.of_same hsame
  | @command buff fd u e c s _ _ hne _ hu he hc hs _ hp _ _ hsubs husers =>
    have hsess : b.session fd = some u := (h.session fd).trans hu
    simp only [observe, if_neg hne, hsess, if_true, hc]
    have hcommand := newSubscription_command hs
    exact
      { session := fun fd => by rw [husers, Broker.session_command, h.session]
        history := fun v => by
          rw [subscriptionsOf_insert hsubs, Broker.history_command]
          split
          · rw [List.map_append, List.map_singleton, hcommand, ← subscriptionsOf_of_lookup he, ← h.history]
          · exact h.history v
        made := fun v s' hs' => by
          rw [subscriptionsOf_insert hsubs] at hs'
          split at hs'
          · rcases List.mem_append.1 hs' with hold | hnew
            · exact h.made u s' (by rwa [subscriptionsOf_of_lookup he])
            · rw [List.mem_singleton.1 hnew]
              have hexp : s.getExpression = c.expression := congrArg Command.expression hcommand
              have hsub : s.isSubscribed = c.subscribed := congrArg Command.subscribed hcommand
              rw [hexp, hsub, hs]
          · exact h.made v s' hs' }

theorem run_sim {host : Host} {p₀ p : Proc} {tr : List (Event × List Act)} (h₀ : p₀.Start host)
    (hrun : Lts.Run (Proc.Step host) p₀ tr p) : p.Inv ∧ Sim host p.server (observed tr) := by
  obtain ⟨hinv, hopen, -, hsubs, husers⟩ := start_inv h₀
  have hnone : ∀ u, p₀.server.subscriptionsOf u = [] := fun u => by
    rw [Server.subscriptionsOf, hsubs]
    rfl
  have hsim : Sim host p₀.server (observed []) :=
    { session := fun fd => by rw [husers]; rfl
      history := fun u => by rw [hnone]; rfl
      made := fun u s hs => by rw [hnone] at hs; cases hs }
  refine hrun.history (P := fun tr p => p.Inv ∧ Sim host p.server (observed tr)) ⟨Or.inr ⟨hinv, hopen⟩, hsim⟩ ?_
  rintro tr p ⟨ev, acts⟩ q - ⟨hp, hs⟩ hstep
  obtain ⟨-, hmove, hq⟩ := hstep.move hp
  rw [observed, List.foldl_append]
  exact ⟨hq, hmove.sim hs⟩

/-! ## The last matching command decides -/

theorem accepts_iff_matches {host : Host} {s : Subscription} {t : Bytes} (hs : Storable s.getExpression)
    (hmade : newSubscription host s.getExpression s.isSubscribed = some s) (h0 : 0 ∉ t) (ht : t.length ≤ 50) :
    s.accepts t = true ↔ s.command.Matches host t := by
  obtain ⟨eb, tb, hrun, -, -⟩ := s.matchBufs_spec host (Mem.holds_terminated hs.1 []) (Mem.holds_terminated h0 [])
    (fits_of_length hs.2) (fits_of_length ht)
  constructor
  · intro hacc
    rw [hacc] at hrun
    exact ⟨s, eb, tb, hmade, hrun⟩
  · rintro ⟨s', eb', tb', hmade', hrun'⟩
    obtain rfl : s = s' := Option.some.inj (hmade.symm.trans hmade')
    have := hrun.symm.trans hrun'
    simpa using congrArg (fun r => r.map (·.1)) this

theorem lastAction_iff {host : Host} {subs : List Subscription} {t : Bytes} (hs : ∀ s ∈ subs, Storable s.getExpression)
    (hmade : ∀ s ∈ subs, newSubscription host s.getExpression s.isSubscribed = some s) (h0 : 0 ∉ t)
    (ht : t.length ≤ 50) : lastAction subs t = true ↔
      ∃ c, Last (fun c : Command => c.Matches host t) (subs.map (·.command)) c ∧ c.subscribed = true := by
  rw [lastAction, PubSub.find?_reverse_asks_iff]
  have hcongr := fun c => PubSub.last_congr (h := subs)
    (fun s hmem => accepts_iff_matches (hs s hmem) (hmade s hmem) h0 ht) c
  simp only [hcongr, PubSub.last_map_iff]
  constructor
  · rintro ⟨s, hlast, hsub⟩
    exact ⟨s.command, ⟨s, hlast, rfl⟩, hsub⟩
  · rintro ⟨-, ⟨s, hlast, rfl⟩, hsub⟩
    exact ⟨s, hlast, hsub⟩

/-! ## The loop over the users -/

/-- Where the loop of the server sends a datagram for the user `u`. -/
def Server.target (srv : Server) (t u : Bytes) : Option Fd :=
  (srv.userSubscriptions.lookup u).bind fun v => if v.active && lastAction v.subscriptions t then some v.fd else none

theorem Server.target_eq_some {srv : Server} {t u : Bytes} {fd : Fd} : srv.target t u = some fd ↔
    ∃ v, srv.userSubscriptions.lookup u = some v ∧ v.active = true ∧ lastAction v.subscriptions t = true ∧ v.fd = fd := by
  simp only [target, Option.bind_eq_some_iff, Option.ite_none_right_eq_some, Bool.and_eq_true, Option.some.injEq,
    and_assoc]

theorem deliver_eq (host : Host) {srv : Server} (toSend : Bytes) {tb t : Bytes} (htb : Mem.Holds tb t)
    (ht : t.length ≤ 50)
    (hstored : ∀ u v, srv.userSubscriptions.lookup u = some v → ∀ s ∈ v.subscriptions, Storable s.getExpression) :
    ∀ order : List Bytes, (∀ u ∈ order, u ∈ srv.userSubscriptions) →
      Server.deliver host srv.userSubscriptions toSend tb order =
        some (order.filterMap fun u => (srv.target t u).map (Act.sendTcp · toSend))
  | [], _ => rfl
  | u :: order, h => by
    obtain ⟨v, hv⟩ := Table.mem_iff_lookup.1 (h u List.mem_cons_self)
    have ih := deliver_eq host toSend htb ht hstored order (fun x hx => h x (List.mem_cons_of_mem _ hx))
    have hmatch := getMatch_eq host htb ht (hstored u v hv)
    simp only [Server.deliver, hv, hmatch, ih, Option.bind_eq_bind, Option.bind_some, List.filterMap_cons,
      Server.target]
    cases v.active && lastAction v.subscriptions t with
    | false => rfl
    | true => rfl

theorem count_target {srv : Server} (h : srv.Inv) {order : List Bytes} (horder : order.Nodup) (t text : Bytes) (fd : Fd) :
    (order.filterMap fun u => (srv.target t u).map (Act.sendTcp · text)).count (.sendTcp fd text) =
      if ∃ u ∈ order, srv.target t u = some fd then 1 else 0 := by
  have hinj : ∀ u u' a, a ∈ (srv.target t u).map (Act.sendTcp · text) → a ∈ (srv.target t u').map (Act.sendTcp · text) →
      u = u' := by
    intro u u' a hu hu'
    obtain ⟨x, hx, rfl⟩ := Option.map_eq_some_iff.1 hu
    obtain ⟨x', hx', heq⟩ := Option.map_eq_some_iff.1 hu'
    obtain ⟨rfl, -⟩ := Act.sendTcp.inj heq
    obtain ⟨v, hv, hact, -, hfd⟩ := Server.target_eq_some.1 hx
    obtain ⟨v', hv', hact', -, hfd'⟩ := Server.target_eq_some.1 hx'
    exact h.user_unique hv hact hv' hact' (hfd.trans hfd'.symm)
  rw [(horder.filterMap hinj).count]
  have hmem : Act.sendTcp fd text ∈ (order.filterMap fun u => (srv.target t u).map (Act.sendTcp · text)) ↔
      ∃ u ∈ order, srv.target t u = some fd := by
    simp only [List.mem_filterMap, Option.map_eq_some_iff, Act.sendTcp.injEq, and_true, exists_eq_right]
  simp only [hmem]

theorem receives_iff {host : Host} {srv : Server} {b : Observer} {order : List Bytes} {t : Bytes} (h : srv.Inv)
    (hsim : Sim host srv b) (horder : order.Perm srv.userSubscriptions.keys)
    (hstored : ∀ u, ∀ s ∈ srv.subscriptionsOf u, Storable s.getExpression) (h0 : 0 ∉ t) (ht : t.length ≤ 50) (fd : Fd) :
    b.Receives (Command.Matches host) (·.subscribed) fd t ↔ ∃ u ∈ order, srv.target t u = some fd := by
  have hlast : ∀ u v, srv.userSubscriptions.lookup u = some v → (lastAction v.subscriptions t = true ↔
      ∃ c, Last (fun c : Command => c.Matches host t) (b.history u) c ∧ c.subscribed = true) := by
    intro u v hv
    rw [hsim.history, ← subscriptionsOf_of_lookup hv]
    exact lastAction_iff (hstored u) (hsim.made u) h0 ht
  constructor
  · rintro ⟨u, hu, hc⟩
    rw [hsim.session, h.binding] at hu
    obtain ⟨v, hv, hact, hfd⟩ := hu
    refine ⟨u, horder.mem_iff.2 (AList.mem_keys.1 (Table.mem_iff_lookup.2 ⟨v, hv⟩)), ?_⟩
    exact Server.target_eq_some.2 ⟨v, hv, hact, (hlast u v hv).2 hc, hfd⟩
  · rintro ⟨u, -, hu⟩
    obtain ⟨v, hv, hact, hlast', hfd⟩ := Server.target_eq_some.1 hu
    refine ⟨u, ?_, (hlast u v hv).1 hlast'⟩
    rw [hsim.session, h.binding]
    exact ⟨v, hv, hact, hfd⟩

theorem step_recvfrom {host : Host} {srv : Server} {d : Option (Bytes × SockaddrIn)} {order : List Bytes}
    {r : Server × List Act} (h : srv.step host (.recvfrom d order) = some r) :
    order.Perm srv.userSubscriptions.keys ∧ Server.udpBranch host srv d order = some r := by
  cases hpc : srv.pc with
  | udp =>
    simp only [Server.step, hpc] at h
    split at h
    · exact ⟨‹_›, h⟩
    · cases h
  | clients i => simp [Server.step, hpc, Server.clientStep] at h
  | _ => simp [Server.step, hpc] at h

/-- **Delivery is correct over whole runs**: while the frames come from subscribers, a datagram with a text is sent to
each client connection exactly once if the last command of its user, in this or any earlier session, that matches the
topic is a subscribe, and not at all if it is not or there is none; nothing is sent to anybody else, nothing is sent for
a datagram without a text, and no datagram changes a table. -/
theorem delivery_correct {host : Host} {p₀ p q : Proc} {tr : List (Event × List Act)} {d : Bytes} {sender : SockaddrIn}
    {order : List Bytes} {acts : List Act} (h₀ : p₀.Start host) (hrun : Lts.Run (Proc.Step host) p₀ tr p)
    (hfrom : ∀ e ∈ tr, FromSubscribers e) (hstep : p.Step host (.recvfrom (some (d, sender)) order, acts) q) :
    ∃ text, manageUdp host (udpRecv d) sender (d.take 1700).length = some text ∧ (text = [] → acts = []) ∧
      (text ≠ [] →
        (∀ fd ∈ p.server.clientFds,
          ((observed tr).Receives (Command.Matches host) (·.subscribed) fd (topicOf (udpRecv d)) →
            acts.count (.sendTcp fd text) = 1) ∧
          (¬ (observed tr).Receives (Command.Matches host) (·.subscribed) fd (topicOf (udpRecv d)) →
            ∀ str, Act.sendTcp fd str ∉ acts)) ∧
        ∀ a ∈ acts, ∃ fd ∈ p.server.clientFds, a = .sendTcp fd text) ∧
      q.server = { p.server with pc := .poll } := by
  obtain ⟨hp, hsim⟩ := run_sim h₀ hrun
  obtain ⟨hinv, -, -⟩ := hstep.move hp
  have hstored : ∀ u, ∀ s ∈ p.server.subscriptionsOf u, Storable s.getExpression :=
    fun u s hs => (run_stored h₀ hrun hfrom u s hs).storable
  obtain ⟨horder, hbranch⟩ : order.Perm p.server.userSubscriptions.keys ∧
      Server.udpBranch host p.server (some (d, sender)) order = some (q.server, acts) := step_recvfrom hstep.step
  have hq := Server.udpBranch_same hbranch
  unfold Server.udpBranch at hbranch
  obtain ⟨text, htext, hbranch⟩ := Option.bind_eq_some_iff.1 hbranch
  refine ⟨text, htext, ?_, ?_, hq⟩
  · rintro rfl
    exact (Prod.mk.inj (Option.some.inj hbranch)).2.symm
  · intro hne
    have ht := length_topicOf_le (udpRecv d)
    have hread : Mem.read (udpRecv d) 0 50 = some ((udpRecv d).take 50) :=
      readAt (by rw [length_udpRecv]; decide)
    have hdeliver := deliver_eq host text (topic_holds (udpRecv d)) ht
      (fun u v hv s hs => hstored u s (by rwa [subscriptionsOf_of_lookup hv])) order
      (fun u hu => AList.mem_keys.2 (horder.mem_iff.1 hu))
    rw [if_pos hne, hread] at hbranch
    simp only [Option.bind_eq_bind, Option.bind_some, hdeliver] at hbranch
    obtain rfl := (Prod.mk.inj (Option.some.inj hbranch)).2
    have hnd : order.Nodup := horder.nodup_iff.2 p.server.userSubscriptions.keys_nodup
    have hiff := receives_iff hinv hsim horder hstored (zero_not_mem_topicOf (udpRecv d)) ht
    refine ⟨fun fd hfd => ⟨fun hrec => ?_, fun hrec str hmem => ?_⟩, fun a ha => ?_⟩
    · rw [count_target hinv hnd, if_pos ((hiff fd).1 hrec)]
    · obtain ⟨u, hu, hact⟩ := List.mem_filterMap.1 hmem
      obtain ⟨x, hx, heq⟩ := Option.map_eq_some_iff.1 hact
      obtain ⟨rfl, -⟩ := Act.sendTcp.inj heq
      exact hrec ((hiff x).2 ⟨u, hu, hx⟩)
    · obtain ⟨u, hu, hact⟩ := List.mem_filterMap.1 ha
      obtain ⟨x, hx, rfl⟩ := Option.map_eq_some_iff.1 hact
      obtain ⟨v, hv, hvact, -, rfl⟩ := Server.target_eq_some.1 hx
      exact ⟨v.fd, (hinv.keys _).2 (Table.mem_iff_lookup.2 ⟨u, (hinv.binding _ u).2 ⟨v, hv, hvact, rfl⟩⟩), rfl⟩

theorem delivery_correct_text : ∃ (p : Proc) (acts : List Act),
    acts = [.sendTcp 5 (ascii "127.0.0.1:8080 - a/b - STRING - x")] ∧ ∃ text : Bytes, text ≠ [] ∧
      ∀ a ∈ acts, ∃ fd ∈ p.server.clientFds, a = .sendTcp fd text := by
  have hrun : ((Proc.boot exactHost 3 4).bind fun p₀ => (Lts.exec (Proc.next exactHost) p₀ [.poll (some [0, 1, 0]),
      .accept (some ⟨5, ⟨(127, 0, 0, 1), (0, 9)⟩, true, true, ⟨[97], by decide⟩⟩), .poll (some [0, 0, 0, 1]),
      .recv ⟨ascii "subscribe a/*", by decide⟩ true, .next, .poll (some [0, 0, 1, 0])]).bind fun r =>
        (r.2.next exactHost (.recvfrom (some (ascii "a/b" ++ List.replicate 47 0 ++ [3, 120],
          ⟨(127, 0, 0, 1), (31, 144)⟩)) [[97]])).map fun s => (r.1.map (·.1.frame), s.1.2)) =
        some ([none, none, none, some ⟨ascii "subscribe a/*", by decide⟩, none, none],
          [.sendTcp 5 (ascii "127.0.0.1:8080 - a/b - STRING - x")]) := by
    decide +kernel
  obtain ⟨p₀, hboot, hrun⟩ := Option.bind_eq_some_iff.1 hrun
  obtain ⟨⟨tr, p⟩, hexec, hrun⟩ := Option.bind_eq_some_iff.1 hrun
  obtain ⟨⟨⟨ev, acts⟩, q⟩, hnext, hp⟩ := Option.map_eq_some_iff.1 hrun
  obtain ⟨hframes, hacts⟩ := Prod.mk.inj hp
  have hlabel : ev = _ := Proc.next_label hnext
  have hstep := Proc.next_step p _ _ _ hnext
  rw [hlabel] at hstep
  obtain ⟨text, htext, hempty, hsome, -⟩ := delivery_correct ⟨3, 4, by decide, by decide, by decide, hboot⟩
    (Lts.exec_run Proc.next_step .nil hexec) (fun e he buff hframe => by
      have hmem : e.1.frame ∈ tr.map (·.1.frame) := List.mem_map_of_mem he
      rw [hframes, hframe] at hmem
      obtain rfl : buff = ⟨ascii "subscribe a/*", by decide⟩ := by simpa using hmem
      exact Or.inr ⟨_, sends_example, List.prefix_refl _⟩) hstep
  have hne : text ≠ [] := by
    rintro rfl
    exact absurd (hacts.symm.trans (hempty rfl)) (by simp)
  exact ⟨p, acts, hacts, text, hne, (hsome hne).2⟩

end Ts
