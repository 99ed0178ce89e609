import TopicServer.Delivery
import TopicServer.Descriptors
/-!
# Stream — what a subscriber is sent, in order

A subscriber sees what arrives on its connection and nothing else.  The broker of a run is made to keep for every
connection what it ought to have been sent since its login (`posted`): the text of each datagram its user receives, in
the order of the datagrams, and `shutdown` when the server ends.  `stream_exact` says that this is what was sent on it,
in runs in which no send fails.
-/
namespace Ts

open Text (ascii)
open PubSub (Broker Post)

def sendsTo (fd : Fd) (acts : List Act) : List Bytes := acts.filterMap fun
  | .sendTcp x str => if x = fd then some str else none
  | _ => none

/-- What has been sent on a descriptor since it was last given, an act later. -/
def sentAct (fd : Fd) (sent : List Bytes) : Act → List Bytes
  | .accept x => if x = fd then [] else sent
  | .sendTcp x str => if x = fd then sent ++ [str] else sent
  | _ => sent

/-- The texts sent on a descriptor since `accept` last gave it. -/
def sentOn (fd : Fd) (acts : List Act) : List Bytes := acts.foldl (sentAct fd) []

/-- The text the server makes of a datagram; none when it drops it. -/
def textOf (host : Host) (d : Bytes) (sender : SockaddrIn) : Option Bytes :=
  (manageUdp host (udpRecv d) sender (d.take 1700).length).filter (· ≠ [])

/-- What one step of a run shows of the broker and of what it sends. -/
noncomputable def post (host : Host) (m : Post Fd Bytes Command Bytes) (e : Event × List Act) :
    Post Fd Bytes Command Bytes :=
  match e.1 with
  | .accept (some c) => if Act.close c.connfd ∈ e.2 then m else m.login c.connfd c.buff
  | .recvfrom (some (d, sender)) _ =>
    match textOf host d sender with
    | some text => m.publish (Command.Matches host) (·.subscribed) (topicOf (udpRecv d)) text
    | none => m
  | .poll none => m.broadcast (ascii "shutdown")
  | .fgets _ => if e.2 = [] then m else m.broadcast (ascii "shutdown")
  | .recv _ _ => { m with broker := observe m.broker e }
  | _ => m

noncomputable def posted (host : Host) (tr : List (Event × List Act)) : Post Fd Bytes Command Bytes :=
  tr.foldl (post host) .empty

theorem broker_post (host : Host) (m : Post Fd Bytes Command Bytes) (e : Event × List Act) :
    (post host m e).broker = observe m.broker e := by
  obtain ⟨ev, acts⟩ := e
  cases ev with
  | accept c =>
    cases c with
    | none => rfl
    | some c =>
      by_cases h : Act.close c.connfd ∈ acts
      · exact (congrArg Post.broker (if_pos h)).trans (if_pos h).symm
      · exact (congrArg Post.broker (if_neg h)).trans (if_neg h).symm
  | recvfrom d order =>
    rcases d with _ | ⟨d, sender⟩
    · rfl
    · unfold post
      dsimp only
      split <;> rfl
  | poll revents => cases revents <;> rfl
  | fgets input =>
    unfold post
    dsimp only
    split <;> rfl
  | _ => rfl

theorem broker_posted (host : Host) (tr : List (Event × List Act)) : (posted host tr).broker = observed tr := by
  induction tr using List.reverseRecOn with
  | nil => rfl
  | append_singleton tr e ih =>
    rw [posted, observed, List.foldl_append, List.foldl_append]
    exact (broker_post host _ e).trans (congrArg (observe · e) ih)

/-! ## What acts send -/

theorem sentOn_append {fd : Fd} (acts : List Act) {acts' : List Act} (h : Act.accept fd ∉ acts') :
    sentOn fd (acts ++ acts') = sentOn fd acts ++ sendsTo fd acts' := by
  rw [sentOn, List.foldl_append]
  change acts'.foldl (sentAct fd) (sentOn fd acts) = _
  generalize sentOn fd acts = sent
  induction acts' generalizing sent with
  | nil => exact (List.append_nil sent).symm
  | cons a acts' ih =>
    rw [List.mem_cons, not_or] at h
    rw [List.foldl_cons, ih h.2]
    cases a with
    | accept x =>
      have hx : x ≠ fd := fun hx => h.1 (hx ▸ rfl)
      simp [sentAct, sendsTo, hx]
    | sendTcp x str =>
      by_cases hx : x = fd
      · simp [sentAct, sendsTo, hx]
      · simp [sentAct, sendsTo, hx]
    | recv x buff => rfl
    | close x => rfl
    | cout line => rfl

theorem sendsTo_replicate {fd : Fd} {text : Bytes} {acts : List Act} (h : ∀ str, Act.sendTcp fd str ∈ acts → str = text) :
    sendsTo fd acts = List.replicate (acts.count (.sendTcp fd text)) text := by
  induction acts with
  | nil => rfl
  | cons a acts ih =>
    have ih := ih fun str hstr => h str (List.mem_cons_of_mem a hstr)
    by_cases ha : a = .sendTcp fd text
    · subst ha
      rw [List.count_cons_self, List.replicate_succ, ← ih]
      simp [sendsTo]
    · rw [List.count_cons_of_ne ha, ← ih]
      cases a with
      | sendTcp x str =>
        have hx : x ≠ fd := by
          rintro rfl
          exact ha (by rw [h str List.mem_cons_self])
        simp [sendsTo, hx]
      | _ => rfl

theorem sendsTo_none {fd : Fd} {acts : List Act} (h : ∀ str, Act.sendTcp fd str ∉ acts) : sendsTo fd acts = [] := by
  have hnone : ∀ str, Act.sendTcp fd str ∈ acts → str = [] := fun str hstr => absurd hstr (h str)
  rw [sendsTo_replicate hnone, List.count_eq_zero_of_not_mem (h [])]
  rfl

theorem sendsTo_farewell {srv : Server} (hi : srv.Inv) {fd : Fd} (hfd : fd ∈ srv.clientFds) :
    sendsTo fd srv.farewell = [ascii "shutdown"] := by
  have honly : ∀ str, Act.sendTcp fd str ∈ srv.farewell → str = ascii "shutdown" := by
    intro str hstr
    have hcount := List.count_pos_iff.2 hstr
    rw [farewell_count hi] at hcount
    by_contra hne
    simp [hne] at hcount
  rw [sendsTo_replicate honly, farewell_count hi, if_pos ⟨hfd, rfl⟩]
  rfl

/-! ## One step -/

theorem step_poll_exits {host : Host} {srv srv' : Server} {revents : Option (List UInt16)} {acts : List Act}
    (h : srv.step host (.poll revents) = some (srv', acts)) : srv'.pc = .exited ↔ revents = none := by
  cases hpc : srv.pc with
  | poll =>
    simp only [Server.step, hpc] at h
    cases revents with
    | none =>
      obtain ⟨⟨p, acts'⟩, -, h⟩ := Option.bind_eq_some_iff.1 h
      obtain ⟨rfl, -⟩ := Prod.mk.inj (Option.some.inj h)
      simp
    | some revents =>
      by_cases hr : revents.length = srv.pollStruct.nfds
      · cases hd : dispatch (srv.pollStruct.setRevents revents) with
        | none => simp [Server.pollStep, hr, hd] at h
        | some pc =>
          obtain ⟨rfl, -⟩ : _ ∧ [] = acts := by simpa [Server.pollStep, hr, hd] using h
          have hok := Server.dispatch_ok hd
          refine iff_of_false (fun hexit => ?_) (by simp)
          have hpc' : pc = .exited := hexit
          rw [hpc'] at hok
          exact hok
      · simp [Server.pollStep, hr] at h
  | clients i => simp [Server.step, hpc, Server.clientStep] at h
  | _ => simp [Server.step, hpc] at h

theorem step_next_goes {host : Host} {srv srv' : Server} {acts : List Act} (h : srv.step host .next = some (srv', acts)) :
    acts = [] ∧ srv'.pc ≠ .exited := by
  cases hpc : srv.pc with
  | clients i =>
    by_cases hend : srv.pollStruct.nfds ≤ i
    · obtain ⟨rfl, rfl⟩ : _ ∧ [] = acts := by simpa [Server.step, hpc, Server.clientStep, hend] using h
      exact ⟨rfl, by simp⟩
    · simp only [Server.step, hpc, Server.clientStep, if_neg hend, Option.bind_eq_bind] at h
      obtain ⟨-, -, h⟩ := Option.bind_eq_some_iff.1 h
      obtain ⟨x, -, h⟩ := Option.bind_eq_some_iff.1 h
      split at h
      · cases h
      · obtain ⟨rfl, rfl⟩ := Prod.mk.inj (Option.some.inj h)
        exact ⟨rfl, by simp⟩
  | _ => simp [Server.step, hpc] at h

theorem farewell_ne_nil {srv : Server} (hi : srv.Inv) : srv.farewell ≠ [] := by
  intro hnil
  have hlen := congrArg List.length hnil
  have h3 := hi.three
  simp only [Server.farewell, List.length_append, List.length_map, List.length_drop, List.length_nil] at hlen
  omega

theorem Move.exits {host : Host} {srv srv' : Server} {ev : Event} {acts : List Act} (hm : Move host srv ev acts srv')
    (hpc : srv'.pc = .exited) : acts = srv.farewell ∧ SameTables srv srv' ∧ (∀ c, ev ≠ .accept c) ∧
      (∀ b ok, ev ≠ .recv b ok) ∧ srv'.fds = [] := by
  have hno : srv'.Inv → False := fun hi => absurd hi.loop (by simp [hpc, Pc.Ok])
  cases hm with
  | exit _ hsame hfds hacc hrecv => exact ⟨rfl, hsame, hacc, hrecv, hfds⟩
  | quiet hi => exact (hno hi).elim
  | dropped _ hi => exact (hno hi).elim
  | refused _ hi => exact (hno hi).elim
  | login _ _ _ _ hpoll => exact absurd (hpoll.symm.trans hpc) (by simp)
  | datagram hi => exact (hno hi).elim
  | logout _ _ _ _ _ _ hclients => exact absurd (hclients.symm.trans hpc) (by simp)
  | ignored _ _ _ hi => exact (hno hi).elim
  | command _ _ _ _ _ _ _ _ hclients => exact absurd (hclients.symm.trans hpc) (by simp)

theorem post_exit {host : Host} {srv srv' : Server} {ev : Event} {acts : List Act} (m : Post Fd Bytes Command Bytes)
    (hi : srv.Inv) (hstep : srv.step host ev = some (srv', acts)) (hpc : srv'.pc = .exited) :
    post host m (ev, acts) = m.broadcast (ascii "shutdown") := by
  have hm := step_move hi hstep
  obtain ⟨hacts, -, hacc, hrecv, -⟩ := hm.exits hpc
  cases ev with
  | poll revents =>
    obtain rfl := (step_poll_exits hstep).1 hpc
    rfl
  | fgets input =>
    exact if_neg (hacts ▸ farewell_ne_nil hi)
  | accept c => exact absurd rfl (hacc c)
  | recvfrom d order =>
    obtain ⟨-, hbranch⟩ := step_recvfrom hstep
    rw [Server.udpBranch_same hbranch] at hpc
    cases hpc
  | recv buff ok => exact absurd rfl (hrecv buff ok)
  | next => exact absurd hpc (step_next_goes hstep).2

theorem post_goes {host : Host} {srv srv' : Server} {ev : Event} {acts : List Act} {m : Post Fd Bytes Command Bytes}
    (hi : srv.Inv) (hstep : srv.step host ev = some (srv', acts)) (hpc : srv'.pc ≠ .exited) {fd : Fd} {str : Bytes}
    (h : str ∈ (post host m (ev, acts)).sent fd) : str ∈ m.sent fd ∨ ∃ d sender, textOf host d sender = some str := by
  have hm := step_move hi hstep
  cases ev with
  | poll revents =>
    cases revents with
    | none => exact absurd ((step_poll_exits hstep).2 rfl) hpc
    | some revents => exact Or.inl h
  | fgets input =>
    cases hm with
    | exit hexit => exact absurd hexit hpc
    | quiet => exact Or.inl h
  | accept c =>
    cases c with
    | none => exact Or.inl h
    | some c =>
      by_cases hclose : Act.close c.connfd ∈ acts
      · have hpost : post host m (.accept (some c), acts) = m := if_pos hclose
        exact Or.inl (hpost ▸ h)
      · have hpost : post host m (.accept (some c), acts) = m.login c.connfd c.buff := if_neg hclose
        rw [hpost, Post.sent_login] at h
        split at h
        · cases h
        · exact Or.inl h
  | recvfrom d order =>
    cases d with
    | none => exact Or.inl h
    | some d =>
      obtain ⟨d, sender⟩ := d
      cases htext : textOf host d sender with
      | none =>
        have hpost : post host m (.recvfrom (some (d, sender)) order, acts) = m := by simp only [post, htext]
        exact Or.inl (hpost ▸ h)
      | some text =>
        have hpost : post host m (.recvfrom (some (d, sender)) order, acts) =
            m.publish (Command.Matches host) (·.subscribed) (topicOf (udpRecv d)) text := by simp only [post, htext]
        rw [hpost] at h
        by_cases hrec : m.broker.Receives (Command.Matches host) (·.subscribed) fd (topicOf (udpRecv d))
        · rw [Post.sent_publish_of hrec, List.mem_append, List.mem_singleton] at h
          exact h.imp id fun hstr => ⟨d, sender, by rw [hstr, htext]⟩
        · rw [Post.sent_publish_of_not hrec] at h
          exact Or.inl h
  | recv buff ok => exact Or.inl h
  | next => exact Or.inl h

/-- **A datagram is sent on the connections of those who receive it**, once, and on no other. -/
theorem step_datagram {host : Host} {srv srv' : Server} {b : Observer} {d : Bytes} {sender : SockaddrIn}
    {order : List Bytes} {acts : List Act} (hi : srv.Inv) (hsim : Sim host srv b)
    (hstored : ∀ u, ∀ s ∈ srv.subscriptionsOf u, Storable s.getExpression)
    (h : srv.step host (.recvfrom (some (d, sender)) order) = some (srv', acts)) (fd : Fd) :
    (textOf host d sender = none → sendsTo fd acts = []) ∧ ∀ text, textOf host d sender = some text →
      (b.Receives (Command.Matches host) (·.subscribed) fd (topicOf (udpRecv d)) → sendsTo fd acts = [text]) ∧
      (¬ b.Receives (Command.Matches host) (·.subscribed) fd (topicOf (udpRecv d)) → sendsTo fd acts = []) := by
  obtain ⟨horder, hbranch⟩ : order.Perm srv.userSubscriptions.keys ∧
      Server.udpBranch host srv (some (d, sender)) order = some (srv', acts) := step_recvfrom h
  unfold Server.udpBranch at hbranch
  obtain ⟨text, htext, hbranch⟩ := Option.bind_eq_some_iff.1 hbranch
  have hmade : textOf host d sender = (some text).filter (· ≠ []) := congrArg _ htext
  by_cases hne : text = []
  · subst hne
    obtain rfl := (Prod.mk.inj (Option.some.inj hbranch)).2
    refine ⟨fun _ => rfl, fun text htext => ?_⟩
    rw [hmade] at htext
    cases htext
  · have ht := length_topicOf_le (udpRecv d)
    have hread : Mem.read (udpRecv d) 0 50 = some ((udpRecv d).take 50) :=
      readAt (by rw [length_udpRecv]; decide)
    have hdeliver := deliver_eq host text (topic_holds (udpRecv d)) ht
      (fun u v hv s hs => hstored u s (by rwa [subscriptionsOf_of_lookup hv])) order
      (fun u hu => AList.mem_keys.2 (horder.mem_iff.1 hu))
    rw [if_pos hne, hread] at hbranch
    simp only [Option.bind_eq_bind, Option.bind_some, hdeliver] at hbranch
    obtain rfl := (Prod.mk.inj (Option.some.inj hbranch)).2
    have hnd : order.Nodup := horder.nodup_iff.2 srv.userSubscriptions.keys_nodup
    have hiff := receives_iff hi hsim horder hstored (zero_not_mem_topicOf (udpRecv d)) ht fd
    have honly : ∀ str, Act.sendTcp fd str ∈ order.filterMap (fun u =>
        (srv.target (topicOf (udpRecv d)) u).map (Act.sendTcp · text)) → str = text := by
      intro str hstr
      obtain ⟨u, -, hact⟩ := List.mem_filterMap.1 hstr
      obtain ⟨x, -, heq⟩ := Option.map_eq_some_iff.1 hact
      exact (Act.sendTcp.inj heq).2.symm
    have hsome : textOf host d sender = some text := by rw [hmade]; simp [hne]
    refine ⟨fun hnone => absurd (hnone.symm.trans hsome) (by simp), fun text' htext' => ?_⟩
    obtain rfl : text = text' := Option.some.inj (hsome.symm.trans htext')
    rw [sendsTo_replicate honly, count_target hi hnd, hiff]
    constructor
    · exact fun hrec => by rw [if_pos hrec]; rfl
    · exact fun hrec => by rw [if_neg hrec]; rfl

theorem session_of_recv {b : Observer} {buff : CText} {ok : Bool} {acts : List Act} {fd : Fd} {u : Bytes}
    (h : (observe b (.recv buff ok, acts)).session fd = some u) : b.session fd = some u := by
  unfold observe at h
  split at h
  · rename_i heq
    cases heq
  · split at h
    · rw [PubSub.Broker.session_logout] at h
      split at h
      · cases h
      · exact h
    · split at h
      · exact h
      · exact h
  · exact h

/-- **A step sends what the broker posts**: what has been sent on the connections of the users stays what they should have
been sent. -/
theorem Move.stream {host : Host} {srv srv' : Server} {ev : Event} {acts past : List Act}
    {m : Post Fd Bytes Command Bytes} (hi : srv.Inv) (hsim : Sim host srv m.broker)
    (hstored : ∀ u, ∀ s ∈ srv.subscriptionsOf u, Storable s.getExpression)
    (hfresh : ∀ fd, Act.accept fd ∈ acts → fd ∉ srv.fds) (hstep : srv.step host ev = some (srv', acts))
    (h : ∀ fd u, m.broker.session fd = some u → sentOn fd past = m.sent fd) (fd : Fd) (u : Bytes)
    (hu : (post host m (ev, acts)).broker.session fd = some u) :
      sentOn fd (past ++ acts) = (post host m (ev, acts)).sent fd := by
  have hm := step_move hi hstep
  have hclient : ∀ {fd u}, m.broker.session fd = some u → fd ∈ srv.clientFds := fun hs =>
    (hi.keys _).2 (Table.mem_iff_lookup.2 ⟨_, (hsim.session _).symm.trans hs⟩)
  -- a client's descriptor is not given again
  have hsame : ∀ {fd u}, m.broker.session fd = some u → sentOn fd (past ++ acts) = m.sent fd ++ sendsTo fd acts :=
    fun hs => by
    rw [sentOn_append past fun hacc => hfresh _ hacc (mem_fds_of_client (hclient hs)), h _ _ hs]
  have hquiet : ∀ {fd u}, m.broker.session fd = some u → sendsTo fd acts = [] → sentOn fd (past ++ acts) = m.sent fd :=
    fun hs hno => by rw [hsame hs, hno, List.append_nil]
  have hexit : srv'.pc = .exited → sentOn fd (past ++ acts) = (post host m (ev, acts)).sent fd := fun hpc => by
    have hs : m.broker.session fd = some u := by rwa [post_exit m hi hstep hpc] at hu
    rw [post_exit m hi hstep hpc, hsame hs, exit_farewell hm hpc, sendsTo_farewell hi (hclient hs)]
    exact (Post.sent_broadcast_of hs _).symm
  cases ev with
  | poll revents =>
    cases hm with
    | exit hpc => exact hexit hpc
    | quiet hinv =>
      cases revents with
      | none => exact absurd hinv.loop (by simp [(step_poll_exits hstep).2 rfl, Pc.Ok])
      | some revents => exact hquiet hu rfl
  | fgets input =>
    cases hm with
    | exit hpc => exact hexit hpc
    | quiet => exact hquiet hu rfl
  | accept c =>
    cases c with
    | none =>
      cases hm with
      | exit _ _ _ hacc => exact absurd rfl (hacc none)
      | quiet => exact hquiet hu rfl
    | some c =>
      -- a connection that is closed again has no session
      have hvisit : ∀ acts', acts = .accept c.connfd :: acts' ++ [.close c.connfd] →
          (∀ a ∈ acts', ∀ x str, a = .sendTcp x str → x = c.connfd) →
          sentOn fd (past ++ acts) = (post host m (.accept (some c), acts)).sent fd := by
        intro acts' hacts hsends
        have hclose : Act.close c.connfd ∈ acts := by simp [hacts]
        have hpost : post host m (.accept (some c), acts) = m := if_pos hclose
        rw [hpost] at hu ⊢
        have hne : fd ≠ c.connfd := by
          rintro rfl
          exact hfresh c.connfd (by simp [hacts]) (mem_fds_of_client (hclient hu))
        apply hquiet hu
        apply sendsTo_none
        intro str hstr
        rw [hacts, List.mem_append, List.mem_cons] at hstr
        rcases hstr with (hacc | hmid) | hlast
        · cases hacc
        · exact hne (hsends _ hmid fd str rfl)
        · exact absurd (List.mem_singleton.1 hlast) (by simp)
      cases hm with
      | exit _ _ _ hacc => exact absurd rfl (hacc _)
      | quiet _ _ _ hacc => exact absurd rfl (hacc c)
      | dropped acts' _ _ _ _ hacts =>
        refine hvisit acts' rfl fun a ha x str hx => ?_
        rcases hacts with rfl | rfl
        · cases ha
        · rw [List.mem_singleton.1 ha] at hx
          exact (Act.sendTcp.inj hx).1.symm
      | refused acts' _ _ _ _ hacts =>
        refine hvisit (.recv c.connfd c.buff :: acts' ++ [.sendTcp c.connfd (ascii "shutdown")]) (by simp) ?_
        intro a ha x str hx
        simp only [List.cons_append, List.mem_cons, List.mem_append, List.not_mem_nil, or_false] at ha
        rcases ha with rfl | ha | rfl
        · cases hx
        · rcases hacts with ⟨rfl, -⟩ | ⟨rfl, -⟩
          · cases ha
          · rw [List.mem_singleton.1 ha] at hx
            cases hx
        · exact (Act.sendTcp.inj hx).1.symm
      | login =>
        have hclose : Act.close c.connfd ∉ [Act.accept c.connfd, .recv c.connfd c.buff,
          Server.newClient c.buff c.cli] := by
          simp [Server.newClient]
        have hpost : post host m (.accept (some c), _) = m.login c.connfd c.buff := if_neg hclose
        rw [hpost] at hu ⊢
        rw [Post.sent_login]
        by_cases hfd : fd = c.connfd
        · rw [if_pos hfd, sentOn, List.foldl_append]
          simp [sentAct, hfd, Server.newClient]
        · rw [if_neg hfd]
          rw [Post.broker_login, Broker.session_login, if_neg hfd] at hu
          exact hquiet hu (by simp [sendsTo, Server.newClient])
  | recvfrom d order =>
    have hs : m.broker.session fd = some u := by rwa [broker_post] at hu
    cases d with
    | none =>
      obtain ⟨-, hbranch⟩ := step_recvfrom hstep
      obtain ⟨-, rfl⟩ : _ ∧ [] = acts := by simpa [Server.udpBranch, manageUdp] using hbranch
      exact hquiet hs rfl
    | some d =>
      obtain ⟨d, sender⟩ := d
      obtain ⟨hdropped, hmade⟩ := step_datagram hi hsim hstored hstep fd
      cases htext : textOf host d sender with
      | none =>
        have hpost : post host m (.recvfrom (some (d, sender)) order, acts) = m := by simp only [post, htext]
        rw [hpost]
        exact hquiet hs (hdropped htext)
      | some text =>
        have hpost : post host m (.recvfrom (some (d, sender)) order, acts) =
            m.publish (Command.Matches host) (·.subscribed) (topicOf (udpRecv d)) text := by simp only [post, htext]
        rw [hpost, hsame hs]
        by_cases hrec : m.broker.Receives (Command.Matches host) (·.subscribed) fd (topicOf (udpRecv d))
        · rw [(hmade text htext).1 hrec]
          exact (Post.sent_publish_of hrec text).symm
        · rw [(hmade text htext).2 hrec, List.append_nil]
          exact (Post.sent_publish_of_not hrec text).symm
  | recv buff ok =>
    have hs := session_of_recv (by rwa [broker_post] at hu)
    apply hquiet hs
    cases hm with
    | exit _ _ _ _ hrecv => exact absurd rfl (hrecv _ _)
    | quiet _ _ _ _ hrecv => exact absurd rfl (hrecv _ _)
    | logout => rfl
    | ignored => rfl
    | command => rfl
  | next =>
    obtain ⟨rfl, -⟩ := step_next_goes hstep
    exact hquiet hu rfl

/-! ## Runs -/

theorem colon_mem {host : Host} {buf text : Bytes} {sender : SockaddrIn} {size : Int}
    (h : manageUdp host buf sender size = some text) : text = [] ∨ 58 ∈ text := by
  unfold manageUdp at h
  split at h
  · exact Or.inl (Option.some.inj h).symm
  obtain ⟨topic, -, h⟩ := Option.bind_eq_some_iff.1 h
  obtain ⟨topic, -, h⟩ := Option.bind_eq_some_iff.1 h
  obtain ⟨datatype, -, h⟩ := Option.bind_eq_some_iff.1 h
  obtain ⟨signByte, -, h⟩ := Option.bind_eq_some_iff.1 h
  dsimp only at h
  generalize hresult : inetNtop sender ++ ascii ":" ++ Text.dec sender.port ++ ascii " - " ++ topic ++ ascii " - " =
    result at h
  have hcolon : 58 ∈ result := by
    rw [← hresult]
    simp [ascii]
  have hend : ∀ rest, some (result ++ rest) = some text → text = [] ∨ 58 ∈ text := fun rest h =>
    Or.inr (Option.some.inj h ▸ List.mem_append_left _ hcolon)
  have hdrop : some [] = some text → text = [] ∨ 58 ∈ text := fun h => Or.inl (Option.some.inj h).symm
  simp only [List.append_assoc] at h
  split at h
  · obtain ⟨e, -, h⟩ := Option.bind_eq_some_iff.1 h
    split at h
    · exact hend _ h
    · split at h
      · split at h
        · exact hend _ h
        · exact hend _ h
      · exact hdrop h
  · split at h
    · obtain ⟨e, -, h⟩ := Option.bind_eq_some_iff.1 h
      exact hend _ h
    · split at h
      · obtain ⟨number, -, h⟩ := Option.bind_eq_some_iff.1 h
        obtain ⟨power, -, h⟩ := Option.bind_eq_some_iff.1 h
        split at h
        · exact hend _ h
        · split at h
          · exact hend _ h
          · exact hdrop h
      · split at h
        · obtain ⟨content, -, h⟩ := Option.bind_eq_some_iff.1 h
          exact hend _ h
        · exact hdrop h

theorem textOf_ne_shutdown {host : Host} {d : Bytes} {sender : SockaddrIn} {text : Bytes}
    (h : textOf host d sender = some text) : text ≠ ascii "shutdown" := by
  obtain ⟨htext, hne⟩ := Option.filter_eq_some_iff.1 h
  rintro rfl
  rcases colon_mem htext with hnil | hcolon
  · exact absurd hnil (by decide)
  · exact absurd hcolon (by decide)

theorem run_stream {host : Host} {p₀ p : Proc} {tr : List (Event × List Act)} (h₀ : p₀.Start host)
    (hrun : Lts.Run (Proc.Step host) p₀ tr p) (hfrom : ∀ e ∈ tr, FromSubscribers e) : ∀ fd u,
    (observed tr).session fd = some u → sentOn fd (actsOf tr) = (posted host tr).sent fd := by
  refine hrun.history (P := fun tr _ => (∀ e ∈ tr, FromSubscribers e) → ∀ fd u, (observed tr).session fd = some u →
    sentOn fd (actsOf tr) = (posted host tr).sent fd) (fun _ _ _ _ => rfl) ?_ hfrom
  rintro tr p ⟨ev, acts⟩ q hrun ih hstep hfrom fd u hu
  have hpast : ∀ e ∈ tr, FromSubscribers e := fun e he => hfrom e (List.mem_append_left _ he)
  obtain ⟨hp, hsim⟩ := run_sim h₀ hrun
  obtain ⟨hi, -, -⟩ := hstep.move hp
  have hopen := (hp.resolve_left fun hexit => absurd hi.loop (by simp [hexit, Pc.Ok])).2
  rw [← broker_posted host] at hsim
  have hacts : actsOf (tr ++ [(ev, acts)]) = actsOf tr ++ acts := by simp [actsOf]
  have hposted : posted host (tr ++ [(ev, acts)]) = post host (posted host tr) (ev, acts) := by simp [posted]
  rw [← broker_posted host, hposted] at hu
  rw [hacts, hposted]
  refine Move.stream hi hsim (fun u s hs => (run_stored h₀ hrun hpast u s hs).storable)
    (fun fd hacc hfd => hstep.fresh fd hacc (hopen fd hfd)) hstep.step (fun fd u hu => ?_) fd u hu
  rw [broker_posted] at hu
  exact ih hpast fd u hu

/-- **While the server runs nobody is posted the word that ends a subscriber**; when it has ended that word is the last of
everybody's. -/
theorem run_posted {host : Host} {p₀ p : Proc} {tr : List (Event × List Act)} (h₀ : p₀.Start host)
    (hrun : Lts.Run (Proc.Step host) p₀ tr p) :
    (p.server.pc ≠ .exited → ∀ fd, ascii "shutdown" ∉ (posted host tr).sent fd) ∧
      (p.server.pc = .exited → ∀ fd u, (observed tr).session fd = some u →
        ∃ texts, (posted host tr).sent fd = texts ++ [ascii "shutdown"] ∧ ascii "shutdown" ∉ texts) := by
  refine hrun.history (P := fun tr p => (p.server.pc ≠ .exited → ∀ fd, ascii "shutdown" ∉ (posted host tr).sent fd) ∧
      (p.server.pc = .exited → ∀ fd u, (observed tr).session fd = some u →
        ∃ texts, (posted host tr).sent fd = texts ++ [ascii "shutdown"] ∧ ascii "shutdown" ∉ texts)) ?_ ?_
  · exact ⟨fun _ fd => List.not_mem_nil, fun hpc => absurd hpc (by simp [(start_inv h₀).2.2.1])⟩
  · rintro tr p ⟨ev, acts⟩ q hrun ⟨ih, -⟩ hstep
    obtain ⟨hi, -, -⟩ := hstep.move (run_inv h₀ hrun)
    have hgoes := ih fun hexit => absurd hi.loop (by simp [hexit, Pc.Ok])
    have hposted : posted host (tr ++ [(ev, acts)]) = post host (posted host tr) (ev, acts) := by simp [posted]
    rw [← broker_posted host, hposted]
    constructor
    · intro hpc fd hmem
      rcases post_goes hi hstep.step hpc hmem with hold | ⟨d, sender, htext⟩
      · exact hgoes fd hold
      · exact textOf_ne_shutdown htext rfl
    · intro hpc fd u hu
      rw [post_exit _ hi hstep.step hpc] at hu ⊢
      have hs : (posted host tr).broker.session fd = some u := hu
      exact ⟨_, Post.sent_broadcast_of hs _, hgoes fd⟩

/-- **Each subscriber is sent exactly its stream**: while the frames come from subscribers and no send fails, what has
been sent on a user's connection since the login is the text of each later datagram whose topic the user receives at
that moment, in the order of the datagrams, and `shutdown` at the end if and only if the server has ended: nothing is
lost, doubled or out of place, and nothing reaches it that was meant for an earlier owner of the descriptor.  Who
receives what is decided by the broker of the run. -/
theorem stream_exact {host : Host} {p₀ p : Proc} {tr : List (Event × List Act)} (h₀ : p₀.Start host)
    (hrun : Lts.Run (Proc.Step host) p₀ tr p) (hfrom : ∀ e ∈ tr, FromSubscribers e) :
    (posted host tr).broker = observed tr ∧ ∀ fd u, (observed tr).session fd = some u →
      sentOn fd (actsOf tr) = (posted host tr).sent fd ∧
      (ascii "shutdown" ∈ sentOn fd (actsOf tr) ↔ p.server.pc = .exited) := by
  refine ⟨broker_posted host tr, fun fd u hu => ?_⟩
  obtain ⟨hgoes, hexit⟩ := run_posted h₀ hrun
  rw [run_stream h₀ hrun hfrom fd u hu]
  refine ⟨rfl, fun hmem => ?_, fun hpc => ?_⟩
  · by_contra hpc
    exact hgoes hpc fd hmem
  · obtain ⟨texts, htexts, -⟩ := hexit hpc fd u hu
    rw [htexts]
    exact List.mem_append_right _ List.mem_cons_self

theorem stream_exact_exit : ∃ tr : List (Event × List Act), (posted exactHost tr).sent 5 =
    [ascii "127.0.0.1:8080 - a/b - STRING - x", ascii "shutdown"] := by
  have hrun : ((Proc.boot exactHost 3 4).bind fun p₀ => (Lts.exec (Proc.next exactHost) p₀ [.poll (some [0, 1, 0]),
      .accept (some ⟨5, ⟨(127, 0, 0, 1), (0, 9)⟩, true, true, ⟨[97], by decide⟩⟩), .poll (some [0, 0, 0, 1]),
      .recv ⟨ascii "subscribe a/*", by decide⟩ true, .next, .poll (some [0, 0, 1, 0]),
      .recvfrom (some (ascii "a/b" ++ List.replicate 47 0 ++ [3, 120], ⟨(127, 0, 0, 1), (31, 144)⟩)) [[97]],
      .poll none]).map fun r => (decide ((observed r.1).session 5 = some [97]) &&
        decide (sentOn 5 (actsOf r.1) = [ascii "127.0.0.1:8080 - a/b - STRING - x", ascii "shutdown"]) &&
        decide (r.1.filterMap (·.1.frame) = [⟨ascii "subscribe a/*", by decide⟩]))) = some true := by
    decide +kernel
  obtain ⟨p₀, hboot, hrun⟩ := Option.bind_eq_some_iff.1 hrun
  obtain ⟨⟨tr, p⟩, hexec, hp⟩ := Option.map_eq_some_iff.1 hrun
  simp only [Bool.and_eq_true, decide_eq_true_eq] at hp
  obtain ⟨⟨hsession, hsent⟩, hframes⟩ := hp
  refine ⟨tr, ((stream_exact ⟨3, 4, by decide, by decide, by decide, hboot⟩ (Lts.exec_run Proc.next_step .nil hexec)
    (fun e he buff hframe => ?_)).2 5 [97] hsession).1.symm.trans hsent⟩
  have hmem : buff ∈ tr.filterMap (·.1.frame) := List.mem_filterMap.2 ⟨e, he, hframe⟩
  rw [hframes, List.mem_singleton] at hmem
  exact Or.inr ⟨_, sends_example, hmem ▸ List.prefix_refl _⟩

end Ts
