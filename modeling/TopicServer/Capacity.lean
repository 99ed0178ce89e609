import TopicServer.Commands
/-!
# Capacity — the matcher's buffers are large enough

The server checks no length.  That its 51-byte buffers are never left rests on what the subscribers send: every
expression it keeps is a piece of a topic some client let through, so it has at most 50 bytes.  `capacity_invariant`
carries this along every run whose frames come from subscribers, up to the matcher's last recursive call.
-/
namespace Ts

open Text (ascii)
open Server (readCommand)

/-- The frame a step reads in the client loop. -/
def Event.frame : Event → Option CText
  | .recv buff _ => some buff
  | _ => none

/-- A step whose frame, if it reads one, comes from a subscriber; the empty one is the end of the file. -/
def FromSubscribers (e : Event × List Act) : Prop :=
  ∀ buff, e.1.frame = some buff → buff.1 = [] ∨ SubscriberFrame buff

def AllStored (p : Proc) : Prop := ∀ u, ∀ s ∈ p.server.subscriptionsOf u, Stored s.getExpression

theorem Stored.storable {e : Bytes} (h : Stored e) : Storable e := ⟨h.nul, h.le⟩

theorem Proc.Step.allStored {host : Host} {p q : Proc} {e : Event × List Act} (hp : p.Inv ∧ AllStored p)
    (he : FromSubscribers e) (h : p.Step host e q) : q.Inv ∧ AllStored q := by
  obtain ⟨hinv, hmove, hq⟩ := h.move hp.1
  refine ⟨hq, fun u => ?_⟩
  rcases hmove.subscriptionsOf u with hsame | ⟨buff, fd, c, s, hev, hacts, hu, hc, hs, hadd⟩
  · rw [hsame]
    exact hp.2 u
  · intro s' hs'
    rw [hadd, List.mem_append, List.mem_singleton] at hs'
    rcases hs' with hold | rfl
    · exact hp.2 u s' hold
    · obtain ⟨hexp, hne⟩ := commandOf_eq_some hc
      have hget : s'.getExpression = c.expression := congrArg Command.expression (newSubscription_command hs)
      rw [hget, hexp]
      rcases he buff (by rw [hev]; rfl) with hnil | hframe
      · exact absurd hexp (by rw [hnil]; exact fun h => hne h)
      · exact hframe.stored buff.2 (hexp ▸ hne)

theorem run_stored {host : Host} {p₀ p : Proc} {tr : List (Event × List Act)} (h₀ : p₀.Start host)
    (hrun : Lts.Run (Proc.Step host) p₀ tr p) (hfrom : ∀ e ∈ tr, FromSubscribers e) : AllStored p := by
  have hempty : AllStored p₀ := by
    intro u s hs
    rw [Server.subscriptionsOf, (start_inv h₀).2.2.2.1] at hs
    cases hs
  exact (hrun.invariant_of (L := FromSubscribers) (P := fun p => p.Inv ∧ AllStored p)
    ⟨Or.inr ⟨(start_inv h₀).1, (start_inv h₀).2.1⟩, hempty⟩ (fun _ _ _ hp he h => h.allStored hp he) hfrom).2

theorem isItRegEx_isSome (host : Host) {e : Bytes} (h : Storable e) : (isItRegEx host e).isSome := by
  rw [isItRegEx_eq host h.1 (fits_of_length h.2)]
  rfl

/-- **Topic capacity**: while the frames come from subscribers, every expression kept has 1 to 50 bytes, no white space
and no double slash; so the matcher stays inside its buffers for every datagram, every expression, and on every level of
its recursion, and so does the search for wildcards in every topic that arrives. -/
theorem capacity_invariant {host : Host} {p₀ p : Proc} {tr : List (Event × List Act)} (h₀ : p₀.Start host)
    (hrun : Lts.Run (Proc.Step host) p₀ tr p) (hfrom : ∀ e ∈ tr, FromSubscribers e) :
    (∀ u e, p.server.userSubscriptions.lookup u = some e → ∀ s ∈ e.subscriptions, Stored s.getExpression) ∧
    (∀ u e, p.server.userSubscriptions.lookup u = some e → ∀ d : Bytes,
      (getMatch host e ((udpRecv d).take 50 ++ [0])).isSome ∧
      ∀ s ∈ e.subscriptions, ∀ eb tb, Mem.Holds eb s.getExpression → Mem.Holds tb (topicOf (udpRecv d)) →
        (s.matchBufs host eb tb).isSome) ∧
    (∀ u e, p.server.userSubscriptions.lookup u = some e → ∀ s ∈ e.subscriptions,
      (isItRegEx host s.getExpression).isSome) ∧
    ∀ buff : CText, SubscriberFrame buff → (readCommand buff).2 ≠ [] → (isItRegEx host (readCommand buff).2).isSome := by
  have hstored : ∀ u e, p.server.userSubscriptions.lookup u = some e → ∀ s ∈ e.subscriptions, Stored s.getExpression :=
    fun u e he s hs => run_stored h₀ hrun hfrom u s (by rwa [subscriptionsOf_of_lookup he])
  refine ⟨hstored, ?_, ?_, ?_⟩
  · intro u e he d
    have ht := length_topicOf_le (udpRecv d)
    constructor
    · rw [getMatch_eq host (topic_holds (udpRecv d)) ht (fun s hs => (hstored u e he s hs).storable)]
      rfl
    · intro s hs eb tb heb htb
      obtain ⟨eb', tb', hm, -, -⟩ := s.matchBufs_spec host heb htb
        (fits_of_length (hstored u e he s hs).le) (fits_of_length ht)
      rw [hm]
      rfl
  · exact fun u e he s hs => isItRegEx_isSome host (hstored u e he s hs).storable
  · exact fun buff hframe hne => isItRegEx_isSome host (hframe.stored buff.2 hne).storable

theorem sends_example : Sends (ascii "subscribe a/*") := by
  have hstep : ((Client.start exactHost 3 (ascii "subscribe a/*\n")).step .stdin).map (·.2) =
      some [.sendTcp 3 (ascii "subscribe a/*"), .cout (ascii "Subscribed to topic a/*")] := by decide +kernel
  obtain ⟨⟨cli, acts⟩, hstep, hacts⟩ := Option.map_eq_some_iff.1 hstep
  have hmem : Act.sendTcp 3 (ascii "subscribe a/*") ∈ acts := by
    rw [show acts = _ from hacts]
    exact List.mem_cons_self
  exact ⟨exactHost, 3, ascii "subscribe a/*\n", [(.stdin, acts)], cli, by decide, .snoc .nil ⟨hstep, fun _ => by decide⟩,
    (.stdin, acts), List.mem_singleton_self _, hmem⟩

theorem capacity_invariant_command : ∃ p : Proc, p.server.subscriptionsOf [97] = [.regExSubscription (ascii "a/*") true] ∧
    ∀ u e, p.server.userSubscriptions.lookup u = some e → ∀ s ∈ e.subscriptions, Stored s.getExpression := by
  have hrun : ((Proc.boot exactHost 3 4).bind fun p₀ => (Lts.exec (Proc.next exactHost) p₀ [.poll (some [0, 1, 0]),
      .accept (some ⟨5, ⟨(127, 0, 0, 1), (0, 9)⟩, true, true, ⟨[97], by decide⟩⟩), .poll (some [0, 0, 0, 1]),
      .recv ⟨ascii "subscribe a/*", by decide⟩ true]).map fun r =>
        (r.2.server.subscriptionsOf [97], r.1.map (·.1.frame))) =
        some ([.regExSubscription (ascii "a/*") true], [none, none, none, some ⟨ascii "subscribe a/*", by decide⟩]) := by
    decide +kernel
  obtain ⟨p₀, hboot, hrun⟩ := Option.bind_eq_some_iff.1 hrun
  obtain ⟨⟨tr, p⟩, hexec, hp⟩ := Option.map_eq_some_iff.1 hrun
  refine ⟨p, (Prod.mk.inj hp).1, (capacity_invariant ⟨3, 4, by decide, by decide, by decide, hboot⟩
    (Lts.exec_run Proc.next_step .nil hexec) (fun e he buff hframe => ?_)).1⟩
  have hmem : e.1.frame ∈ tr.map (·.1.frame) := List.mem_map_of_mem he
  rw [(Prod.mk.inj hp).2, hframe] at hmem
  obtain rfl : buff = ⟨ascii "subscribe a/*", by decide⟩ := by simpa using hmem
  exact Or.inr ⟨_, sends_example, List.prefix_refl _⟩

end Ts
