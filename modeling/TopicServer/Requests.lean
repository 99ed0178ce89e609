import TopicServer.System
/-!
# Requests — what is typed becomes subscriptions

A subscriber serves its standard input and its connection in any order.  What it sends and what it confirms are the
commands among the texts that its reads leave in the buffer (pieces of 64 bytes at most, each without its last byte), up
to the first `exit`; what it prints besides is what it hears, up to the word that ends it (`subscriber_exact`).  So the
list of a user is made of what was left in the buffers of the subscribers of its sessions, but for what is still under
way (`requests_exact`).  The input holds no `0` and is not read on at its end, and no send fails.
-/
namespace Ts

open Mem
open Text (ascii)

def leftover : Nat → Bytes → Bytes
  | 0, input => input
  | n + 1, input => leftover n (fgetsLine 64 input).2

def entered : Nat → Bytes → List Bytes
  | 0, _ => []
  | n + 1, input => (fgetsLine 64 input).1.dropLast :: entered n (fgetsLine 64 input).2

def asksFor (s : Bytes) : Option Command :=
  if IsCommandLine s then
    some (if ascii "subscribe " <+: s then ⟨true, s.drop 10⟩ else ⟨false, s.drop 12⟩)
  else none

/-- The commands that `n` iterations find, up to the first `exit`. -/
def asked (n : Nat) (input : Bytes) : List Command :=
  ((entered n input).takeWhile (· ≠ ascii "exit")).filterMap asksFor

def Command.confirmation (c : Command) : Bytes := echoWord c.subscribed ++ c.expression

/-- How many of the rounds were on a line. -/
def linesRead (rounds : List (ClientEvent × List Act)) : Nat := rounds.countP fun
  | (.stdin, _) => true
  | _ => false

/-- The lines that the rounds have printed for what was typed. -/
def confirmed (rounds : List (ClientEvent × List Act)) : List Bytes := rounds.flatMap fun
  | (.stdin, acts) => acts.filterMap fun
    | .cout line => some line
    | _ => none
  | _ => []

theorem leftover_succ : ∀ (n : Nat) (input : Bytes), leftover (n + 1) input = (fgetsLine 64 (leftover n input)).2
  | 0, _ => rfl
  | n + 1, input => leftover_succ n (fgetsLine 64 input).2

theorem entered_succ : ∀ (n : Nat) (input : Bytes),
    entered (n + 1) input = entered n input ++ [(fgetsLine 64 (leftover n input)).1.dropLast]
  | 0, _ => rfl
  | n + 1, input => by
    rw [entered, entered_succ n]
    rfl

theorem asksFor_line {c : Command} (h : ValidTopic c.expression) : asksFor c.line = some c := by
  obtain ⟨sub, topic⟩ := c
  have hline : IsCommandLine (Command.line ⟨sub, topic⟩) := ⟨_, h, rfl⟩
  rw [asksFor, if_pos hline]
  cases sub with
  | true =>
    have hword : ascii "subscribe " <+: Command.line ⟨true, topic⟩ := ⟨topic, rfl⟩
    rw [if_pos hword]
    rfl
  | false =>
    have hword : ¬ ascii "subscribe " <+: Command.line ⟨false, topic⟩ := by
      rintro ⟨t, ht⟩
      exact absurd (congrArg List.head? ht) (by simp [Command.line, commandWord, ascii])
    rw [if_neg hword]
    rfl

theorem asksFor_none {s : Bytes} (h : ¬ IsCommandLine s) : asksFor s = none := if_neg h

/-- One more text, when none before it was `exit`. -/
theorem asked_succ {n : Nat} {input : Bytes} (h : ascii "exit" ∉ entered n input) : asked (n + 1) input =
    asked n input ++ (asksFor (fgetsLine 64 (leftover n input)).1.dropLast).toList := by
  have hgoes : ∀ s ∈ entered n input, decide (s ≠ ascii "exit") = true := by
    intro s hs
    apply decide_eq_true
    rintro rfl
    exact h hs
  rw [asked, asked, entered_succ, List.takeWhile_append_of_pos hgoes, List.takeWhile_eq_self_iff.2 hgoes,
    List.filterMap_append]
  congr 1
  generalize (fgetsLine 64 (leftover n input)).1.dropLast = s
  by_cases hs : s = ascii "exit"
  · subst hs
    decide
  · rw [List.takeWhile_cons_of_pos (by simpa using hs)]
    cases hask : asksFor s <;> simp [hask]

/-- **What the subscriber does with a text that a line has left in the buffer.** -/
def obey (fd : Fd) (s : Bytes) : List Act :=
  if s = ascii "exit" then [.close fd]
  else match asksFor s with
    | some c => [.sendTcp fd c.line, .cout c.confirmation]
    | none => []

theorem Client.Trans.line {fd : Fd} {cli cli' : Client} {acts : List Act} (h : cli.Ok fd)
    (ht : cli.Trans (.stdin, acts) cli') : cli'.input = (fgetsLine 64 cli.input).2 ∧
      cli'.running = decide ((fgetsLine 64 cli.input).1.dropLast ≠ ascii "exit") ∧
      acts = obey fd (fgetsLine 64 cli.input).1.dropLast := by
  obtain ⟨hbuf, rfl, h0⟩ := h
  obtain ⟨hstep, hin⟩ := ht
  obtain ⟨hgo, -⟩ := step_line hstep
  obtain ⟨b, b', hfgets, hchop, hhold, -⟩ := fgets_chop cli.stdin_buffer 65 (by decide) (by omega) h0 (hin rfl)
  have hexit := hhold.strcmpEq_eq (holds_terminated (s := ascii "exit") (by decide) [])
  simp only [step, hgo, hfgets, hchop, hexit, Option.bind_eq_bind, Option.bind_some, Bool.not_true, Bool.false_eq_true,
    if_false] at hstep
  have hnum : 65 - 1 = 64 := rfl
  rw [hnum] at hstep hhold
  generalize (fgetsLine 64 cli.input).1.dropLast = s at hstep hhold ⊢
  by_cases hs : s = ascii "exit"
  · simp only [hs, decide_true, if_true] at hstep
    obtain ⟨rfl, rfl⟩ := Prod.mk.inj (Option.some.inj hstep)
    exact ⟨rfl, by simp [hs], by rw [obey, if_pos hs]⟩
  · simp only [hs, decide_false, Bool.false_eq_true, if_false] at hstep
    rw [obey, if_neg hs]
    rcases command_cases cli.socket_cli hhold with ⟨hno, hnone⟩ | ⟨c, hv, rfl, hsome⟩
    · rw [hnone] at hstep
      obtain ⟨rfl, rfl⟩ := Prod.mk.inj (Option.some.inj hstep)
      exact ⟨rfl, by simp [hs], by rw [asksFor_none hno]⟩
    · rw [hsome] at hstep
      obtain ⟨rfl, rfl⟩ := Prod.mk.inj (Option.some.inj hstep)
      exact ⟨rfl, by simp [hs], by rw [asksFor_line hv]; rfl⟩

theorem asksFor_exit : asksFor (ascii "exit") = none := by decide

theorem obey_frames (fd : Fd) (s : Bytes) : frames (obey fd s) = (asksFor s).toList.map Command.line := by
  unfold obey
  split
  · rename_i hs
    rw [hs, asksFor_exit]
    rfl
  · split <;> simp_all [frames]

theorem obey_confirmed (fd : Fd) (s : Bytes) :
    confirmed [(.stdin, obey fd s)] = (asksFor s).toList.map Command.confirmation := by
  unfold obey
  split
  · rename_i hs
    rw [hs, asksFor_exit]
    rfl
  · split <;> simp_all [confirmed]

theorem mem_heard_notification {str : Bytes} {buff : CText} {acts : List Act} :
    str ∈ heard [(.notification buff, acts)] ↔ str = buff.1 ∧ str ≠ [] := by
  by_cases hnil : buff.1 = []
  · have hnone : heard [(ClientEvent.notification buff, acts)] = [] := by simp [heard, hnil]
    rw [hnone]
    exact iff_of_false List.not_mem_nil fun h => h.2 (h.1.trans hnil)
  · have hone : heard [(ClientEvent.notification buff, acts)] = [buff.1] := by simp [heard, hnil]
    rw [hone, List.mem_singleton]
    exact ⟨fun h => ⟨h, h ▸ hnil⟩, fun h => h.1⟩

/-- What the rounds of a subscriber come to that is given `input`. -/
structure Client.Served (input : Bytes) (rounds : List (ClientEvent × List Act)) (cli : Client) : Prop where
  rest : cli.input = leftover (linesRead rounds) input
  uttered : uttered rounds = (asked (linesRead rounds) input).map Command.line
  confirmed : confirmed rounds = (asked (linesRead rounds) input).map Command.confirmation
  running : cli.running = true ↔ ascii "exit" ∉ entered (linesRead rounds) input ∧ ascii "shutdown" ∉ heard rounds

/-- **A round serves the input or the connection**, and leaves what was served of the other as it was. -/
theorem Client.Served.step {fd : Fd} {input : Bytes} {rounds : List (ClientEvent × List Act)} {cli cli' : Client}
    {e : ClientEvent × List Act} (h : cli.Served input rounds) (hok : cli.Ok fd) (ht : cli.Trans e cli') :
    cli'.Served input (rounds ++ [e]) := by
  obtain ⟨ev, acts⟩ := e
  have hconfirm : Ts.confirmed (rounds ++ [(ev, acts)]) = Ts.confirmed rounds ++ Ts.confirmed [(ev, acts)] :=
    List.flatMap_append
  have hheard : heard (rounds ++ [(ev, acts)]) = heard rounds ++ heard [(ev, acts)] := List.filterMap_append
  have hutter := uttered_snoc rounds (ev, acts)
  cases ev with
  | stdin =>
    obtain ⟨hin, hrun, hacts⟩ := ht.line hok
    have hgo := (step_line ht.1).1
    obtain ⟨hexit, hword⟩ := h.running.1 hgo
    have hcount : linesRead (rounds ++ [(.stdin, acts)]) = linesRead rounds + 1 := by simp [linesRead]
    have hnone : heard [(ClientEvent.stdin, acts)] = [] := rfl
    rw [hnone, List.append_nil] at hheard
    rw [h.rest] at hin hrun hacts
    rw [h.confirmed, hacts, obey_confirmed, ← List.map_append, ← asked_succ hexit, ← hacts] at hconfirm
    rw [h.uttered, hacts, obey_frames, ← List.map_append, ← asked_succ hexit, ← hacts] at hutter
    refine ⟨by rw [hin, hcount, leftover_succ], by rw [hutter, hcount], by rw [hconfirm, hcount], ?_⟩
    rw [hrun, hheard, hcount, entered_succ, List.mem_append, List.mem_singleton, decide_eq_true_iff]
    exact ⟨fun hne => ⟨not_or.2 ⟨hexit, Ne.symm hne⟩, hword⟩, fun hno => Ne.symm (not_or.1 hno.1).2⟩
  | notification buff =>
    have hcount : linesRead (rounds ++ [(.notification buff, acts)]) = linesRead rounds := by simp [linesRead]
    have hnone : Ts.confirmed [(ClientEvent.notification buff, acts)] = [] := rfl
    rw [hnone, List.append_nil] at hconfirm
    obtain ⟨hgo, ⟨hword, rfl, hacts⟩ | ⟨hword, rfl, hacts⟩⟩ := step_notification ht.1
    · obtain rfl : acts = _ := hacts
      have hend : ascii "shutdown" ∈ heard (rounds ++ [(.notification buff, [.close cli.socket_cli])]) := by
        rw [hheard]
        exact List.mem_append_right _ (mem_heard_notification.2 ⟨hword.symm, by decide⟩)
      have hquiet : frames [Act.close cli.socket_cli] = [] := rfl
      rw [hquiet, List.append_nil] at hutter
      refine ⟨by rw [hcount]; exact h.rest, by rw [hutter, hcount, h.uttered], by rw [hconfirm, hcount, h.confirmed], ?_⟩
      exact iff_of_false Bool.false_ne_true fun hno => hno.2 hend
    · have hquiet : frames acts = [] := by
        rw [show acts = _ from hacts]
        split <;> rfl
      have hgoes : ascii "shutdown" ∉ heard [(ClientEvent.notification buff, acts)] := fun hmem =>
        hword (mem_heard_notification.1 hmem).1.symm
      rw [hquiet, List.append_nil] at hutter
      refine ⟨by rw [hcount, h.rest], by rw [hutter, hcount, h.uttered], by rw [hconfirm, hcount, h.confirmed], ?_⟩
      rw [h.running, hheard, hcount, List.mem_append, not_or]
      exact and_congr_right fun _ => (and_iff_left hgoes).symm

theorem run_served {host : Host} {fd : Fd} {input : CText} {rounds : List (ClientEvent × List Act)} {cli : Client}
    (hrun : Lts.Run Client.Trans (Client.start host fd input) rounds cli) : cli.Served input rounds := by
  have hstart : (Client.start host fd input).Served input [] :=
    ⟨rfl, rfl, rfl, by simp [Client.start, linesRead, entered, heard]⟩
  exact (hrun.history (P := fun rounds cli => cli.Ok fd ∧ cli.Served input rounds)
    ⟨⟨host.length_malloc 100, rfl, input.2⟩, hstart⟩ fun _ _ _ _ _ h ht => ⟨(ht.ok h.1).1, h.2.step h.1 ht⟩).2

/-- **A subscriber serves its input and its connection independently**: in whatever order it reads its input, before the
end of it, and is given notifications, what it has sent and what it has confirmed are the commands among the texts that
its reads of the input have left in the buffer, up to the first `exit`; what it has printed besides is all that it has
heard but for the word that ends it; and it goes on as long as neither of the two words has come. -/
theorem subscriber_exact {host : Host} {fd : Fd} {input : CText} {rounds : List (ClientEvent × List Act)} {cli : Client}
    (hrun : Lts.Run Client.Trans (Client.start host fd input) rounds cli) :
    uttered rounds = (asked (linesRead rounds) input).map Command.line ∧
    confirmed rounds = (asked (linesRead rounds) input).map Command.confirmation ∧
    shown rounds = (heard rounds).filter (· ≠ ascii "shutdown") ∧
    cli.input = leftover (linesRead rounds) input ∧
    (cli.running = true ↔ ascii "exit" ∉ entered (linesRead rounds) input ∧ ascii "shutdown" ∉ heard rounds) := by
  have hserved := run_served hrun
  exact ⟨hserved.uttered, hserved.confirmed, (shown_heard hrun).2, hserved.rest, hserved.running⟩

theorem subscriber_exact_mixed : ∃ rounds, linesRead rounds = 2 ∧
    uttered rounds = [ascii "subscribe a", ascii "unsubscribe b"] ∧
    confirmed rounds = [ascii "Subscribed to topic a", ascii "Unsubscribed from topic b"] := by
  have hrun : (((Client.start exactHost 3 (ascii "subscribe a\nunsubscribe b\n")).step .stdin).bind fun r₁ =>
      (r₁.1.step (.notification ⟨ascii "x", by decide⟩)).bind fun r₂ => (r₂.1.step .stdin).map fun _ =>
        decide (r₂.1.input ≠ [])) = some true := by decide +kernel
  have hsent : (asked 2 (ascii "subscribe a\nunsubscribe b\n")).map Command.line =
      [ascii "subscribe a", ascii "unsubscribe b"] := by decide +kernel
  have hprinted : (asked 2 (ascii "subscribe a\nunsubscribe b\n")).map Command.confirmation =
      [ascii "Subscribed to topic a", ascii "Unsubscribed from topic b"] := by decide +kernel
  have h0 : 0 ∉ ascii "subscribe a\nunsubscribe b\n" := by decide
  have hne : ascii "subscribe a\nunsubscribe b\n" ≠ [] := by decide
  generalize ascii "subscribe a\nunsubscribe b\n" = input at hrun hsent hprinted h0 hne
  obtain ⟨⟨cli₁, acts₁⟩, h₁, hrun⟩ := Option.bind_eq_some_iff.1 hrun
  obtain ⟨⟨cli₂, acts₂⟩, h₂, hrun⟩ := Option.bind_eq_some_iff.1 hrun
  obtain ⟨⟨cli₃, acts₃⟩, h₃, hin⟩ := Option.map_eq_some_iff.1 hrun
  have hlast : Lts.Run Client.Trans (Client.start exactHost 3 (⟨input, h0⟩ : CText))
      [(.stdin, acts₁), (.notification ⟨ascii "x", by decide⟩, acts₂), (.stdin, acts₃)] cli₃ :=
    ((Lts.Run.nil.snoc ⟨h₁, fun _ => hne⟩).snoc ⟨h₂, fun h => nomatch h⟩).snoc ⟨h₃, fun _ => of_decide_eq_true hin⟩
  obtain ⟨huttered, hconfirmed, -⟩ := subscriber_exact hlast
  exact ⟨_, rfl, huttered.trans hsent, hconfirmed.trans hprinted⟩

namespace Sys

/-- **What is typed becomes subscriptions**: in every run of the system in which the copies of topics get their memory,
the list of a user is made of the commands read in its sessions, in the order of the logins.  A session is of the
subscriber that was started under the user's name on that connection, and what has been read of it, with what is still
under way, is what the server makes of the commands among the texts that the reads of that subscriber have left in its
buffer so far. -/
theorem requests_exact {host : Host} {s₀ s : Sys} {tr : List (SysEvent × List Act)} (h₀ : s₀.Start host)
    (hrun : Lts.Run (Step host) s₀ tr s) (hok : ∀ buff ok acts, (Event.recv buff ok, acts) ∈ serverSteps tr → ok = true)
    (u : Bytes) : (s.net.server.subscriptionsOf u).map (·.command) = (s.net.sessionsOf u).flatMap s.net.commandsOf ∧
      ∀ k ∈ s.net.sessionsOf u, ∃ c peer conn, (started tr)[k]? = some c ∧ c.name.1 = u ∧ s.peers[k]? = some peer ∧
        s.net.conns[k]? = some conn ∧ s.net.commandsOf k ++ conn.chan.unread.filterMap (fun m => commandOf m.1) =
          (asked (linesRead peer.rounds) c.input).filterMap fun c => commandOf c.line := by
  obtain ⟨ntr, hnet, hsteps⟩ := run_net hrun
  have hstart : s₀.net.Start host := ⟨h₀.1, by rw [h₀.2]; rfl⟩
  have hallocs : ∀ e ∈ ntr, Net.Allocates e := by
    rintro ⟨ev, acts⟩ he buff ok rfl
    apply hok buff ok acts
    rw [← hsteps]
    exact List.mem_filterMap.2 ⟨_, he, rfl⟩
  obtain ⟨-, -, hexact⟩ := Net.run_kept hstart hnet hallocs
  refine ⟨hexact u, fun k hk => ?_⟩
  obtain ⟨c, peer, conn, hc, hname, hpeer, hconn, hpeerOk, hall⟩ := run_session h₀ hrun (Net.mem_sessionsOf.1 hk)
  refine ⟨c, peer, conn, hc, hname, hpeer, hconn, ?_⟩
  obtain ⟨cli, hcli, -⟩ := hpeerOk.run
  rw [Net.commandsOf, ← List.filterMap_append]
  calc (s.net.framesOf k ++ conn.chan.unread).filterMap (fun m => commandOf m.1)
      = ((s.net.framesOf k ++ conn.chan.unread).map (·.1)).filterMap commandOf := by rw [List.filterMap_map]; rfl
    _ = ((asked (linesRead peer.rounds) c.input).map Command.line).filterMap commandOf := by
        rw [hall, (run_served hcli).uttered]
    _ = (asked (linesRead peer.rounds) c.input).filterMap fun c => commandOf c.line := by rw [List.filterMap_map]; rfl

theorem requests_exact_session : ∃ (s : Sys) (peer : Peer) (conn : Conn), s.peers[0]? = some peer ∧
    s.net.conns[0]? = some conn ∧ (s.net.server.subscriptionsOf [97]).map (·.command) = [⟨true, ascii "a/*"⟩] ∧
    [⟨true, ascii "a/*"⟩] ++ conn.chan.unread.filterMap (fun m => commandOf m.1) =
      [⟨true, ascii "a/*"⟩, ⟨false, ascii "b"⟩] := by
  have hrun : ((Proc.boot exactHost 3 4).bind fun p₀ => (Lts.exec (Sys.next exactHost) (boot p₀)
      [.connect ⟨⟨[97], by decide⟩, exactHost, 3, ⟨ascii "subscribe a/*\nunsubscribe b\n", by decide⟩⟩, .stdin 0,
        .server (.poll (some [0, 1, 0])),
        .server (.accept (some ⟨5, ⟨(127, 0, 0, 1), (0, 9)⟩, true, true, ⟨[97], by decide⟩⟩)),
        .server (.poll (some [0, 0, 0, 1])), .server (.recv ⟨ascii "subscribe a/*", by decide⟩ true), .stdin 0]).map
      fun r => decide (r.2.net.sessionsOf [97] = [0]) && decide (r.2.net.commandsOf 0 = [⟨true, ascii "a/*"⟩]) &&
        decide ((started r.1).map (fun c => (asked 2 c.input).filterMap fun c => commandOf c.line) =
            [[⟨true, ascii "a/*"⟩, ⟨false, ascii "b"⟩]]) &&
          r.2.peers.all fun peer => decide (linesRead peer.rounds = 2)) = some true := by decide +kernel
  obtain ⟨p₀, hboot, hrun⟩ := Option.bind_eq_some_iff.1 hrun
  obtain ⟨⟨tr, s⟩, hexec, hs⟩ := Option.map_eq_some_iff.1 hrun
  simp only [Bool.and_eq_true, decide_eq_true_eq, List.all_eq_true] at hs
  obtain ⟨⟨⟨hsessions, hcommands⟩, hasked⟩, hlines⟩ := hs
  have h₀ : (boot p₀).Start exactHost := ⟨⟨3, 4, by decide, by decide, by decide, hboot⟩, rfl⟩
  have hlast : Lts.Run (Step exactHost) (boot p₀) tr s := Lts.exec_run next_step .nil hexec
  have hevents := Lts.exec_map (f := fun e : SysEvent × List Act => e.1) (fun _ _ _ _ => next_label) hexec
  obtain ⟨hlist, htyped⟩ := requests_exact h₀ hlast (fun buff ok acts he => by
    obtain ⟨⟨ev, acts'⟩, hmem, hstep⟩ := List.mem_filterMap.1 he
    have hev : ev = .server (.recv buff ok) := by
      cases ev with
      | server ev => rw [(Prod.mk.inj (Option.some.inj hstep)).1]
      | _ => cases hstep
    have hin : ev ∈ tr.map (·.1) := List.mem_map_of_mem hmem
    rw [hevents, hev] at hin
    simp only [List.mem_cons, SysEvent.server.injEq, Event.recv.injEq, reduceCtorEq, false_or, or_false,
      List.not_mem_nil] at hin
    exact hin.2) [97]
  rw [hsessions] at hlist htyped
  obtain ⟨c, peer, conn, hc, -, hpeer, hconn, hall⟩ := htyped 0 List.mem_cons_self
  rw [hlines peer (List.mem_of_getElem? hpeer), hcommands] at hall
  have hone := congrArg (·[0]?) hasked
  simp only [List.getElem?_map, hc, Option.map_some, List.getElem?_cons_zero, Option.some.injEq] at hone
  refine ⟨s, peer, conn, hpeer, hconn, ?_, hall.trans hone⟩
  rw [hlist, List.flatMap_singleton, hcommands]

end Sys

end Ts
