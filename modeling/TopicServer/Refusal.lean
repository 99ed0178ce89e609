import TopicServer.Signals
import TopicServer.Wire
/-!
# Refusal — a refused login changes nothing, if it can be answered

The server adds a new descriptor to the poll array before it reads the id, so each way to refuse the login has to undo
just what it did; `acceptBranch_refused` goes through the four ways.  What is left is the answer: the connection of an
id that was lost may have been reset, and a send on it ends the server (`refused_unchanged_iff`).
-/
namespace Ts

open Text (ascii)

namespace Server

/-- Why a login is refused: the poll array is full and cannot grow, the id is empty or lost, it has a blank, or its user
is active. -/
def Refuses (host : Host) (srv : Server) (c : Login) : Prop :=
  c.nagleOk = true ∧ ((∃ p, srv.pollStruct.addFd host c.connfd c.reallocOk = some (-1, p)) ∨ c.buff.1 = [] ∨
    blank ∈ c.buff.1 ∨ ∃ e, srv.userSubscriptions.lookup c.buff.1 = some e ∧ e.active = true)

/-- What a refused login makes the server do: nothing is read when the poll array has no room, and the user of an id in
use is named. -/
def refusal (c : Login) (said : List Act) : List Act :=
  .accept c.connfd :: said ++ [.sendTcp c.connfd (ascii "shutdown"), .close c.connfd]

/-- **A refused login**: the poll array is left with the entries it had, and nothing else is touched. -/
theorem acceptBranch_refused {host : Host} {srv : Server} {c : Login} (h : srv.Inv) (href : srv.Refuses host c) :
    ∃ p said, acceptBranch host srv (some c) = some ({ srv with pollStruct := p, pc := .poll }, refusal c said) ∧
      p.live = srv.pollStruct.live ∧ p.Wf ∧
      ∀ a ∈ said, a = .recv c.connfd c.buff ∨ a = alreadyConnected c.buff := by
  obtain ⟨hnagle, hwhy⟩ := href
  rcases PollAdjustable.addFd_cases host h.wf c.connfd c.reallocOk with ⟨hadd, -, -⟩ | ⟨-, p, r, hadd, hwf, hlive⟩
  · -- no room: the array was not touched, and the connection is closed by hand
    refine ⟨srv.pollStruct, [], ?_, rfl, h.wf, by simp⟩
    simp [acceptBranch, hnagle, hadd, refusal]
  -- the descriptor was added last, and `removeLast` takes it back
  have hback : (p.removeLast c.connfd).1.live = srv.pollStruct.live := by
    rw [PollAdjustable.removeLast_live hwf, hlive, List.dropLast_concat]
  have haccept : acceptBranch host srv (some c) =
      some ((login { srv with pollStruct := p, pc := .poll } c.connfd c.cli c.buff).1, .accept c.connfd ::
        .recv c.connfd c.buff :: (login { srv with pollStruct := p, pc := .poll } c.connfd c.cli c.buff).2) := by
    simp only [acceptBranch, hnagle, hadd, Option.bind_eq_bind, Option.bind_some, Bool.not_true, Bool.false_eq_true,
      if_false, if_neg (show (1 : Int) ≠ -1 by decide)]
    rfl
  refine ⟨(p.removeLast c.connfd).1, ?_⟩
  rw [haccept]
  unfold login
  by_cases hname : c.buff.1 ≠ [] ∧ blank ∉ c.buff.1
  swap
  · rw [if_neg hname]
    exact ⟨[.recv c.connfd c.buff], rfl, hback, PollAdjustable.removeLast_wf hwf _, by simp⟩
  rw [if_pos hname]
  -- a proper id is refused only for its active user, whom the lookup finds and does not insert
  have hactive : ∃ e, srv.userSubscriptions.lookup c.buff.1 = some e ∧ e.active = true := by
    rcases hwhy with ⟨p', hfail⟩ | hnil | hblank | hactive
    · rw [hadd] at hfail
      simp at hfail
    · exact absurd hnil hname.1
    · exact absurd hblank hname.2
    · exact hactive
  obtain ⟨e, he, hact⟩ := hactive
  have hmem : c.buff.1 ∈ srv.userIdSet := (h.users _).1 (Table.mem_iff_lookup.2 ⟨e, he⟩)
  rw [if_neg (not_not.2 hmem)]
  simp only [Table.entry_of_lookup he, hact, Bool.not_true, Bool.false_eq_true, if_false]
  exact ⟨[.recv c.connfd c.buff, alreadyConnected c.buff], rfl, hback, PollAdjustable.removeLast_wf hwf _, by simp⟩

section

variable {c : Login} {said : List Act} (h : ∀ a ∈ said, a = .recv c.connfd c.buff ∨ a = alreadyConnected c.buff)

include h

theorem count_refusal {a : Act} (haccept : a ≠ .accept c.connfd) (hrecv : a ≠ .recv c.connfd c.buff)
    (hcout : a ≠ alreadyConnected c.buff) :
    (refusal c said).count a = [Act.sendTcp c.connfd (ascii "shutdown"), .close c.connfd].count a := by
  have hsaid : said.count a = 0 := List.count_eq_zero.2 (fun hm => (h a hm).elim hrecv hcout)
  rw [refusal, List.cons_append, List.count_cons_of_ne haccept.symm, List.count_append, hsaid, Nat.zero_add]

theorem count_refusal_close (fd : Fd) : (refusal c said).count (.close fd) = if fd = c.connfd then 1 else 0 := by
  rw [count_refusal h (by simp) (by simp) (by simp [alreadyConnected]), List.count_cons_of_ne (by simp)]
  split
  · rename_i hfd
    rw [hfd, List.count_singleton_self]
  · rename_i hfd
    exact List.count_eq_zero.2 (by simpa using hfd)

theorem count_refusal_sendTcp (fd : Fd) (str : Bytes) :
    (refusal c said).count (.sendTcp fd str) = if fd = c.connfd ∧ str = ascii "shutdown" then 1 else 0 := by
  rw [count_refusal h (by simp) (by simp) (by simp [alreadyConnected])]
  split
  · rename_i hfd
    rw [hfd.1, hfd.2, List.count_cons_self, List.count_eq_zero.2 (by simp)]
  · rename_i hfd
    exact List.count_eq_zero.2 (by simpa using hfd)

theorem foldl_kernelAct_refusal {opened : Finset Fd} (hfresh : c.connfd ∉ opened) :
    (refusal c said).foldl kernelAct opened = opened := by
  have hsaid : said.foldl kernelAct (insert c.connfd opened) = insert c.connfd opened := by
    apply foldl_kernelAct_idle
    intro a ha
    rcases h a ha with rfl | rfl <;> rfl
  have haccept : kernelAct opened (.accept c.connfd) = insert c.connfd opened := rfl
  rw [refusal, List.cons_append, List.foldl_cons, List.foldl_append, haccept, hsaid]
  simp [kernelAct, Finset.erase_insert hfresh]

end

end Server

/-- **What a refused login is to leave**: the poll array with the descriptors it had, the three tables as they were, the
new descriptor opened and closed once, and no frame but one `shutdown` on it. -/
def Life.Unchanged (p : Proc) (c : Login) (done : List Act) : Life → Prop
  | .on q => q.server.pollStruct.nfds = p.server.pollStruct.nfds ∧ q.server.fds = p.server.fds ∧
      q.server.userIdSet = p.server.userIdSet ∧ q.server.fdsToUsers = p.server.fdsToUsers ∧
      q.server.userSubscriptions = p.server.userSubscriptions ∧ q.opened = p.opened ∧
      (∀ fd, done.count (.close fd) = if fd = c.connfd then 1 else 0) ∧
      ∀ fd str, done.count (.sendTcp fd str) = if fd = c.connfd ∧ str = ascii "shutdown" then 1 else 0
  | .killed => False

theorem refused_step {host : Host} {p : Proc} (hi : p.server.Inv) (hpc : p.server.pc = .listen) {c : Login}
    (hfresh : c.connfd ∉ p.opened) (href : p.server.Refuses host c) : ∃ said q,
      (∀ a ∈ said, a = .recv c.connfd c.buff ∨ a = Server.alreadyConnected c.buff) ∧
      p.Step host (.accept (some c), Server.refusal c said) q ∧ (Life.on q).Unchanged p c (Server.refusal c said) := by
  obtain ⟨poll, said, hbranch, hlive, hwf, hsaid⟩ := Server.acceptBranch_refused hi href
  have hstep : p.server.step host (.accept (some c)) =
      some ({ p.server with pollStruct := poll, pc := .poll }, Server.refusal c said) := by
    rw [← hbranch]
    unfold Server.step
    rw [hpc]
  have hopened := Server.foldl_kernelAct_refusal hsaid hfresh
  have haccept : ∀ fd, Act.accept fd ∈ Server.refusal c said → fd ∉ p.opened := by
    intro fd hfd
    have hnot : Act.accept fd ∉ said := fun hm => by simpa [Server.alreadyConnected] using hsaid _ hm
    obtain rfl : fd = c.connfd := by simpa [Server.refusal, hnot] using hfd
    exact hfresh
  refine ⟨said, ⟨_, p.opened⟩, hsaid, ⟨hstep, haccept, hopened.symm⟩, ?_, congrArg (List.map Pollfd.fd) hlive, rfl,
    rfl, rfl, rfl, Server.count_refusal_close hsaid, Server.count_refusal_sendTcp hsaid⟩
  exact hwf.length_live.symm.trans (hlive ▸ hi.wf.length_live)

theorem sent_refusal {c : Login} {said : List Act} {ends : Fd → Sent}
    (h : ∀ a ∈ said, a = .recv c.connfd c.buff ∨ a = Server.alreadyConnected c.buff) :
    ∀ a ∈ Server.refusal c said, a.sent ends = .out ∨ a = .sendTcp c.connfd (ascii "shutdown") := by
  intro a ha
  simp only [Server.refusal, List.cons_append, List.mem_cons, List.mem_append, List.not_mem_nil, or_false] at ha
  rcases ha with rfl | ha | rfl | rfl
  · exact Or.inl rfl
  · rcases h a ha with rfl | rfl <;> exact Or.inl rfl
  · exact Or.inr rfl
  · exact Or.inl rfl

/-- **A refused login changes nothing if and only if its answer goes out**, wherever a run of the server has come to,
whatever sends of its have failed: when the send of `shutdown` fails, nobody is told, and when it ends the process, the
server is gone with every session. -/
theorem refused_unchanged_iff {host : Host} {p₀ p : Proc} {tr : List ((Event × (Fd → Sent)) × List Act)}
    (h₀ : p₀.Start host) (hrun : Lts.Run (Life.Step host) (.on p₀) tr (.on p)) (hpc : p.server.pc = .listen) {c : Login}
    (hfresh : c.connfd ∉ p.opened) (href : p.server.Refuses host c) (ends : Fd → Sent) :
    ∃ done l, (Life.on p).Step host ((.accept (some c), ends), done) l ∧
      (l.Unchanged p c done ↔ ends c.connfd = .out) := by
  have hi : p.server.Inv := ((Life.run_inv h₀ hrun).resolve_left (by rw [hpc]; decide)).1
  obtain ⟨said, q, hsaid, hstep, hsame⟩ := refused_step hi hpc hfresh href
  refine ⟨_, _, Life.step_iff.2 ⟨_, q, hstep, rfl, rfl⟩, ?_⟩
  have hsends : ∀ a ∈ Server.refusal c said, a.sent ends = .out ∨ a = .sendTcp c.connfd (ascii "shutdown") :=
    sent_refusal hsaid
  have hanswer : Act.sendTcp c.connfd (ascii "shutdown") ∈ Server.refusal c said := by simp [Server.refusal]
  cases hends : ends c.connfd with
  | out =>
    have hall : ∀ a ∈ Server.refusal c said, a.sent ends = .out := fun a ha => by
      rcases hsends a ha with h | rfl
      · exact h
      · exact hends
    rw [carriedOut_out hall, if_pos (List.all_eq_true.2 fun a ha => by simp [hall a ha])]
    exact iff_of_true hsame rfl
  | failed =>
    -- the server goes on, but the answer is not among what was done
    have hgoes : ∀ a ∈ Server.refusal c said, a.sent ends ≠ .killed := fun a ha => by
      rcases hsends a ha with h | rfl
      · simp [h]
      · simp [Act.sent, hends]
    rw [if_pos (List.all_eq_true.2 fun a ha => decide_eq_true (hgoes a ha))]
    refine iff_of_false ?_ (by simp)
    rintro ⟨-, -, -, -, -, -, -, hone⟩
    specialize hone c.connfd (ascii "shutdown")
    have hnone : Act.sendTcp c.connfd (ascii "shutdown") ∉ carriedOut ends (Server.refusal c said) := fun hmem => by
      have := of_decide_eq_true (List.mem_filter.1 hmem).2
      simp [Act.sent, hends] at this
    rw [List.count_eq_zero.2 hnone, if_pos ⟨rfl, rfl⟩] at hone
    cases hone
  | killed =>
    rw [if_neg]
    · exact iff_of_false (fun h => h) (by simp)
    · intro hall
      have := of_decide_eq_true (List.all_eq_true.1 hall _ hanswer)
      simp [Act.sent, hends] at this

/-- User `a` is logged in on descriptor 5, and a connection is ready. -/
theorem refused_run : ∃ (p₀ p : Proc) (tr : List ((Event × (Fd → Sent)) × List Act)), p₀.Start exactHost ∧
    Lts.Run (Life.Step exactHost) (.on p₀) tr (.on p) ∧ p.server.clientFds = [5] ∧ p.server.pc = .listen ∧
      6 ∉ p.opened ∧ (p.server.userSubscriptions.lookup [97]).map (·.active) = some true := by
  have hrun : ((Proc.boot exactHost 3 4).bind fun p₀ => (Lts.exec (Proc.next exactHost) p₀ [.poll (some [0, 1, 0]),
      .accept (some ⟨5, ⟨(127, 0, 0, 1), (0, 9)⟩, true, true, ⟨[97], by decide⟩⟩), .poll (some [0, 1, 0, 0])]).map
        fun r => (r.2.server.clientFds, r.2.server.pc, decide (6 ∈ r.2.opened),
          (r.2.server.userSubscriptions.lookup [97]).map (·.active))) = some ([5], .listen, false, some true) := by
    decide +kernel
  obtain ⟨p₀, hboot, hrun⟩ := Option.bind_eq_some_iff.1 hrun
  obtain ⟨⟨tr, p⟩, hexec, hp⟩ := Option.map_eq_some_iff.1 hrun
  simp only [Prod.mk.injEq, decide_eq_false_iff_not] at hp
  obtain ⟨hfds, hpc, hnew, hact⟩ := hp
  exact ⟨p₀, p, _, ⟨3, 4, by decide, by decide, by decide, hboot⟩, Life.run_out (Lts.exec_run Proc.next_step .nil hexec),
    hfds, hpc, hnew, hact⟩

theorem refused_unchanged_iff_same_id : ∃ (p : Proc) (done : List Act) (l : Life), p.server.clientFds = [5] ∧
    l.Unchanged p ⟨6, ⟨(127, 0, 0, 1), (0, 10)⟩, true, true, ⟨[97], by decide⟩⟩ done := by
  -- the array is full after the first login, so the descriptor of the second one first makes it grow
  obtain ⟨p₀, p, tr, h₀, hrun, hfds, hpc, hnew, hact⟩ := refused_run
  obtain ⟨done, l, -, hsame⟩ := refused_unchanged_iff h₀ hrun hpc hnew
    (c := ⟨6, ⟨(127, 0, 0, 1), (0, 10)⟩, true, true, ⟨[97], by decide⟩⟩)
    ⟨rfl, Or.inr (Or.inr (Or.inr (Option.map_eq_some_iff.1 hact)))⟩ fun _ => .out
  exact ⟨p, done, l, hfds, hsame.2 rfl⟩

/-- **A connection that is reset before its id comes** ends the server: the read fails, `applicationProtocol` gives the
empty id, and the send that answers it ends the process; user `a` was logged in, and nobody is told. -/
theorem refused_killed : applicationProtocol exactHost ⟨[], [-1]⟩ = some ([], ⟨[], []⟩) ∧
    ∃ (p₀ p : Proc) (tr : List ((Event × (Fd → Sent)) × List Act)) (c : Login) (ends : Fd → Sent) (done : List Act),
      p₀.Start exactHost ∧ Lts.Run (Life.Step exactHost) (.on p₀) tr (.on p) ∧ p.server.clientFds = [5] ∧
      p.server.pc = .listen ∧ c.connfd ∉ p.opened ∧ c.buff.1 = [] ∧ p.server.Refuses exactHost c ∧
      (Life.on p).Step exactHost ((.accept (some c), ends), done) .killed ∧
      (∀ fd str, Act.close fd ∉ done ∧ Act.sendTcp fd str ∉ done) ∧ ¬ Life.killed.Unchanged p c done := by
  refine ⟨by decide +kernel, ?_⟩
  obtain ⟨p₀, p, tr, h₀, hrun, hfds, hpc, hnew, -⟩ := refused_run
  have hi : p.server.Inv := ((Life.run_inv h₀ hrun).resolve_left (by rw [hpc]; decide)).1
  have href : p.server.Refuses exactHost ⟨6, ⟨(127, 0, 0, 1), (0, 10)⟩, true, true, ⟨[], List.not_mem_nil⟩⟩ :=
    ⟨rfl, Or.inr (Or.inl rfl)⟩
  obtain ⟨said, q, hsaid, hstep, -⟩ := refused_step hi hpc hnew href
  generalize hc : (⟨6, ⟨(127, 0, 0, 1), (0, 10)⟩, true, true, ⟨[], List.not_mem_nil⟩⟩ : Login) = c at *
  -- what comes before the answer is done, and nothing after it
  have hbefore : ∀ a ∈ Act.accept c.connfd :: said, decide (a.sent (fun _ => Sent.killed) ≠ .killed) = true :=
    fun a ha => by
    rcases List.mem_cons.1 ha with rfl | ha
    · rfl
    · rcases hsaid a ha with rfl | rfl <;> rfl
  have hdone : (carriedOut (fun _ => .killed) (Server.refusal c said)).Sublist (Act.accept c.connfd :: said) := by
    rw [carriedOut, Server.refusal, List.takeWhile_append_of_pos hbefore]
    refine List.filter_sublist.trans ?_
    simp [List.takeWhile, Act.sent]
  have hquiet : ∀ a ∈ carriedOut (fun _ => .killed) (Server.refusal c said),
      a = .accept c.connfd ∨ a = .recv c.connfd c.buff ∨ a = Server.alreadyConnected c.buff := fun a ha =>
    (List.mem_cons.1 (hdone.subset ha)).imp id (hsaid a)
  refine ⟨p₀, p, tr, c, fun _ => .killed, _, h₀, hrun, hfds, hpc, by rw [← hc]; exact hnew, by rw [← hc], href,
    Life.step_iff.2 ⟨_, q, hstep, rfl, (if_neg ?_).symm⟩, fun fd str => ⟨fun h => ?_, fun h => ?_⟩, fun h => h⟩
  · simp [Server.refusal, Act.sent]
  · simpa [Server.alreadyConnected] using hquiet _ h
  · simpa [Server.alreadyConnected] using hquiet _ h

end Ts
