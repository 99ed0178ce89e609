import TopicServer.Delivery
import TopicServer.Limits
/-!
# Progress — neither program gets stuck

A step that would leave a buffer gives nothing, so to say when a step gives something is to say when the memory is safe.
A text that is read off a connection is read by `applicationProtocol`, into its buffer (`stepRead`).  While the frames
come from subscribers the server leaves a buffer on four inputs: a line of standard input that begins with a `0`, its
end with nothing left to cut, a text datagram that fills the buffer without a terminator, and an id of 1700 bytes or
more (`progress_iff`).  The subscriber does on the first two, and on a notification of 1700 bytes or more
(`client_progress_iff`).  In the runs of both no send fails.
-/
namespace Ts

open Mem
open Text (ascii)

/-- What `fgets` can read into the buffer and `chop` can cut: a line that does not begin with a `0`, or at the end of the
input a text that is left in the buffer. -/
def Readable (buffer input : Bytes) : Prop := (input = [] → ∃ s, Holds buffer s ∧ s ≠ []) ∧ input.head? ≠ some 0

/-- The datagram is short, no text, or a text that ends inside the buffer. -/
def Terminated (d : Bytes) : Prop := 51 ≤ d.length → (udpRecv d)[50]? = some 3 → 0 ∈ (udpRecv d).drop 51

/-- The event belongs to where the loop stands, and its data leave no buffer. -/
def Server.Takes (srv : Server) : Event → Prop
  | .poll revents => srv.pc = .poll ∧ ∀ r, revents = some r → r.length = srv.pollStruct.nfds
  | .fgets input => srv.pc = .stdin ∧ Readable srv.stdin_buffer input
  | .accept c => srv.pc = .listen ∧ ∀ l, c = some l → srv.Serves l → l.buff.1.length < 1700
  | .recvfrom datagram order =>
    srv.pc = .udp ∧ order.Perm srv.userSubscriptions.keys ∧ ∀ r, datagram = some r → Terminated r.1
  | .recv _ _ => ∃ i x, srv.pc = .clients i ∧ srv.pollStruct.live[i]? = some x ∧ ready x = true
  | .next => ∃ i, srv.pc = .clients i ∧ ∀ x, srv.pollStruct.live[i]? = some x → ready x = false

/-- A text is given back by `applicationProtocol`, when its frame comes at once. -/
def givesBack (host : Host) (buff : Bytes) : Bool :=
  decide ((applicationProtocol host ⟨frame buff, [2, buff.length]⟩).map (·.1) = some buff)

/-- A step with the texts that it reads taken off their connections. -/
def Server.stepRead (host : Host) (srv : Server) (ev : Event) : Option (Server × List Act) :=
  (srv.step host ev).filter fun r => r.2.all fun
    | .recv _ buff => givesBack host buff
    | _ => true

/-- A round with the notification taken off the connection. -/
def Client.stepRead (host : Host) (cli : Client) : ClientEvent → Option (Client × List Act)
  | .notification buff => if givesBack host buff then cli.step (.notification buff) else none
  | .stdin => cli.step .stdin

/-! ## Texts -/

theorem length_recvLoop {payloadLen : Nat} : ∀ {recvs : List Int} {res recvLen : Int} {someBuffer stream buff : Bytes}
    {sock : Sock}, someBuffer.length = 1700 →
      recvLoop payloadLen recvs res recvLen someBuffer stream = some (buff, sock) →
    buff.length < 1700
  | recvs, res, recvLen, someBuffer, stream, buff, sock, hlen, h => by
    unfold recvLoop at h
    split at h
    · cases recvs with
      | nil => cases h
      | cons r recvs =>
        obtain ⟨⟨res', got, stream'⟩, -, h⟩ := Option.bind_eq_some_iff.1 h
        obtain ⟨someBuffer', hwrite, h⟩ := Option.bind_eq_some_iff.1 h
        split at h
        · obtain ⟨rfl, -⟩ := Prod.mk.inj (Option.some.inj h)
          decide
        · exact length_recvLoop ((length_of_write hwrite).trans hlen) h
    · obtain ⟨buff', hbuff, h⟩ := Option.bind_eq_some_iff.1 h
      obtain ⟨rfl, -⟩ := Prod.mk.inj (Option.some.inj h)
      exact hlen ▸ (holds_of_cstr hbuff).length_lt

theorem length_applicationProtocol {host : Host} {sock sock' : Sock} {buff : Bytes}
    (h : applicationProtocol host sock = some (buff, sock')) : buff.length < 1700 := by
  unfold applicationProtocol at h
  split at h
  · cases h
  · obtain ⟨⟨rc, got, stream⟩, -, h⟩ := Option.bind_eq_some_iff.1 h
    dsimp only at h
    split at h
    · obtain ⟨rfl, -⟩ := Prod.mk.inj (Option.some.inj h)
      decide
    · obtain ⟨header, -, h⟩ := Option.bind_eq_some_iff.1 h
      exact length_recvLoop List.length_replicate h

/-- **A text is read inside the buffer exactly when it leaves room for its terminator.** -/
theorem givesBack_iff (host : Host) {buff : Bytes} (h0 : 0 ∉ buff) : givesBack host buff = true ↔ buff.length < 1700 := by
  rw [givesBack, decide_eq_true_iff]
  constructor
  · intro h
    obtain ⟨⟨buff', sock'⟩, happ, rfl⟩ := Option.map_eq_some_iff.1 h
    exact length_applicationProtocol happ
  · intro hlen
    have hall : buff.length ≤ arrived [(buff.length : Int)] := by
      by_cases hnil : buff.length = 0
      · omega
      · rw [arrived_cons (show (0 : Int) < buff.length by omega), Int.toNat_natCast]
        exact Nat.le_add_right _ _
    obtain ⟨sock', happ⟩ := applicationProtocol_eq host [] 2 h0 hlen (Or.inr (Or.inl hall))
    rw [List.append_nil, if_pos (by decide), if_pos hall] at happ
    rw [happ, Option.map_some]

/-! ## Lines -/

theorem fgets_eq {buffer : Bytes} {size : Nat} (hbuf : size ≤ buffer.length) (hsize : 0 < size) {input : Bytes}
    (hne : input ≠ []) : fgets buffer size input = some ((fgetsLine (size - 1) input).1 ++
      0 :: buffer.drop ((fgetsLine (size - 1) input).1.length + 1), (fgetsLine (size - 1) input).2) := by
  have hlen := length_fgetsLine_le (size - 1) input
  have hwrite : write buffer 0 ((fgetsLine (size - 1) input).1 ++ [0]) = some ((fgetsLine (size - 1) input).1 ++
      0 :: buffer.drop ((fgetsLine (size - 1) input).1.length + 1)) := by
    rw [write_zero (by rw [List.length_append, List.length_singleton]; omega)]
    simp
  simp only [fgets, if_neg hne, hwrite, Option.bind_eq_bind, Option.bind_some]
  rfl

theorem holds_takeWhile (l rest : Bytes) : Holds (l ++ 0 :: rest) (l.takeWhile (· ≠ 0)) := by
  apply holds_of_cstr
  simp only [cstr, List.mem_append, List.mem_cons, true_or, or_true, if_true, Option.some.injEq, List.takeWhile_append]
  split
  · rename_i h
    have hpre : l.takeWhile (· ≠ 0) <+: l := List.takeWhile_prefix _
    rw [hpre.eq_of_length h]
    simp
  · rfl

theorem fgetsLine_head? {n : Nat} (hn : 0 < n) (input : Bytes) : (fgetsLine n input).1.head? = input.head? := by
  obtain ⟨n, rfl⟩ := Nat.exists_eq_add_of_lt hn
  cases input with
  | nil => rfl
  | cons c input =>
    unfold fgetsLine
    split <;> rfl

theorem readable_iff {buffer : Bytes} (size : Nat) (hsize : 1 < size) (hbuf : size ≤ buffer.length) (input : Bytes) :
    Readable buffer input ↔ ∃ b rest b', fgets buffer size input = some (b, rest) ∧ chop b = some b' := by
  by_cases hne : input = []
  · subst hne
    have heof : fgets buffer size [] = some (buffer, []) := rfl
    constructor
    · rintro ⟨htext, -⟩
      obtain ⟨s, hs, hsne⟩ := htext rfl
      obtain ⟨b', hchop, -, -⟩ := chop_holds hs hsne
      exact ⟨buffer, [], b', heof, hchop⟩
    · rintro ⟨b, rest, b', hfgets, hchop⟩
      obtain ⟨rfl, -⟩ := Prod.mk.inj (Option.some.inj (heof.symm.trans hfgets))
      obtain ⟨s, hs, hsne, -⟩ := holds_of_chop hchop
      exact ⟨fun _ => ⟨s, hs, hsne⟩, by simp⟩
  · have hread := fgets_eq hbuf (by omega) hne
    have hhead := fgetsLine_head? (n := size - 1) (by omega) input
    have hline := fgetsLine_ne_nil (n := size - 1) (by omega) hne
    generalize (fgetsLine (size - 1) input).1 = line at *
    have hhold := holds_takeWhile line (buffer.drop (line.length + 1))
    have hempty : line.takeWhile (· ≠ 0) ≠ [] ↔ input.head? ≠ some 0 := by
      obtain ⟨c, line, rfl⟩ := List.exists_cons_of_ne_nil hline
      rw [← hhead]
      by_cases hc : c = 0
      · simp [hc]
      · simp [hc]
    constructor
    · rintro ⟨-, h0⟩
      obtain ⟨b', hchop, -, -⟩ := chop_holds hhold (hempty.2 h0)
      exact ⟨_, _, b', hread, hchop⟩
    · rintro ⟨b, rest, b', hfgets, hchop⟩
      obtain ⟨rfl, -⟩ := Prod.mk.inj (Option.some.inj (hread.symm.trans hfgets))
      obtain ⟨s, hs, hsne, -⟩ := holds_of_chop hchop
      obtain rfl : line.takeWhile (· ≠ 0) = s := Option.some.inj (hhold.cstr_eq.symm.trans hs.cstr_eq)
      exact ⟨fun h => absurd h hne, hempty.1 hsne⟩

theorem length_fgets_chop {buffer b b' rest : Bytes} {size : Nat} {input : Bytes}
    (hfgets : fgets buffer size input = some (b, rest)) (hchop : chop b = some b') : b'.length = buffer.length := by
  have hb : b.length = buffer.length := by
    unfold fgets at hfgets
    split at hfgets
    · rw [(Prod.mk.inj (Option.some.inj hfgets)).1]
    · obtain ⟨b₁, hwrite, hfgets⟩ := Option.bind_eq_some_iff.1 hfgets
      rw [← (Prod.mk.inj (Option.some.inj hfgets)).1]
      exact length_of_write hwrite
  obtain ⟨s, -, hcut⟩ := Option.bind_eq_some_iff.1 hchop
  split at hcut
  · cases hcut
  · exact (length_of_write hcut).trans hb

/-! ## The server's steps -/

theorem manageUdp_isSome (host : Host) (d : Bytes) (sender : SockaddrIn) :
    (manageUdp host (udpRecv d) sender (d.take 1700).length).isSome ↔ Terminated d := by
  have hlen := length_udpRecv d
  have hsize : ((d.take 1700).length : Int) < 51 ↔ d.length < 51 := by
    rw [List.length_take]
    omega
  unfold Terminated
  generalize udpRecv d = buf at *
  by_cases hshort : d.length < 51
  · rw [manageUdp, if_pos (hsize.2 hshort)]
    exact iff_of_true rfl fun h => absurd h (by omega)
  have htopic : cstr (buf.take 50 ++ [0]) = some (topicOf buf) := cstr_append_zero _
  simp only [manageUdp, if_neg (mt hsize.1 hshort), readAt (show 0 + 50 ≤ buf.length by omega), List.drop_zero, htopic,
    getD_eq (show 50 < buf.length by omega), getD_eq (show 51 < buf.length by omega),
    getD_eq (show 56 < buf.length by omega), readAt (show 52 + 4 ≤ buf.length by omega),
    readAt (show 51 + 2 ≤ buf.length by omega), Option.bind_eq_bind, Option.bind_some, Option.some.injEq]
  generalize buf.getD 50 0 = datatype
  generalize buf.getD 51 0 = signByte
  by_cases h3 : datatype = 3
  · subst h3
    by_cases h0 : 0 ∈ buf.drop 51
    · simp [cstr, h0]
    · simp [cstr, h0, hshort]
  · refine iff_of_true ?_ fun _ h => absurd h h3
    rw [if_neg h3]
    repeat' split
    all_goals rfl

theorem acceptBranch_isSome (host : Host) {srv : Server} (hwf : srv.pollStruct.Wf) (c : Option Login) :
    (Server.acceptBranch host srv c).isSome := by
  cases c with
  | none => rfl
  | some c =>
    cases hnagle : c.nagleOk with
    | false => simp [Server.acceptBranch, hnagle]
    | true =>
      rcases PollAdjustable.addFd_cases host hwf c.connfd c.reallocOk with ⟨hadd, -, -⟩ | ⟨-, q, r, hadd, -, -⟩
      · simp [Server.acceptBranch, hnagle, hadd]
      · simp [Server.acceptBranch, hnagle, hadd]

theorem exit_isSome {srv : Server} (hwf : srv.pollStruct.Wf) (h3 : 3 ≤ srv.pollStruct.nfds) :
    (Server.exit srv).isSome := by
  simp [Server.exit, PollAdjustable.freeMemory_eq hwf h3]

theorem dispatch_isSome {p : PollAdjustable} (hwf : p.Wf) (h3 : 3 ≤ p.nfds) : (dispatch p).isSome := by
  have hcell : ∀ i < 3, ∃ x, p.pollfds[i]? = some x := fun i hi =>
    ⟨_, List.getElem?_eq_getElem (show i < p.pollfds.length by have := hwf.length; have := hwf.le; omega)⟩
  obtain ⟨x, hx⟩ := hcell 0 (by decide)
  obtain ⟨y, hy⟩ := hcell 1 (by decide)
  obtain ⟨z, hz⟩ := hcell 2 (by decide)
  simp only [dispatch, hx, hy, hz, Option.bind_eq_bind, Option.bind_some]
  repeat' split
  all_goals rfl

theorem pollStep_isSome {srv : Server} (hi : srv.Inv) (revents : Option (List UInt16)) :
    (Server.pollStep srv revents).isSome ↔ ∀ r, revents = some r → r.length = srv.pollStruct.nfds := by
  cases revents with
  | none => exact iff_of_true (exit_isSome hi.wf hi.three_le) fun _ h => nomatch h
  | some r =>
    have hcond : (∀ r', some r = some r' → r'.length = srv.pollStruct.nfds) ↔ r.length = srv.pollStruct.nfds :=
      ⟨fun h => h r rfl, fun h r' hr => Option.some.inj hr ▸ h⟩
    rw [hcond]
    by_cases hlen : r.length = srv.pollStruct.nfds
    · obtain ⟨pc, hpc⟩ := Option.isSome_iff_exists.1
        (dispatch_isSome (PollAdjustable.setRevents_wf hi.wf hlen) hi.three_le)
      simp [Server.pollStep, hlen, hpc]
    · simp [Server.pollStep, hlen]

theorem stdinBranch_isSome {srv : Server} (hi : srv.Inv) (hbuf : srv.stdin_buffer.length = 11) (input : Bytes) :
    (Server.stdinBranch srv input).isSome ↔ Readable srv.stdin_buffer input := by
  rw [readable_iff 8 (by decide) (by omega)]
  constructor
  · intro h
    obtain ⟨r, hr⟩ := Option.isSome_iff_exists.1 h
    obtain ⟨⟨b, rest⟩, hfgets, hr⟩ := Option.bind_eq_some_iff.1 hr
    obtain ⟨b', hchop, -⟩ := Option.bind_eq_some_iff.1 hr
    exact ⟨b, rest, b', hfgets, hchop⟩
  · rintro ⟨b, rest, b', hfgets, hchop⟩
    obtain ⟨s, -, -, hhold⟩ := holds_of_chop hchop
    have hexit := hhold.strcmpEq_eq (holds_terminated (s := ascii "exit") (by decide) [])
    simp only [Server.stdinBranch, hfgets, hchop, hexit, Option.bind_eq_bind, Option.bind_some]
    split
    · exact exit_isSome hi.wf hi.three_le
    · rfl

theorem addAction_isSome (host : Host) (u : UserIdSubscriptions) {topic : Bytes} (h : topic ≠ [] → Storable topic)
    (sub : Bool) : (addAction host u topic sub).isSome := by
  unfold addAction
  split
  · rfl
  · rename_i hne
    obtain ⟨s, hs⟩ := newSubscription_isSome host sub (h hne)
    simp [hs]

theorem command_isSome (host : Host) (srv : Server) (userId : Bytes) {buff : Bytes} (h0 : 0 ∉ buff)
    (h : (Server.readCommand buff).2 ≠ [] → Storable (Server.readCommand buff).2) (ok : Bool) :
    (srv.command host userId buff ok).isSome := by
  have htopic : 0 ∉ (Server.readCommand buff).2 := fun hm => h0 ((Server.readCommand_piece buff).subset hm)
  have hhold := holds_terminated htopic []
  cases ok with
  | false => simp [Server.command]
  | true =>
    have hadd : ∀ (u : UserIdSubscriptions) sub, ∃ u', addAction host u (Server.readCommand buff).2 sub = some u' :=
      fun u sub => Option.isSome_iff_exists.1 (addAction_isSome host u h sub)
    obtain ⟨v, hv⟩ := hadd (Table.entry srv.userSubscriptions userId (.mk' true (-1))).1 false
    obtain ⟨w, hw⟩ := hadd (Table.entry srv.userSubscriptions userId (.mk' true (-1))).1 true
    simp only [Server.command, hhold.strdup_eq, hhold.cstr_eq, addUnsubscribe, addSubscribe, hv, hw, Bool.not_true,
      Bool.false_eq_true, if_false, Option.bind_eq_bind, Option.bind_some]
    repeat' split
    all_goals rfl

theorem clientData_isSome (host : Host) {srv : Server} (hi : srv.Inv) {i : Nat} {x : Pollfd}
    (hx : srv.pollStruct.live[i]? = some x) (j : Nat) {buff : CText} (hbuff : buff.1 = [] ∨ SubscriberFrame buff)
    (ok : Bool) : (Server.clientData host { srv with pc := .clients j } x.fd buff ok).isSome := by
  unfold Server.clientData
  by_cases hb : buff.1 = []
  · obtain ⟨p, hrem, -⟩ := PollAdjustable.remove_present hi.wf ⟨x, List.mem_of_getElem? hx, rfl⟩
    simp [hb, hrem]
  · have hfits : (Server.readCommand buff).2 ≠ [] → Storable (Server.readCommand buff).2 :=
      fun hne => ((hbuff.resolve_left hb).stored buff.2 hne).storable
    simp only [if_neg hb, Option.bind_eq_bind]
    obtain ⟨srv', hsrv'⟩ := Option.isSome_iff_exists.1 (command_isSome host
      { srv with pc := .clients j, fdsToUsers := (Table.entry srv.fdsToUsers x.fd []).2 }
      (Table.entry srv.fdsToUsers x.fd []).1 buff.2 hfits ok)
    simp [hsrv']

theorem recv_isSome {host : Host} {srv : Server} (hi : srv.Inv) {buff : CText}
    (hbuff : buff.1 = [] ∨ SubscriberFrame buff) (ok : Bool) (i : Nat) :
    (srv.clientStep host i (.recv buff ok)).isSome ↔ ∃ x, srv.pollStruct.live[i]? = some x ∧ ready x = true := by
  have hlen := hi.wf.length_live
  by_cases hend : srv.pollStruct.nfds ≤ i
  · have hnone : srv.pollStruct.live[i]? = none := List.getElem?_eq_none (by omega)
    simp [Server.clientStep, hend, hnone]
  · obtain ⟨x, hx⟩ : ∃ x, srv.pollStruct.live[i]? = some x := ⟨_, List.getElem?_eq_getElem (by omega)⟩
    have hcell : srv.pollStruct.pollfds[i]? = some x := by rw [PollAdjustable.Wf.getElem?_live (by omega), hx]
    cases hr : ready x with
    | false => simp [Server.clientStep, hend, hcell, hx, hr]
    | true =>
      have := clientData_isSome host hi hx (i + 1) hbuff ok
      simpa [Server.clientStep, hend, hcell, hx, hr] using this

theorem next_isSome {host : Host} {srv : Server} (hi : srv.Inv) (i : Nat) :
    (srv.clientStep host i .next).isSome ↔ ∀ x, srv.pollStruct.live[i]? = some x → ready x = false := by
  have hlen := hi.wf.length_live
  by_cases hend : srv.pollStruct.nfds ≤ i
  · have hnone : srv.pollStruct.live[i]? = none := List.getElem?_eq_none (by omega)
    simp [Server.clientStep, hend, hnone]
  · obtain ⟨x, hx⟩ : ∃ x, srv.pollStruct.live[i]? = some x := ⟨_, List.getElem?_eq_getElem (by omega)⟩
    have hcell : srv.pollStruct.pollfds[i]? = some x := by rw [PollAdjustable.Wf.getElem?_live (by omega), hx]
    cases hr : ready x with
    | false => simp [Server.clientStep, hend, hcell, hx, hr]
    | true => simp [Server.clientStep, hend, hcell, hx, hr]

theorem udpBranch_isSome (host : Host) {srv : Server} {order : List Bytes}
    (hstored : ∀ u v, srv.userSubscriptions.lookup u = some v → ∀ s ∈ v.subscriptions, Storable s.getExpression)
    (horder : ∀ u ∈ order, u ∈ srv.userSubscriptions) (datagram : Option (Bytes × SockaddrIn)) :
    (Server.udpBranch host srv datagram order).isSome ↔ ∀ r, datagram = some r → Terminated r.1 := by
  cases datagram with
  | none =>
    refine iff_of_true ?_ fun _ h => nomatch h
    simp [Server.udpBranch, manageUdp]
  | some r =>
    obtain ⟨d, sender⟩ := r
    have hterm := manageUdp_isSome host d sender
    have hread : Mem.read (udpRecv d) 0 50 = some ((udpRecv d).take 50) :=
      readAt (by rw [length_udpRecv]; decide)
    have hdeliver := fun text => deliver_eq host text (topic_holds (udpRecv d)) (length_topicOf_le (udpRecv d)) hstored
      order horder
    constructor
    · intro h r hr
      obtain rfl := Option.some.inj hr
      obtain ⟨res, hres⟩ := Option.isSome_iff_exists.1 h
      obtain ⟨text, htext, -⟩ := Option.bind_eq_some_iff.1 hres
      exact hterm.1 (Option.isSome_iff_exists.2 ⟨text, htext⟩)
    · intro h
      obtain ⟨text, htext⟩ := Option.isSome_iff_exists.1 (hterm.2 (h _ rfl))
      simp only [Server.udpBranch, Option.getD_some, Option.isNone_some, Bool.false_eq_true, if_false, htext, hread,
        hdeliver, Option.bind_eq_bind, Option.bind_some]
      split <;> rfl

/-! ## Runs of the server -/

theorem exit_buffer {srv srv' : Server} {acts : List Act} (h : srv.exit = some (srv', acts)) :
    srv'.stdin_buffer = srv.stdin_buffer := by
  obtain ⟨r, -, h⟩ := Option.bind_eq_some_iff.1 h
  rw [← (Prod.mk.inj (Option.some.inj h)).1]

theorem login_buffer (srv : Server) (connfd : Fd) (cli : SockaddrIn) (buff : Bytes) :
    (srv.login connfd cli buff).1.stdin_buffer = srv.stdin_buffer := by
  unfold Server.login
  split
  · split
    · rfl
    · dsimp only
      split <;> rfl
  · rfl

theorem acceptBranch_buffer {host : Host} {srv srv' : Server} {c : Option Login} {acts : List Act}
    (h : srv.acceptBranch host c = some (srv', acts)) : srv'.stdin_buffer = srv.stdin_buffer := by
  unfold Server.acceptBranch at h
  split at h
  · rw [← (Prod.mk.inj (Option.some.inj h)).1]
  · split at h
    · rw [← (Prod.mk.inj (Option.some.inj h)).1]
    · obtain ⟨⟨rc, p⟩, -, h⟩ := Option.bind_eq_some_iff.1 h
      dsimp only at h
      split at h
      · rw [← (Prod.mk.inj (Option.some.inj h)).1]
      · rw [← (Prod.mk.inj (Option.some.inj h)).1]
        exact login_buffer _ _ _ _

theorem command_buffer {host : Host} {srv srv' : Server} {userId buff : Bytes} {ok : Bool}
    (h : srv.command host userId buff ok = some srv') : srv'.stdin_buffer = srv.stdin_buffer := by
  unfold Server.command at h
  dsimp only at h
  split at h
  · rw [← Option.some.inj h]
  · obtain ⟨str, -, h⟩ := Option.bind_eq_some_iff.1 h
    obtain ⟨str', -, h⟩ := Option.bind_eq_some_iff.1 h
    split at h
    · obtain ⟨u, -, h⟩ := Option.bind_eq_some_iff.1 h
      rw [← Option.some.inj h]
    · split at h
      · obtain ⟨u, -, h⟩ := Option.bind_eq_some_iff.1 h
        rw [← Option.some.inj h]
      · rw [← Option.some.inj h]

theorem clientStep_buffer {host : Host} {srv srv' : Server} {i : Nat} {ev : Event} {acts : List Act}
    (h : srv.clientStep host i ev = some (srv', acts)) : srv'.stdin_buffer = srv.stdin_buffer := by
  unfold Server.clientStep at h
  split at h
  · dsimp only at h
    split at h
    · rw [← (Prod.mk.inj (Option.some.inj h)).1]
    · obtain ⟨x, -, h⟩ := Option.bind_eq_some_iff.1 h
      split at h
      · cases h
      · rw [← (Prod.mk.inj (Option.some.inj h)).1]
  · dsimp only at h
    split at h
    · cases h
    · obtain ⟨x, -, h⟩ := Option.bind_eq_some_iff.1 h
      split at h
      · cases h
      · unfold Server.clientData at h
        dsimp only at h
        split at h
        · obtain ⟨⟨p, acts'⟩, -, h⟩ := Option.bind_eq_some_iff.1 h
          rw [← (Prod.mk.inj (Option.some.inj h)).1]
        · obtain ⟨srv₁, hcmd, h⟩ := Option.bind_eq_some_iff.1 h
          have hsame := command_buffer hcmd
          rw [← (Prod.mk.inj (Option.some.inj h)).1]
          exact hsame
  · cases h

theorem length_stdin_buffer {host : Host} {srv srv' : Server} {ev : Event} {acts : List Act}
    (h : srv.step host ev = some (srv', acts)) : srv'.stdin_buffer.length = srv.stdin_buffer.length := by
  unfold Server.step at h
  split at h
  · rename_i revents _
    cases revents with
    | none => rw [exit_buffer h]
    | some revents =>
      unfold Server.pollStep at h
      dsimp only at h
      split at h
      · cases h
      · obtain ⟨pc, -, h⟩ := Option.bind_eq_some_iff.1 h
        rw [← (Prod.mk.inj (Option.some.inj h)).1]
  · obtain ⟨⟨b, rest⟩, hfgets, h⟩ := Option.bind_eq_some_iff.1 h
    obtain ⟨b', hchop, h⟩ := Option.bind_eq_some_iff.1 h
    obtain ⟨eq, -, h⟩ := Option.bind_eq_some_iff.1 h
    have hlen := length_fgets_chop hfgets hchop
    split at h
    · rw [exit_buffer h]
      exact hlen
    · rw [← (Prod.mk.inj (Option.some.inj h)).1]
      exact hlen
  · rw [acceptBranch_buffer h]
  · split at h
    · rw [Server.udpBranch_same h]
    · cases h
  · rw [clientStep_buffer h]
  · cases h

theorem run_stdin_buffer {host : Host} {p₀ p : Proc} {tr : List (Event × List Act)} (h₀ : p₀.Start host)
    (hrun : Lts.Run (Proc.Step host) p₀ tr p) : p.server.stdin_buffer.length = 11 := by
  refine hrun.invariant (P := fun p => p.server.stdin_buffer.length = 11) ?_ ?_
  · obtain ⟨l, u, -, -, -, hboot⟩ := h₀
    obtain ⟨srv, hstart, rfl⟩ := Option.map_eq_some_iff.1 hboot
    have hbuf : (Server.start host l u).map (·.stdin_buffer) = some (host.malloc 11) := rfl
    rw [hstart, Option.map_some, Option.some.injEq] at hbuf
    exact hbuf ▸ host.length_malloc 11
  · exact fun p e q hp h => (length_stdin_buffer h.step).trans hp

theorem run_udpBranch_isSome {host : Host} {p₀ p : Proc} {tr : List (Event × List Act)} (h₀ : p₀.Start host)
    (hrun : Lts.Run (Proc.Step host) p₀ tr p) (hfrom : ∀ e ∈ tr, FromSubscribers e) {order : List Bytes}
    (horder : order.Perm p.server.userSubscriptions.keys) (datagram : Option (Bytes × SockaddrIn)) :
    (p.server.udpBranch host datagram order).isSome ↔ ∀ r, datagram = some r → Terminated r.1 := by
  have hstored := run_stored h₀ hrun hfrom
  have hkept : ∀ u v, p.server.userSubscriptions.lookup u = some v → ∀ s ∈ v.subscriptions,
      Storable s.getExpression :=
    fun u v hv s hs => (hstored u s (by rwa [subscriptionsOf_of_lookup hv])).storable
  exact udpBranch_isSome host hkept (fun u hu => AList.mem_keys.2 (horder.mem_iff.1 hu)) datagram

/-- **Every terminated datagram is gone through**, wherever a run has come to the datagram branch. -/
theorem datagram_taken {host : Host} {p₀ p : Proc} {tr : List (Event × List Act)} (h₀ : p₀.Start host)
    (hrun : Lts.Run (Proc.Step host) p₀ tr p) (hfrom : ∀ e ∈ tr, FromSubscribers e) (hpc : p.server.pc = .udp) {d : Bytes}
    (hd : Terminated d) (sender : SockaddrIn) {order : List Bytes}
    (horder : order.Perm p.server.userSubscriptions.keys) :
    ∃ acts q, p.Step host (.recvfrom (some (d, sender)) order, acts) q := by
  obtain ⟨⟨srv, acts⟩, hbranch⟩ := Option.isSome_iff_exists.1 ((run_udpBranch_isSome h₀ hrun hfrom horder
    (some (d, sender))).2 fun r hr => Option.some.inj hr ▸ hd)
  have hstep : p.server.step host (.recvfrom (some (d, sender)) order) = some (srv, acts) := by
    unfold Server.step
    rw [hpc]
    exact (if_pos horder).trans hbranch
  refine ⟨acts, ⟨srv, _⟩, hstep, fun fd hfd => ?_, rfl⟩
  obtain ⟨x, str, hx⟩ := udpBranch_sends hbranch _ hfd
  cases hx

theorem login_acts (srv : Server) (connfd : Fd) (cli : SockaddrIn) (buff : Bytes) {fd : Fd} {b : Bytes} :
    Act.recv fd b ∉ (srv.login connfd cli buff).2 := by
  unfold Server.login
  split
  · split
    · simp [Server.newClient]
    · dsimp only
      split
      · simp [Server.newClient]
      · simp [Server.refuse, PollAdjustable.removeLast, Server.alreadyConnected]
  · simp [Server.refuse, PollAdjustable.removeLast]

/-- The id is read when the connection gets as far as its login. -/
theorem acceptBranch_recv {host : Host} {srv srv' : Server} {c : Login} {acts : List Act} (hwf : srv.pollStruct.Wf)
    (h : srv.acceptBranch host (some c) = some (srv', acts)) {fd : Fd} {b : Bytes} :
    Act.recv fd b ∈ acts ↔ srv.Serves c ∧ fd = c.connfd ∧ b = c.buff := by
  cases hnagle : c.nagleOk with
  | false =>
    simp only [Server.acceptBranch, hnagle, Bool.not_false, if_true, Option.some.injEq, Prod.mk.injEq] at h
    simp [← h.2, Server.Serves, hnagle]
  | true =>
    rcases PollAdjustable.addFd_cases host hwf c.connfd c.reallocOk with ⟨hadd, hfull, hno⟩ | ⟨hroom, q, r, hadd, -, -⟩
    · simp only [Server.acceptBranch, hnagle, hadd, Bool.not_true, Bool.false_eq_true, if_false, Option.bind_eq_bind,
        Option.bind_some, if_true] at h
      obtain ⟨-, rfl⟩ := Prod.mk.inj (Option.some.inj h)
      simp [Server.Serves, hfull, hno]
    · simp only [Server.acceptBranch, hnagle, hadd, Bool.not_true, Bool.false_eq_true, if_false, Option.bind_eq_bind,
        Option.bind_some, if_neg (show (1 : Int) ≠ -1 by decide)] at h
      obtain ⟨-, rfl⟩ := Prod.mk.inj (Option.some.inj h)
      have hserves : srv.Serves c := ⟨hnagle, hroom⟩
      simp [login_acts, hserves]

theorem SubscriberFrame.short {buff : Bytes} (h : SubscriberFrame buff) : buff.length < 1700 := by
  obtain ⟨s, hs, hpre⟩ := h
  obtain ⟨c, hv, rfl⟩ := hs.line
  have hword : (commandWord c.subscribed).length ≤ 12 := by cases c.subscribed <;> decide
  have hle := hpre.length_le
  have htopic := hv.2.1
  simp only [Command.line, List.length_append, List.length_cons] at hle
  omega

/-- **What a step reads fits the buffer** when its id does. -/
theorem reads_fit {host : Host} {srv srv' : Server} {ev : Event} {acts : List Act} (hi : srv.Inv)
    (hev : FromSubscribers (ev, [])) (hstep : srv.step host ev = some (srv', acts)) :
    (∀ fd b, Act.recv fd b ∈ acts → givesBack host b = true) ↔
      ∀ l, ev = .accept (some l) → srv.Serves l → l.buff.1.length < 1700 := by
  by_cases haccept : ∃ c, ev = .accept (some c)
  · obtain ⟨c, rfl⟩ := haccept
    have hbranch : srv.acceptBranch host (some c) = some (srv', acts) := by
      cases hpc : srv.pc with
      | listen => simpa [Server.step, hpc] using hstep
      | clients i => simp [Server.step, hpc, Server.clientStep] at hstep
      | _ => simp [Server.step, hpc] at hstep
    constructor
    · rintro h l hl hs
      cases hl
      exact (givesBack_iff host c.buff.2).1 (h _ _ ((acceptBranch_recv hi.wf hbranch).2 ⟨hs, rfl, rfl⟩))
    · intro h fd b hmem
      obtain ⟨hs, rfl, rfl⟩ := (acceptBranch_recv hi.wf hbranch).1 hmem
      exact (givesBack_iff host c.buff.2).2 (h c rfl hs)
  · refine iff_of_true (fun fd b hmem => ?_) fun l hl => absurd ⟨l, hl⟩ haccept
    -- what the client loop reads is short
    have hframe : ∀ buff : CText, ev.frame = some buff → givesBack host buff = true := fun buff hb =>
      (givesBack_iff host buff.2).2 ((hev buff hb).elim (fun hnil => by simp [hnil]) SubscriberFrame.short)
    cases step_move hi hstep with
    | exit =>
      rcases List.mem_append.1 hmem with hmem | hmem
      · simp at hmem
      · obtain ⟨x, -, hx⟩ := List.mem_map.1 hmem
        cases hx
    | quiet => cases hmem
    | dropped => exact absurd ⟨_, rfl⟩ haccept
    | refused => exact absurd ⟨_, rfl⟩ haccept
    | login => exact absurd ⟨_, rfl⟩ haccept
    | datagram _ _ _ hbranch =>
      obtain ⟨x, str, hx⟩ := udpBranch_sends hbranch _ hmem
      cases hx
    | @logout ok h0 =>
      obtain ⟨-, rfl⟩ : fd = _ ∧ b = [] := by simpa [Server.disconnected] using hmem
      exact hframe ⟨[], h0⟩ rfl
    | @ignored buff =>
      obtain ⟨-, rfl⟩ := Act.recv.inj (List.mem_singleton.1 hmem)
      exact hframe buff rfl
    | @command buff =>
      obtain ⟨-, rfl⟩ := Act.recv.inj (List.mem_singleton.1 hmem)
      exact hframe buff rfl

theorem stepRead_isSome {host : Host} {srv : Server} {ev : Event} (hi : srv.Inv) (hev : FromSubscribers (ev, [])) :
    (srv.stepRead host ev).isSome ↔ (srv.step host ev).isSome ∧
      ∀ l, ev = .accept (some l) → srv.Serves l → l.buff.1.length < 1700 := by
  cases hstep : srv.step host ev with
  | none => simp [Server.stepRead, hstep]
  | some r =>
    rw [← reads_fit hi hev hstep, Server.stepRead, hstep, Option.isSome_filter, Option.any_some, List.all_eq_true]
    simp only [Option.isSome_some, true_and]
    constructor
    · exact fun h fd b hmem => h _ hmem
    · intro h a ha
      cases a with
      | recv fd b => exact h fd b ha
      | _ => rfl

/-- **The server never gets stuck but on four inputs**: while the frames come from subscribers, wherever a run has come
to, the next step is taken for every event that belongs there, and every access it makes is inside its buffer, unless a
line of standard input begins with a `0`, or has ended with nothing left in the buffer to cut, or a text datagram has no
terminator in its buffer, or the id of a login has 1700 bytes or more. -/
theorem progress_iff {host : Host} {p₀ p : Proc} {tr : List (Event × List Act)} (h₀ : p₀.Start host)
    (hrun : Lts.Run (Proc.Step host) p₀ tr p) (hfrom : ∀ e ∈ tr, FromSubscribers e) {ev : Event}
    (hev : FromSubscribers (ev, [])) : (p.server.stepRead host ev).isSome ↔ p.server.Takes ev := by
  have hbuf := run_stdin_buffer h₀ hrun
  by_cases hexit : p.server.pc = .exited
  · rw [Server.stepRead, step_exited hexit]
    cases ev <;> simp [Server.Takes, hexit]
  have hi := ((run_inv h₀ hrun).resolve_left hexit).1
  rw [stepRead_isSome hi hev]
  cases hpc : p.server.pc with
  | exited => exact absurd hpc hexit
  | poll =>
    cases ev with
    | poll revents => simp [Server.step, Server.Takes, hpc, pollStep_isSome hi]
    | _ => simp [Server.step, Server.Takes, hpc]
  | stdin =>
    cases ev with
    | fgets input => simp [Server.step, Server.Takes, hpc, stdinBranch_isSome hi hbuf]
    | _ => simp [Server.step, Server.Takes, hpc]
  | listen =>
    cases ev with
    | accept c => simp [Server.step, Server.Takes, hpc, acceptBranch_isSome host hi.wf]
    | _ => simp [Server.step, Server.Takes, hpc]
  | udp =>
    cases ev with
    | recvfrom datagram order =>
      by_cases horder : order.Perm p.server.userSubscriptions.keys
      · have hbranch := run_udpBranch_isSome h₀ hrun hfrom horder datagram
        simp only [Server.step, Server.Takes, hpc, if_pos horder, hbranch, true_and, reduceCtorEq, IsEmpty.forall_iff,
          implies_true, and_true]
        exact ⟨fun h => ⟨horder, h⟩, fun h => h.2⟩
      · simp [Server.step, Server.Takes, hpc, horder]
    | _ => simp [Server.step, Server.Takes, hpc]
  | clients i =>
    cases ev with
    | recv buff ok => simp [Server.step, Server.Takes, hpc, recv_isSome hi (hev buff rfl)]
    | next => simp [Server.step, Server.Takes, hpc, next_isSome hi]
    | _ => simp [Server.step, Server.Takes, hpc, Server.clientStep]

theorem progress_iff_line : ∃ p : Proc, p.server.pc = .stdin ∧
    (p.server.stepRead exactHost (.fgets (ascii "ab\n"))).isSome := by
  have hrun : ((Proc.boot exactHost 3 4).bind fun p₀ => (Lts.exec (Proc.next exactHost) p₀ [.poll (some [1, 0, 0])]).map
      fun r => (r.2.server.pc, r.1.map (·.1.frame))) = some (.stdin, [none]) := by decide +kernel
  obtain ⟨p₀, hboot, hrun⟩ := Option.bind_eq_some_iff.1 hrun
  obtain ⟨⟨tr, p⟩, hexec, hp⟩ := Option.map_eq_some_iff.1 hrun
  obtain ⟨hpc, hframes⟩ := Prod.mk.inj hp
  refine ⟨p, hpc, (progress_iff ⟨3, 4, by decide, by decide, by decide, hboot⟩ (Lts.exec_run Proc.next_step .nil hexec)
    (fun e he buff hframe => ?_) (fun buff hframe => by simp [Event.frame] at hframe)).2
      ⟨hpc, by simp [ascii], by decide⟩⟩
  have hmem : e.1.frame ∈ tr.map (·.1.frame) := List.mem_map_of_mem he
  rw [show tr.map _ = _ from hframes, hframe] at hmem
  simp at hmem

/-! ## Runs of the subscriber -/

def Client.Steps (cli : Client) (e : ClientEvent × List Act) (cli' : Client) : Prop := cli.step e.1 = some (cli', e.2)

theorem Client.length_stdin_buffer {cli cli' : Client} {ev : ClientEvent} {acts : List Act}
    (h : cli.step ev = some (cli', acts)) : cli'.stdin_buffer.length = cli.stdin_buffer.length := by
  cases ev with
  | stdin =>
    unfold step at h
    dsimp only at h
    split at h
    · cases h
    obtain ⟨⟨b, rest⟩, hfgets, h⟩ := Option.bind_eq_some_iff.1 h
    obtain ⟨b', hchop, h⟩ := Option.bind_eq_some_iff.1 h
    obtain ⟨eq, -, h⟩ := Option.bind_eq_some_iff.1 h
    have hlen := length_fgets_chop hfgets hchop
    split at h
    · rw [← (Prod.mk.inj (Option.some.inj h)).1]
      exact hlen
    · obtain ⟨acts', -, h⟩ := Option.bind_eq_some_iff.1 h
      rw [← (Prod.mk.inj (Option.some.inj h)).1]
      exact hlen
  | notification buff =>
    unfold step at h
    dsimp only at h
    split at h
    · cases h
    · split at h
      · rw [← (Prod.mk.inj (Option.some.inj h)).1]
      · split at h
        · rw [← (Prod.mk.inj (Option.some.inj h)).1]
        · rw [← (Prod.mk.inj (Option.some.inj h)).1]

theorem client_stdin_isSome {cli : Client} (hbuf : cli.stdin_buffer.length = 100) :
    (cli.step .stdin).isSome ↔ cli.running = true ∧ Readable cli.stdin_buffer cli.input := by
  cases hgo : cli.running with
  | false => simp [Client.step, hgo]
  | true =>
    rw [readable_iff 65 (by decide) (by omega)]
    simp only [true_and]
    constructor
    · intro h
      obtain ⟨r, hr⟩ := Option.isSome_iff_exists.1 h
      simp only [Client.step, hgo, Bool.not_true, Bool.false_eq_true, if_false] at hr
      obtain ⟨⟨b, rest⟩, hfgets, hr⟩ := Option.bind_eq_some_iff.1 hr
      obtain ⟨b', hchop, -⟩ := Option.bind_eq_some_iff.1 hr
      exact ⟨b, rest, b', hfgets, hchop⟩
    · rintro ⟨b, rest, b', hfgets, hchop⟩
      obtain ⟨s, -, -, hhold⟩ := holds_of_chop hchop
      have hexit := hhold.strcmpEq_eq (holds_terminated (s := ascii "exit") (by decide) [])
      obtain ⟨acts, hacts⟩ : ∃ acts, Client.command cli.socket_cli b' = some acts := by
        rcases command_cases cli.socket_cli hhold with ⟨-, h⟩ | ⟨c, -, -, h⟩
        · exact ⟨_, h⟩
        · exact ⟨_, h⟩
      simp only [Client.step, hgo, hfgets, hchop, hexit, hacts, Bool.not_true, Bool.false_eq_true, if_false,
        Option.bind_eq_bind, Option.bind_some]
      split <;> rfl

theorem client_notification_isSome {cli : Client} {buff : CText} :
    (cli.step (.notification buff)).isSome ↔ cli.running = true := by
  cases hgo : cli.running with
  | false => simp [Client.step, hgo]
  | true =>
    simp only [Client.step, hgo, Bool.not_true, Bool.false_eq_true, if_false, iff_true]
    repeat' split
    all_goals rfl

/-- **The subscriber never gets stuck but on three inputs**: whatever bytes its standard input holds and whatever arrives,
the next round of a subscriber that runs is taken, with every access inside its buffer, unless a line begins with a `0`,
or the input has ended with nothing left in the buffer to cut, or a notification has 1700 bytes or more. -/
theorem client_progress_iff {host : Host} {fd : Fd} {input : Bytes} {cli : Client} {tr : List (ClientEvent × List Act)}
    (hrun : Lts.Run Client.Steps (Client.start host fd input) tr cli) (ev : ClientEvent) :
    (cli.stepRead host ev).isSome ↔ cli.running = true ∧ (ev = .stdin → Readable cli.stdin_buffer cli.input) ∧
      ∀ buff, ev = .notification buff → buff.1.length < 1700 := by
  have hbuf : cli.stdin_buffer.length = 100 :=
    hrun.invariant (P := fun cli => cli.stdin_buffer.length = 100) (host.length_malloc 100)
      fun _ _ _ hp h => (Client.length_stdin_buffer h).trans hp
  cases ev with
  | stdin => simp [Client.stepRead, client_stdin_isSome hbuf]
  | notification buff =>
    rw [Client.stepRead, if_congr (givesBack_iff host buff.2) rfl rfl]
    split
    · rename_i hlen
      simp [client_notification_isSome, hlen]
    · rename_i hlen
      simp [hlen]

theorem client_progress_iff_start : ((Client.start exactHost 3 (ascii "exit\n")).stepRead exactHost .stdin).isSome :=
  (client_progress_iff .nil .stdin).2 ⟨rfl, fun _ => ⟨by simp [Client.start, ascii], by decide⟩, by simp⟩

end Ts
