import TopicServer.Calls
/-!
# Pipe — the two ends of a connection

The calls of `sendTcp` at one end of a connection and of `applicationProtocol` at the other interleave: a frame is read
while it is still being written, two frames lie in the stream at once, a read ends inside one.  Seen from the two
functions none of this shows: the calls of a connection do what a channel of whole frames does (`pipe_traces_iff`),
which is what the server and its subscribers are given to talk over, and none of them is stuck (`pipe_finishes`).  The
texts have 1 to 1699 bytes, and no call fails.
-/
namespace Ts

open Mem

/-- One direction of a connection: the bytes sent and not yet received, whether its sender has closed it, and the calls
under way at its ends. -/
structure Pipe where
  stream : Bytes
  closed : Bool
  sending : Option Sending
  receiving : Option Receiving

inductive PipeEvent
  | sendTcp (m : Frame)
  | send (r : Int)
  | sent
  | close
  | applicationProtocol
  | recv (r : Int)
  | received

namespace Pipe

/-- How a `recv` can end on a connection that does not fail: with some bytes, or with nothing at the end of the file. -/
def Ends (p : Pipe) (q : Receiving) (r : Int) : Prop :=
  0 < r ∧ (q.waits ≤ p.stream.length ∨ p.closed = true) ∨ r = 0 ∧ p.closed = true ∧ p.stream = []

instance (p : Pipe) (q : Receiving) (r : Int) : Decidable (p.Ends q r) := inferInstanceAs (Decidable (_ ∨ _))

/-- A function is called, makes one system call, or returns; with it what `applicationProtocol` returns, when it does. -/
def next (host : Host) (p : Pipe) : PipeEvent → Option ((PipeEvent × Option Bytes) × Pipe)
  | .sendTcp m =>
    if p.closed || p.sending.isSome then none
    else do
      let s ← Sending.start host m.1
      return ((.sendTcp m, none), { p with sending := some s })
  | .send r => do
    let s ← p.sending
    if s.goes ∧ 0 < r then
      let (put, s) ← s.call r
      return ((.send r, none), { p with stream := p.stream ++ put, sending := some s })
    else none
  | .sent => do
    let s ← p.sending
    if s.goes then none else return ((.sent, none), { p with sending := none })
  | .close => if p.sending.isSome then none else some ((.close, none), { p with closed := true })
  | .applicationProtocol =>
    if p.receiving.isSome then none
    else some ((.applicationProtocol, none), { p with receiving := some .header })
  | .recv r => do
    let q ← p.receiving
    if q.goes ∧ p.Ends q r then
      let (q, stream) ← q.call host r p.stream
      return ((.recv r, if q.isNone then some [] else none), { p with stream, receiving := q })
    else none
  | .received => do
    let q ← p.receiving
    if q.goes then none
    else do
      let buff ← q.result
      return ((.received, some buff), { p with receiving := none })

def Step (host : Host) (p : Pipe) (e : PipeEvent × Option Bytes) (p' : Pipe) : Prop := p.next host e.1 = some (e, p')

def new : Pipe := ⟨[], false, none, none⟩

end Pipe

/-- What the two programs see of a connection. -/
inductive ChanEvent
  | send (m : Frame)
  | close
  | take (buff : Bytes)

inductive ChanStep (c : Fifo.Chan Frame) : ChanEvent → Fifo.Chan Frame → Prop
  | send {m : Frame} {c' : Fifo.Chan Frame} : c.send m = some c' → ChanStep c (.send m) c'
  | close : ChanStep c .close c.close
  | take {m : Option Frame} {c' : Fifo.Chan Frame} : c.take = some (m, c') →
      ChanStep c (.take ((m.map (·.1)).getD [])) c'

def PipeEvent.seen : PipeEvent × Option Bytes → Option ChanEvent
  | (.sendTcp m, _) => some (.send m)
  | (.close, _) => some .close
  | (_, buff) => buff.map .take

/-! ## All calls -/

theorem Receiving.Ok.call {host : Host} {unread : List Frame} {p : Pipe} {q : Receiving} {q' : Option Receiving}
    {toSend stream : Bytes} {r : Int} (h : Ok unread (some q) (p.stream ++ toSend))
    (hsmall : ∀ m ∈ unread, m.1.length < 1700) (hclosed : p.closed = true → toSend = []) (hgoes : q.goes = true)
    (hends : p.Ends q r) (hcall : q.call host r p.stream = some (q', stream)) :
    q' = none ∧ unread = [] ∧ stream = [] ∧ p.closed = true ∨
      ∃ q₁, q' = some q₁ ∧ Ok unread (some q₁) (stream ++ toSend) := by
  generalize hbytes : p.stream ++ toSend = bytes at h
  cases h with
  | header =>
    cases unread with
    | nil =>
      obtain ⟨hnil, -⟩ := List.append_eq_nil_iff.1 hbytes
      rw [hnil] at hcall
      rcases hends with ⟨hr, -⟩ | ⟨rfl, hc, -⟩
      · -- nothing is there to be read
        have hnone : recvWaitall r 2 [] = none := (if_pos hr).trans (recv_nil (by decide) 2)
        simp only [Receiving.call, hnone, Option.bind_eq_bind, Option.bind_none] at hcall
        cases hcall
      · have hend : recvWaitall 0 2 [] = some (0, [], []) := rfl
        simp only [Receiving.call, hend, Option.bind_eq_bind, Option.bind_some] at hcall
        obtain ⟨rfl, rfl⟩ := Prod.mk.inj (Option.some.inj hcall)
        exact Or.inl ⟨rfl, rfl, rfl, hc⟩
    | cons m rest =>
      have hm := hsmall m List.mem_cons_self
      rw [List.flatMap_cons, frame, List.append_assoc] at hbytes
      have hlong : 2 ≤ p.stream.length := by
        have hall : p.closed = true → 2 ≤ p.stream.length := fun hc => by
          rw [hclosed hc, List.append_nil] at hbytes
          rw [hbytes]
          simp [Text.be16]
        rcases hends with ⟨-, hwait | hc⟩ | ⟨-, hc, -⟩
        · exact hwait
        · exact hall hc
        · exact hall hc
      have hr : 0 < r := by
        rcases hends with ⟨hr, -⟩ | ⟨-, -, hnil⟩
        · exact hr
        · rw [hnil] at hlong
          cases hlong
      obtain ⟨head, tail, hstream, htwo⟩ : ∃ head tail, p.stream = head ++ tail ∧ head.length = 2 :=
        ⟨_, _, (List.take_append_drop 2 p.stream).symm, by rw [List.length_take]; omega⟩
      rw [hstream, List.append_assoc] at hbytes
      obtain ⟨rfl, htail⟩ := List.append_inj hbytes (by rw [htwo]; rfl)
      have hheader : recvWaitall r 2 p.stream = some (2, Text.be16 m.1.length, tail) := by
        rw [hstream]
        simp [recvWaitall, hr, recv, Text.be16]
      have hwrite : write (host.malloc 2) 0 (Text.be16 m.1.length) = some (Text.be16 m.1.length) := by
        rw [write_zero (by simp [Text.be16])]
        simp [Text.be16]
      simp only [Receiving.call, hheader, hwrite, Option.bind_eq_bind, Option.bind_some,
        Text.be_be16 (show m.1.length < 65536 by omega)] at hcall
      obtain ⟨rfl, rfl⟩ := Prod.mk.inj (Option.some.inj hcall)
      exact Or.inr ⟨_, rfl, htail ▸ .payload (a := []) rest rfl (by decide)⟩
  | @payload m a b res rest hm hres =>
    have hlen := hsmall m List.mem_cons_self
    have hb : b ≠ [] := by
      rintro rfl
      rw [List.append_nil] at hm
      exact (of_decide_eq_true hgoes).2 (by rw [hm])
    rw [hm, List.length_append] at hlen
    have hreq : ((m.1.length : Int) - a.length).toNat = b.length := by
      rw [hm, List.length_append]
      omega
    have hr : 0 < r := by
      rcases hends with ⟨hr, -⟩ | ⟨-, hc, hnil⟩
      · exact hr
      · rw [hclosed hc, hnil] at hbytes
        exact absurd (List.append_eq_nil_iff.1 hbytes.symm).1 hb
    generalize hn : min r.toNat (min b.length p.stream.length) = n
    have hrecv : recv r b.length p.stream =
        if n = 0 then none else some ((n : Int), p.stream.take n, p.stream.drop n) := by
      simp only [recv, if_neg (show ¬ r < 0 by omega), if_neg (show r ≠ 0 by omega), hn]
    simp only [Receiving.call, hreq, hrecv, Option.bind_eq_bind] at hcall
    by_cases hzero : n = 0
    · rw [if_pos hzero] at hcall
      cases hcall
    have htake : p.stream.take n = b.take n := by
      have hcut := congrArg (List.take n) hbytes
      rwa [List.take_append_of_le_length (by omega), List.take_append_of_le_length (by omega)] at hcut
    have hdrop : p.stream.drop n ++ toSend = b.drop n ++ rest.flatMap fun m => frame m.1 := by
      have hcut := congrArg (List.drop n) hbytes
      rwa [List.drop_append_of_le_length (by omega), List.drop_append_of_le_length (by omega)] at hcut
    have hfits : (a ++ b.take n).length ≤ 1700 := by
      rw [List.length_append, List.length_take]
      omega
    have hcast : (a.length : Int) + n = ((a ++ b.take n).length : Nat) := by
      rw [List.length_append, List.length_take]
      omega
    rw [if_neg hzero] at hcall
    simp only [Option.bind_some, Int.toNat_natCast, htake, write_someBuffer hfits, hcast] at hcall
    rw [if_neg (by omega)] at hcall
    obtain ⟨rfl, rfl⟩ := Prod.mk.inj (Option.some.inj hcall)
    refine Or.inr ⟨_, rfl, hdrop ▸ .payload rest ?_ (by omega)⟩
    rw [List.append_assoc, List.take_append_drop, hm]

namespace Pipe

def toSend (p : Pipe) : Bytes := (p.sending.map Sending.left).getD []

/-- **What ties the calls to the channel of frames**: a frame is unread from the moment it is passed to `sendTcp` until
`applicationProtocol` returns it. -/
structure Rel (p : Pipe) (c : Fifo.Chan Frame) : Prop where
  closed : p.closed = c.closed
  quiet : p.closed = true → p.sending = none
  small : ∀ m ∈ c.unread, m.1.length < 1700
  sending : ∀ s, p.sending = some s → s.Ok
  bytes : Receiving.Ok c.unread p.receiving (p.stream ++ p.toSend)

theorem Rel.new : Pipe.new.Rel Fifo.Chan.new :=
  ⟨rfl, fun _ => rfl, fun _ h => (by cases h), fun _ h => (by cases h), .idle []⟩

/-- **A call refines the channel**: what it shows is a step of the channel, and the channel stays when it shows nothing. -/
theorem Step.refines {host : Host} {p p' : Pipe} {e : PipeEvent × Option Bytes} {c : Fifo.Chan Frame}
    (h : p.Step host e p') (hsmall : ∀ m, e.1 = .sendTcp m → m.1.length < 1700) (hrel : p.Rel c) :
    ∃ tr c', Lts.Run ChanStep c tr c' ∧ tr.filterMap some = (PipeEvent.seen e).toList ∧ p'.Rel c' := by
  obtain ⟨ev, ret⟩ := e
  unfold Step next at h
  cases ev with
  | sendTcp m =>
    have hm := hsmall m rfl
    dsimp only at h
    split at h
    · cases h
    rename_i hfree
    rw [Bool.or_eq_true, not_or, Bool.not_eq_true, Option.not_isSome_iff_eq_none] at hfree
    obtain ⟨hopen, hnone⟩ := hfree
    rw [Sending.start_eq host m hm] at h
    obtain ⟨hlabel, rfl⟩ := Prod.mk.inj (Option.some.inj h)
    obtain rfl : none = ret := (Prod.mk.inj hlabel).2
    have hsend : c.send m = some { c with unread := c.unread ++ [m] } := if_neg (by rw [← hrel.closed, hopen]; simp)
    refine ⟨[.send m], _, Lts.Run.nil.snoc (.send hsend), rfl, hrel.closed, fun hc => ?_, ?_, ?_, ?_⟩
    · exact absurd (hopen.symm.trans hc) (by simp)
    · intro m' hm'
      rcases List.mem_append.1 hm' with hold | hlast
      · exact hrel.small m' hold
      · exact List.mem_singleton.1 hlast ▸ hm
    · rintro s hs
      obtain rfl := Option.some.inj hs
      exact ⟨hm, show (0 : Int) < 999 by decide, Nat.zero_le _, by simp [length_frame]⟩
    · have hbytes := hrel.bytes.snoc m
      rwa [toSend, hnone, Option.map_none, Option.getD_none, List.append_nil, ← Sending.left_start m] at hbytes
  | send r =>
    obtain ⟨s, hs, h⟩ := Option.bind_eq_some_iff.1 h
    dsimp only at h
    split at h
    · rename_i hgo
      obtain ⟨⟨put, s'⟩, hcall, h⟩ := Option.bind_eq_some_iff.1 h
      obtain ⟨hlabel, rfl⟩ := Prod.mk.inj (Option.some.inj h)
      obtain rfl : none = ret := (Prod.mk.inj hlabel).2
      obtain ⟨hok, hleft⟩ := (hrel.sending s hs).call hgo.1 hgo.2 hcall
      refine ⟨[], c, .nil, rfl, hrel.closed, fun hc => ?_, hrel.small, ?_, ?_⟩
      · exact absurd (hs.symm.trans (hrel.quiet hc)) (by simp)
      · rintro s₁ hs₁
        exact Option.some.inj hs₁ ▸ hok
      · have hbytes := hrel.bytes
        rwa [toSend, hs, Option.map_some, Option.getD_some, ← hleft, ← List.append_assoc] at hbytes
    · cases h
  | sent =>
    obtain ⟨s, hs, h⟩ := Option.bind_eq_some_iff.1 h
    split at h
    · cases h
    rename_i hdone
    obtain ⟨hlabel, rfl⟩ := Prod.mk.inj (Option.some.inj h)
    obtain rfl : none = ret := (Prod.mk.inj hlabel).2
    refine ⟨[], c, .nil, rfl, hrel.closed, fun _ => rfl, hrel.small, fun _ h => (by cases h), ?_⟩
    have hbytes := hrel.bytes
    rwa [toSend, hs, Option.map_some, Option.getD_some, (hrel.sending s hs).left_done (by simpa using hdone)] at hbytes
  | close =>
    dsimp only at h
    split at h
    · cases h
    rename_i hidle
    rw [Option.not_isSome_iff_eq_none] at hidle
    obtain ⟨hlabel, rfl⟩ := Prod.mk.inj (Option.some.inj h)
    obtain rfl : none = ret := (Prod.mk.inj hlabel).2
    exact ⟨[.close], _, Lts.Run.nil.snoc .close, rfl, rfl, fun _ => hidle, hrel.small, hrel.sending, hrel.bytes⟩
  | applicationProtocol =>
    dsimp only at h
    split at h
    · cases h
    rename_i hidle
    rw [Option.not_isSome_iff_eq_none] at hidle
    obtain ⟨hlabel, rfl⟩ := Prod.mk.inj (Option.some.inj h)
    obtain rfl : none = ret := (Prod.mk.inj hlabel).2
    refine ⟨[], c, .nil, rfl, hrel.closed, hrel.quiet, hrel.small, hrel.sending, ?_⟩
    have hbytes := hrel.bytes
    rw [hidle] at hbytes
    exact hbytes.called
  | recv r =>
    obtain ⟨q, hq, h⟩ := Option.bind_eq_some_iff.1 h
    dsimp only at h
    split at h
    · rename_i hgo
      obtain ⟨⟨q', stream⟩, hcall, h⟩ := Option.bind_eq_some_iff.1 h
      obtain ⟨hlabel, rfl⟩ := Prod.mk.inj (Option.some.inj h)
      obtain rfl := (Prod.mk.inj hlabel).2
      have hclosed : p.closed = true → p.toSend = [] := fun hc => by rw [toSend, hrel.quiet hc]; rfl
      have hbytes := hrel.bytes
      rw [hq] at hbytes
      rcases hbytes.call hrel.small hclosed hgo.1 hgo.2 hcall with ⟨rfl, hnil, rfl, hc⟩ | ⟨q₁, rfl, hok⟩
      · -- the end of the file
        have htake : c.take = some (none, c) := by
          simp only [Fifo.Chan.take, hnil, ← hrel.closed, hc, if_true]
        refine ⟨[.take []], c, Lts.Run.nil.snoc (.take htake), rfl, hrel.closed, hrel.quiet, hrel.small, hrel.sending, ?_⟩
        have hrest := hclosed hc
        rw [toSend] at hrest ⊢
        dsimp only
        rw [hnil, hrest]
        exact .idle []
      · exact ⟨[], c, .nil, rfl, hrel.closed, hrel.quiet, hrel.small, hrel.sending, hok⟩
    · cases h
  | received =>
    obtain ⟨q, hq, h⟩ := Option.bind_eq_some_iff.1 h
    split at h
    · cases h
    rename_i hdone
    obtain ⟨buff, hresult, h⟩ := Option.bind_eq_some_iff.1 h
    obtain ⟨hlabel, rfl⟩ := Prod.mk.inj (Option.some.inj h)
    obtain rfl : some buff = ret := (Prod.mk.inj hlabel).2
    have hbytes := hrel.bytes
    rw [hq] at hbytes
    obtain ⟨m, rest, hunread, rfl, hok⟩ := hbytes.result hrel.small (by simpa using hdone) hresult
    have htake : c.take = some (some m, { c with read := c.read ++ [m], unread := rest }) := by
      simp only [Fifo.Chan.take, hunread]
    refine ⟨[.take m.1], _, Lts.Run.nil.snoc (.take htake), rfl, hrel.closed, hrel.quiet, fun m' hm' => ?_,
      hrel.sending, hok⟩
    exact hrel.small m' (hunread ▸ List.mem_cons_of_mem m hm')

def Idle (p : Pipe) : Prop := p.sending = none ∧ p.receiving = none

theorem Rel.stream_idle {p : Pipe} {c : Fifo.Chan Frame} (h : p.Rel c) (hidle : p.Idle) :
    p.stream = c.unread.flatMap fun m => frame m.1 := by
  have hbytes := h.bytes
  rw [toSend, hidle.1, hidle.2, Option.map_none, Option.getD_none, List.append_nil] at hbytes
  generalize hall : p.stream = bytes at hbytes
  generalize c.unread = unread at hbytes ⊢
  cases hbytes with
  | idle => rfl

theorem step_sent {host : Host} {p : Pipe} {s : Sending} (hs : p.sending = some s) (hgo : ¬ s.goes = true) :
    p.Step host (.sent, none) { p with sending := none } := by
  simp only [Step, next, hs, Option.bind_eq_bind, Option.bind_some, if_neg hgo]
  rfl

theorem loop_sends (host : Host) {sends sends' : List Int} {s : Sending} {wire : Bytes} {p : Pipe}
    (hs : p.sending = some s) (hpos : ∀ r ∈ sends, 0 < r) (h : s.loop sends = some (wire, sends')) :
    ∃ tr, Lts.Run (Step host) p tr { p with stream := p.stream ++ wire, sending := none } ∧
      tr.filterMap PipeEvent.seen = [] := by
  induction sends generalizing s wire p with
  | nil =>
    unfold Sending.loop at h
    by_cases hgo : s.goes = true
    · rw [if_pos hgo] at h
      cases h
    · rw [if_neg hgo] at h
      obtain ⟨rfl, rfl⟩ := Prod.mk.inj (Option.some.inj h)
      exact ⟨_, (List.append_nil p.stream).symm ▸ Lts.Run.nil.snoc (step_sent hs hgo), rfl⟩
  | cons r sends ih =>
    unfold Sending.loop at h
    by_cases hgo : s.goes = true
    · rw [if_pos hgo] at h
      obtain ⟨⟨put, s'⟩, hcall, h⟩ := Option.bind_eq_some_iff.1 h
      obtain ⟨⟨wire', sends''⟩, hloop, h⟩ := Option.bind_eq_some_iff.1 h
      obtain ⟨rfl, rfl⟩ := Prod.mk.inj (Option.some.inj h)
      have hstep : p.Step host (.send r, none) { p with stream := p.stream ++ put, sending := some s' } := by
        simp only [Step, next, hs, Option.bind_eq_bind, Option.bind_some, hcall,
          if_pos (show s.goes = true ∧ 0 < r from ⟨hgo, hpos r List.mem_cons_self⟩)]
        rfl
      obtain ⟨tr, hrun, hseen⟩ := ih (p := { p with stream := p.stream ++ put, sending := some s' }) rfl
        (fun x hx => hpos x (List.mem_cons_of_mem r hx)) hloop
      refine ⟨_, (Lts.Run.nil.snoc hstep).append (List.append_assoc .. ▸ hrun), ?_⟩
      rw [List.filterMap_append, hseen]
      rfl
    · rw [if_neg hgo] at h
      obtain ⟨rfl, rfl⟩ := Prod.mk.inj (Option.some.inj h)
      exact ⟨_, (List.append_nil p.stream).symm ▸ Lts.Run.nil.snoc (step_sent hs hgo), rfl⟩

theorem step_received {host : Host} {p : Pipe} {q : Receiving} {buff : Bytes} {recvs : List Int} {sock : Sock}
    (hq : p.receiving = some q) (hgo : ¬ q.goes = true)
    (h : (q.result.bind fun x => some (x, (⟨p.stream, recvs⟩ : Sock))) = some (buff, sock)) :
    p.Step host (.received, some buff) { p with stream := sock.stream, receiving := none } := by
  obtain ⟨buff', hresult, h⟩ := Option.bind_eq_some_iff.1 h
  obtain ⟨rfl, rfl⟩ := Prod.mk.inj (Option.some.inj h)
  simp only [Step, next, hq, Option.bind_eq_bind, Option.bind_some, if_neg hgo, hresult]
  rfl

theorem loop_receives (host : Host) {recvs : List Int} {q : Receiving} {buff : Bytes} {sock : Sock} {p : Pipe}
    (hq : p.receiving = some q) (hheader : q = .header → 2 ≤ p.stream.length) (hpos : ∀ r ∈ recvs, 0 < r)
    (h : q.loop host recvs p.stream = some (buff, sock)) :
    ∃ tr, Lts.Run (Step host) p tr { p with stream := sock.stream, receiving := none } ∧
      tr.filterMap PipeEvent.seen = [.take buff] := by
  induction recvs generalizing q p with
  | nil =>
    unfold Receiving.loop at h
    by_cases hgo : q.goes = true
    · rw [if_pos hgo] at h
      cases h
    · rw [if_neg hgo] at h
      exact ⟨_, Lts.Run.nil.snoc (step_received hq hgo h), rfl⟩
  | cons r recvs ih =>
    unfold Receiving.loop at h
    by_cases hgo : q.goes = true
    · rw [if_pos hgo] at h
      obtain ⟨⟨q', stream⟩, hcall, h⟩ := Option.bind_eq_some_iff.1 h
      have hr := hpos r List.mem_cons_self
      obtain ⟨hwaits, hbody⟩ := Receiving.call_waits hr hcall
      have hgoes : q.goes = true ∧ p.Ends q r := ⟨hgo, Or.inl ⟨hr, Or.inl (hwaits hheader)⟩⟩
      have hstep : p.Step host (.recv r, if q'.isNone then some [] else none) { p with stream, receiving := q' } := by
        simp only [Step, next, hq, Option.bind_eq_bind, Option.bind_some, if_pos hgoes, hcall]
        rfl
      cases q' with
      | none =>
        obtain ⟨rfl, rfl⟩ := Prod.mk.inj (Option.some.inj h)
        exact ⟨_, Lts.Run.nil.snoc hstep, rfl⟩
      | some q₁ =>
        obtain ⟨tr, hrun, hseen⟩ := ih (p := { p with stream, receiving := some q₁ }) rfl
          (fun hq₁ => absurd (hq₁ ▸ rfl) hbody) (fun x hx => hpos x (List.mem_cons_of_mem r hx)) h
        refine ⟨_, (Lts.Run.nil.snoc hstep).append hrun, ?_⟩
        rw [List.filterMap_append, hseen]
        rfl
    · rw [if_neg hgo] at h
      exact ⟨_, Lts.Run.nil.snoc (step_received hq hgo h), rfl⟩

theorem run_refines {host : Host} {p p' : Pipe} {tr : List (PipeEvent × Option Bytes)} {c : Fifo.Chan Frame}
    (hrun : Lts.Run (Step host) p tr p') (hsmall : ∀ m, .send m ∈ tr.filterMap PipeEvent.seen → m.1.length < 1700)
    (hrel : p.Rel c) : ∃ c', Lts.Run ChanStep c (tr.filterMap PipeEvent.seen) c' ∧ p'.Rel c' := by
  obtain ⟨tr', c', hchan, hseen, hrel'⟩ := hrun.matched (R := Rel)
    (L := fun e => ∀ m, e.1 = .sendTcp m → m.1.length < 1700) hrel
    (fun _ _ _ _ hrel hm hstep => hstep.refines hm hrel) (by
      rintro ⟨ev, ret⟩ he m rfl
      exact hsmall m (List.mem_filterMap.2 ⟨_, he, rfl⟩))
  rw [List.filterMap_some] at hseen
  exact ⟨c', hseen ▸ hchan, hrel'⟩

theorem take_inv {c c' : Fifo.Chan Frame} {buff : Bytes} (h : ChanStep c (.take buff) c') :
    ∃ m, c.take = some (m, c') ∧ (m.map (·.1)).getD [] = buff := by
  generalize hv : ChanEvent.take buff = v at h
  cases h with
  | take htake => exact ⟨_, htake, (ChanEvent.take.inj hv).symm⟩
  | send => cases hv
  | close => cases hv

theorem chanStep_unique {c c₁ c₂ : Fifo.Chan Frame} {v : ChanEvent} (h₁ : ChanStep c v c₁) (h₂ : ChanStep c v c₂) :
    c₁ = c₂ := by
  cases v with
  | send m =>
    cases h₁ with
    | send h₁ => cases h₂ with
      | send h₂ => exact Option.some.inj (h₁.symm.trans h₂)
  | close =>
    cases h₁
    cases h₂
    rfl
  | take buff =>
    obtain ⟨m₁, h₁, -⟩ := take_inv h₁
    obtain ⟨m₂, h₂, -⟩ := take_inv h₂
    exact (Prod.mk.inj (Option.some.inj (h₁.symm.trans h₂))).2

theorem ones_pos (n : Nat) : ∀ r ∈ List.replicate n (1 : Int), 0 < r := by
  intro r hr
  rw [List.eq_of_mem_replicate hr]
  decide

/-- **A step of the channel is a run of the calls**, each function on its own, when none is under way. -/
theorem realized {host : Host} {c c' : Fifo.Chan Frame} {v : ChanEvent} {p : Pipe} (h : ChanStep c v c')
    (hsmall : ∀ m, v = .send m → m.1.length < 1700) (hrel : p.Rel c) (hidle : p.Idle) :
    ∃ tr p', Lts.Run (Step host) p tr p' ∧ tr.filterMap PipeEvent.seen = [v] ∧ p'.Rel c' ∧ p'.Idle := by
  have hstream := hrel.stream_idle hidle
  -- the run need only show the right thing
  suffices hsome : ∃ tr p', Lts.Run (Step host) p tr p' ∧ tr.filterMap PipeEvent.seen = [v] ∧ p'.Idle by
    obtain ⟨tr, p', hrun, hseen, hidle'⟩ := hsome
    obtain ⟨c'', hchan, hrel'⟩ := run_refines hrun (fun m hm => hsmall m (by
      rw [hseen, List.mem_singleton] at hm
      exact hm.symm)) hrel
    rw [hseen] at hchan
    obtain ⟨c₁, hstep, hnil⟩ := hchan.uncons
    obtain rfl := hnil.of_nil
    obtain rfl := chanStep_unique h hstep
    exact ⟨tr, p', hrun, hseen, hrel', hidle'⟩
  obtain ⟨hs, hr⟩ := hidle
  cases h with
  | @send m _ hsend =>
    have hm := hsmall m rfl
    have hopen : p.closed = false := by
      rw [hrel.closed]
      by_contra hc
      rw [Bool.not_eq_false] at hc
      simp [Fifo.Chan.send, hc] at hsend
    obtain ⟨sends', -, -, hcall⟩ := sendTcp_frame host m.2.2 (by omega) (ones_pos (m.1.length + 2)) (by simp)
    rw [sendTcp_calls] at hcall
    obtain ⟨s, hstart, hloop⟩ := Option.bind_eq_some_iff.1 hcall
    have hbegin : p.Step host (.sendTcp m, none) { p with sending := some s } := by
      simp only [Step, next, hopen, hs, hstart]
      rfl
    obtain ⟨tr, hrun, hseen⟩ := loop_sends host (p := { p with sending := some s }) rfl (ones_pos _) hloop
    refine ⟨_, _, (Lts.Run.nil.snoc hbegin).append hrun, ?_, rfl, hr⟩
    rw [List.filterMap_append, hseen]
    rfl
  | close =>
    have hclose : p.Step host (.close, none) { p with closed := true } := by
      simp only [Step, next, hs]
      rfl
    exact ⟨_, _, Lts.Run.nil.snoc hclose, rfl, hs, hr⟩
  | @take m _ htake =>
    have hbegin : p.Step host (.applicationProtocol, none) { p with receiving := some .header } := by
      simp only [Step, next, hr]
      rfl
    cases m with
    | none =>
      obtain ⟨-, hc, hread⟩ := Fifo.Chan.take_end htake
      have hnil : c.unread = [] := by simpa [Fifo.Chan.sent] using hread
      have hempty : p.stream = [] := by rw [hstream, hnil]; rfl
      have hends : Receiving.goes .header = true ∧ Ends { p with receiving := some .header } .header 0 :=
        ⟨rfl, Or.inr ⟨rfl, hrel.closed.trans hc, hempty⟩⟩
      have hend : Step host { p with receiving := some .header } (.recv 0, some []) { p with receiving := none } := by
        have hcall : Receiving.call host 0 p.stream .header = some (none, p.stream) := rfl
        simp only [Step, next, Option.bind_eq_bind, Option.bind_some, if_pos hends, hcall]
        rfl
      exact ⟨_, _, (Lts.Run.nil.snoc hbegin).snoc hend, rfl, hs, rfl⟩
    | some m =>
      obtain ⟨rest, hunread⟩ : ∃ rest, c.unread = m :: rest := by
        unfold Fifo.Chan.take at htake
        split at htake
        · rename_i x rest hu
          exact ⟨rest, by rw [hu, Option.some.inj (Prod.mk.inj (Option.some.inj htake)).1]⟩
        · split at htake
          · cases (Prod.mk.inj (Option.some.inj htake)).1
          · cases htake
      have hm := hrel.small m (hunread ▸ List.mem_cons_self)
      rw [hunread, List.flatMap_cons] at hstream
      obtain ⟨recvs', -, -, hcall⟩ := applicationProtocol_frame host (rest.flatMap fun m => frame m.1) m.2.2 hm
        (ones_pos (m.1.length + 1)) (by simp)
      rw [applicationProtocol_calls, ← hstream] at hcall
      obtain ⟨tr, hrun, hseen⟩ := loop_receives host (p := { p with receiving := some .header }) rfl
        (fun _ => by simp [hstream, length_frame]; omega) (ones_pos _) hcall
      refine ⟨_, _, (Lts.Run.nil.snoc hbegin).append hrun, ?_, hs, rfl⟩
      rw [List.filterMap_append, hseen]
      rfl

theorem Rel.sends_out {p : Pipe} {c : Fifo.Chan Frame} (host : Host) (h : p.Rel c) :
    ∃ tr p', Lts.Run (Step host) p tr p' ∧ p'.Rel c ∧ p'.sending = none ∧ p'.receiving = p.receiving := by
  cases hs : p.sending with
  | none => exact ⟨[], p, .nil, h, hs, rfl⟩
  | some s =>
    obtain ⟨hlen, hres, hk, hfinal⟩ := h.sending s hs
    obtain ⟨sends', -, -, hloop⟩ := sendLoop_frame (List.replicate (s.len + 2) 1) s.len s.sendLen s.finalStr s.res hres
      (ones_pos _) hk (by rw [List.length_replicate]; omega) (by omega) hfinal
    rw [sendLoop_calls] at hloop
    obtain ⟨tr, hrun, hseen⟩ := loop_sends host hs (ones_pos _) hloop
    obtain ⟨c', hchan, hrel⟩ := run_refines hrun (fun m hm => by rw [hseen] at hm; cases hm) h
    rw [hseen] at hchan
    exact ⟨tr, _, hrun, hchan.of_nil ▸ hrel, rfl, rfl⟩

theorem Rel.receives_out {p : Pipe} {c : Fifo.Chan Frame} (host : Host) (h : p.Rel c) (hs : p.sending = none)
    (hpending : c.pending = true) : ∃ tr p', Lts.Run (Step host) p tr p' ∧ p'.sending = none ∧ p'.receiving = none := by
  cases hr : p.receiving with
  | none => exact ⟨[], p, .nil, hs, hr⟩
  | some q =>
    have hbytes := h.bytes
    have hsmall := h.small
    rw [toSend, hs, hr, Option.map_none, Option.getD_none, List.append_nil] at hbytes
    generalize hstream : p.stream = stream at hbytes
    generalize hunread : c.unread = unread at hbytes hsmall
    have hloop : ∀ {recvs : List Int} {buff : Bytes} {sock : Sock}, (q = .header → 2 ≤ stream.length) →
        (∀ r ∈ recvs, 0 < r) → q.loop host recvs stream = some (buff, sock) →
          ∃ tr p', Lts.Run (Step host) p tr p' ∧ p'.sending = none ∧ p'.receiving = none := by
      intro recvs buff sock hheader hpos hcall
      rw [← hstream] at hheader hcall
      obtain ⟨tr, hrun, -⟩ := loop_receives host hr hheader hpos hcall
      exact ⟨tr, _, hrun, hs, rfl⟩
    cases hbytes with
    | header =>
      cases unread with
      | nil =>
        have hc : p.closed = true := by
          rw [h.closed]
          simpa [Fifo.Chan.pending, hunread] using hpending
        have hends : Receiving.goes .header = true ∧ p.Ends .header 0 := ⟨rfl, Or.inr ⟨rfl, hc, hstream⟩⟩
        have hend : p.Step host (.recv 0, some []) { p with receiving := none } := by
          have hcall : Receiving.call host 0 p.stream .header = some (none, p.stream) := rfl
          simp only [Step, next, hr, Option.bind_eq_bind, Option.bind_some, if_pos hends, hcall]
          rfl
        exact ⟨_, _, Lts.Run.nil.snoc hend, hs, rfl⟩
      | cons m rest =>
        obtain ⟨recvs', -, -, hcall⟩ := applicationProtocol_frame host (rest.flatMap fun m => frame m.1) m.2.2
          (hsmall m List.mem_cons_self) (ones_pos (m.1.length + 1)) (by simp)
        rw [applicationProtocol_calls] at hcall
        exact hloop (fun _ => by simp [length_frame]; omega) (ones_pos _) hcall
    | @payload m a b res rest hm hres =>
      have hlen := hsmall m List.mem_cons_self
      obtain ⟨recvs', -, -, hcall⟩ := recvLoop_payload (List.replicate b.length 1) a b
        (rest.flatMap fun m => frame m.1) res hres (ones_pos _) (by simp) (hm ▸ m.2.2) (hm ▸ hlen)
      rw [recvLoop_calls host, ← hm] at hcall
      exact hloop (fun h => nomatch h) (ones_pos _) hcall

end Pipe

/-- **The calls of a connection are a channel of frames**: whatever each `send` and each `recv` moves and however the
calls of the two ends are interleaved, the texts of 1 to 1699 bytes passed to `sendTcp`, the closing of the connection
and the texts that `applicationProtocol` returns come in an order that a reliable channel of whole frames gives them;
and each order that such a channel gives them can come. -/
theorem pipe_traces_iff (host : Host) {shown : List ChanEvent} (hsmall : ∀ m, .send m ∈ shown → m.1.length < 1700) :
    (∃ tr p, Lts.Run (Pipe.Step host) .new tr p ∧ tr.filterMap PipeEvent.seen = shown) ↔
      ∃ c, Lts.Run ChanStep .new shown c := by
  constructor
  · rintro ⟨tr, p, hrun, rfl⟩
    obtain ⟨c, hchan, -⟩ := Pipe.run_refines hrun hsmall Pipe.Rel.new
    exact ⟨c, hchan⟩
  · rintro ⟨c, hchan⟩
    obtain ⟨tr, p, hrun, hseen, -⟩ : ∃ tr p, Lts.Run (Pipe.Step host) .new tr p ∧
        tr.filterMap PipeEvent.seen = shown.filterMap some ∧ (p.Rel c ∧ p.Idle) := hchan.matched
      (R := fun (c : Fifo.Chan Frame) (p : Pipe) => p.Rel c ∧ p.Idle)
      (L := fun v => ∀ m, v = .send m → m.1.length < 1700) ⟨Pipe.Rel.new, rfl, rfl⟩
      (fun c v c' p hrel hm hstep => Pipe.realized hstep hm hrel.1 hrel.2)
      (by
        rintro v hv m rfl
        exact hsmall m hv)
    exact ⟨tr, p, hrun, by rw [hseen, List.filterMap_some]⟩

theorem pipe_traces_iff_pair : ∃ tr p, Lts.Run (Pipe.Step exactHost) .new tr p ∧ tr.filterMap PipeEvent.seen =
    [.send ⟨[97], by decide⟩, .send ⟨[98], by decide⟩, .close, .take [97], .take [98], .take []] := by
  refine (pipe_traces_iff exactHost fun m hm => ?_).2 ⟨⟨[⟨[97], by decide⟩, ⟨[98], by decide⟩], [], true⟩, ?_⟩
  · simp only [List.mem_cons, ChanEvent.send.injEq, reduceCtorEq, List.not_mem_nil, or_false] at hm
    rcases hm with rfl | rfl
    · decide
    · decide
  · have hsent : Lts.Run ChanStep .new [.send ⟨[97], by decide⟩, .send ⟨[98], by decide⟩, .close]
        ⟨[], [⟨[97], by decide⟩, ⟨[98], by decide⟩], true⟩ :=
          ((Lts.Run.nil.snoc (.send rfl)).snoc (.send rfl)).snoc .close
    exact ((hsent.snoc (.take (m := some ⟨[97], by decide⟩) rfl)).snoc (.take (m := some ⟨[98], by decide⟩) rfl)).snoc
      (.take (m := none) rfl)

/-- **No call of a connection is stuck** on texts of 1 to 1699 bytes: in every state that a run reaches, however the
calls of the two ends were interleaved, the call of `sendTcp` under way can be finished, and then the call of
`applicationProtocol` under way can be, as soon as the channel of frames that the run comes to has a frame to give or is
closed. -/
theorem pipe_finishes {host : Host} {tr : List (PipeEvent × Option Bytes)} {p : Pipe}
    (hrun : Lts.Run (Pipe.Step host) .new tr p)
    (hsmall : ∀ m, .send m ∈ tr.filterMap PipeEvent.seen → m.1.length < 1700) :
    ∃ c, Lts.Run ChanStep .new (tr.filterMap PipeEvent.seen) c ∧ ∃ tr' p', Lts.Run (Pipe.Step host) p tr' p' ∧
      p'.sending = none ∧ (c.pending = true → p'.receiving = none) := by
  obtain ⟨c, hchan, hrel⟩ := Pipe.run_refines hrun hsmall Pipe.Rel.new
  refine ⟨c, hchan, ?_⟩
  obtain ⟨tr₁, p₁, hsends, hrel₁, hs, hr⟩ := hrel.sends_out host
  by_cases hpending : c.pending = true
  · obtain ⟨tr₂, p₂, hreceives, hs₂, hr₂⟩ := hrel₁.receives_out host hs hpending
    exact ⟨tr₁ ++ tr₂, p₂, hsends.append hreceives, hs₂, fun _ => hr₂⟩
  · exact ⟨tr₁, p₁, hsends, hs, fun h => absurd h hpending⟩

theorem pipe_finishes_begun : ∃ tr' p', Lts.Run (Pipe.Step exactHost)
    ⟨[], false, some ⟨1, [0, 1, 97, 0], 999, 0⟩, some .header⟩ tr' p' ∧ p'.sending = none ∧ p'.receiving = none := by
  have hbegin : Pipe.new.Step exactHost (.sendTcp ⟨[97], by decide⟩, none)
      ⟨[], false, some ⟨1, [0, 1, 97, 0], 999, 0⟩, none⟩ := rfl
  have hcall : Pipe.Step exactHost ⟨[], false, some ⟨1, [0, 1, 97, 0], 999, 0⟩, none⟩ (.applicationProtocol, none)
      ⟨[], false, some ⟨1, [0, 1, 97, 0], 999, 0⟩, some .header⟩ := rfl
  obtain ⟨c, hchan, tr', p', hrun, hs, hr⟩ := pipe_finishes ((Lts.Run.nil.snoc hbegin).snoc hcall) fun m hm => by
    obtain rfl : m = ⟨[97], by decide⟩ := by simpa [PipeEvent.seen] using hm
    decide
  obtain ⟨c₁, hsend, hnil⟩ := hchan.uncons
  obtain rfl := hnil.of_nil
  cases hsend with
  | send hsend => exact ⟨tr', p', hrun, hs, hr (by rw [Fifo.Chan.send_eq_some hsend]; rfl)⟩

end Ts
