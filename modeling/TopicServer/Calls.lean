import TopicServer.Net
import TopicServer.Wire
/-!
# Calls — `sendTcp` and `applicationProtocol`, call by call

Each of the two functions makes several system calls.  Here a call of the function that is under way is a value, and one
system call takes it to the next; alone, either function is its calls (`sendTcp_calls`, `applicationProtocol_calls`).
What a call under way has still to send, and what it has still to read, is what its system calls keep track of.
-/
namespace Ts

open Mem

/-- A call of `sendTcp` under way, before a test of its loop. -/
structure Sending where
  len : Nat
  finalStr : Bytes
  res : Int
  sendLen : Nat

namespace Sending

def start (host : Host) (str : Bytes) : Option Sending := do
  let s ← cstr (str ++ [0])
  let len := s.length % 65536
  let finalStr ← strncpy (host.malloc (len + 3)) 2 (str ++ [0]) (len + 1)
  let finalStr ← write finalStr 0 (Text.be16 len)
  return ⟨len, finalStr, 999, 0⟩

def goes (s : Sending) : Bool := 0 < s.res ∧ s.sendLen < s.len + 2

/-- One `send` that ends with `r`: the bytes put on the wire. -/
def call (s : Sending) (r : Int) : Option (Bytes × Sending) := do
  let (res, n) := send r (s.len + 2 - s.sendLen)
  let put ← read s.finalStr s.sendLen n
  return (put, { s with res, sendLen := ((s.sendLen + res) % 65536).toNat })

def loop : List Int → Sending → Option (Bytes × List Int)
  | sends, s =>
    if s.goes then
      match sends with
      | [] => none
      | r :: sends => do
        let (put, s) ← s.call r
        let (wire, sends) ← loop sends s
        return (put ++ wire, sends)
    else some ([], sends)

end Sending

/-- A call of `applicationProtocol` under way: the header is read next, or a test of its loop is next. -/
inductive Receiving
  | header
  | payload (payloadLen : Nat) (res recvLen : Int) (someBuffer : Bytes)

namespace Receiving

def goes : Receiving → Bool
  | header => true
  | payload payloadLen res recvLen _ => 0 < res ∧ recvLen ≠ payloadLen

/-- One `recv` that ends with `r`; after it the function goes on, or has returned the empty string. -/
def call (host : Host) (r : Int) (stream : Bytes) : Receiving → Option (Option Receiving × Bytes)
  | header => do
    let (rc, got, stream) ← recvWaitall r 2 stream
    if rc ≤ 0 then return (none, stream)
    let header ← write (host.malloc 2) 0 got
    return (some (payload (Text.be header) 999 0 (List.replicate 1700 0)), stream)
  | payload payloadLen _ recvLen someBuffer => do
    let (res, got, stream) ← recv r (payloadLen - recvLen).toNat stream
    let someBuffer ← write someBuffer recvLen.toNat got
    if res = 0 then return (none, stream)
    return (some (payload payloadLen res (recvLen + res) someBuffer), stream)

def result : Receiving → Option Bytes
  | header => none
  | payload _ _ _ someBuffer => cstr someBuffer

def loop (host : Host) : List Int → Receiving → Bytes → Option (Bytes × Sock)
  | recvs, q, stream =>
    if q.goes then
      match recvs with
      | [] => none
      | r :: recvs => do
        let (q, stream) ← q.call host r stream
        match q with
        | none => return ([], ⟨stream, recvs⟩)
        | some q => loop host recvs q stream
    else do
      let buff ← q.result
      return (buff, ⟨stream, recvs⟩)

end Receiving

theorem sendLoop_calls : ∀ (sends : List Int) (s : Sending),
    sendLoop s.len s.finalStr sends s.res s.sendLen = s.loop sends
  | [], s => by
    unfold sendLoop Sending.loop Sending.goes
    simp only [decide_eq_true_eq]
  | r :: sends, s => by
    unfold sendLoop Sending.loop Sending.goes
    simp only [decide_eq_true_eq, Sending.call, Option.bind_eq_bind]
    split
    · cases read s.finalStr s.sendLen (send r (s.len + 2 - s.sendLen)).2 with
      | none => rfl
      | some put =>
        have ih := sendLoop_calls sends ⟨s.len, s.finalStr, (send r (s.len + 2 - s.sendLen)).1,
          ((s.sendLen + (send r (s.len + 2 - s.sendLen)).1) % 65536).toNat⟩
        exact congrArg (Option.bind · fun x => some (put ++ x.1, x.2)) ih
    · rfl

/-- **`sendTcp` is its calls.** -/
theorem sendTcp_calls (host : Host) (str : Bytes) (sends : List Int) :
    sendTcp host str sends = (Sending.start host str).bind (Sending.loop sends) := by
  have hloop : Sending.loop sends = fun s => sendLoop s.len s.finalStr sends s.res s.sendLen := by
    funext s
    exact (sendLoop_calls sends s).symm
  rw [hloop]
  simp only [sendTcp, Sending.start, Option.bind_eq_bind, Option.bind_assoc]
  rfl

theorem recvLoop_calls (host : Host) : ∀ (recvs : List Int) (payloadLen : Nat) (res recvLen : Int)
    (someBuffer stream : Bytes), recvLoop payloadLen recvs res recvLen someBuffer stream =
      Receiving.loop host recvs (.payload payloadLen res recvLen someBuffer) stream
  | [], payloadLen, res, recvLen, someBuffer, stream => by
    unfold recvLoop Receiving.loop Receiving.goes
    simp only [decide_eq_true_eq]
    rfl
  | r :: recvs, payloadLen, res, recvLen, someBuffer, stream => by
    unfold recvLoop Receiving.loop Receiving.goes
    simp only [decide_eq_true_eq]
    split
    · simp only [Receiving.call, Option.bind_eq_bind]
      cases recv r (payloadLen - recvLen).toNat stream with
      | none => rfl
      | some got =>
        simp only [Option.bind_some]
        cases write someBuffer recvLen.toNat got.2.1 with
        | none => rfl
        | some someBuffer =>
          simp only [Option.bind_some]
          split
          · rfl
          · exact recvLoop_calls host recvs payloadLen _ _ someBuffer _
    · rfl

/-- **`applicationProtocol` is its calls.** -/
theorem applicationProtocol_calls (host : Host) (sock : Sock) :
    applicationProtocol host sock = Receiving.loop host sock.recvs .header sock.stream := by
  obtain ⟨stream, recvs⟩ := sock
  cases recvs with
  | nil => rfl
  | cons r recvs =>
    unfold applicationProtocol Receiving.loop
    simp only [Receiving.goes, if_true, Receiving.call, Option.bind_eq_bind]
    cases recvWaitall r 2 stream with
    | none => rfl
    | some got =>
      simp only [Option.bind_some]
      split
      · rfl
      · cases write (host.malloc 2) 0 got.2.1 with
        | none => rfl
        | some header => exact recvLoop_calls host recvs _ _ _ _ _

/-! ## One call -/

/-- How many bytes a `recv` waits for while the connection is open; the header is read with `MSG_WAITALL`. -/
def Receiving.waits : Receiving → Nat
  | header => 2
  | payload .. => 1

/-- The bytes that a call of `sendTcp` has still to send. -/
def Sending.left (s : Sending) : Bytes := (s.finalStr.take (s.len + 2)).drop s.sendLen

structure Sending.Ok (s : Sending) : Prop where
  len : s.len < 1700
  res : 0 < s.res
  sendLen : s.sendLen ≤ s.len + 2
  finalStr : s.len + 2 ≤ s.finalStr.length

theorem Sending.start_eq (host : Host) (m : Frame) (hm : m.1.length < 1700) :
    Sending.start host m.1 = some ⟨m.1.length, frame m.1 ++ [0], 999, 0⟩ := by
  have h0 := m.2.2
  have hlen : m.1.length % 65536 = m.1.length := Nat.mod_eq_of_lt (by omega)
  obtain ⟨x, y, z, hjunk, hz⟩ : ∃ x y z, host.malloc (m.1.length + 3) = [x, y] ++ z ∧ z.length = m.1.length + 1 := by
    have hl := host.length_malloc (m.1.length + 3)
    match hmalloc : host.malloc (m.1.length + 3), hl with
    | x :: y :: z, hl => exact ⟨x, y, z, rfl, by simpa using hl⟩
  have htake : (m.1 ++ [0]).take (m.1.length + 1) = m.1 ++ 0 :: [] := List.take_of_length_le (by simp)
  have hcopy : strncpy (host.malloc (m.1.length + 3)) 2 (m.1 ++ [0]) (m.1.length + 1) =
    some ([x, y] ++ (m.1 ++ [0])) := by
    simp only [strncpy, htake, takeWhile_append_zero h0, List.length_append, List.length_singleton, Nat.le_refl,
      true_or, if_true, Nat.add_sub_cancel_left, hjunk]
    have hmid := write_mid (a := [x, y]) (b := z) (x := m.1 ++ [0]) (c := []) (by simp [hz])
    simpa using hmid
  have hheader : write ([x, y] ++ (m.1 ++ [0])) 0 (Text.be16 m.1.length) = some (frame m.1 ++ [0]) := by
    rw [write_zero (by simp [Text.be16])]
    simp [Text.be16, frame]
  simp only [start, (holds_terminated h0 []).cstr_eq, hlen, hcopy, hheader, Option.bind_eq_bind, Option.bind_some]
  rfl

theorem Sending.left_start (m : Frame) : Sending.left ⟨m.1.length, frame m.1 ++ [0], 999, 0⟩ = frame m.1 := by
  rw [left, List.drop_zero, ← length_frame m.1, List.take_left]

theorem Sending.Ok.call {s s' : Sending} {r : Int} {put : Bytes} (h : s.Ok) (hgoes : s.goes = true) (hr : 0 < r)
    (hcall : s.call r = some (put, s')) : s'.Ok ∧ put ++ s'.left = s.left := by
  obtain ⟨hlen, hres, hk, hfinal⟩ := h
  have hlt : s.sendLen < s.len + 2 := (of_decide_eq_true hgoes).2
  obtain ⟨n, hn0, hn, hsend⟩ := send_pos hr (show 0 < s.len + 2 - s.sendLen by omega)
  have hread : read s.finalStr s.sendLen n = some ((s.finalStr.drop s.sendLen).take n) := by
    rw [Mem.read, if_pos (by omega)]
  have hwrap : (((s.sendLen : Int) + n) % 65536).toNat = s.sendLen + n := by omega
  simp only [Sending.call, hsend, hread, hwrap, Option.bind_eq_bind, Option.bind_some] at hcall
  obtain ⟨rfl, rfl⟩ := Prod.mk.inj (Option.some.inj hcall)
  refine ⟨⟨hlen, by dsimp only; omega, by dsimp only; omega, hfinal⟩, ?_⟩
  have hpart : (s.finalStr.drop s.sendLen).take n = s.left.take n := by
    rw [left, List.drop_take, List.take_take, Nat.min_eq_left (by omega)]
  rw [hpart, left, left, ← List.drop_drop, List.take_append_drop]

theorem Sending.Ok.left_done {s : Sending} (h : s.Ok) (hdone : s.goes = false) : s.left = [] := by
  have hk : ¬ (0 < s.res ∧ s.sendLen < s.len + 2) := of_decide_eq_false hdone
  rw [left]
  apply List.drop_of_length_le
  have hres := h.res
  rw [List.length_take]
  omega

theorem write_someBuffer {a x : Bytes} (h : (a ++ x).length ≤ 1700) :
    write (someBuffer a) a.length x = some (someBuffer (a ++ x)) := by
  rw [List.length_append] at h
  have hrep : 1700 - a.length = x.length + (1700 - (a.length + x.length)) := by omega
  rw [someBuffer, someBuffer, hrep, List.replicate_add, write_mid (by rw [List.length_replicate]), List.append_assoc,
    List.length_append]

theorem recv_nil {r : Int} (hr : 0 < r) (req : Nat) : recv r req [] = none := by
  have hmin : min r.toNat (min req ([] : Bytes).length) = 0 := by simp
  simp only [recv, hmin, if_neg (show ¬ r < 0 by omega), if_neg (show r ≠ 0 by omega), if_true]

/-- What is still to come for a reader of `unread`, at each point of a call. -/
inductive Receiving.Ok : List Frame → Option Receiving → Bytes → Prop
  | idle (unread : List Frame) : Ok unread none (unread.flatMap fun m => frame m.1)
  | header (unread : List Frame) : Ok unread (some .header) (unread.flatMap fun m => frame m.1)
  | payload {m : Frame} {a b : Bytes} {res : Int} (rest : List Frame) : m.1 = a ++ b → 0 < res →
      Ok (m :: rest) (some (.payload m.1.length res a.length (someBuffer a))) (b ++ rest.flatMap fun m => frame m.1)

theorem Receiving.Ok.snoc {unread : List Frame} {q : Option Receiving} {bytes : Bytes} (h : Ok unread q bytes)
    (m : Frame) : Ok (unread ++ [m]) q (bytes ++ frame m.1) := by
  have hlast : ∀ l : List Frame, (l.flatMap fun m => frame m.1) ++ frame m.1 = (l ++ [m]).flatMap fun m => frame m.1 :=
    fun l => by rw [List.flatMap_append, List.flatMap_singleton]
  cases h with
  | idle => exact hlast unread ▸ .idle _
  | header => exact hlast unread ▸ .header _
  | payload rest hm hres =>
    rw [List.append_assoc, hlast rest]
    exact .payload _ hm hres

theorem Receiving.Ok.called {unread : List Frame} {bytes : Bytes} (h : Ok unread none bytes) :
    Ok unread (some .header) bytes := by
  cases h with
  | idle => exact .header unread

/-- A `recv` that brings something has found what it waits for; the header is not read again. -/
theorem Receiving.call_waits {host : Host} {q : Receiving} {q' : Option Receiving} {r : Int} {stream stream' : Bytes}
    (hr : 0 < r) (hcall : q.call host r stream = some (q', stream')) :
    ((q = .header → 2 ≤ stream.length) → q.waits ≤ stream.length) ∧ q' ≠ some .header := by
  cases q with
  | header =>
    refine ⟨fun h => h rfl, ?_⟩
    obtain ⟨⟨rc, got, stream₁⟩, -, hcall⟩ := Option.bind_eq_some_iff.1 hcall
    dsimp only at hcall
    split at hcall
    · rw [← (Prod.mk.inj (Option.some.inj hcall)).1]
      exact fun h => nomatch h
    · obtain ⟨header, -, hcall⟩ := Option.bind_eq_some_iff.1 hcall
      rw [← (Prod.mk.inj (Option.some.inj hcall)).1]
      exact fun h => nomatch h
  | payload payloadLen res recvLen someBuffer =>
    obtain ⟨⟨n, got, stream₁⟩, hrecv, hcall⟩ := Option.bind_eq_some_iff.1 hcall
    obtain ⟨someBuffer', -, hcall⟩ := Option.bind_eq_some_iff.1 hcall
    constructor
    · intro _
      apply List.length_pos_iff.2
      rintro rfl
      rw [recv_nil hr] at hrecv
      cases hrecv
    · split at hcall
      · rw [← (Prod.mk.inj (Option.some.inj hcall)).1]
        exact fun h => nomatch h
      · rw [← (Prod.mk.inj (Option.some.inj hcall)).1]
        exact fun h => nomatch h

theorem Receiving.Ok.result {unread : List Frame} {q : Receiving} {bytes buff : Bytes} (h : Ok unread (some q) bytes)
    (hsmall : ∀ m ∈ unread, m.1.length < 1700) (hgoes : q.goes = false) (hresult : q.result = some buff) :
    ∃ m rest, unread = m :: rest ∧ buff = m.1 ∧ Ok rest none bytes := by
  cases h with
  | header => cases hgoes
  | @payload m a b res rest hm hres =>
    have hb : b = [] := by
      have hdone := of_decide_eq_false hgoes
      rw [hm, List.length_append] at hdone
      apply List.length_eq_zero_iff.1
      omega
    subst hb
    rw [List.append_nil] at hm
    have hhold := someBuffer_holds (hm ▸ m.2.2) (hm ▸ hsmall m List.mem_cons_self)
    have hwhole : some a = some buff := hhold.cstr_eq.symm.trans hresult
    exact ⟨m, rest, rfl, by rw [hm, Option.some.inj hwhole], .idle rest⟩

end Ts
