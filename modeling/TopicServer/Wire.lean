import TopicServer.Base
/-!
# Wire — the length-prefixed frames both programs exchange

`sendTcp` puts two bytes of length and the text on a connection, in as many `send` calls as it takes;
`applicationProtocol` takes one frame off, in as many `recv` calls as it takes.  How much each call moves is a schedule
the programs do not choose: a list of results, one for each call, of which a positive one moves at least one byte and at
most that many.  A schedule that ends while a call is due is a call that never returns.
-/
namespace Ts

/-- The receiving end of a connection: the bytes sent and not yet received, and how the next `recv` calls end. -/
structure Sock where
  stream : Bytes
  recvs : List Int
deriving DecidableEq

/-- One call `recv(fd, .., req, flags)` that ends with `r`: an error, the end of the file, or some of the bytes that are
there, never more than asked for.  It gives the result, the bytes, and the stream left. -/
def recv (r : Int) (req : Nat) (stream : Bytes) : Option (Int × Bytes × Bytes) :=
  let n := min r.toNat (min req stream.length)
  if r < 0 then some (-1, [], stream)
  else if r = 0 then some (0, [], stream)
  else if n = 0 then none
  else some (n, stream.take n, stream.drop n)

/-- With `MSG_WAITALL` a call that does not fail gives all that is asked for; it gives less only at the end of the
file. -/
def recvWaitall (r : Int) (req : Nat) (stream : Bytes) : Option (Int × Bytes × Bytes) :=
  if 0 < r then recv req req stream else recv r req stream

def recvLoop (payloadLen : Nat) : List Int → Int → Int → Bytes → Bytes → Option (Bytes × Sock)
  | recvs, res, recvLen, someBuffer, stream =>
    if 0 < res ∧ recvLen ≠ payloadLen then
      match recvs with
      | [] => none
      | r :: recvs => do
        let (res, got, stream) ← recv r (payloadLen - recvLen).toNat stream
        let someBuffer ← Mem.write someBuffer recvLen.toNat got
        if res = 0 then return ([], ⟨stream, recvs⟩)
        recvLoop payloadLen recvs res (recvLen + res) someBuffer stream
    else do
      let buff ← Mem.cstr someBuffer
      return (buff, ⟨stream, recvs⟩)

/-- `applicationProtocol`: the text of the next frame, or nothing at the end of the file or on an error. -/
def applicationProtocol (host : Host) (sock : Sock) : Option (Bytes × Sock) :=
  match sock.recvs with
  | [] => none
  | r :: recvs => do
    let (rc, got, stream) ← recvWaitall r 2 sock.stream
    if rc ≤ 0 then return ([], ⟨stream, recvs⟩)
    let header ← Mem.write (host.malloc 2) 0 got
    recvLoop (Text.be header) recvs 999 0 (List.replicate 1700 0) stream

/-- One call `send(fd, .., req, 0)` that ends with `r`: the result, the number of bytes taken. -/
def send (r : Int) (req : Nat) : Int × Nat :=
  if r ≤ 0 then (r, 0) else (min r.toNat req, min r.toNat req)

/-- The send loop of `sendTcp`; `sendLen` is a `uint16_t`.  It gives the bytes put on the wire. -/
def sendLoop (len : Nat) (finalStr : Bytes) : List Int → Int → Nat → Option (Bytes × List Int)
  | sends, res, sendLen =>
    if 0 < res ∧ sendLen < len + 2 then
      match sends with
      | [] => none
      | r :: sends => do
        let (res, n) := send r (len + 2 - sendLen)
        let put ← Mem.read finalStr sendLen n
        let (wire, sends) ← sendLoop len finalStr sends res ((sendLen + res) % 65536).toNat
        return (put ++ wire, sends)
    else some ([], sends)

/-- `sendTcp` on the C string `str`; `len` is a `uint16_t`. -/
def sendTcp (host : Host) (str : Bytes) (sends : List Int) : Option (Bytes × List Int) := do
  let s ← Mem.cstr (str ++ [0])
  let len := s.length % 65536
  let finalStr ← Mem.strncpy (host.malloc (len + 3)) 2 (str ++ [0]) (len + 1)
  let finalStr ← Mem.write finalStr 0 (Text.be16 len)
  sendLoop len finalStr sends 999 0

def sendAll (host : Host) : List Bytes → List Int → Option (Bytes × List Int)
  | [], sends => some ([], sends)
  | m :: ms, sends => do
    let (wire, sends) ← sendTcp host m sends
    let (wires, sends) ← sendAll host ms sends
    return (wire ++ wires, sends)

def receiveAll (host : Host) : Nat → Sock → Option (List Bytes × Sock)
  | 0, sock => some ([], sock)
  | k + 1, sock => do
    let (m, sock) ← applicationProtocol host sock
    let (ms, sock) ← receiveAll host k sock
    return (m :: ms, sock)

/-! ## The round trip

A frame is taken off whole because both loops count the bytes that are still missing: what is in the buffer and what is
still to come make up the payload at every round (`recvLoop_payload`), and the bytes sent and those still to be sent make
up the frame (`sendLoop_frame`). -/

open Mem

theorem recv_pos {r : Int} (hr : 0 < r) {b : Bytes} (hb : b ≠ []) (rest : Bytes) : 0 < min r.toNat b.length ∧
    recv r b.length (b ++ rest) = some (((min r.toNat b.length : Nat) : Int), b.take (min r.toNat b.length),
      b.drop (min r.toNat b.length) ++ rest) := by
  have hlen : 0 < b.length := List.length_pos_iff.2 hb
  have hmin : min b.length (b ++ rest).length = b.length := by
    rw [List.length_append]
    omega
  refine ⟨by omega, ?_⟩
  unfold recv
  simp only [hmin, if_neg (show ¬ r < 0 by omega), if_neg (show r ≠ 0 by omega),
    if_neg (show min r.toNat b.length ≠ 0 by omega)]
  rw [List.take_append_of_le_length (Nat.min_le_right _ _), List.drop_append_of_le_length (Nat.min_le_right _ _)]

/-- The receive buffer once the bytes `a` are in it. -/
def someBuffer (a : Bytes) : Bytes := a ++ List.replicate (1700 - a.length) 0

theorem someBuffer_holds {a : Bytes} (h0 : 0 ∉ a) (ha : a.length < 1700) : Holds (someBuffer a) a := by
  obtain ⟨k, hk⟩ : ∃ k, 1700 - a.length = k + 1 := ⟨1699 - a.length, by omega⟩
  rw [someBuffer, hk, List.replicate_succ]
  exact holds_terminated h0 _

theorem recvLoop_step {r res : Int} {b : Bytes} (recvs : List Int) (a rest : Bytes) (hres : 0 < res) (hr : 0 < r)
    (hb : b ≠ []) (hlen : (a ++ b).length ≤ 1700) : ∃ n, 0 < n ∧ n = min r.toNat b.length ∧
      recvLoop (a ++ b).length (r :: recvs) res a.length (someBuffer a) (b ++ rest) =
        recvLoop (a ++ b).length recvs n (a ++ b.take n).length (someBuffer (a ++ b.take n)) (b.drop n ++ rest) := by
  obtain ⟨hn, hrecv⟩ := recv_pos hr hb rest
  generalize hmin : min r.toNat b.length = n at *
  have hpos := List.length_pos_iff.2 hb
  have htake : (b.take n).length = n := by rw [List.length_take]; omega
  rw [List.length_append] at hlen
  -- the bytes received land right after those already there
  have hwrite : write (someBuffer a) a.length (b.take n) = some (someBuffer (a ++ b.take n)) := by
    have hrep : 1700 - a.length = n + (1700 - (a.length + n)) := by omega
    rw [someBuffer, someBuffer, hrep, List.replicate_add, write_mid (by rw [htake, List.length_replicate]),
      List.append_assoc, List.length_append, htake]
  have hcond : 0 < res ∧ (a.length : Int) ≠ ((a ++ b).length : Nat) := ⟨hres, by rw [List.length_append]; omega⟩
  have hreq : (((a ++ b).length : Nat) - (a.length : Int)).toNat = b.length := by
    rw [List.length_append]
    omega
  have hcast : (a.length : Int) + n = ((a ++ b.take n).length : Nat) := by
    rw [List.length_append, htake]
    rfl
  refine ⟨n, hn, rfl, ?_⟩
  conv => lhs; unfold recvLoop
  simp only [if_pos hcond, hreq, hrecv, Option.bind_eq_bind, Option.bind_some, Int.toNat_natCast, hwrite]
  rw [if_neg (by omega), hcast]

theorem recvLoop_whole {a : Bytes} (recvs : List Int) (res : Int) (stream : Bytes) (h0 : 0 ∉ a) (ha : a.length < 1700) :
    recvLoop a.length recvs res a.length (someBuffer a) stream = some (a, ⟨stream, recvs⟩) := by
  unfold recvLoop
  simp [(someBuffer_holds h0 ha).cstr_eq]

/-- **The receive loop gathers a payload**, `a` of it already in the buffer and `b` still to come, and takes no byte of
what follows it. -/
theorem recvLoop_payload : ∀ (recvs : List Int) (a b rest : Bytes) (res : Int), 0 < res → (∀ r ∈ recvs, 0 < r) →
    b.length ≤ recvs.length → 0 ∉ a ++ b → (a ++ b).length < 1700 →
    ∃ recvs', recvs' <:+ recvs ∧ recvs.length ≤ recvs'.length + b.length ∧
      recvLoop (a ++ b).length recvs res a.length (someBuffer a) (b ++ rest) = some (a ++ b, ⟨rest, recvs'⟩)
  | recvs, a, [], rest, res, _, _, _, h0, hlen => by
    rw [List.append_nil] at h0 hlen ⊢
    exact ⟨recvs, List.suffix_refl _, Nat.le_add_right _ _, recvLoop_whole recvs res rest h0 hlen⟩
  | [], a, x :: b, rest, res, _, _, hle, _, _ => absurd hle (by simp)
  | r :: recvs, a, x :: b, rest, res, hres, hpos, hle, h0, hlen => by
    have hr : 0 < r := hpos r List.mem_cons_self
    obtain ⟨n, hn, hmin, hstep⟩ := recvLoop_step recvs a rest hres hr (List.cons_ne_nil x b) hlen.le
    generalize hB : x :: b = B at *
    have hsplit : a ++ B = (a ++ B.take n) ++ B.drop n := by rw [List.append_assoc, List.take_append_drop]
    obtain ⟨recvs', hsuf, hcount, ih⟩ := recvLoop_payload recvs (a ++ B.take n) (B.drop n) rest n (by omega)
      (fun r hr => hpos r (List.mem_cons_of_mem _ hr)) (by simp only [List.length_cons, List.length_drop] at *; omega)
      (by rwa [← hsplit]) (by rwa [← hsplit])
    rw [← hsplit] at ih
    refine ⟨recvs', hsuf.trans (List.suffix_cons _ _), ?_, hstep.trans ih⟩
    simp only [List.length_cons, List.length_drop] at *
    omega

/-- What `sendTcp` puts on the wire for a text. -/
def frame (m : Bytes) : Bytes := Text.be16 m.length ++ m

theorem length_frame (m : Bytes) : (frame m).length = m.length + 2 := by
  simp [frame, Text.be16]

/-- **One call takes one frame**, whatever follows it, however the reads are cut. -/
theorem applicationProtocol_frame (host : Host) {m : Bytes} (rest : Bytes) {recvs : List Int} (h0 : 0 ∉ m)
    (hm : m.length < 1700) (hpos : ∀ r ∈ recvs, 0 < r) (hle : m.length + 1 ≤ recvs.length) :
    ∃ recvs', recvs' <:+ recvs ∧ recvs.length ≤ recvs'.length + (m.length + 1) ∧
      applicationProtocol host ⟨frame m ++ rest, recvs⟩ = some (m, ⟨rest, recvs'⟩) := by
  cases recvs with
  | nil => exact absurd hle (by simp)
  | cons r recvs =>
    have hr : 0 < r := hpos r List.mem_cons_self
    have hheader : recvWaitall r 2 (frame m ++ rest) = some (2, Text.be16 m.length, m ++ rest) := by
      simp [recvWaitall, hr, recv, frame, Text.be16]
    have hwrite : write (host.malloc 2) 0 (Text.be16 m.length) = some (Text.be16 m.length) := by
      rw [write_zero (by simp [Text.be16])]
      simp [Text.be16]
    obtain ⟨recvs', hsuf, hcount, hloop⟩ := recvLoop_payload recvs [] m rest 999 (by decide)
      (fun x hx => hpos x (List.mem_cons_of_mem _ hx)) (by simpa using hle) (by simpa using h0) (by simpa using hm)
    refine ⟨recvs', hsuf.trans (List.suffix_cons _ _), by rw [List.length_cons]; omega, ?_⟩
    simp only [applicationProtocol, hheader, hwrite, Option.bind_eq_bind, Option.bind_some,
      Text.be_be16 (show m.length < 65536 by omega)]
    rw [if_neg (by decide)]
    exact hloop

theorem send_pos {r : Int} {req : Nat} (hr : 0 < r) (hreq : 0 < req) :
    ∃ n, 0 < n ∧ n ≤ req ∧ send r req = ((n : Int), n) := by
  refine ⟨min r.toNat req, by omega, by omega, ?_⟩
  unfold send
  rw [if_neg (by omega)]
  simp only [Prod.mk.injEq, and_true]
  omega

/-- **The send loop puts the frame on the wire**, from the byte it has reached on, however the sends are cut. -/
theorem sendLoop_frame : ∀ (sends : List Int) (len k : Nat) (finalStr : Bytes) (res : Int), 0 < res →
    (∀ r ∈ sends, 0 < r) → k ≤ len + 2 → len + 2 ≤ k + sends.length → len + 2 < 65536 → len + 2 ≤ finalStr.length →
    ∃ sends', sends' <:+ sends ∧ sends.length + k ≤ sends'.length + (len + 2) ∧
      sendLoop len finalStr sends res k = some ((finalStr.take (len + 2)).drop k, sends')
  | sends, len, k, finalStr, res, hres, hpos, hk, hle, hlen, hbuf => by
    by_cases hdone : k = len + 2
    · refine ⟨sends, List.suffix_refl _, by omega, ?_⟩
      unfold sendLoop
      rw [if_neg (by omega), List.drop_of_length_le (by rw [List.length_take]; omega)]
    · cases sends with
      | nil => simp only [List.length_nil] at hle; omega
      | cons r sends =>
        have hr : 0 < r := hpos r List.mem_cons_self
        obtain ⟨n, hn0, hnreq, hsend⟩ := send_pos hr (show 0 < len + 2 - k by omega)
        have hnk : k + n ≤ len + 2 := by omega
        have hread : Mem.read finalStr k n = some ((finalStr.drop k).take n) := by
          rw [Mem.read, if_pos (by omega)]
        have hwrap : (((k : Int) + n) % 65536).toNat = k + n := by omega
        obtain ⟨sends', hsuf, hcount, ih⟩ := sendLoop_frame sends len (k + n) finalStr n (by omega)
          (fun x hx => hpos x (List.mem_cons_of_mem _ hx)) hnk (by rw [List.length_cons] at hle; omega) hlen hbuf
        refine ⟨sends', hsuf.trans (List.suffix_cons _ _), by rw [List.length_cons]; omega, ?_⟩
        unfold sendLoop
        simp only [if_pos (show 0 < res ∧ k < len + 2 by omega), hsend, hread, hwrap, ih, Option.bind_eq_bind,
          Option.bind_some]
        have hcut : (finalStr.drop k).take n ++ (finalStr.take (len + 2)).drop (k + n) =
            (finalStr.take (len + 2)).drop k := by
          have hpart : (finalStr.drop k).take n = ((finalStr.take (len + 2)).drop k).take n := by
            rw [List.drop_take, List.take_take, Nat.min_eq_left (by omega)]
          rw [hpart, ← List.drop_drop, List.take_append_drop]
        rw [hcut]
        rfl

/-- **`sendTcp` puts one frame on the wire**, for every text whose frame fits the 16-bit counter. -/
theorem sendTcp_frame (host : Host) {m : Bytes} {sends : List Int} (h0 : 0 ∉ m) (hm : m.length + 2 < 65536)
    (hpos : ∀ r ∈ sends, 0 < r) (hle : m.length + 2 ≤ sends.length) :
    ∃ sends', sends' <:+ sends ∧ sends.length ≤ sends'.length + (m.length + 2) ∧
      sendTcp host m sends = some (frame m, sends') := by
  have hlen : m.length % 65536 = m.length := Nat.mod_eq_of_lt (by omega)
  have hstr : Holds (m ++ [0]) m := holds_terminated h0 []
  obtain ⟨x, y, z, hjunk⟩ : ∃ x y z, host.malloc (m.length + 3) = [x, y] ++ z ∧ z.length = m.length + 1 := by
    have hl := host.length_malloc (m.length + 3)
    match hmalloc : host.malloc (m.length + 3), hl with
    | x :: y :: z, hl => exact ⟨x, y, z, rfl, by simpa using hl⟩
  have hcopy : strncpy (host.malloc (m.length + 3)) 2 (m ++ [0]) (m.length + 1) = some ([x, y] ++ (m ++ [0])) := by
    have htake : (m ++ [0]).take (m.length + 1) = m ++ 0 :: [] := List.take_of_length_le (by simp)
    simp only [strncpy, htake, takeWhile_append_zero h0, List.length_append, List.length_singleton, Nat.le_refl,
      true_or, if_true, Nat.add_sub_cancel_left, hjunk.1]
    have := write_mid (a := [x, y]) (b := z) (x := m ++ [0]) (c := []) (by simp [hjunk.2])
    simpa using this
  have hheader : write ([x, y] ++ (m ++ [0])) 0 (Text.be16 m.length) = some (frame m ++ [0]) := by
    rw [write_zero (by simp [Text.be16])]
    simp [Text.be16, frame]
  obtain ⟨sends', hsuf, hcount, hloop⟩ := sendLoop_frame sends m.length 0 (frame m ++ [0]) 999 (by decide) hpos
    (by omega) (by omega) hm (by rw [List.length_append, length_frame]; simp)
  refine ⟨sends', hsuf, by omega, ?_⟩
  simp only [sendTcp, hstr.cstr_eq, hlen, hcopy, hheader, Option.bind_eq_bind, Option.bind_some, hloop]
  rw [List.drop_zero, ← length_frame m, List.take_left]

theorem sendAll_frames (host : Host) : ∀ (ms : List Bytes) (sends : List Int),
    (∀ m ∈ ms, 0 ∉ m ∧ m.length + 2 < 65536) → (∀ r ∈ sends, 0 < r) → (ms.flatMap frame).length ≤ sends.length →
    ∃ sends', sendAll host ms sends = some (ms.flatMap frame, sends')
  | [], sends, _, _, _ => ⟨sends, rfl⟩
  | m :: ms, sends, hm, hpos, hle => by
    obtain ⟨h0, hlen⟩ := hm m List.mem_cons_self
    rw [List.flatMap_cons, List.length_append, length_frame] at hle
    obtain ⟨sends₁, hsuf, hcount, hsend⟩ := sendTcp_frame host h0 hlen hpos (by omega)
    obtain ⟨sends₂, ih⟩ := sendAll_frames host ms sends₁ (fun x hx => hm x (List.mem_cons_of_mem _ hx))
      (fun r hr => hpos r (hsuf.subset hr)) (by omega)
    refine ⟨sends₂, ?_⟩
    simp only [sendAll, hsend, ih, Option.bind_eq_bind, Option.bind_some, List.flatMap_cons]
    rfl

theorem receiveAll_frames (host : Host) : ∀ (ms : List Bytes) (rest : Bytes) (recvs : List Int),
    (∀ m ∈ ms, 0 ∉ m ∧ m.length < 1700) → (∀ r ∈ recvs, 0 < r) → (ms.flatMap frame).length ≤ recvs.length →
    ∃ recvs', receiveAll host ms.length ⟨ms.flatMap frame ++ rest, recvs⟩ = some (ms, ⟨rest, recvs'⟩)
  | [], _, recvs, _, _, _ => ⟨recvs, rfl⟩
  | m :: ms, rest, recvs, hm, hpos, hle => by
    obtain ⟨h0, hlen⟩ := hm m List.mem_cons_self
    rw [List.flatMap_cons, List.length_append, length_frame] at hle
    obtain ⟨recvs₁, hsuf, hcount, hrecv⟩ := applicationProtocol_frame host (ms.flatMap frame ++ rest) h0 hlen hpos
      (by omega)
    obtain ⟨recvs₂, ih⟩ := receiveAll_frames host ms rest recvs₁ (fun x hx => hm x (List.mem_cons_of_mem _ hx))
      (fun r hr => hpos r (hsuf.subset hr)) (by omega)
    refine ⟨recvs₂, ?_⟩
    rw [List.flatMap_cons, List.append_assoc, List.length_cons]
    simp only [receiveAll, hrecv, ih, Option.bind_eq_bind, Option.bind_some]
    rfl

theorem pos_of_mem_schedule {f : Nat → Int} (hf : ∀ i, 0 < f i) (n : Nat) : ∀ r ∈ (List.range n).map f, 0 < r := by
  intro r hr
  obtain ⟨i, -, rfl⟩ := List.mem_map.1 hr
  exact hf i

/-- **The framing round trip**: texts of 1 to 1699 bytes sent one after another are received one after another, and
nothing is left over, whatever each `send` (`p`) and each `recv` (`q`) moves; finitely many calls are made. -/
theorem framing_round_trip (host : Host) (ms : List Bytes) (p q : Nat → Int)
    (hm : ∀ m ∈ ms, 0 ∉ m ∧ 1 ≤ m.length ∧ m.length ≤ 1699) (hp : ∀ i, 0 < p i) (hq : ∀ i, 0 < q i) :
    ∃ n wire sends' recvs', sendAll host ms ((List.range n).map p) = some (wire, sends') ∧
      receiveAll host ms.length ⟨wire, (List.range n).map q⟩ = some (ms, ⟨[], recvs'⟩) := by
  obtain ⟨sends', hsend⟩ := sendAll_frames host ms ((List.range (ms.flatMap frame).length).map p)
    (fun m h => ⟨(hm m h).1, by have := (hm m h).2.2; omega⟩) (pos_of_mem_schedule hp _) (by simp)
  obtain ⟨recvs', hrecv⟩ := receiveAll_frames host ms [] ((List.range (ms.flatMap frame).length).map q)
    (fun m h => ⟨(hm m h).1, by have := (hm m h).2.2; omega⟩) (pos_of_mem_schedule hq _) (by simp)
  rw [List.append_nil] at hrecv
  exact ⟨_, _, sends', recvs', hsend, hrecv⟩

theorem framing_round_trip_two : ∃ n wire sends' recvs',
    sendAll exactHost [[97], [98, 99]] ((List.range n).map fun _ => 1) = some (wire, sends') ∧
      receiveAll exactHost 2 ⟨wire, (List.range n).map fun i : Nat => (i : Int) + 2⟩ =
        some ([[97], [98, 99]], ⟨[], recvs'⟩) :=
  framing_round_trip exactHost [[97], [98, 99]] (fun _ => 1) (fun i => i + 2) (by decide) (fun _ => by decide)
    (fun i => by omega)

end Ts
