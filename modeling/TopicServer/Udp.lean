import TopicServer.Base
/-!
# Udp — a datagram and the notification made of it

`manageUdp` reads the 1700-byte buffer a datagram was received into and writes the line a subscriber prints.  Its reads
are checked against the buffer.  `Notice` is what the line says: the sender, the topic, and the value the datagram
carries; `payload` reads that value off the buffer, and `manageUdp_eq` says that the line is the notice written out.
-/
namespace Ts

open Text (ascii be dec fixed fixedNat)

/-- The zeroed buffer after a datagram has been received into it. -/
def udpRecv (d : Bytes) : Bytes := d.take 1700 ++ List.replicate (1700 - d.length) 0

/-- `manageUdp`; nothing when the datagram is dropped. -/
def manageUdp (host : Host) (buf : Bytes) (sender : SockaddrIn) (size : Int) : Option Bytes :=
  if size < 51 then some []
  else do
    let topic ← Mem.read buf 0 50
    let topic ← Mem.cstr (topic ++ [0])
    let result := inetNtop sender ++ ascii ":" ++ dec sender.port ++ ascii " - " ++ topic ++ ascii " - "
    let datatype ← buf[50]?
    let signByte ← buf[51]?
    if datatype = 0 then do
      let result := result ++ ascii "INT - "
      let elem := be (← Mem.read buf 52 4)
      if signByte = 0 then return result ++ dec elem
      else if signByte = 1 then
        if elem ≠ 0 then return result ++ ascii "-" ++ dec elem
        else return result ++ dec elem
      else return []
    else if datatype = 1 then do
      let result := result ++ ascii "SHORT_REAL - "
      let elem := be (← Mem.read buf 51 2)
      return result ++ fixed 6 (host.div100 elem)
    else if datatype = 2 then do
      let result := result ++ ascii "FLOAT - "
      let number := be (← Mem.read buf 52 4)
      let power ← buf[56]?
      let ss := fixed power.toNat (host.divPow number power.toNat)
      if signByte = 0 then return result ++ ss
      else if signByte = 1 then return result ++ ascii "-" ++ ss
      else return []
    else if datatype = 3 then do
      let content ← Mem.cstr (buf.drop 51)
      return result ++ ascii "STRING - " ++ content
    else return []

/-! ## What a notification says -/

inductive Value
  | int (z : ℤ)
  | shortReal (n : Nat)
  | float (signByte : UInt8) (number power : Nat)
  | string (s : Bytes)
deriving DecidableEq

structure Notice where
  sender : SockaddrIn
  topic : Bytes
  value : Value
deriving DecidableEq

/-- The topic of a datagram, from its first 50 bytes. -/
def topicOf (buf : Bytes) : Bytes := (buf.take 50).takeWhile (· ≠ 0)

/-- The value a datagram carries; none when its datatype or its sign byte is not one of the format. -/
def payload (buf : Bytes) : Option Value :=
  let datatype := buf.getD 50 0
  let signByte := buf.getD 51 0
  let number := be ((buf.drop 52).take 4)
  if datatype = 0 then
    if signByte = 0 then some (.int number) else if signByte = 1 then some (.int (-number)) else none
  else if datatype = 1 then some (.shortReal (be ((buf.drop 51).take 2)))
  else if datatype = 2 then
    if signByte = 0 ∨ signByte = 1 then some (.float signByte number (buf.getD 56 0).toNat) else none
  else if datatype = 3 then some (.string ((buf.drop 51).takeWhile (· ≠ 0)))
  else none

def Value.word : Value → Bytes
  | .int _       => ascii "INT"
  | .shortReal _ => ascii "SHORT_REAL"
  | .float _ _ _ => ascii "FLOAT"
  | .string _    => ascii "STRING"

def Value.text : Value → Bytes
  | .int z => if z < 0 then ascii "-" ++ dec z.natAbs else dec z.natAbs
  | .shortReal n => fixedNat 6 (n * 10 ^ 4)
  | .float signByte number power =>
    if signByte = 1 then ascii "-" ++ fixedNat power number else fixedNat power number
  | .string s => s

def Notice.render (m : Notice) : Bytes :=
  inetNtop m.sender ++ ascii ":" ++ dec m.sender.port ++ ascii " - " ++ m.topic ++ ascii " - " ++
    (m.value.word ++ ascii " - " ++ m.value.text)

/-! ## The line is the notice written out -/

theorem length_udpRecv (d : Bytes) : (udpRecv d).length = 1700 := by
  simp only [udpRecv, List.length_append, List.length_take, List.length_replicate]
  omega

theorem length_topicOf_le (buf : Bytes) : (topicOf buf).length ≤ 50 :=
  ((List.takeWhile_prefix _).length_le).trans (List.length_take_le _ _)

theorem zero_not_mem_topicOf (buf : Bytes) : 0 ∉ topicOf buf := fun h => by simpa using List.mem_takeWhile_imp h

theorem topic_holds (buf : Bytes) : Mem.Holds (buf.take 50 ++ [0]) (topicOf buf) :=
  Mem.holds_of_cstr (Mem.cstr_append_zero _)

theorem be_lt_of_length {s : Bytes} {k : Nat} (h : s.length ≤ k) : be s < 256 ^ k :=
  lt_of_lt_of_le (Text.be_lt s) (Nat.pow_le_pow_right (by decide) h)

theorem fixed_div100 {host : Host} (acc : host.Accurate) {n : Nat} (hn : n < 2 ^ 16) :
    fixed 6 (host.div100 n) = fixedNat 6 (n * 10 ^ 4) := by
  refine Text.fixed_of_relative (q := n / 100) ?_ (by omega) (acc.div100 n hn)
  push_cast
  ring

theorem fixed_divPow {host : Host} (acc : host.Accurate) {n p : Nat} (hn : n < 2 ^ 32) (hp : p < 256) :
    fixed p (host.divPow n p) = fixedNat p n :=
  Text.fixed_of_relative (q := n / 10 ^ p) (by field_simp) (by omega) (acc.divPow n p hn hp)

theorem readAt {buf : Bytes} {off n : Nat} (h : off + n ≤ buf.length) :
    Mem.read buf off n = some ((buf.drop off).take n) := by
  rw [Mem.read, if_pos h]

theorem getD_eq {buf : Bytes} {i : Nat} (h : i < buf.length) : buf[i]? = some (buf.getD i 0) := by
  rw [List.getD_eq_getElem?_getD, List.getElem?_eq_getElem h]
  rfl

/-- **A datagram that is not too short is written out, dropped, or read past its buffer**; the last only for a text that
fills the buffer without a terminator. -/
theorem manageUdp_eq {host : Host} (acc : host.Accurate) {buf : Bytes} (sender : SockaddrIn) {size : Int}
    (hbuf : buf.length = 1700) (hsize : ¬ size < 51) :
    manageUdp host buf sender size =
      if buf.getD 50 0 = 3 ∧ 0 ∉ buf.drop 51 then none
      else some (match payload buf with | some v => Notice.render ⟨sender, topicOf buf, v⟩ | none => []) := by
  have htopic : Mem.cstr (buf.take 50 ++ [0]) = some (topicOf buf) := Mem.cstr_append_zero _
  have hnum : be ((buf.drop 52).take 4) < 2 ^ 32 := be_lt_of_length (k := 4) (by rw [List.length_take]; omega)
  have hshort : be ((buf.drop 51).take 2) < 2 ^ 16 := be_lt_of_length (k := 2) (by rw [List.length_take]; omega)
  have hpow : (buf.getD 56 0).toNat < 256 := (buf.getD 56 0).toNat_lt
  simp only [manageUdp, if_neg hsize, readAt (show 0 + 50 ≤ buf.length by omega), List.drop_zero, htopic,
    getD_eq (show 50 < buf.length by omega), getD_eq (show 51 < buf.length by omega),
    getD_eq (show 56 < buf.length by omega), readAt (show 52 + 4 ≤ buf.length by omega),
    readAt (show 51 + 2 ≤ buf.length by omega), fixed_div100 acc hshort, fixed_divPow acc hnum hpow,
    Option.bind_eq_bind, Option.bind_some, payload]
  generalize buf.getD 50 0 = datatype
  generalize buf.getD 51 0 = signByte
  generalize be ((buf.drop 52).take 4) = number
  by_cases h0 : datatype = 0
  · subst h0
    by_cases hs0 : signByte = 0
    · have hz : ¬ ((number : ℤ) < 0) := by omega
      simp [hs0, Notice.render, Value.word, Value.text, hz, ascii]
    · by_cases hs1 : signByte = 1
      · by_cases hn : number = 0
        · simp [hs1, hn, Notice.render, Value.word, Value.text, ascii]
        · have hz : -(number : ℤ) < 0 := by omega
          simp [hs1, hn, Notice.render, Value.word, Value.text, ascii]
      · simp [hs0, hs1]
  · by_cases h1 : datatype = 1
    · subst h1
      simp [Notice.render, Value.word, Value.text, ascii]
    · by_cases h2 : datatype = 2
      · subst h2
        by_cases hs0 : signByte = 0
        · simp [hs0, Notice.render, Value.word, Value.text, ascii]
        · by_cases hs1 : signByte = 1
          · simp [hs1, Notice.render, Value.word, Value.text, ascii]
          · simp [hs0, hs1]
      · by_cases h3 : datatype = 3
        · subst h3
          by_cases hz : 0 ∈ buf.drop 51
          · simp [Mem.cstr, hz, Notice.render, Value.word, Value.text, ascii]
          · simp [Mem.cstr, hz]
        · simp [h0, h1, h2, h3]

end Ts
