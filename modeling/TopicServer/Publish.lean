import Mathlib.Data.List.GetD
import TopicServer.Notice
import TopicServer.Stream
/-!
# Publish — a datagram for every notice

What a datagram says is a notice (`payload`, `topicOf`).  The other way round, `datagram` is the packet that says one.
The two agree with the server: it writes the packet of a notice out as that notice, and whatever it writes out it could
have been sent so (`publish_exact`), on a machine whose doubles are accurate.  A text that fills the buffer without a
terminator is read past it, and counts as not written out.
-/
namespace Ts

open Text (ascii be beBytes)

def Value.content : Value → Bytes
  | .int z => (if z < 0 then 1 else 0) :: beBytes 4 z.natAbs
  | .shortReal n => beBytes 2 n
  | .float signByte number power => signByte :: (beBytes 4 number ++ [power.toUInt8])
  | .string s => s

namespace Notice

def datagram (m : Notice) : Bytes :=
  m.topic ++ List.replicate (50 - m.topic.length) 0 ++ m.value.datatype :: m.value.content

/-- The notices that a packet can carry: a text leaves room for its terminator. -/
structure Wf (m : Notice) : Prop where
  topic : 0 ∉ m.topic
  short : m.topic.length ≤ 50
  value : m.value.Wf
  room : m.value.content.length ≤ 1648

theorem length_datagram {m : Notice} (h : m.Wf) : m.datagram.length = 51 + m.value.content.length := by
  have := h.short
  simp only [datagram, List.length_append, List.length_replicate, List.length_cons]
  omega

theorem udpRecv_datagram {m : Notice} (h : m.Wf) : udpRecv m.datagram =
    m.topic ++ List.replicate (50 - m.topic.length) 0 ++ [m.value.datatype] ++
      (m.value.content ++ List.replicate (1649 - m.value.content.length) 0) := by
  have hlen := length_datagram h
  have hroom := h.room
  rw [udpRecv, List.take_of_length_le (by omega), hlen, datagram,
    show 1700 - (51 + m.value.content.length) = 1649 - m.value.content.length by omega]
  simp only [List.append_assoc, List.cons_append, List.nil_append]

theorem topicOf_datagram {m : Notice} (h : m.Wf) : topicOf (udpRecv m.datagram) = m.topic := by
  have hshort := h.short
  rw [topicOf, udpRecv_datagram h, List.append_assoc, List.take_left' (by simp; omega)]
  cases hpad : 50 - m.topic.length with
  | zero =>
    rw [List.replicate_zero, List.append_nil]
    exact List.takeWhile_eq_self_iff.2 fun x hx => by simpa using fun hz : x = 0 => h.topic (hz ▸ hx)
  | succ k =>
    rw [List.replicate_succ]
    exact Mem.takeWhile_append_zero h.topic

theorem payload_datagram {m : Notice} (h : m.Wf) : payload (udpRecv m.datagram) = some m.value := by
  have hshort := h.short
  have hroom := h.room
  have hvalue := h.value
  rw [udpRecv_datagram h]
  generalize hpre : m.topic ++ List.replicate (50 - m.topic.length) 0 = pre
  have hlen : pre.length = 50 := by
    rw [← hpre, List.length_append, List.length_replicate]
    omega
  have hlen' : (pre ++ [m.value.datatype]).length = 51 := by rw [List.length_append, hlen, List.length_singleton]
  generalize hrest : m.value.content ++ List.replicate (1649 - m.value.content.length) 0 = rest
  have htype : (pre ++ [m.value.datatype] ++ rest).getD 50 0 = m.value.datatype := by
    rw [List.append_assoc, List.getD_append_right _ _ _ _ (by omega), hlen]
    rfl
  have hget : ∀ i, (pre ++ [m.value.datatype] ++ rest).getD (51 + i) 0 = rest.getD i 0 := fun i => by
    rw [List.getD_append_right _ _ _ _ (by omega), hlen', Nat.add_sub_cancel_left]
  have hdrop : ∀ i, (pre ++ [m.value.datatype] ++ rest).drop (51 + i) = rest.drop i := fun i => by
    rw [← hlen', List.drop_length_add_append]
  simp only [payload, htype, hget 0, hget 5, hdrop 0, hdrop 1]
  rw [← hrest]
  cases hv : m.value with
  | int z =>
    rw [hv] at hvalue
    have hfour : (beBytes 4 z.natAbs ++ List.replicate (1649 - 5) (0 : UInt8)).take 4 = beBytes 4 z.natAbs :=
      List.take_left' (Text.length_beBytes 4 _)
    have hbe : be (beBytes 4 z.natAbs) = z.natAbs := Text.be_beBytes (show _ < 256 ^ 4 from hvalue)
    simp only [Value.content, Value.datatype, List.length_cons, Text.length_beBytes, List.cons_append,
      List.getD_cons_zero, List.drop_succ_cons, List.drop_zero, if_true, hfour, hbe]
    by_cases hz : z < 0
    · rw [if_pos hz, if_neg (by decide), if_pos rfl]
      congr 2
      omega
    · rw [if_neg hz, if_pos rfl]
      congr 2
      omega
  | shortReal n =>
    rw [hv] at hvalue
    have htwo : (beBytes 2 n ++ List.replicate (1649 - 2) (0 : UInt8)).take 2 = beBytes 2 n :=
      List.take_left' (Text.length_beBytes 2 _)
    have hbe : be (beBytes 2 n) = n := Text.be_beBytes (show _ < 256 ^ 2 from hvalue)
    simp only [Value.content, Value.datatype, Text.length_beBytes, List.drop_zero, htwo, hbe]
    rfl
  | float signByte number power =>
    rw [hv] at hvalue
    obtain ⟨hsign, hnumber, hpower⟩ := hvalue
    have hlen4 := Text.length_beBytes 4 number
    have hfour : (beBytes 4 number ++ power.toUInt8 :: List.replicate 1643 (0 : UInt8)).take 4 = beBytes 4 number :=
      List.take_left' hlen4
    have hbe : be (beBytes 4 number) = number := Text.be_beBytes (show _ < 256 ^ 4 from hnumber)
    have hpow : (beBytes 4 number ++ power.toUInt8 :: List.replicate 1643 (0 : UInt8)).getD 4 0 = power.toUInt8 := by
      rw [List.getD_append_right _ _ _ _ (by omega), hlen4]
      rfl
    have hnat : power.toUInt8.toNat = power := by
      rw [Nat.toUInt8, UInt8.toNat_ofNat']
      omega
    simp only [Value.content, Value.datatype, List.length_cons, List.length_append, List.length_nil, hlen4,
      List.cons_append,
      List.append_assoc, List.getD_cons_zero, List.getD_cons_succ, List.drop_succ_cons, List.drop_zero]
    simp only [List.nil_append, show 1649 - (4 + (0 + 1) + 1) = 1643 from rfl, hfour, hbe, hpow, hnat, if_pos hsign]
    rfl
  | string s =>
    rw [hv] at hvalue hroom
    have hpad : List.replicate (1649 - s.length) (0 : UInt8) = 0 :: List.replicate (1648 - s.length) 0 := by
      have hroom : s.length ≤ 1648 := hroom
      rw [← List.replicate_succ, Nat.succ_sub hroom]
    simp only [Value.content, Value.datatype, List.drop_zero, hpad, Mem.takeWhile_append_zero hvalue]
    rfl

end Notice

/-! ## What the server makes of it -/

theorem Notice.render_ne_nil (m : Notice) : m.render ≠ [] := by
  intro hnil
  have hlen := congrArg List.length hnil
  rw [Notice.length_render, List.length_nil] at hlen
  omega

/-- **A packet is written out as the notice it was made of.** -/
theorem textOf_datagram {host : Host} (acc : host.Accurate) {m : Notice} (h : m.Wf) :
    textOf host m.datagram m.sender = some m.render := by
  have hlen := Notice.length_datagram h
  have hroom := h.room
  have hstop : ¬ ((udpRecv m.datagram).getD 50 0 = 3 ∧ 0 ∉ (udpRecv m.datagram).drop 51) := by
    rintro ⟨-, hzero⟩
    rw [Notice.udpRecv_datagram h, List.drop_left' (by
      have := h.short
      simp only [List.length_append, List.length_replicate, List.length_singleton]
      omega), List.mem_append, not_or] at hzero
    exact hzero.2 (List.mem_replicate.2 ⟨by omega, rfl⟩)
  rw [textOf, List.take_of_length_le (by omega), manageUdp_eq acc m.sender (length_udpRecv _) (by omega), if_neg hstop,
    Notice.payload_datagram h, Notice.topicOf_datagram h]
  exact Option.filter_eq_some_iff.2 ⟨rfl, decide_eq_true m.render_ne_nil⟩

theorem content_room {host : Host} (acc : host.Accurate) {d : Bytes} {sender : SockaddrIn} {size : ℤ} {text : Bytes}
    {v : Value} (h : manageUdp host (udpRecv d) sender size = some text) (hne : text ≠ [])
    (hv : payload (udpRecv d) = some v) : v.content.length ≤ 1648 := by
  cases v with
  | int z => simp [Value.content, Text.length_beBytes]
  | shortReal n => simp [Value.content, Text.length_beBytes]
  | float signByte number power => simp [Value.content, Text.length_beBytes]
  | string s =>
    have htype : (udpRecv d).getD 50 0 = 3 := payload_datatype hv
    have hsize : ¬ size < 51 := fun hsize => by
      rw [manageUdp, if_pos hsize] at h
      exact hne (Option.some.inj h).symm
    have hzero : 0 ∈ (udpRecv d).drop 51 := by
      by_contra hzero
      rw [manageUdp_eq acc sender (length_udpRecv d) hsize, if_pos ⟨htype, hzero⟩] at h
      cases h
    rw [payload_string htype, Option.some.injEq, Value.string.injEq] at hv
    have hshort := (Mem.holds_of_cstr (show Mem.cstr ((udpRecv d).drop 51) = some (contentOf (udpRecv d)) from
      if_pos hzero)).length_lt
    rw [List.length_drop, length_udpRecv, hv] at hshort
    rw [Value.content]
    omega

/-- **What is written out is a notice that a packet can carry.** -/
theorem notice_of_textOf {host : Host} (acc : host.Accurate) {d : Bytes} {sender : SockaddrIn} {text : Bytes}
    (h : textOf host d sender = some text) : ∃ m : Notice, m.Wf ∧ m.sender = sender ∧ m.topic = topicOf (udpRecv d) ∧
      m.render = text := by
  obtain ⟨hmade, hne⟩ := Option.filter_eq_some_iff.1 h
  have hne : text ≠ [] := of_decide_eq_true hne
  obtain ⟨v, hv, hrender⟩ := accepted_eq acc hmade hne
  exact ⟨⟨sender, topicOf (udpRecv d), v⟩,
    ⟨zero_not_mem_topicOf _, length_topicOf_le _, payload_wf hv, content_room acc hmade hne hv⟩, rfl, rfl, hrender.symm⟩

/-! ## Routing by the topic alone -/

/-- Copying a whole string reads nothing behind its terminator. -/
theorem strncpy_congr {src src' t : Bytes} (h : Mem.Holds src t) (h' : Mem.Holds src' t) (dst : Bytes) :
    Mem.strncpy dst 0 src (t.length + 1) = Mem.strncpy dst 0 src' (t.length + 1) := by
  have hall : ∀ {b : Bytes}, Mem.Holds b t → Mem.strncpy dst 0 b (t.length + 1) = Mem.write dst 0 (t ++ [0]) := by
    rintro b ⟨h0, rest, rfl⟩
    have htake : (t ++ 0 :: rest).take (t.length + 1) = t ++ 0 :: [] := by
      rw [List.take_append, List.take_of_length_le (Nat.le_succ _), Nat.add_sub_cancel_left]
      simp
    simp only [Mem.strncpy, htake, Mem.takeWhile_append_zero h0, List.mem_append, List.mem_cons, true_or, or_true,
      if_true]
    rw [Nat.add_sub_cancel_left]
    rfl
  rw [hall h, hall h']

theorem getMatchLoop_congr (host : Host) {tb tb' t : Bytes} (h : Mem.Holds tb t) (h' : Mem.Holds tb' t) :
    ∀ (subs : List Subscription) (expressionCopy targetCopy : Bytes),
      getMatchLoop host tb subs expressionCopy targetCopy = getMatchLoop host tb' subs expressionCopy targetCopy
  | [], _, _ => rfl
  | s :: subs, expressionCopy, targetCopy => by
    simp only [getMatchLoop, h.cstr_eq, h'.cstr_eq, Option.bind_eq_bind, Option.bind_some, strncpy_congr h h',
      getMatchLoop_congr host h h' subs]

theorem deliver_congr (host : Host) (users : Table.Map Bytes UserIdSubscriptions) (toSend : Bytes) {tb tb' t : Bytes}
    (h : Mem.Holds tb t) (h' : Mem.Holds tb' t) : ∀ order : List Bytes,
      Server.deliver host users toSend tb order = Server.deliver host users toSend tb' order
  | [] => rfl
  | u :: order => by
    simp only [Server.deliver, getMatch, getMatchLoop_congr host h h', deliver_congr host users toSend h h' order]

theorem udpBranch_of_textOf {host : Host} {d : Bytes} {sender : SockaddrIn} {text : Bytes}
    (h : textOf host d sender = some text) (srv : Server) (order : List Bytes) :
    Server.udpBranch host srv (some (d, sender)) order =
      (Server.deliver host srv.userSubscriptions text ((udpRecv d).take 50 ++ [0]) order).map
        ({ srv with pc := .poll }, ·) := by
  obtain ⟨hmade, hne⟩ := Option.filter_eq_some_iff.1 h
  have hread : Mem.read (udpRecv d) 0 50 = some ((udpRecv d).take 50) := readAt (by rw [length_udpRecv]; decide)
  show (manageUdp host (udpRecv d) sender ((d.take 1700).length : Int)).bind _ = _
  rw [hmade, Option.bind_some, if_pos (of_decide_eq_true hne), hread]
  exact (Option.map_eq_bind ..).symm

theorem udpBranch_congr {host : Host} {d d' : Bytes} {sender : SockaddrIn} {text : Bytes}
    (h : textOf host d sender = some text) (h' : textOf host d' sender = some text)
    (htopic : topicOf (udpRecv d) = topicOf (udpRecv d')) (srv : Server) (order : List Bytes) :
    Server.udpBranch host srv (some (d, sender)) order = Server.udpBranch host srv (some (d', sender)) order := by
  rw [udpBranch_of_textOf h, udpBranch_of_textOf h',
    deliver_congr host srv.userSubscriptions text (topic_holds (udpRecv d)) (htopic ▸ topic_holds (udpRecv d'))]

/-- **Every notice can be published, and nothing else is**: the packet of a notice is written out as that notice; and
each datagram that is written out is one that the server cannot tell from the packet of a notice, whatever it has in its
tables: it prints the same text and sends it to the same subscribers. -/
theorem publish_exact {host : Host} (acc : host.Accurate) :
    (∀ m : Notice, m.Wf → textOf host m.datagram m.sender = some m.render) ∧
      ∀ d sender text, textOf host d sender = some text → ∃ m : Notice, m.Wf ∧ m.sender = sender ∧ m.render = text ∧
        ∀ srv order, Server.udpBranch host srv (some (d, sender)) order =
          Server.udpBranch host srv (some (m.datagram, sender)) order := by
  refine ⟨fun m h => textOf_datagram acc h, fun d sender text h => ?_⟩
  obtain ⟨m, hm, rfl, htopic, rfl⟩ := notice_of_textOf acc h
  exact ⟨m, hm, rfl, rfl, udpBranch_congr h (textOf_datagram acc hm) (by rw [Notice.topicOf_datagram hm, htopic])⟩

theorem publish_exact_float :
    textOf exactHost (Notice.datagram ⟨⟨(127, 0, 0, 1), (31, 144)⟩, ascii "a/b", .float 1 5 3⟩)
        ⟨(127, 0, 0, 1), (31, 144)⟩ = some (ascii "127.0.0.1:8080 - a/b - FLOAT - -0.005") ∧
      ∃ m : Notice, m.Wf ∧ m.render = ascii "127.0.0.1:8080 - a - STRING - x" ∧ ∀ srv order,
        Server.udpBranch exactHost srv
            (some (97 :: 0 :: 98 :: List.replicate 47 0 ++ [3, 120, 0, 121], ⟨(127, 0, 0, 1), (31, 144)⟩)) order =
          Server.udpBranch exactHost srv (some (m.datagram, ⟨(127, 0, 0, 1), (31, 144)⟩)) order := by
  have htext : textOf exactHost (97 :: 0 :: 98 :: List.replicate 47 0 ++ [3, 120, 0, 121]) ⟨(127, 0, 0, 1), (31, 144)⟩ =
      some (ascii "127.0.0.1:8080 - a - STRING - x") := by decide +kernel
  obtain ⟨hpublished, hmade⟩ := publish_exact exactHost_accurate
  constructor
  · refine (hpublished _ ⟨by decide, by decide, ?_, by decide⟩).trans (by decide +kernel)
    exact ⟨Or.inr rfl, by decide, by decide⟩
  · obtain ⟨m, hm, -, hrender, hsame⟩ := hmade _ _ _ htext
    exact ⟨m, hm, hrender, hsame⟩

end Ts
