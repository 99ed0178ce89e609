import TopicServer.Udp
import TopicServer.Wire
/-!
# Notice — what a subscriber can tell from a notification, and whether it has room for one

Two questions about the line a datagram becomes.  Does the line determine the datagram's content?  It does
(`notification_unambiguous`): the parts before the value end at the first colon or blank, and the value is the rest.
Does it fit the 1700 bytes a subscriber receives a frame into?  Not always: only a text can be too long, and
`notification_fits_iff` says which.
-/
namespace Ts

open Text (ascii dec fixedNat IsDigit)

/-! ## The line determines the notice -/

def Value.Wf : Value → Prop
  | .int z => z.natAbs < 2 ^ 32
  | .shortReal n => n < 2 ^ 16
  | .float signByte number power => (signByte = 0 ∨ signByte = 1) ∧ number < 2 ^ 32 ∧ power < 256
  | .string s => 0 ∉ s

theorem payload_wf {buf : Bytes} {v : Value} (h : payload buf = some v) : v.Wf := by
  have hnum : Text.be ((buf.drop 52).take 4) < 2 ^ 32 := be_lt_of_length (k := 4) (by rw [List.length_take]; omega)
  have hshort : Text.be ((buf.drop 51).take 2) < 2 ^ 16 := be_lt_of_length (k := 2) (by rw [List.length_take]; omega)
  have hpow : (buf.getD 56 0).toNat < 256 := (buf.getD 56 0).toNat_lt
  unfold payload at h
  dsimp only at h
  split at h
  · split at h
    · cases h
      simpa [Value.Wf] using hnum
    · split at h
      · cases h
        simpa [Value.Wf] using hnum
      · cases h
  · split at h
    · cases h
      exact hshort
    · split at h
      · split at h
        · rename_i hs
          cases h
          exact ⟨hs, hnum, hpow⟩
        · cases h
      · split at h
        · cases h
          exact fun h0 => by simpa using List.mem_takeWhile_imp h0
        · cases h

theorem not_mem_inetNtop {b : UInt8} (hb : ¬ IsDigit b) (hpt : b ≠ 46) (a : SockaddrIn) : b ∉ inetNtop a := by
  have hdec : ∀ n, b ∉ dec n := Text.not_mem_dec hb
  simp [inetNtop, hdec, hpt]

theorem inetNtop_port_injective {a a' : SockaddrIn} (hip : inetNtop a = inetNtop a') (hport : a.port = a'.port) :
    a = a' := by
  have hpt : ∀ n, (46 : UInt8) ∉ dec n := Text.not_mem_dec (fun hd => absurd hd.1 (by decide))
  obtain ⟨h1, hip⟩ := Text.append_sep_inj (hpt _) (hpt _) hip
  obtain ⟨h2, hip⟩ := Text.append_sep_inj (hpt _) (hpt _) hip
  obtain ⟨h3, h4⟩ := Text.append_sep_inj (hpt _) (hpt _) hip
  have hbyte : ∀ {x y : UInt8}, dec x.toNat = dec y.toNat → x = y :=
    fun h => UInt8.toNat_inj.1 (Text.dec_injective h)
  obtain ⟨⟨a1, a2, a3, a4⟩, ⟨p, q⟩⟩ := a
  obtain ⟨⟨b1, b2, b3, b4⟩, ⟨r, s⟩⟩ := a'
  obtain rfl := hbyte h1
  obtain rfl := hbyte h2
  obtain rfl := hbyte h3
  obtain rfl := hbyte h4
  simp only [SockaddrIn.port, Text.be, List.foldl_cons, List.foldl_nil] at hport
  have hp := p.toNat_lt
  have hq := q.toNat_lt
  have hr := r.toNat_lt
  have hs := s.toNat_lt
  obtain rfl : p = r := UInt8.toNat_inj.1 (by omega)
  obtain rfl : q = s := UInt8.toNat_inj.1 (by omega)
  rfl

theorem blank_not_mem_word : ∀ v : Value, blank ∉ v.word
  | .int _       => (by decide : blank ∉ ascii "INT")
  | .shortReal _ => (by decide : blank ∉ ascii "SHORT_REAL")
  | .float _ _ _ => (by decide : blank ∉ ascii "FLOAT")
  | .string _    => (by decide : blank ∉ ascii "STRING")

theorem Value.text_injective {v v' : Value} (h : v.Wf) (h' : v'.Wf) (hword : v.word = v'.word)
    (htext : v.text = v'.text) : v = v' := by
  have hminus : ∀ n, (45 : UInt8) ∉ dec n := Text.not_mem_dec (fun hd => absurd hd.1 (by decide))
  have hminus' : ∀ p n, (45 : UInt8) ∉ fixedNat p n :=
    Text.not_mem_fixedNat (fun hd => absurd hd.1 (by decide)) (by decide)
  cases v with
  | int z =>
    cases v' with
    | int z' =>
      -- a text that starts with a minus is no decimal number
      simp only [text] at htext
      split at htext
      · split at htext
        · have := Text.dec_injective (List.append_cancel_left htext)
          rw [Value.int.injEq]
          omega
        · exact absurd (htext ▸ (show (45 : UInt8) ∈ ascii "-" ++ dec z.natAbs by simp [ascii])) (hminus _)
      · split at htext
        · exact absurd (htext ▸ (show (45 : UInt8) ∈ ascii "-" ++ dec z'.natAbs by simp [ascii])) (hminus _)
        · have := Text.dec_injective htext
          rw [Value.int.injEq]
          omega
    | _ => exact absurd hword (by simp [word, ascii])
  | shortReal n =>
    cases v' with
    | shortReal n' =>
      have := (Text.fixedNat_injective htext).2
      rw [Value.shortReal.injEq]
      omega
    | _ => exact absurd hword (by simp [word, ascii])
  | float s n p =>
    cases v' with
    | float s' n' p' =>
      simp only [text] at htext
      by_cases hs : s = 1
      · by_cases hs' : s' = 1
        · rw [if_pos hs, if_pos hs'] at htext
          obtain ⟨rfl, rfl⟩ := Text.fixedNat_injective (List.append_cancel_left htext)
          rw [hs, hs']
        · rw [if_pos hs, if_neg hs'] at htext
          exact absurd (htext ▸ (show (45 : UInt8) ∈ ascii "-" ++ fixedNat p n by simp [ascii])) (hminus' _ _)
      · by_cases hs' : s' = 1
        · rw [if_neg hs, if_pos hs'] at htext
          exact absurd (htext ▸ (show (45 : UInt8) ∈ ascii "-" ++ fixedNat p' n' by simp [ascii])) (hminus' _ _)
        · rw [if_neg hs, if_neg hs'] at htext
          obtain ⟨rfl, rfl⟩ := Text.fixedNat_injective htext
          rw [h.1.resolve_right hs, h'.1.resolve_right hs']
    | _ => exact absurd hword (by simp [word, ascii])
  | string s =>
    cases v' with
    | string s' => exact congrArg Value.string htext
    | _ => exact absurd hword (by simp [word, ascii])

theorem Notice.render_eq (m : Notice) : m.render =
    inetNtop m.sender ++ 58 :: (dec m.sender.port ++ 32 :: (45 :: 32 :: (m.topic ++ 32 :: (45 :: 32 ::
      (m.value.word ++ 32 :: (45 :: 32 :: m.value.text)))))) := by
  simp [render, ascii]

theorem Notice.render_injective (m m' : Notice) (ht : blank ∉ m.topic) (ht' : blank ∉ m'.topic) (hv : m.value.Wf)
    (hv' : m'.value.Wf) (h : m.render = m'.render) : m = m' := by
  have hcolon : ∀ a, (58 : UInt8) ∉ inetNtop a := not_mem_inetNtop (fun hd => absurd hd.2 (by decide)) (by decide)
  have hblank : ∀ n, (32 : UInt8) ∉ dec n := Text.not_mem_dec (fun hd => absurd hd.1 (by decide))
  rw [render_eq, render_eq] at h
  obtain ⟨hip, h⟩ := Text.append_sep_inj (hcolon _) (hcolon _) h
  obtain ⟨hport, h⟩ := Text.append_sep_inj (hblank _) (hblank _) h
  obtain ⟨htopic, h⟩ := Text.append_sep_inj ht ht' (List.cons.inj (List.cons.inj h).2).2
  obtain ⟨hword, h⟩ := Text.append_sep_inj (blank_not_mem_word _) (blank_not_mem_word _)
    (List.cons.inj (List.cons.inj h).2).2
  have htext : m.value.text = m'.value.text := (List.cons.inj (List.cons.inj h).2).2
  obtain ⟨sender, topic, value⟩ := m
  obtain ⟨sender', topic', value'⟩ := m'
  obtain rfl : sender = sender' := inetNtop_port_injective hip (Text.dec_injective hport)
  obtain rfl : topic = topic' := htopic
  obtain rfl : value = value' := Value.text_injective hv hv' hword htext
  rfl

/-- The byte that says which kind of value a datagram carries. -/
def Value.datatype : Value → UInt8
  | .int _       => 0
  | .shortReal _ => 1
  | .float _ _ _ => 2
  | .string _    => 3

theorem payload_datatype {buf : Bytes} {v : Value} (h : payload buf = some v) : buf.getD 50 0 = v.datatype := by
  unfold payload at h
  dsimp only at h
  split at h
  · rename_i h0
    split at h
    · cases h; exact h0
    · split at h
      · cases h; exact h0
      · cases h
  · split at h
    · rename_i h1
      cases h
      exact h1
    · split at h
      · rename_i h2
        split at h
        · cases h; exact h2
        · cases h
      · split at h
        · rename_i h3
          cases h
          exact h3
        · cases h

theorem accepted_eq {host : Host} (acc : host.Accurate) {d : Bytes} {sender : SockaddrIn} {size : ℤ} {text : Bytes}
    (h : manageUdp host (udpRecv d) sender size = some text) (hne : text ≠ []) :
    ∃ v, payload (udpRecv d) = some v ∧ text = Notice.render ⟨sender, topicOf (udpRecv d), v⟩ := by
  by_cases hsize : size < 51
  · rw [manageUdp, if_pos hsize] at h
    exact absurd (Option.some.inj h).symm hne
  · rw [manageUdp_eq acc sender (length_udpRecv d) hsize] at h
    split at h
    · cases h
    · cases hp : payload (udpRecv d) with
      | none =>
        rw [hp] at h
        exact absurd (Option.some.inj h).symm hne
      | some v =>
        rw [hp] at h
        exact ⟨v, rfl, (Option.some.inj h).symm⟩

/-- **Notifications are unambiguous**: equal lines come from equal senders, topics, datatypes and values. -/
theorem notification_unambiguous {host : Host} (acc : host.Accurate) {d₁ d₂ : Bytes} {a₁ a₂ : SockaddrIn} {text : Bytes}
    (ht₁ : blank ∉ topicOf (udpRecv d₁)) (ht₂ : blank ∉ topicOf (udpRecv d₂))
    (h₁ : manageUdp host (udpRecv d₁) a₁ d₁.length = some text)
    (h₂ : manageUdp host (udpRecv d₂) a₂ d₂.length = some text) (hne : text ≠ []) :
    a₁ = a₂ ∧ topicOf (udpRecv d₁) = topicOf (udpRecv d₂) ∧ (udpRecv d₁)[50]? = (udpRecv d₂)[50]? ∧
      ∃ v, payload (udpRecv d₁) = some v ∧ payload (udpRecv d₂) = some v := by
  obtain ⟨v₁, hv₁, hr₁⟩ := accepted_eq acc h₁ hne
  obtain ⟨v₂, hv₂, hr₂⟩ := accepted_eq acc h₂ hne
  have heq := Notice.render_injective ⟨a₁, topicOf (udpRecv d₁), v₁⟩ ⟨a₂, topicOf (udpRecv d₂), v₂⟩
    ht₁ ht₂ (payload_wf hv₁) (payload_wf hv₂) (hr₁.symm.trans hr₂)
  rw [Notice.mk.injEq] at heq
  obtain ⟨ha, htopic, rfl⟩ := heq
  have hlen₁ := length_udpRecv d₁
  have hlen₂ := length_udpRecv d₂
  refine ⟨ha, htopic, ?_, v₁, hv₁, hv₂⟩
  rw [getD_eq (by omega), getD_eq (by omega), payload_datatype hv₁, payload_datatype hv₂]

theorem notification_unambiguous_padding : ∃ text : Bytes, text ≠ [] ∧
    manageUdp exactHost (udpRecv (97 :: List.replicate 49 0 ++ [3, 120])) ⟨(127, 0, 0, 1), (31, 144)⟩ 52 = some text ∧
    manageUdp exactHost (udpRecv (97 :: List.replicate 49 0 ++ [3, 120, 0, 121])) ⟨(127, 0, 0, 1), (31, 144)⟩ 54 =
      some text ∧
    ∃ v, payload (udpRecv (97 :: List.replicate 49 0 ++ [3, 120])) = some v ∧
      payload (udpRecv (97 :: List.replicate 49 0 ++ [3, 120, 0, 121])) = some v := by
  have h₁ : manageUdp exactHost (udpRecv (97 :: List.replicate 49 0 ++ [3, 120])) ⟨(127, 0, 0, 1), (31, 144)⟩ 52 =
      some (ascii "127.0.0.1:8080 - a - STRING - x") := by decide +kernel
  have h₂ : manageUdp exactHost (udpRecv (97 :: List.replicate 49 0 ++ [3, 120, 0, 121])) ⟨(127, 0, 0, 1), (31, 144)⟩
      54 = some (ascii "127.0.0.1:8080 - a - STRING - x") := by decide +kernel
  have hne : ascii "127.0.0.1:8080 - a - STRING - x" ≠ [] := by decide
  exact ⟨_, hne, h₁, h₂,
    (notification_unambiguous exactHost_accurate (by decide) (by decide) h₁ h₂ hne).2.2.2⟩

/-! ## Room for the line -/

def contentOf (buf : Bytes) : Bytes := (buf.drop 51).takeWhile (· ≠ 0)

/-- The datagram becomes a text, read inside the buffer, which the subscriber's 1700 bytes have room for with its
terminator, and which arrives as it was sent, whatever each `send` (`p`) and each `recv` (`q`) moves. -/
def FitsReceiver (host : Host) (d : Bytes) (sender : SockaddrIn) : Prop :=
  ∃ text, manageUdp host (udpRecv d) sender d.length = some text ∧ text.length ≤ 1699 ∧
    ∀ p q : Nat → Int, (∀ i, 0 < p i) → (∀ i, 0 < q i) → ∃ n wire sends' recvs',
      sendTcp host text ((List.range n).map p) = some (wire, sends') ∧
        applicationProtocol host ⟨wire, (List.range n).map q⟩ = some (text, ⟨[], recvs'⟩)

theorem arrives (host : Host) {text : Bytes} (h0 : 0 ∉ text) (hlen : text.length ≤ 1699) {p q : Nat → Int}
    (hp : ∀ i, 0 < p i) (hq : ∀ i, 0 < q i) : ∃ n wire sends' recvs',
      sendTcp host text ((List.range n).map p) = some (wire, sends') ∧
        applicationProtocol host ⟨wire, (List.range n).map q⟩ = some (text, ⟨[], recvs'⟩) := by
  obtain ⟨sends', -, -, hsend⟩ := sendTcp_frame host h0 (by omega) (pos_of_mem_schedule hp (text.length + 2)) (by simp)
  obtain ⟨recvs', -, -, hrecv⟩ := applicationProtocol_frame host [] h0 (by omega)
    (pos_of_mem_schedule hq (text.length + 2)) (by simp)
  rw [List.append_nil] at hrecv
  exact ⟨_, _, sends', recvs', hsend, hrecv⟩

theorem length_inetNtop_le (a : SockaddrIn) : (inetNtop a).length ≤ 15 := by
  have hbyte : ∀ b : UInt8, (dec b.toNat).length ≤ 3 :=
    fun b => Text.length_dec_le (by decide) (lt_trans b.toNat_lt (by decide))
  have h1 := hbyte a.sin_addr.1
  have h2 := hbyte a.sin_addr.2.1
  have h3 := hbyte a.sin_addr.2.2.1
  have h4 := hbyte a.sin_addr.2.2.2
  simp only [inetNtop, List.length_append, List.length_cons]
  omega

theorem length_port_le (a : SockaddrIn) : (dec a.port).length ≤ 5 := by
  have h : a.port < 256 ^ 2 := be_lt_of_length (Nat.le_refl 2)
  exact Text.length_dec_le (by decide) (lt_trans h (by decide))

theorem Notice.length_render (m : Notice) : m.render.length = (inetNtop m.sender).length + (dec m.sender.port).length +
    m.topic.length + m.value.word.length + m.value.text.length + 10 := by
  simp only [render_eq, List.length_append, List.length_cons]
  omega

theorem Value.length_le {v : Value} (hv : v.Wf) (hs : v.datatype ≠ 3) : v.word.length + v.text.length ≤ 277 := by
  have hminus : (ascii "-").length = 1 := rfl
  cases v with
  | int z =>
    have hw : (ascii "INT").length = 3 := rfl
    have := Text.length_dec_le (k := 10) (by decide) (lt_trans hv (by decide))
    simp only [word, text]
    split
    · rw [List.length_append]
      omega
    · omega
  | shortReal n =>
    have hn : n * 10 ^ 4 < 10 ^ 9 := by
      have : n < 2 ^ 16 := hv
      omega
    have hw : (ascii "SHORT_REAL").length = 10 := rfl
    have := Text.length_fixedNat_le (p := 6) (by decide) hn
    simp only [word, text]
    omega
  | float s n p =>
    obtain ⟨-, hn, hp⟩ := hv
    have hw : (ascii "FLOAT").length = 5 := rfl
    have := Text.length_fixedNat_le (p := p) (k := 10) (by decide) (lt_trans hn (by decide))
    simp only [word, text]
    split
    · rw [List.length_append]
      omega
    · omega
  | string s => exact absurd rfl hs

theorem zero_not_mem_word : ∀ v : Value, 0 ∉ v.word
  | .int _       => (by decide : 0 ∉ ascii "INT")
  | .shortReal _ => (by decide : 0 ∉ ascii "SHORT_REAL")
  | .float _ _ _ => (by decide : 0 ∉ ascii "FLOAT")
  | .string _    => (by decide : 0 ∉ ascii "STRING")

theorem zero_not_mem_text {v : Value} (hv : v.Wf) : 0 ∉ v.text := by
  have hdec : ∀ n, (0 : UInt8) ∉ dec n := Text.not_mem_dec (fun hd => absurd hd.1 (by decide))
  have hfixed : ∀ p n, (0 : UInt8) ∉ fixedNat p n :=
    Text.not_mem_fixedNat (fun hd => absurd hd.1 (by decide)) (by decide)
  cases v with
  | int z =>
    simp only [Value.text]
    split
    · simp [ascii, hdec]
    · exact hdec _
  | shortReal n => exact hfixed _ _
  | float s n p =>
    simp only [Value.text]
    split
    · simp [ascii, hfixed]
    · exact hfixed _ _
  | string s => exact hv

theorem Notice.zero_not_mem_render {m : Notice} (ht : 0 ∉ m.topic) (hv : m.value.Wf) : 0 ∉ m.render := by
  have hip : 0 ∉ inetNtop m.sender := not_mem_inetNtop (fun hd => absurd hd.1 (by decide)) (by decide) _
  have hport : ∀ n, (0 : UInt8) ∉ dec n := Text.not_mem_dec (fun hd => absurd hd.1 (by decide))
  simp [render_eq, hip, hport, ht, zero_not_mem_word, zero_not_mem_text hv]

theorem Notice.length_render_string {sender : SockaddrIn} {topic s : Bytes} :
    (Notice.render ⟨sender, topic, .string s⟩).length =
      (inetNtop sender).length + (dec sender.port).length + topic.length + s.length + 16 := by
  have hw : (ascii "STRING").length = 6 := rfl
  simp only [length_render, Value.word, Value.text, hw]
  omega

theorem payload_string {buf : Bytes} (h : buf.getD 50 0 = 3) : payload buf = some (.string (contentOf buf)) := by
  simp only [payload, h, contentOf]
  rfl

/-- **When a notification fits the receiver**: always, unless the datagram carries a text that has no terminator in the
buffer or that is too long together with the sender's address, its port, the topic and the 16 bytes between them. -/
theorem notification_fits_iff {host : Host} (acc : host.Accurate) {d : Bytes} (sender : SockaddrIn) :
    FitsReceiver host d sender ↔ (51 ≤ d.length → (udpRecv d)[50]? = some 3 →
      0 ∈ (udpRecv d).drop 51 ∧ (inetNtop sender).length + (dec sender.port).length + (topicOf (udpRecv d)).length +
        (contentOf (udpRecv d)).length + 16 ≤ 1699) := by
  have hlen := length_udpRecv d
  generalize hb : udpRecv d = buf at hlen
  have hfits : ∀ text, manageUdp host buf sender d.length = some text → 0 ∉ text → text.length ≤ 1699 →
      FitsReceiver host d sender := fun text h h0 hl => ⟨text, hb ▸ h, hl, fun p q hp hq => arrives host h0 hl hp hq⟩
  by_cases hsize : ((d.length : Nat) : ℤ) < 51
  · exact ⟨fun _ h => absurd h (by omega), fun _ => hfits [] (by rw [manageUdp, if_pos hsize]) (by simp) (by simp)⟩
  have heq := manageUdp_eq acc sender hlen hsize
  rw [getD_eq (by omega), Option.some.injEq]
  by_cases h3 : buf.getD 50 0 = 3
  · -- a text: read to its terminator, if there is one
    rw [payload_string h3] at heq
    constructor
    · rintro ⟨text, htext, hl, -⟩ - -
      rw [hb, heq] at htext
      split at htext
      · cases htext
      · rename_i hz
        rw [← Option.some.inj htext, Notice.length_render_string] at hl
        exact ⟨by_contra fun h0 => hz ⟨h3, h0⟩, hl⟩
    · intro h
      obtain ⟨h0, hl⟩ := h (by omega) h3
      rw [if_neg (fun hz => hz.2 h0)] at heq
      refine hfits _ heq ?_ ?_
      · exact Notice.zero_not_mem_render (zero_not_mem_topicOf _) (payload_wf (payload_string h3))
      · rw [Notice.length_render_string]
        exact hl
  · refine ⟨fun _ _ h => absurd h h3, fun _ => ?_⟩
    rw [if_neg (fun hz => h3 hz.1)] at heq
    cases hp : payload buf with
    | none =>
      rw [hp] at heq
      exact hfits [] heq (by simp) (by simp)
    | some v =>
      rw [hp] at heq
      have hv := payload_wf hp
      have h1 := length_inetNtop_le sender
      have h2 := length_port_le sender
      have h4 := length_topicOf_le buf
      have h5 := Value.length_le hv (by rwa [← payload_datatype hp])
      apply hfits _ heq (Notice.zero_not_mem_render (zero_not_mem_topicOf _) hv)
      rw [Notice.length_render]
      show (inetNtop sender).length + (dec sender.port).length + (topicOf buf).length + v.word.length +
        v.text.length + 10 ≤ 1699
      omega

theorem notification_fits_text : FitsReceiver exactHost (97 :: List.replicate 49 0 ++ [3, 120])
    ⟨(127, 0, 0, 1), (31, 144)⟩ :=
  (notification_fits_iff exactHost_accurate _).2 (by decide +kernel)

/-- A text of 1640 bytes under a topic of 50 makes a line of 1719; one that fills the buffer is read past its end. -/
theorem notification_overflows :
    ¬ FitsReceiver exactHost (List.replicate 50 97 ++ 3 :: List.replicate 1640 97) ⟨(127, 0, 0, 1), (31, 144)⟩ ∧
      ¬ FitsReceiver exactHost (List.replicate 50 97 ++ 3 :: List.replicate 1649 97) ⟨(127, 0, 0, 1), (31, 144)⟩ := by
  constructor
  · rintro ⟨text, h, hl, -⟩
    have hlen : (manageUdp exactHost (udpRecv (List.replicate 50 97 ++ 3 :: List.replicate 1640 97))
        ⟨(127, 0, 0, 1), (31, 144)⟩ ((List.replicate 50 (97 : UInt8) ++ 3 :: List.replicate 1640 97).length : ℕ)).map
        List.length = some 1719 := by decide +kernel
    rw [h, Option.map_some, Option.some.injEq] at hlen
    omega
  · rintro ⟨text, h, -⟩
    have hnone : (manageUdp exactHost (udpRecv (List.replicate 50 97 ++ 3 :: List.replicate 1649 97))
        ⟨(127, 0, 0, 1), (31, 144)⟩ ((List.replicate 50 (97 : UInt8) ++
          3 :: List.replicate 1649 97).length : ℕ)).isNone := by
      decide +kernel
    rw [h] at hnone
    cases hnone

end Ts
