import TopicServer.Notice
/-!
# Numeric — the numbers in a notification

The value of a numeric datagram is a magnitude, for two of the three types with a sign byte, and for two of them with
decimals.  What the line shows denotes exactly that number (`numbers_exact`); whether it has the form of its type is
another question (`canonical_iff`).
-/
namespace Ts

open Text (ascii dec be fixedNat denoted Canonical)

def datatypeOf (buf : Bytes) : UInt8 := buf.getD 50 0

def Numeric (buf : Bytes) : Prop := datatypeOf buf = 0 ∨ datatypeOf buf = 1 ∨ datatypeOf buf = 2

instance (buf : Bytes) : Decidable (Numeric buf) := inferInstanceAs (Decidable (_ ∨ _ ∨ _))

def signOf (buf : Bytes) : Nat := (buf.getD 51 0).toNat

def powerOf (buf : Bytes) : Nat := (buf.getD 56 0).toNat

def magnitudeOf (buf : Bytes) : Nat := be ((buf.drop 52).take 4)

/-- The number a datagram carries. -/
def carried (buf : Bytes) : ℚ :=
  if datatypeOf buf = 0 then (-1) ^ signOf buf * magnitudeOf buf
  else if datatypeOf buf = 1 then be ((buf.drop 51).take 2) / 100
  else (-1) ^ signOf buf * magnitudeOf buf / 10 ^ powerOf buf

def heading (sender : SockaddrIn) (buf : Bytes) : Bytes :=
  inetNtop sender ++ ascii ":" ++ dec sender.port ++ ascii " - " ++ topicOf buf ++ ascii " - " ++
    ((if datatypeOf buf = 0 then ascii "INT" else if datatypeOf buf = 1 then ascii "SHORT_REAL" else ascii "FLOAT") ++
      ascii " - ")

section

variable {α : Type} {buf : Bytes} (a b c : α)

theorem ite_shortReal (h : datatypeOf buf = 1) :
    (if datatypeOf buf = 0 then a else if datatypeOf buf = 1 then b else c) = b := by
  rw [if_neg (by rw [h]; decide), if_pos h]

theorem ite_float (h : datatypeOf buf = 2) :
    (if datatypeOf buf = 0 then a else if datatypeOf buf = 1 then b else c) = c := by
  rw [if_neg (by rw [h]; decide), if_neg (by rw [h]; decide)]

end

/-- The values a numeric datagram gives. -/
inductive NumericPayload (buf : Bytes) : Value → Prop
  | plus : datatypeOf buf = 0 → signOf buf = 0 → NumericPayload buf (.int (magnitudeOf buf))
  | minus : datatypeOf buf = 0 → signOf buf = 1 → NumericPayload buf (.int (-magnitudeOf buf))
  | shortReal : datatypeOf buf = 1 → NumericPayload buf (.shortReal (be ((buf.drop 51).take 2)))
  | float {signByte : UInt8} : datatypeOf buf = 2 → signByte.toNat = signOf buf → signByte = 0 ∨ signByte = 1 →
      NumericPayload buf (.float signByte (magnitudeOf buf) (powerOf buf))

theorem payload_numeric {buf : Bytes} {v : Value} (hnum : Numeric buf) (h : payload buf = some v) :
    NumericPayload buf v := by
  unfold payload at h
  dsimp only at h
  rcases hnum with h0 | h1 | h2
  · rw [if_pos (show buf.getD 50 0 = 0 from h0)] at h
    split at h
    · rename_i hs
      cases h
      exact .plus h0 (by rw [signOf, hs]; rfl)
    · split at h
      · rename_i hs
        cases h
        exact .minus h0 (by rw [signOf, hs]; rfl)
      · cases h
  · rw [datatypeOf] at h1
    rw [if_neg (by rw [h1]; decide), if_pos h1] at h
    cases h
    exact .shortReal h1
  · rw [datatypeOf] at h2
    rw [if_neg (by rw [h2]; decide), if_neg (by rw [h2]; decide), if_pos h2] at h
    split at h
    · rename_i hs
      cases h
      exact .float h2 rfl hs
    · cases h

theorem payload_isSome_iff {buf : Bytes} (hnum : Numeric buf) :
    (payload buf).isSome ↔ datatypeOf buf = 1 ∨ signOf buf ≤ 1 := by
  have hsign : signOf buf ≤ 1 ↔ buf.getD 51 0 = 0 ∨ buf.getD 51 0 = 1 := by
    rw [signOf, ← UInt8.toNat_inj, ← UInt8.toNat_inj]
    simp only [UInt8.toNat_ofNat, Nat.zero_mod]
    omega
  rw [hsign]
  unfold Numeric datatypeOf at hnum
  unfold payload datatypeOf
  generalize buf.getD 50 0 = datatype at hnum ⊢
  generalize buf.getD 51 0 = signByte
  rcases hnum with rfl | rfl | rfl
  · rw [if_pos rfl]
    split
    · simp [*]
    · split <;> simp [*]
  · simp
  · rw [if_neg (by decide), if_neg (by decide), if_pos rfl]
    split <;> simp [*]

/-- **Which numeric datagrams are accepted**: those of 51 bytes or more, with a sign byte 0 or 1 where there is one. -/
theorem accepted_iff {host : Host} (acc : host.Accurate) {d : Bytes} (sender : SockaddrIn) {size : ℤ}
    (hnum : Numeric (udpRecv d)) :
    (∃ text, manageUdp host (udpRecv d) sender size = some text ∧ text ≠ []) ↔
      51 ≤ size ∧ (datatypeOf (udpRecv d) = 1 ∨ signOf (udpRecv d) ≤ 1) := by
  by_cases hsize : size < 51
  · simp [manageUdp, hsize]
  have hnot : ¬ ((udpRecv d).getD 50 0 = 3 ∧ 0 ∉ (udpRecv d).drop 51) := by
    rintro ⟨h3, -⟩
    rw [Numeric, datatypeOf, h3] at hnum
    revert hnum
    decide
  rw [manageUdp_eq acc sender (length_udpRecv d) hsize, if_neg hnot, ← payload_isSome_iff hnum]
  cases payload (udpRecv d) with
  | none => simp
  | some v =>
    have hne : Notice.render ⟨sender, topicOf (udpRecv d), v⟩ ≠ [] := by
      have hcolon : ascii ":" ≠ [] := by decide
      simp [Notice.render, hcolon]
    simp [hne, not_lt.1 hsize]

theorem accepted_numeric {host : Host} (acc : host.Accurate) {d : Bytes} {sender : SockaddrIn} {size : ℤ} {text : Bytes}
    (hnum : Numeric (udpRecv d)) (h : manageUdp host (udpRecv d) sender size = some text) (hne : text ≠ []) :
    ∃ v, NumericPayload (udpRecv d) v ∧ text = heading sender (udpRecv d) ++ v.text := by
  obtain ⟨v, hv, rfl⟩ := accepted_eq acc h hne
  have hpay := payload_numeric hnum hv
  refine ⟨v, hpay, ?_⟩
  have hword : v.word = if datatypeOf (udpRecv d) = 0 then ascii "INT" else
      if datatypeOf (udpRecv d) = 1 then ascii "SHORT_REAL" else ascii "FLOAT" := by
    cases hpay with
    | plus h0 => rw [if_pos h0]; rfl
    | minus h0 => rw [if_pos h0]; rfl
    | shortReal h1 => exact (ite_shortReal _ _ _ h1).symm
    | float h2 => exact (ite_float _ _ _ h2).symm
  rw [Notice.render, heading, hword]
  simp only [List.append_assoc]

theorem text_int (z : ℤ) : (Value.int z).text = if z < 0 then 45 :: fixedNat 0 z.natAbs else fixedNat 0 z.natAbs := rfl

theorem text_float (s : UInt8) (n p : Nat) :
    (Value.float s n p).text = if s = 1 then 45 :: fixedNat p n else fixedNat p n := rfl

/-! ## The number -/

theorem denoted_text {buf : Bytes} {v : Value} (h : NumericPayload buf v) : denoted v.text = some (carried buf) := by
  cases h with
  | plus h0 hs =>
    have hc : carried buf = magnitudeOf buf := by rw [carried, if_pos h0, hs]; simp
    rw [text_int, if_neg (by omega), Text.denoted_fixedNat, hc]
    simp
  | minus h0 hs =>
    have hc : carried buf = -magnitudeOf buf := by rw [carried, if_pos h0, hs]; simp
    rw [text_int, hc]
    by_cases hn : magnitudeOf buf = 0
    · rw [if_neg (by omega), Text.denoted_fixedNat, hn]
      simp
    · rw [if_pos (by omega), Text.denoted_minus]
      simp
  | shortReal h1 =>
    have hc : carried buf = be ((buf.drop 51).take 2) / 100 := by rw [carried, ite_shortReal _ _ _ h1]
    rw [Value.text, Text.denoted_fixedNat, hc, Option.some.injEq]
    push_cast
    ring
  | @float signByte h2 hsign hs =>
    have hc : carried buf = (-1) ^ signByte.toNat * magnitudeOf buf / 10 ^ powerOf buf := by
      rw [carried, ite_float _ _ _ h2, hsign]
    rw [text_float, hc]
    rcases hs with rfl | rfl
    · rw [if_neg (by decide), Text.denoted_fixedNat]
      simp
    · rw [if_pos rfl, Text.denoted_minus]
      simp [neg_div]

/-- **Numbers are shown without loss**: the value text of every accepted numeric datagram denotes the number it carries,
whatever its magnitude, sign byte and power. -/
theorem numbers_exact {host : Host} (acc : host.Accurate) {d : Bytes} {sender : SockaddrIn} {size : ℤ} {text : Bytes}
    (hnum : Numeric (udpRecv d)) (h : manageUdp host (udpRecv d) sender size = some text) (hne : text ≠ []) :
    ∃ V, text = heading sender (udpRecv d) ++ V ∧ denoted V = some (carried (udpRecv d)) := by
  obtain ⟨v, hv, htext⟩ := accepted_numeric acc hnum h hne
  exact ⟨v.text, htext, denoted_text hv⟩

theorem numbers_exact_float : ∃ V, ascii "127.0.0.1:8080 - a - FLOAT - -0.005" =
    heading ⟨(127, 0, 0, 1), (31, 144)⟩ (udpRecv (97 :: List.replicate 49 0 ++ [2, 1, 0, 0, 0, 5, 3])) ++ V ∧
      denoted V = some (carried (udpRecv (97 :: List.replicate 49 0 ++ [2, 1, 0, 0, 0, 5, 3]))) :=
  @numbers_exact exactHost exactHost_accurate _ ⟨(127, 0, 0, 1), (31, 144)⟩ 57
    (ascii "127.0.0.1:8080 - a - FLOAT - -0.005") (by decide +kernel) (by decide +kernel) (by decide)

/-! ## The form -/

/-- How many decimals the type of a datagram asks for. -/
def decimalsOf (buf : Bytes) : Nat :=
  if datatypeOf buf = 0 then 0 else if datatypeOf buf = 1 then 2 else powerOf buf

def MinusZero (buf : Bytes) : Prop := signOf buf = 1 ∧ magnitudeOf buf = 0

theorem canonical_text_iff {buf : Bytes} {v : Value} (h : NumericPayload buf v) : Canonical (decimalsOf buf) v.text ↔
    datatypeOf buf = 0 ∨ datatypeOf buf = 2 ∧ ¬ MinusZero buf := by
  cases h with
  | plus h0 hs =>
    have hd : decimalsOf buf = 0 := if_pos h0
    rw [text_int, if_neg (by omega), hd]
    exact iff_of_true (Text.canonical_fixedNat 0 _) (Or.inl h0)
  | minus h0 hs =>
    have hd : decimalsOf buf = 0 := if_pos h0
    rw [text_int, hd]
    refine iff_of_true ?_ (Or.inl h0)
    split
    · exact (Text.canonical_minus_iff 0 _).2 (by omega)
    · exact Text.canonical_fixedNat 0 _
  | shortReal h1 =>
    have hd : decimalsOf buf = 2 := by rw [decimalsOf, ite_shortReal _ _ _ h1]
    rw [hd]
    refine iff_of_false (Text.not_canonical_fixedNat (by decide) (by decide) _) ?_
    simp [h1]
  | @float signByte h2 hsign hs =>
    have hd : decimalsOf buf = powerOf buf := by rw [decimalsOf, ite_float _ _ _ h2]
    have hiff : (datatypeOf buf = 0 ∨ datatypeOf buf = 2 ∧ ¬ MinusZero buf) ↔ ¬ MinusZero buf := by
      rw [h2]
      simp
    rw [text_float, hd, hiff, MinusZero, ← hsign]
    rcases hs with rfl | rfl
    · rw [if_neg (by decide)]
      exact iff_of_true (Text.canonical_fixedNat _ _) (by simp)
    · rw [if_pos rfl, Text.canonical_minus_iff]
      simp

theorem payload_int {buf : Bytes} {v : Value} (h : NumericPayload buf v) (h0 : datatypeOf buf = 0) :
    ∃ z : ℤ, v = .int z ∧ carried buf = z := by
  cases h with
  | plus _ hs => exact ⟨_, rfl, by rw [carried, if_pos h0, hs]; simp⟩
  | minus _ hs => exact ⟨_, rfl, by rw [carried, if_pos h0, hs]; simp⟩
  | shortReal h1 => rw [h1] at h0; cases h0
  | float h2 => rw [h2] at h0; cases h0

theorem payload_shortReal {buf : Bytes} {v : Value} (h : NumericPayload buf v) (h1 : datatypeOf buf = 1) :
    ∃ n : Nat, v = .shortReal n ∧ carried buf = n / 100 := by
  cases h with
  | plus h0 => rw [h0] at h1; cases h1
  | minus h0 => rw [h0] at h1; cases h1
  | shortReal _ => exact ⟨_, rfl, by rw [carried, ite_shortReal _ _ _ h1]⟩
  | float h2 => rw [h2] at h1; cases h1

theorem payload_float {buf : Bytes} {v : Value} (h : NumericPayload buf v) (h2 : datatypeOf buf = 2) :
    (signOf buf = 0 ∧ v.text = fixedNat (powerOf buf) (magnitudeOf buf) ∧
        carried buf * 10 ^ powerOf buf = magnitudeOf buf) ∨
      signOf buf = 1 ∧ v.text = 45 :: fixedNat (powerOf buf) (magnitudeOf buf) ∧
        carried buf * 10 ^ powerOf buf = -magnitudeOf buf := by
  have hpow : (10 : ℚ) ^ powerOf buf ≠ 0 := by positivity
  have hc : carried buf * 10 ^ powerOf buf = (-1) ^ signOf buf * magnitudeOf buf := by
    rw [carried, ite_float _ _ _ h2, div_mul_cancel₀ _ hpow]
  cases h with
  | plus h0 => rw [h0] at h2; cases h2
  | minus h0 => rw [h0] at h2; cases h2
  | shortReal h1 => rw [h1] at h2; cases h2
  | float _ hsign hs =>
    rw [hc, ← hsign, text_float]
    rcases hs with rfl | rfl
    · exact Or.inl ⟨rfl, by rw [if_neg (by decide)], by simp⟩
    · exact Or.inr ⟨rfl, by rw [if_pos rfl], by simp⟩

theorem zero_of_eq_neg {a b : Nat} (h : (a : ℚ) = -b) : a = 0 ∧ b = 0 := by
  have hsum : (a : ℚ) + b = 0 := by linarith
  have hsum : a + b = 0 := by exact_mod_cast hsum
  omega

/-- **Equal numbers of one type and precision** have one text, but for a `FLOAT` zero with and without a sign. -/
theorem text_eq_iff {buf buf' : Bytes} {v v' : Value} (hnum : Numeric buf) (h : NumericPayload buf v)
    (h' : NumericPayload buf' v') (htype : datatypeOf buf = datatypeOf buf') (hdec : decimalsOf buf = decimalsOf buf')
    (hc : carried buf = carried buf') :
    v.text = v'.text ↔ ¬ (datatypeOf buf = 2 ∧ magnitudeOf buf = 0 ∧ signOf buf ≠ signOf buf') := by
  rcases hnum with h0 | h1 | h2
  · obtain ⟨z, rfl, hz⟩ := payload_int h h0
    obtain ⟨z', rfl, hz'⟩ := payload_int h' (htype ▸ h0)
    obtain rfl : z = z' := by exact_mod_cast hz.symm.trans (hc.trans hz')
    exact iff_of_true rfl (by simp [h0])
  · obtain ⟨n, rfl, hn⟩ := payload_shortReal h h1
    obtain ⟨n', rfl, hn'⟩ := payload_shortReal h' (htype ▸ h1)
    have hnn : (n : ℚ) / 100 = n' / 100 := hn.symm.trans (hc.trans hn')
    obtain rfl : n = n' := by
      rw [div_left_inj' (by norm_num)] at hnn
      exact_mod_cast hnn
    exact iff_of_true rfl (by simp [h1])
  · have h2' : datatypeOf buf' = 2 := htype ▸ h2
    have hp : powerOf buf = powerOf buf' := by
      simpa [decimalsOf, h2, h2'] using hdec
    have hminus : ∀ p n p' n', fixedNat p n ≠ 45 :: fixedNat p' n' := fun p n p' n' heq =>
      Text.minus_not_mem_fixedNat p n (heq ▸ List.mem_cons_self)
    -- the digits agree, so the texts differ only when the signs do, and then the number is its own negative
    rcases payload_float h h2 with ⟨hs, ht, hm⟩ | ⟨hs, ht, hm⟩
    · rcases payload_float h' h2' with ⟨hs', ht', hm'⟩ | ⟨hs', ht', hm'⟩
      · have hmm : magnitudeOf buf = magnitudeOf buf' := by
          rw [hc, hp, hm'] at hm
          exact_mod_cast hm.symm
        rw [ht, ht', hp, hmm, hs, hs']
        simp
      · have hmm : magnitudeOf buf = 0 := by
          rw [hc, hp, hm'] at hm
          exact (zero_of_eq_neg hm.symm).1
        rw [ht, ht']
        exact iff_of_false (hminus _ _ _ _) (by simp [h2, hmm, hs, hs'])
    · rcases payload_float h' h2' with ⟨hs', ht', hm'⟩ | ⟨hs', ht', hm'⟩
      · have hmm : magnitudeOf buf = 0 := by
          rw [hc, hp, hm'] at hm
          exact (zero_of_eq_neg hm).2
        rw [ht, ht']
        exact iff_of_false (fun heq => hminus _ _ _ _ heq.symm) (by simp [h2, hmm, hs, hs'])
      · have hmm : magnitudeOf buf = magnitudeOf buf' := by
          rw [hc, hp, hm', neg_inj] at hm
          exact_mod_cast hm.symm
        rw [ht, ht', hp, hmm, hs, hs']
        simp

/-- **When numbers have the form of their type**: an `INT` always, a `SHORT_REAL` never, a `FLOAT` unless it is a zero
with the sign byte 1; and two datagrams of one type and precision that carry equal numbers show one text unless they are
`FLOAT` zeros with different sign bytes. -/
theorem canonical_iff {host : Host} (acc : host.Accurate) {d : Bytes} {sender : SockaddrIn} {size : ℤ} {text : Bytes}
    (hnum : Numeric (udpRecv d)) (h : manageUdp host (udpRecv d) sender size = some text) (hne : text ≠ []) :
    ∃ V, text = heading sender (udpRecv d) ++ V ∧
      (Canonical (decimalsOf (udpRecv d)) V ↔
        datatypeOf (udpRecv d) = 0 ∨ datatypeOf (udpRecv d) = 2 ∧ ¬ MinusZero (udpRecv d)) ∧
      ∀ d' sender' size' text', manageUdp host (udpRecv d') sender' size' = some text' → text' ≠ [] →
        datatypeOf (udpRecv d) = datatypeOf (udpRecv d') → decimalsOf (udpRecv d) = decimalsOf (udpRecv d') →
        carried (udpRecv d) = carried (udpRecv d') → ∃ V', text' = heading sender' (udpRecv d') ++ V' ∧
          (V = V' ↔ ¬ (datatypeOf (udpRecv d) = 2 ∧ magnitudeOf (udpRecv d) = 0 ∧
            signOf (udpRecv d) ≠ signOf (udpRecv d'))) := by
  obtain ⟨v, hv, htext⟩ := accepted_numeric acc hnum h hne
  refine ⟨v.text, htext, canonical_text_iff hv, fun d' sender' size' text' h' hne' htype hdec hc => ?_⟩
  have hnum' : Numeric (udpRecv d') := by rwa [Numeric, ← htype]
  obtain ⟨v', hv', htext'⟩ := accepted_numeric acc hnum' h' hne'
  exact ⟨v'.text, htext', text_eq_iff hnum hv hv' htype hdec hc⟩

theorem canonical_iff_float : ∃ V, ascii "127.0.0.1:8080 - a - FLOAT - -0.005" =
    heading ⟨(127, 0, 0, 1), (31, 144)⟩ (udpRecv (97 :: List.replicate 49 0 ++ [2, 1, 0, 0, 0, 5, 3])) ++ V ∧
      (Canonical (decimalsOf (udpRecv (97 :: List.replicate 49 0 ++ [2, 1, 0, 0, 0, 5, 3]))) V ↔
        datatypeOf (udpRecv (97 :: List.replicate 49 0 ++ [2, 1, 0, 0, 0, 5, 3])) = 0 ∨
          datatypeOf (udpRecv (97 :: List.replicate 49 0 ++ [2, 1, 0, 0, 0, 5, 3])) = 2 ∧
            ¬ MinusZero (udpRecv (97 :: List.replicate 49 0 ++ [2, 1, 0, 0, 0, 5, 3]))) := by
  obtain ⟨V, htext, hiff, -⟩ := @canonical_iff exactHost exactHost_accurate
    (97 :: List.replicate 49 0 ++ [2, 1, 0, 0, 0, 5, 3]) ⟨(127, 0, 0, 1), (31, 144)⟩ 57
    (ascii "127.0.0.1:8080 - a - FLOAT - -0.005") (by decide +kernel) (by decide +kernel) (by decide)
  exact ⟨V, htext, hiff⟩

/-- The number 2305 comes as 23.05 and is shown with four zeros more. -/
theorem short_real_six_decimals :
    manageUdp exactHost (udpRecv (97 :: List.replicate 49 0 ++ [1, 9, 1])) ⟨(127, 0, 0, 1), (31, 144)⟩ 53 =
      some (heading ⟨(127, 0, 0, 1), (31, 144)⟩ (udpRecv (97 :: List.replicate 49 0 ++ [1, 9, 1])) ++ ascii "23.050000") ∧
    ¬ Canonical 2 (ascii "23.050000") := by
  have hdigits : ascii "23.050000" = fixedNat 6 23050000 := by decide +kernel
  exact ⟨by decide +kernel, hdigits ▸ Text.not_canonical_fixedNat (by decide) (by decide) 23050000⟩

end Ts
