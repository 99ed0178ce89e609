import TopicServer.Wire
/-!
# Limits — frames that break off, and texts too long for a frame

What `applicationProtocol` returns when a connection ends or fails inside a frame, and what `sendTcp` does with a text
whose length does not leave room for the two bytes of the header in 16 bits.
-/
namespace Ts

open Mem

/-! ## Reception

The reads of a payload succeed until the first that does not; `arrived` is how much they bring until then and `endedBy` the
result that ends them. -/

def arrived (recvs : List Int) : Nat := ((recvs.takeWhile (0 < ·)).map Int.toNat).sum

def endedBy (recvs : List Int) : Option Int := (recvs.dropWhile (0 < ·)).head?

def failed (recvs : List Int) : Bool := (endedBy recvs).any (· < 0)

theorem arrived_cons {r : Int} (hr : 0 < r) (recvs : List Int) : arrived (r :: recvs) = r.toNat + arrived recvs := by
  simp [arrived, hr]

theorem endedBy_cons {r : Int} (hr : 0 < r) (recvs : List Int) : endedBy (r :: recvs) = endedBy recvs := by
  simp [endedBy, hr]

theorem failed_cons {r : Int} (hr : 0 < r) (recvs : List Int) : failed (r :: recvs) = failed recvs := by
  rw [failed, endedBy_cons hr, failed]

theorem write_someBuffer_nil (a : Bytes) : write (someBuffer a) a.length [] = some (someBuffer a) := by
  have := write_eq (m := someBuffer a) (x := []) a.length (by simp [someBuffer])
  simpa using this

/-- **What the receive loop returns**, `a` of the payload already in the buffer and `b` still to come: all of it when
all of it comes, nothing at the end of the file, and at an error what has come so far. -/
theorem recvLoop_eq : ∀ (recvs : List Int) (a b rest : Bytes) (res : Int), 0 < res → 0 ∉ a ++ b →
    (a ++ b).length < 1700 → b.length ≤ arrived recvs ∨ (endedBy recvs).isSome → ∃ sock',
      recvLoop (a ++ b).length recvs res a.length (someBuffer a) (b ++ rest) =
        some (if b.length ≤ arrived recvs then a ++ b
          else if failed recvs then a ++ b.take (arrived recvs) else [], sock')
  | recvs, a, [], rest, res, _, h0, hlen, _ => by
    rw [List.append_nil] at h0 hlen ⊢
    rw [if_pos (show ([] : Bytes).length ≤ _ from Nat.zero_le _)]
    exact ⟨_, recvLoop_whole recvs res rest h0 hlen⟩
  | [], a, x :: b, rest, res, _, _, _, hend => absurd hend (by simp [arrived, endedBy])
  | r :: recvs, a, x :: b, rest, res, hres, h0, hlen, hend => by
    by_cases hr : 0 < r
    · obtain ⟨n, hn, hmin, hstep⟩ := recvLoop_step recvs a rest hres hr (List.cons_ne_nil x b) hlen.le
      rw [arrived_cons hr, endedBy_cons hr] at hend
      rw [arrived_cons hr, failed_cons hr]
      generalize hB : x :: b = B at *
      have hsplit : a ++ B = (a ++ B.take n) ++ B.drop n := by rw [List.append_assoc, List.take_append_drop]
      have hdrop : (B.drop n).length = B.length - n := List.length_drop
      obtain ⟨sock', ih⟩ := recvLoop_eq recvs (a ++ B.take n) (B.drop n) rest n (by omega) (by rwa [← hsplit])
        (by rwa [← hsplit]) (hend.imp (fun h => by omega) id)
      rw [← hsplit] at ih
      refine ⟨sock', hstep.trans (ih.trans ?_)⟩
      by_cases hall : B.length ≤ r.toNat + arrived recvs
      · rw [if_pos hall, if_pos (by omega)]
      · -- not the last read: it brought all it could
        have hnr : n = r.toNat := by omega
        rw [if_neg hall, if_neg (by omega), hnr, List.append_assoc, ← List.take_add]
    · have hcond : 0 < res ∧ (a.length : Int) ≠ ((a ++ x :: b).length : Nat) := by
        refine ⟨hres, ?_⟩
        rw [List.length_append, List.length_cons]
        omega
      have harrived : arrived (r :: recvs) = 0 := by simp [arrived, hr]
      have hfailed : failed (r :: recvs) = decide (r < 0) := by simp [failed, endedBy, hr]
      have hwrite := write_someBuffer_nil a
      rw [harrived, hfailed, if_neg (by simp)]
      by_cases hneg : r < 0
      · -- an error ends the loop, and what the buffer holds is taken for the text
        have hrecv : recv r (((a ++ x :: b).length : Nat) - (a.length : Int)).toNat (x :: b ++ rest) =
            some (-1, [], x :: b ++ rest) := by
          simp [recv, hneg]
        have hhold := (someBuffer_holds (a := a) (fun hm => h0 (List.mem_append_left _ hm)) (by
          rw [List.length_append] at hlen
          omega)).cstr_eq
        refine ⟨⟨x :: b ++ rest, recvs⟩, ?_⟩
        rw [if_pos (by simpa using hneg)]
        unfold recvLoop
        simp only [if_pos hcond, hrecv, Option.bind_eq_bind, Option.bind_some, Int.toNat_natCast, hwrite]
        rw [if_neg (by decide)]
        unfold recvLoop
        simp [hhold]
      · obtain rfl : r = 0 := by omega
        have hrecv : recv 0 (((a ++ x :: b).length : Nat) - (a.length : Int)).toNat (x :: b ++ rest) =
            some (0, [], x :: b ++ rest) := by
          simp [recv]
        refine ⟨⟨x :: b ++ rest, recvs⟩, ?_⟩
        rw [if_neg (by simp)]
        unfold recvLoop
        simp only [if_pos hcond, hrecv, Option.bind_eq_bind, Option.bind_some, Int.toNat_natCast, hwrite]
        rfl

/-- **What one call returns for a frame**, the first read being that of the header. -/
theorem applicationProtocol_eq (host : Host) {m : Bytes} (rest : Bytes) (h : Int) {recvs : List Int} (h0 : 0 ∉ m)
    (hm : m.length < 1700) (hend : h ≤ 0 ∨ m.length ≤ arrived recvs ∨ (endedBy recvs).isSome) : ∃ sock',
      applicationProtocol host ⟨frame m ++ rest, h :: recvs⟩ =
        some (if 0 < h then if m.length ≤ arrived recvs then m
          else if failed recvs then m.take (arrived recvs) else [] else [], sock') := by
  by_cases hh : 0 < h
  · have hheader : recvWaitall h 2 (frame m ++ rest) = some (2, Text.be16 m.length, m ++ rest) := by
      simp [recvWaitall, hh, recv, frame, Text.be16]
    have hwrite : write (host.malloc 2) 0 (Text.be16 m.length) = some (Text.be16 m.length) := by
      rw [write_zero (by simp [Text.be16])]
      simp [Text.be16]
    obtain ⟨sock', hloop⟩ := recvLoop_eq recvs [] m rest 999 (by decide) h0 hm (hend.resolve_left (by omega))
    refine ⟨sock', ?_⟩
    simp only [applicationProtocol, hheader, hwrite, Option.bind_eq_bind, Option.bind_some,
      Text.be_be16 (show m.length < 65536 by omega), if_pos hh]
    rw [if_neg (by decide)]
    exact hloop
  · obtain ⟨rc, hrc, hheader⟩ : ∃ rc : Int, rc ≤ 0 ∧
        recvWaitall h 2 (frame m ++ rest) = some (rc, [], frame m ++ rest) := by
      by_cases hneg : h < 0
      · exact ⟨-1, by decide, by simp [recvWaitall, recv, hh, hneg]⟩
      · exact ⟨0, by decide, by simp [recvWaitall, recv, show h = 0 by omega]⟩
    refine ⟨⟨frame m ++ rest, recvs⟩, ?_⟩
    simp only [applicationProtocol, hheader, Option.bind_eq_bind, Option.bind_some, if_pos hrc, if_neg hh]
    rfl

/-- Half a header is no frame either: the next read fails or finds the end. -/
theorem applicationProtocol_half (host : Host) (x : UInt8) {r : Int} (recvs : List Int) (hr : r ≤ 0) :
    ∃ sock', applicationProtocol host ⟨[x], 1 :: r :: recvs⟩ = some ([], sock') := by
  obtain ⟨y, hwrite⟩ : ∃ y, write (host.malloc 2) 0 [x] = some [x, y] := by
    have hl := host.length_malloc 2
    match hmalloc : host.malloc 2, hl with
    | [a, b], _ => exact ⟨b, rfl⟩
  have hheader : recvWaitall 1 2 [x] = some (1, [x], []) := by simp [recvWaitall, recv]
  have hempty : cstr (List.replicate 1700 0) = some [] := (someBuffer_holds (a := []) (by simp) (by decide)).cstr_eq
  have hnone : write (List.replicate 1700 0) 0 [] = some (List.replicate 1700 (0 : UInt8)) := write_someBuffer_nil []
  simp only [applicationProtocol, hheader, hwrite, Option.bind_eq_bind, Option.bind_some]
  rw [if_neg (by decide)]
  generalize Text.be [x, y] = len
  -- whatever length the header seems to give, no byte of a payload is in the buffer
  unfold recvLoop
  by_cases hlen : (0 : Int) ≠ len
  · by_cases hneg : r < 0
    · have hrecv : recv r ((len : Int) - 0).toNat [] = some (-1, [], []) := by simp [recv, hneg]
      rw [if_pos ⟨by decide, hlen⟩]
      simp only [hrecv, Option.bind_eq_bind, Option.bind_some, Int.toNat_zero, hnone]
      rw [if_neg (by decide)]
      unfold recvLoop
      rw [if_neg (fun h => absurd h.1 (by decide)), hempty]
      exact ⟨_, rfl⟩
    · obtain rfl : r = 0 := by omega
      have hrecv : recv 0 ((len : Int) - 0).toNat [] = some (0, [], []) := by simp [recv]
      rw [if_pos ⟨by decide, hlen⟩]
      simp only [hrecv, Option.bind_eq_bind, Option.bind_some, Int.toNat_zero, hnone]
      exact ⟨_, rfl⟩
  · rw [if_neg (fun h => hlen h.2), hempty]
    exact ⟨_, rfl⟩

/-- **When reception is all or nothing**: a call returns the whole payload if all of it arrived and nothing otherwise,
unless a read fails after some of the payload has arrived and before all of it has. -/
theorem reception_iff (host : Host) :
    (∀ x r recvs, r ≤ 0 → ∃ sock', applicationProtocol host ⟨[x], 1 :: r :: recvs⟩ = some ([], sock')) ∧
    ∀ m rest h recvs, 0 ∉ m → m.length ≤ 1699 → (h ≤ 0 ∨ m.length ≤ arrived recvs ∨ (endedBy recvs).isSome) →
      ∃ buff sock', applicationProtocol host ⟨frame m ++ rest, h :: recvs⟩ = some (buff, sock') ∧
        (buff = (if 0 < h ∧ m.length ≤ arrived recvs then m else []) ↔
          ¬ (0 < h ∧ 0 < arrived recvs ∧ arrived recvs < m.length ∧ failed recvs = true)) := by
  refine ⟨fun x r recvs hr => applicationProtocol_half host x recvs hr, fun m rest h recvs h0 hm hend => ?_⟩
  obtain ⟨sock', hrun⟩ := applicationProtocol_eq host rest h h0 (by omega) hend
  refine ⟨_, sock', hrun, ?_⟩
  by_cases hh : 0 < h
  · by_cases hall : m.length ≤ arrived recvs
    · simp [hh, hall]
    · by_cases herr : failed recvs = true
      · have htake : m.take (arrived recvs) = [] ↔ arrived recvs = 0 := by
          rw [List.take_eq_nil_iff]
          refine ⟨fun h => h.resolve_right ?_, Or.inl⟩
          rintro rfl
          exact hall (Nat.zero_le _)
        rw [if_pos hh, if_neg hall, if_pos herr, if_neg (fun h => hall h.2), htake]
        simp only [hh, herr, true_and, and_true]
        omega
      · simp [hh, hall, herr]
  · simp [hh]

theorem reception_iff_eof : ∃ buff sock', applicationProtocol exactHost ⟨frame [97, 98] ++ [], 2 :: [1, 0]⟩ =
    some (buff, sock') ∧ (buff = (if (0 : Int) < 2 ∧ 2 ≤ arrived [1, 0] then [97, 98] else []) ↔
      ¬ ((0 : Int) < 2 ∧ 0 < arrived [1, 0] ∧ arrived [1, 0] < 2 ∧ failed [1, 0] = true)) :=
  (reception_iff exactHost).2 [97, 98] [] 2 [1, 0] (by decide) (by decide) (Or.inr (Or.inr (by decide)))

/-- A connection that fails before the last byte of `subscribe ab` gives the command `subscribe a`. -/
theorem reception_truncated : arrived [11, -1] < (Text.ascii "subscribe ab").length ∧ ∃ sock',
    applicationProtocol exactHost ⟨frame (Text.ascii "subscribe ab"), [2, 11, -1]⟩ =
      some (Text.ascii "subscribe a", sock') := by
  refine ⟨by decide, ⟨[98], []⟩, ?_⟩
  decide +kernel

/-! ## Texts too long to send -/

/-- When the header does not fit 16 bits beside the text the counter never reaches the bound of the loop. -/
theorem sendLoop_endless {len : Nat} (hlen : 65536 ≤ len + 2) (finalStr : Bytes) : ∀ (sends : List Int) (res : Int)
    (k : Nat), 0 < res → (∀ r ∈ sends, 0 < r) → k < 65536 → sendLoop len finalStr sends res k = none
  | [], res, k, hres, _, hk => by
    unfold sendLoop
    rw [if_pos ⟨hres, by omega⟩]
  | r :: sends, res, k, hres, hpos, hk => by
    have hr : 0 < r := hpos r List.mem_cons_self
    obtain ⟨n, hn, -, hsend⟩ := send_pos hr (show 0 < len + 2 - k by omega)
    have ih := sendLoop_endless hlen finalStr sends n (((k : Int) + n) % 65536).toNat (by omega)
      (fun x hx => hpos x (List.mem_cons_of_mem _ hx)) (by omega)
    unfold sendLoop
    rw [if_pos ⟨hres, by omega⟩]
    simp only [hsend, ih]
    cases Mem.read finalStr k n <;> rfl

theorem length_sendLoop {len : Nat} (hlen : len + 2 < 65536) (finalStr : Bytes) : ∀ (sends : List Int) (res : Int)
    (k : Nat) {wire : Bytes} {sends' : List Int}, 0 < res → (∀ r ∈ sends, 0 < r) → k ≤ len + 2 →
    sendLoop len finalStr sends res k = some (wire, sends') → k + wire.length = len + 2
  | sends, res, k, wire, sends', hres, hpos, hk, h => by
    by_cases hdone : k = len + 2
    · unfold sendLoop at h
      rw [if_neg (by omega)] at h
      obtain ⟨rfl, -⟩ := Prod.mk.inj (Option.some.inj h)
      simpa using hdone
    · cases sends with
      | nil =>
        unfold sendLoop at h
        rw [if_pos ⟨hres, by omega⟩] at h
        cases h
      | cons r sends =>
        have hr : 0 < r := hpos r List.mem_cons_self
        obtain ⟨n, hn, hnk, hsend⟩ := send_pos hr (show 0 < len + 2 - k by omega)
        have hwrap : (((k : Int) + n) % 65536).toNat = k + n := by omega
        unfold sendLoop at h
        rw [if_pos ⟨hres, by omega⟩] at h
        simp only [hsend, hwrap] at h
        obtain ⟨put, hread, h⟩ := Option.bind_eq_some_iff.1 h
        obtain ⟨⟨wire', sends''⟩, hloop, h⟩ := Option.bind_eq_some_iff.1 h
        obtain ⟨rfl, -⟩ : put ++ wire' = wire ∧ sends'' = sends' := by simpa using h
        have ih := length_sendLoop hlen finalStr sends n (k + n) (by omega)
          (fun x hx => hpos x (List.mem_cons_of_mem _ hx)) (by omega) hloop
        have hput : put.length = n := by
          unfold Mem.read at hread
          split at hread
          · cases hread
            rw [List.length_take, List.length_drop]
            omega
          · cases hread
        rw [List.length_append, hput]
        omega

/-- **What comes of a text of any length**: none of its sends is the last, or their bytes are as many as 16 bits hold of
its length, and two. -/
theorem sendTcp_length {host : Host} {s : Bytes} {sends sends' : List Int} {wire : Bytes} (h0 : 0 ∉ s)
    (hpos : ∀ r ∈ sends, 0 < r) (h : sendTcp host s sends = some (wire, sends')) :
    s.length % 65536 + 2 < 65536 ∧ wire.length = s.length % 65536 + 2 := by
  have hcstr := (holds_terminated h0 []).cstr_eq
  simp only [sendTcp, hcstr, Option.bind_eq_bind, Option.bind_some] at h
  obtain ⟨f₁, -, h⟩ := Option.bind_eq_some_iff.1 h
  obtain ⟨f₂, -, h⟩ := Option.bind_eq_some_iff.1 h
  by_cases hlen : s.length % 65536 + 2 < 65536
  · have := length_sendLoop hlen f₂ sends 999 0 (by decide) hpos (Nat.zero_le _) h
    exact ⟨hlen, by omega⟩
  · rw [sendLoop_endless (by omega) f₂ sends 999 0 (by decide) hpos (by decide)] at h
    cases h

/-- **When `sendTcp` is exact**: whatever the sends accept, it refuses a text or ends with its frame on the wire exactly
when the text has at most 65533 bytes. -/
theorem sendTcp_exact_iff (host : Host) {s : Bytes} (p : Nat → Int) (h0 : 0 ∉ s) (hp : ∀ i, 0 < p i) :
    (∃ n wire sends', sendTcp host s ((List.range n).map p) = some (wire, sends') ∧
      (wire = [] ∨ s.length < 65536 ∧ wire = frame s)) ↔ s.length ≤ 65533 := by
  constructor
  · rintro ⟨n, wire, sends', hsend, hwire⟩
    obtain ⟨hlt, hlen⟩ := sendTcp_length h0 (pos_of_mem_schedule hp n) hsend
    rcases hwire with rfl | ⟨hs, rfl⟩
    · cases hlen
    · rw [length_frame] at hlen
      omega
  · intro hs
    have henough : s.length + 2 ≤ ((List.range (s.length + 2)).map p).length := by simp
    obtain ⟨sends', -, -, hsend⟩ := sendTcp_frame host h0 (by omega) (pos_of_mem_schedule hp _) henough
    exact ⟨_, _, sends', hsend, Or.inr ⟨by omega, rfl⟩⟩

theorem sendTcp_exact_iff_word : ∃ n wire sends', sendTcp exactHost [97, 98] ((List.range n).map fun _ => 3) =
    some (wire, sends') ∧ (wire = [] ∨ [97, 98].length < 65536 ∧ wire = frame [97, 98]) :=
  (sendTcp_exact_iff exactHost (fun _ => 3) (by decide) (fun _ => by decide)).2 (by decide)

/-- For a name of 65534 bytes the sends go on for ever. -/
theorem sendTcp_never_ends : ¬ ∃ n wire sends',
    sendTcp exactHost (List.replicate 65534 97) ((List.range n).map fun _ => 1000) = some (wire, sends') := by
  rintro ⟨n, wire, sends', hsend⟩
  have hlen := (sendTcp_length (fun h => absurd (List.eq_of_mem_replicate h) (by decide))
    (pos_of_mem_schedule (fun _ => by decide) n) hsend).1
  rw [List.length_replicate] at hlen
  exact absurd hlen (by decide)

end Ts
