import TopicServer.Client
/-!
# Lines — which lines the subscriber obeys

The subscriber reads its standard input in pieces of up to 64 bytes and cuts the last byte off each, newline or not.  A
line that fits is one piece and is obeyed as it stands; of a longer one all the full pieces are too long for a command,
and what is left after them is obeyed as if it had been a line (`rounds_lines`).  `obeys_iff` says for which inputs that
makes no difference.
-/
namespace Ts

open Mem
open Text (ascii)

def frames (acts : List Act) : List Bytes := acts.filterMap fun
  | .sendTcp _ s => some s
  | _ => none

/-- `k` iterations that find standard input ready; none follows the exit. -/
def Client.rounds : Nat → Client → Option (Client × List Act)
  | 0, cli => some (cli, [])
  | k + 1, cli =>
    if !cli.running then some (cli, [])
    else do
      let (cli, acts) ← cli.step .stdin
      let (cli, acts') ← Client.rounds k cli
      return (cli, acts ++ acts')

/-- How many iterations read the line. -/
def pieces (l : Bytes) : Nat := l.length / 64 + 1

/-- What the last of them leaves of it. -/
def lastPiece (l : Bytes) : Bytes := l.drop (64 * (l.length / 64))

def typed (lines : List Bytes) : Bytes := lines.flatMap (· ++ [newline])

instance (s : Bytes) : Decidable (IsCommandLine s) :=
  decidable_of_iff (ascii "subscribe " <+: s ∧ ValidTopic (s.drop 10) ∨
    ascii "unsubscribe " <+: s ∧ ValidTopic (s.drop 12)) <| by
  constructor
  · rintro (⟨⟨topic, rfl⟩, hv⟩ | ⟨⟨topic, rfl⟩, hv⟩)
    · exact ⟨⟨true, topic⟩, hv, rfl⟩
    · exact ⟨⟨false, topic⟩, hv, rfl⟩
  · rintro ⟨⟨sub, topic⟩, hv, rfl⟩
    cases sub with
    | true => exact Or.inl ⟨⟨topic, rfl⟩, hv⟩
    | false => exact Or.inr ⟨⟨topic, rfl⟩, hv⟩

/-- **The client obeys the lines**: it sends those that are commands up to the first `exit`, and reads no further. -/
def Client.Obeys (cli : Client) (lines : List Bytes) : Prop :=
  ∃ cli' acts, cli.rounds (lines.map pieces).sum = some (cli', acts) ∧
    frames acts = (lines.takeWhile (· ≠ ascii "exit")).filter IsCommandLine ∧
    cli'.running = decide (ascii "exit" ∉ lines) ∧
    cli'.input = typed (lines.dropWhile (· ≠ ascii "exit")).tail

/-- A text that does something. -/
def Telling (s : Bytes) : Prop := s = ascii "exit" ∨ IsCommandLine s

instance (s : Bytes) : Decidable (Telling s) := inferInstanceAs (Decidable (_ ∨ _))

/-- No line before the first `exit` that takes more than one piece ends in a piece that does something. -/
def Aligned (lines : List Bytes) : Prop :=
  ∀ l ∈ lines.takeWhile (· ≠ ascii "exit"), 64 ≤ l.length → ¬ Telling (lastPiece l)

instance (lines : List Bytes) : Decidable (Aligned lines) := inferInstanceAs (Decidable (∀ l ∈ _, _))

/-! ## One iteration -/

theorem frames_append (a b : List Act) : frames (a ++ b) = frames a ++ frames b := List.filterMap_append

theorem IsCommandLine.length_le {s : Bytes} (h : IsCommandLine s) : s.length ≤ 62 := by
  obtain ⟨⟨sub, topic⟩, hv, rfl⟩ := h
  have hlen := hv.2.1
  have hword : (commandWord sub).length ≤ 11 := by cases sub <;> decide
  simp only [Command.line, List.length_append, List.length_cons] at hlen ⊢
  omega

theorem Client.step_stdin {cli : Client} {b₀ b s rest : Bytes} (hgo : cli.running = true)
    (hfgets : fgets cli.stdin_buffer 65 cli.input = some (b₀, rest)) (hchop : chop b₀ = some b) (h : Holds b s) :
    ∃ acts, cli.step .stdin = some (⟨b, cli.socket_cli, rest, decide (s ≠ ascii "exit")⟩, acts) ∧
      frames acts = if IsCommandLine s then [s] else [] := by
  have hexit := h.strcmpEq_eq (holds_terminated (s := ascii "exit") (by decide) [])
  simp only [step, hgo, hfgets, hchop, hexit, Option.bind_eq_bind, Option.bind_some, Bool.not_true, Bool.false_eq_true,
    if_false]
  by_cases hs : s = ascii "exit"
  · have hno : ¬ IsCommandLine (ascii "exit") := by decide
    exact ⟨[.close cli.socket_cli], by simp [hs], by rw [hs, if_neg hno]; rfl⟩
  · rcases command_cases cli.socket_cli h with ⟨hno, hnone⟩ | ⟨c, hv, hline, hsome⟩
    · exact ⟨[], by simp [hs, hnone], by rw [if_neg hno]; rfl⟩
    · refine ⟨[.sendTcp cli.socket_cli s, .cout (echoWord c.subscribed ++ c.expression)], ?_, ?_⟩
      · simp [hs, hsome]
      · rw [if_pos ⟨c, hv, hline⟩]
        rfl

theorem Client.rounds_succ {cli cli' : Client} {acts : List Act} (hgo : cli.running = true)
    (hstep : cli.step .stdin = some (cli', acts)) (k : Nat) :
    cli.rounds (k + 1) = (cli'.rounds k).map fun r => (r.1, acts ++ r.2) := by
  simp only [rounds, hgo, hstep, Bool.not_true, Bool.false_eq_true, if_false, Option.bind_eq_bind, Option.bind_some]
  cases cli'.rounds k <;> rfl

theorem Client.rounds_exited {cli : Client} (hgo : cli.running = false) (k : Nat) : cli.rounds k = some (cli, []) := by
  cases k with
  | zero => rfl
  | succ k => simp [rounds, hgo]

/-! ## Whole lines -/

structure Client.Reading (cli : Client) (input : Bytes) : Prop where
  length : cli.stdin_buffer.length = 100
  running : cli.running = true
  unread : cli.input = input
  nul : 0 ∉ input

theorem Client.Reading.step {cli : Client} {input : Bytes} (h : cli.Reading input) (hne : input ≠ []) {piece rest : Bytes}
    (hpiece : fgetsLine 64 input = (piece, rest)) : ∃ b acts, Holds b piece.dropLast ∧ b.length = 100 ∧
      cli.step .stdin = some (⟨b, cli.socket_cli, rest, decide (piece.dropLast ≠ ascii "exit")⟩, acts) ∧
      frames acts = if IsCommandLine piece.dropLast then [piece.dropLast] else [] := by
  obtain ⟨b₀, b, hfgets, hchop, hhold, hlen⟩ :=
    fgets_chop cli.stdin_buffer 65 (by decide) (by rw [h.length]; decide) h.nul hne
  have hpiece : fgetsLine (65 - 1) input = (piece, rest) := hpiece
  rw [hpiece] at hfgets hhold
  rw [← h.unread] at hfgets
  obtain ⟨acts, hstep, hframes⟩ := step_stdin h.running hfgets hchop hhold
  exact ⟨b, acts, hhold, hlen.trans h.length, hstep, hframes⟩

theorem lastPiece_of_short {l : Bytes} (h : l.length < 64) : lastPiece l = l := by
  rw [lastPiece, Nat.div_eq_of_lt h]
  rfl

theorem lastPiece_exit : lastPiece (ascii "exit") = ascii "exit" := lastPiece_of_short (by decide)

theorem lastPiece_drop {l : Bytes} (h : 64 ≤ l.length) : lastPiece (l.drop 64) = lastPiece l := by
  have hdiv : l.length / 64 = (l.length - 64) / 64 + 1 := by omega
  rw [lastPiece, lastPiece, List.drop_drop, List.length_drop, hdiv]
  congr 1
  omega

theorem pieces_drop {l : Bytes} (h : 64 ≤ l.length) : pieces l = pieces (l.drop 64) + 1 := by
  rw [pieces, pieces, List.length_drop]
  omega

/-- **A line is obeyed as its last piece**: the full pieces before it leave 63 bytes each, too long to be anything. -/
theorem Client.Reading.rounds_line {cli : Client} {l rest : Bytes} (h : cli.Reading (l ++ newline :: rest))
    (hnl : newline ∉ l) (k : Nat) : ∃ (cli' : Client) (acts : List Act), Holds cli'.stdin_buffer (lastPiece l) ∧
      cli'.stdin_buffer.length = 100 ∧ cli'.input = rest ∧ cli'.running = decide (lastPiece l ≠ ascii "exit") ∧
      frames acts = (if IsCommandLine (lastPiece l) then [lastPiece l] else []) ∧
      cli.rounds (pieces l + k) = (cli'.rounds k).map fun r => (r.1, acts ++ r.2) := by
  by_cases hlen : l.length < 64
  · obtain ⟨b, acts, hhold, hb, hstep, hframes⟩ := h.step (by simp) (fgetsLine_line rest hnl hlen)
    rw [List.dropLast_concat] at hhold hstep hframes
    rw [lastPiece_of_short hlen, pieces, Nat.div_eq_of_lt hlen, Nat.zero_add, Nat.add_comm]
    exact ⟨_, acts, hhold, hb, rfl, rfl, hframes, rounds_succ h.running hstep k⟩
  · have hlen : 64 ≤ l.length := Nat.le_of_not_lt hlen
    obtain ⟨b, acts, hhold, hb, hstep, hframes⟩ := h.step (by simp) (fgetsLine_piece (newline :: rest) hnl hlen)
    have htake : (l.take 64).dropLast.length = 63 := by
      rw [List.length_dropLast, List.length_take, Nat.min_eq_left hlen]
    have hexit : (l.take 64).dropLast ≠ ascii "exit" := fun he => absurd htake (by rw [he]; decide)
    have hcmd : ¬ IsCommandLine (l.take 64).dropLast := fun hc => absurd hc.length_le (by omega)
    rw [decide_eq_true hexit] at hstep
    rw [if_neg hcmd] at hframes
    have hnext : (⟨b, cli.socket_cli, l.drop 64 ++ newline :: rest, true⟩ : Client).Reading
        (l.drop 64 ++ newline :: rest) := by
      refine ⟨hb, rfl, rfl, fun hm => h.nul ?_⟩
      rw [← List.take_append_drop 64 l, List.append_assoc]
      exact List.mem_append_right _ hm
    obtain ⟨cli', acts', hhold', hb', hin', hrun', hframes', hrounds⟩ :=
      hnext.rounds_line (fun hm => hnl (List.mem_of_mem_drop hm)) k
    rw [lastPiece_drop hlen] at hhold' hrun' hframes'
    refine ⟨cli', acts ++ acts', hhold', hb', hin', hrun', ?_, ?_⟩
    · rw [frames_append, hframes, hframes', List.nil_append]
    · rw [pieces_drop hlen, Nat.add_right_comm, rounds_succ h.running hstep, hrounds, Option.map_map]
      simp [Function.comp_def]
termination_by l.length

theorem typed_cons (l : Bytes) (lines : List Bytes) : typed (l :: lines) = l ++ newline :: typed lines := by
  simp [typed]

/-- **Lines are obeyed as their last pieces**, up to the first that is `exit`; the buffer is left with the last. -/
theorem Client.Reading.rounds_lines : ∀ {lines : List Bytes} {cli : Client}, cli.Reading (typed lines) →
    (∀ l ∈ lines, newline ∉ l) → ∃ cli' acts, cli.rounds (lines.map pieces).sum = some (cli', acts) ∧
      frames acts = ((lines.map lastPiece).takeWhile (· ≠ ascii "exit")).filter IsCommandLine ∧
      cli'.running = decide (ascii "exit" ∉ lines.map lastPiece) ∧
      cli'.input = typed (lines.dropWhile (lastPiece · ≠ ascii "exit")).tail ∧
      (cli'.running = true → ∀ l ∈ lines.getLast?, Holds cli'.stdin_buffer (lastPiece l))
  | [], cli, h, _ => ⟨cli, [], rfl, rfl, by simp [h.running], h.unread, by simp⟩
  | l :: lines, cli, h, hnl => by
    have hl := hnl l List.mem_cons_self
    have hlines : ∀ x ∈ lines, newline ∉ x := fun x hx => hnl x (List.mem_cons_of_mem l hx)
    rw [typed_cons] at h
    obtain ⟨cli₁, acts₁, hhold, hb, hin, hrun, hframes, hrounds⟩ := h.rounds_line hl (lines.map pieces).sum
    rw [List.map_cons, List.sum_cons, hrounds]
    by_cases hexit : lastPiece l = ascii "exit"
    · -- no iteration follows
      have hgo : cli₁.running = false := by simp [hrun, hexit]
      have hno : ¬ IsCommandLine (ascii "exit") := by decide
      rw [rounds_exited hgo]
      refine ⟨cli₁, acts₁ ++ [], rfl, ?_, ?_, ?_, ?_⟩
      · rw [List.append_nil, hframes]
        simp [hexit, hno]
      · rw [hgo]
        simp [hexit]
      · rw [hin]
        simp [hexit]
      · rw [hgo]
        exact fun h => absurd h Bool.false_ne_true
    · have hgo : cli₁.running = true := by simp [hrun, hexit]
      have hnext : cli₁.Reading (typed lines) := by
        refine ⟨hb, hgo, hin, fun hm => h.nul ?_⟩
        exact List.mem_append_right _ (List.mem_cons_of_mem _ hm)
      obtain ⟨cli', acts, hrounds', hframes', hrun', hin', hhold'⟩ := hnext.rounds_lines hlines
      rw [hrounds']
      refine ⟨cli', acts₁ ++ acts, rfl, ?_, ?_, ?_, ?_⟩
      · rw [frames_append, hframes, hframes', List.map_cons, List.takeWhile_cons_of_pos (by simpa using hexit),
          List.filter_cons]
        by_cases hc : IsCommandLine (lastPiece l)
        · simp [hc]
        · simp [hc]
      · rw [hrun']
        simp [Ne.symm hexit]
      · rw [hin', List.dropWhile_cons_of_pos (by simpa using hexit)]
      · intro hgo' x hx
        cases lines with
        | nil =>
          have hcli : cli' = cli₁ := (Prod.mk.inj (Option.some.inj hrounds')).1.symm
          obtain rfl : l = x := by simpa using hx
          rw [hcli]
          exact hhold
        | cons y lines => exact hhold' hgo' x (by simpa using hx)

/-! ## When lines and last pieces are the same -/

/-- **The first line that ends the client is the first `exit`**, when no line before that does. -/
theorem stop_of_aligned {lines : List Bytes} (h : ∀ l ∈ lines.takeWhile (· ≠ ascii "exit"), lastPiece l ≠ ascii "exit") :
    lines.takeWhile (lastPiece · ≠ ascii "exit") = lines.takeWhile (· ≠ ascii "exit") ∧
      lines.dropWhile (lastPiece · ≠ ascii "exit") = lines.dropWhile (· ≠ ascii "exit") := by
  induction lines with
  | nil => exact ⟨rfl, rfl⟩
  | cons l lines ih =>
    by_cases hl : l = ascii "exit"
    · simp [hl, lastPiece_exit]
    · rw [List.takeWhile_cons_of_pos (by simpa using hl)] at h
      have hlast := h l List.mem_cons_self
      obtain ⟨htake, hdrop⟩ := ih (fun x hx => h x (List.mem_cons_of_mem l hx))
      constructor
      · rw [List.takeWhile_cons_of_pos (by simpa using hlast), List.takeWhile_cons_of_pos (by simpa using hl), htake]
      · rw [List.dropWhile_cons_of_pos (by simpa using hlast), List.dropWhile_cons_of_pos (by simpa using hl), hdrop]

theorem length_typed_lt {a b : List Bytes} (h : a <:+ b) (hne : a ≠ b) : (typed a).length < (typed b).length := by
  obtain ⟨c, rfl⟩ := h
  cases c with
  | nil => exact absurd rfl hne
  | cons l c =>
    have happ : typed (c ++ a) = typed c ++ typed a := List.flatMap_append
    rw [List.cons_append, typed_cons, happ]
    simp only [List.length_append, List.length_cons]
    omega

theorem tail_dropWhile_ne (p : Bytes → Bool) {lines : List Bytes} (h : lines ≠ []) :
    (lines.dropWhile p).tail ≠ lines := by
  intro he
  have hlen := congrArg List.length he
  have hle := (List.dropWhile_suffix (l := lines) p).length_le
  have hpos := List.length_pos_iff.2 h
  rw [List.length_tail] at hlen
  omega

theorem aligned_of_stop {lines : List Bytes}
    (hrun : decide (ascii "exit" ∉ lines.map lastPiece) = decide (ascii "exit" ∉ lines))
    (hin : typed (lines.dropWhile (lastPiece · ≠ ascii "exit")).tail = typed (lines.dropWhile (· ≠ ascii "exit")).tail) :
    lines.takeWhile (lastPiece · ≠ ascii "exit") = lines.takeWhile (· ≠ ascii "exit") := by
  induction lines with
  | nil => rfl
  | cons l lines ih =>
    by_cases hl : l = ascii "exit"
    · simp [hl, lastPiece_exit]
    rw [List.dropWhile_cons_of_pos (p := (· ≠ ascii "exit")) (by simpa using hl)] at hin
    by_cases hlast : lastPiece l = ascii "exit"
    · -- the client has stopped too early: more of the input is left
      exfalso
      have hmem : ascii "exit" ∈ lines := by
        simpa [hlast, Ne.symm hl] using hrun
      have hlt := length_typed_lt ((List.tail_suffix _).trans (List.dropWhile_suffix _))
        (tail_dropWhile_ne (· ≠ ascii "exit") (List.ne_nil_of_mem hmem))
      rw [List.dropWhile_cons_of_neg (by simpa using hlast), List.tail_cons] at hin
      rw [hin] at hlt
      exact absurd hlt (Nat.lt_irrefl _)
    · rw [List.dropWhile_cons_of_pos (by simpa using hlast)] at hin
      rw [List.takeWhile_cons_of_pos (by simpa using hlast), List.takeWhile_cons_of_pos (by simpa using hl), ih ?_ hin]
      simpa [Ne.symm hl, Ne.symm hlast] using hrun

/-- The commands among the last pieces are the commands among the lines exactly when no other line has become one. -/
theorem commands_eq_iff (pre : List Bytes) : (pre.map lastPiece).filter IsCommandLine = pre.filter IsCommandLine ↔
    ∀ l ∈ pre, 64 ≤ l.length → ¬ IsCommandLine (lastPiece l) := by
  have hshort : ∀ l, IsCommandLine l → lastPiece l = l := fun l h =>
    lastPiece_of_short (Nat.lt_of_le_of_lt h.length_le (by decide))
  rw [List.filter_map]
  constructor
  · intro heq l hl hlong hc
    have hsub : (pre.filter fun l => decide (IsCommandLine l)).Sublist
        (pre.filter ((fun l => decide (IsCommandLine l)) ∘ lastPiece)) := by
      refine List.monotone_filter_right _ (fun x hx => ?_)
      have hx : IsCommandLine x := by simpa using hx
      simpa [hshort x hx] using hx
    have hall := hsub.eq_of_length (by rw [← heq, List.length_map])
    have hmem : l ∈ pre.filter IsCommandLine := by
      rw [hall]
      exact List.mem_filter.2 ⟨hl, by simpa using hc⟩
    have hline : IsCommandLine l := by simpa using (List.mem_filter.1 hmem).2
    exact absurd hline.length_le (by omega)
  · intro h
    have hsame : pre.filter ((fun l => decide (IsCommandLine l)) ∘ lastPiece) = pre.filter IsCommandLine := by
      refine List.filter_congr (fun l hl => ?_)
      rw [Function.comp_apply, decide_eq_decide]
      by_cases hlong : 64 ≤ l.length
      · have hno : ¬ IsCommandLine l := fun hc => absurd hc.length_le (by omega)
        exact iff_of_false (h l hl hlong) hno
      · rw [lastPiece_of_short (Nat.lt_of_not_le hlong)]
    rw [hsame]
    conv => rhs; rw [← List.map_id (pre.filter _)]
    exact List.map_congr_left (fun l hl => hshort l (by simpa using (List.mem_filter.1 hl).2))

theorem not_mem_iff_dropWhile (f : Bytes → Bytes) (lines : List Bytes) :
    ascii "exit" ∉ lines.map f ↔ lines.dropWhile (f · ≠ ascii "exit") = [] := by
  rw [List.dropWhile_eq_nil_iff]
  simp

theorem start_reading (host : Host) (fd : Fd) {lines : List Bytes} (h0 : ∀ l ∈ lines, 0 ∉ l) :
    (Client.start host fd (typed lines)).Reading (typed lines) := by
  refine ⟨host.length_malloc 100, rfl, rfl, fun hm => ?_⟩
  obtain ⟨l, hl, hm⟩ := List.mem_flatMap.1 hm
  rcases List.mem_append.1 hm with hm | hm
  · exact h0 l hl hm
  · exact absurd (List.mem_singleton.1 hm) (by decide)

/-- **When the client obeys whole lines**: it does what they say, and nothing else, exactly when no line before the first
`exit` that takes more than one piece ends in a piece that is a command or `exit`. -/
theorem obeys_iff (host : Host) (fd : Fd) {lines : List Bytes} (hnl : ∀ l ∈ lines, newline ∉ l)
    (h0 : ∀ l ∈ lines, 0 ∉ l) : (Client.start host fd (typed lines)).Obeys lines ↔ Aligned lines := by
  obtain ⟨cli', acts, hrounds, hframes, hrun, hin, -⟩ := (start_reading host fd h0).rounds_lines hnl
  have hmap : (lines.map lastPiece).takeWhile (· ≠ ascii "exit") =
      (lines.takeWhile (lastPiece · ≠ ascii "exit")).map lastPiece := List.takeWhile_map
  rw [hmap] at hframes
  constructor
  · rintro ⟨cli'', acts', hrounds', hframes', hrun', hin'⟩
    obtain ⟨rfl, rfl⟩ := Prod.mk.inj (Option.some.inj (hrounds.symm.trans hrounds'))
    have hstop := aligned_of_stop (hrun.symm.trans hrun') (hin.symm.trans hin')
    have hcommands := (commands_eq_iff _).1 ((hstop ▸ hframes).symm.trans hframes')
    rintro l hl hlong (hexit | hc)
    · rw [← hstop] at hl
      simpa [hexit] using List.mem_takeWhile_imp hl
    · exact hcommands l hl hlong hc
  · intro h
    have hgoes : ∀ l ∈ lines.takeWhile (· ≠ ascii "exit"), lastPiece l ≠ ascii "exit" := by
      intro l hl he
      by_cases hlong : 64 ≤ l.length
      · exact h l hl hlong (Or.inl he)
      · rw [lastPiece_of_short (Nat.lt_of_not_le hlong)] at he
        simpa [he] using List.mem_takeWhile_imp hl
    obtain ⟨htake, hdrop⟩ := stop_of_aligned hgoes
    refine ⟨cli', acts, hrounds, ?_, ?_, by rw [hin, hdrop]⟩
    · rw [hframes, htake]
      exact (commands_eq_iff _).2 (fun l hl hlong hc => h l hl hlong (Or.inr hc))
    · have hlines := not_mem_iff_dropWhile (fun l => l) lines
      rw [List.map_id'] at hlines
      rw [hrun, decide_eq_decide, not_mem_iff_dropWhile, hdrop, hlines]

theorem obeys_iff_three : (Client.start exactHost 3 (typed [ascii "subscribe a/+", ascii "hello", ascii "exit"])).Obeys
    [ascii "subscribe a/+", ascii "hello", ascii "exit"] :=
  (obeys_iff exactHost 3 (by decide) (by decide)).2 (by decide +kernel)

/-- A line of 64 bytes and `exit` ends the client. -/
theorem long_line_exits : ¬ (Client.start exactHost 3 (typed [List.replicate 64 120 ++ ascii "exit"])).Obeys
    [List.replicate 64 120 ++ ascii "exit"] := by
  rintro ⟨cli, acts, hrounds, -, hgo, -⟩
  have hexited : ((Client.start exactHost 3 (typed [List.replicate 64 120 ++ ascii "exit"])).rounds 2).map (·.1.running) =
      some false := by decide +kernel
  rw [show (2 : Nat) = ([List.replicate 64 120 ++ ascii "exit"].map pieces).sum by decide, hrounds] at hexited
  rw [Option.map_some, hgo] at hexited
  exact absurd hexited (by decide +kernel)

end Ts
