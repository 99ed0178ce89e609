import TopicServer.Lines
import TopicServer.Session
/-!
# EndOfInput — the programs at the end of their standard input

At the end of the input `poll` finds it ready for ever, and `fgets` leaves the buffer alone.  So every further iteration
cuts one more byte off the text in the buffer and obeys the rest, in the subscriber (`Client.rounds_eof`) and in the
server (`Server.rounds_eof`); `EofSafe` says which texts stand that, and for how long.
-/
namespace Ts

open Mem
open Text (ascii)

/-- `k` bytes can be cut off the text one by one, and nothing that is left on the way is bad. -/
def Survives (bad : Bytes → Prop) (k : Nat) (s : Bytes) : Prop :=
  k ≤ s.length ∧ ∀ n, s.length - k ≤ n → n < s.length → ¬ bad (s.take n)

instance (bad : Bytes → Prop) [DecidablePred bad] (k : Nat) (s : Bytes) : Decidable (Survives bad k s) :=
  inferInstanceAs (Decidable (_ ∧ _))

/-- The buffer stands `k` iterations at the end of the input: none, or as many as its text survives. -/
def EofSafe (bad : Bytes → Prop) (k : Nat) (buffer : Bytes) : Prop :=
  k = 0 ∨ ∃ s, Holds buffer s ∧ Survives bad k s

/-- The client sends nothing, does not exit and stays inside its buffer over `k` iterations. -/
def Client.Harmless (cli : Client) (k : Nat) : Prop :=
  ∃ cli' acts, cli.rounds k = some (cli', acts) ∧ frames acts = [] ∧ cli'.running = true

/-- The iterations of the server that find standard input at its end, with what `poll` gives in each. -/
def Server.rounds (host : Host) : List (List UInt16) → Server → Option Server
  | [], srv => some srv
  | revents :: polls, srv => do
    let (srv, _) ← srv.step host (.poll (some revents))
    let (srv, _) ← srv.step host (.fgets [])
    Server.rounds host polls srv

def Server.Harmless (host : Host) (srv : Server) (polls : List (List UInt16)) : Prop :=
  ∃ srv', Server.rounds host polls srv = some srv' ∧ srv'.pc ≠ .exited

theorem survives_succ {bad : Bytes → Prop} {k : Nat} {s : Bytes} :
    Survives bad (k + 1) s ↔ s ≠ [] ∧ ¬ bad s.dropLast ∧ Survives bad k s.dropLast := by
  rw [Survives, Survives, List.length_dropLast, List.dropLast_eq_take]
  constructor
  · rintro ⟨hk, h⟩
    have hne : s ≠ [] := by
      rintro rfl
      exact absurd hk (Nat.not_succ_le_zero k)
    refine ⟨hne, h _ (by omega) (by omega), by omega, fun n hn hlt => ?_⟩
    rw [List.take_take, Nat.min_eq_left (by omega)]
    exact h n (by omega) (by omega)
  · rintro ⟨hne, hbad, hk, h⟩
    have hpos := List.length_pos_iff.2 hne
    refine ⟨by omega, fun n hn hlt => ?_⟩
    by_cases hlast : n = s.length - 1
    · rwa [hlast]
    · have := h n (by omega) (by omega)
      rwa [List.take_take, Nat.min_eq_left (by omega)] at this

theorem eofSafe_iff {bad : Bytes → Prop} {k : Nat} {buffer s : Bytes} (h : Holds buffer s) :
    EofSafe bad k buffer ↔ Survives bad k s := by
  constructor
  · rintro (rfl | ⟨t, ht, hsurv⟩)
    · exact ⟨Nat.zero_le _, fun n hn hlt => absurd hlt (Nat.not_lt.2 hn)⟩
    · rwa [Option.some.inj (h.cstr_eq.symm.trans ht.cstr_eq)]
  · exact fun hsurv => Or.inr ⟨s, h, hsurv⟩

theorem eofSafe_succ {bad : Bytes → Prop} {k : Nat} {buffer : Bytes} : EofSafe bad (k + 1) buffer ↔
    ∃ buffer' s, chop buffer = some buffer' ∧ Holds buffer' s ∧ ¬ bad s ∧ EofSafe bad k buffer' := by
  constructor
  · rintro (h | ⟨s, hs, h⟩)
    · cases h
    obtain ⟨hne, hbad, h⟩ := survives_succ.1 h
    obtain ⟨buffer', hchop, hhold, -⟩ := chop_holds hs hne
    exact ⟨buffer', s.dropLast, hchop, hhold, hbad, Or.inr ⟨s.dropLast, hhold, h⟩⟩
  · rintro ⟨buffer', t, hchop, ht, hbad, h⟩
    obtain ⟨s, hs, hne, hhold⟩ := holds_of_chop hchop
    obtain rfl : t = s.dropLast := Option.some.inj (ht.cstr_eq.symm.trans hhold.cstr_eq)
    exact Or.inr ⟨s, hs, survives_succ.2 ⟨hne, hbad, (eofSafe_iff hhold).1 h⟩⟩

theorem Client.harmless_succ {cli : Client} (hgo : cli.running = true) (hin : cli.input = []) (k : Nat) :
    cli.Harmless (k + 1) ↔ ∃ b s, chop cli.stdin_buffer = some b ∧ Holds b s ∧ ¬ Telling s ∧
      (⟨b, cli.socket_cli, [], true⟩ : Client).Harmless k := by
  have hfgets : fgets cli.stdin_buffer 65 cli.input = some (cli.stdin_buffer, []) := by simp [fgets, hin]
  constructor
  · rintro ⟨cli', acts, hrounds, hframes, hgo'⟩
    cases hchop : chop cli.stdin_buffer with
    | none => simp [rounds, step, hgo, hfgets, hchop] at hrounds
    | some b =>
      obtain ⟨s, -, -, hhold⟩ := holds_of_chop hchop
      obtain ⟨acts₁, hstep, hframes₁⟩ := step_stdin hgo hfgets hchop hhold
      rw [rounds_succ hgo hstep] at hrounds
      obtain ⟨⟨cli₂, acts₂⟩, hrest, heq⟩ := Option.map_eq_some_iff.1 hrounds
      obtain ⟨rfl, rfl⟩ := Prod.mk.inj heq
      rw [frames_append, List.append_eq_nil_iff, hframes₁] at hframes
      have hexit : s.dropLast ≠ ascii "exit" := by
        intro he
        rw [rounds_exited (by simp [he])] at hrest
        rw [← (Prod.mk.inj (Option.some.inj hrest)).1] at hgo'
        simp [he] at hgo'
      have hcmd : ¬ IsCommandLine s.dropLast := fun hc => by simp [hc] at hframes
      rw [decide_eq_true hexit] at hrest
      exact ⟨b, s.dropLast, rfl, hhold, not_or.2 ⟨hexit, hcmd⟩, cli₂, acts₂, hrest, hframes.2, hgo'⟩
  · rintro ⟨b, s, hchop, hhold, hbad, cli₂, acts₂, hrest, hframes, hgo'⟩
    obtain ⟨acts₁, hstep, hframes₁⟩ := step_stdin hgo hfgets hchop hhold
    have hexit : s ≠ ascii "exit" := fun he => hbad (Or.inl he)
    rw [decide_eq_true hexit] at hstep
    rw [if_neg (fun hc => hbad (Or.inr hc))] at hframes₁
    refine ⟨cli₂, acts₁ ++ acts₂, ?_, ?_, hgo'⟩
    · rw [rounds_succ hgo hstep, hrest]
      rfl
    · rw [frames_append, hframes₁, hframes]
      rfl

theorem Client.rounds_eof {cli : Client} (hgo : cli.running = true) (hin : cli.input = []) (k : Nat) :
    cli.Harmless k ↔ EofSafe Telling k cli.stdin_buffer := by
  induction k generalizing cli with
  | zero => exact iff_of_true ⟨cli, [], rfl, rfl, hgo⟩ (Or.inl rfl)
  | succ k ih =>
    have hnext : ∀ b, (⟨b, cli.socket_cli, [], true⟩ : Client).Harmless k ↔ EofSafe Telling k b := fun b => ih rfl rfl
    simp only [harmless_succ hgo hin, eofSafe_succ, hnext]

/-- **After lines that have all been read** what counts is the last piece of the last. -/
theorem Client.lines_eof {host : Host} {fd : Fd} {lines : List Bytes} (hnl : ∀ l ∈ lines, newline ∉ l)
    (h0 : ∀ l ∈ lines, 0 ∉ l) {cli : Client} {acts : List Act}
    (hread : (Client.start host fd (typed lines)).rounds (lines.map pieces).sum = some (cli, acts))
    (hgo : cli.running = true) {l : Bytes} (hl : l ∈ lines.getLast?) (k : Nat) :
    cli.Harmless k ↔ Survives Telling k (lastPiece l) := by
  obtain ⟨cli', acts', hrounds, -, hrun, hin, hhold⟩ := (start_reading host fd h0).rounds_lines hnl
  obtain ⟨rfl, rfl⟩ := Prod.mk.inj (Option.some.inj (hrounds.symm.trans hread))
  have hno : ascii "exit" ∉ lines.map lastPiece := by simpa [hgo] using hrun
  rw [(not_mem_iff_dropWhile lastPiece lines).1 hno] at hin
  rw [rounds_eof hgo hin, eofSafe_iff (hhold hgo l hl)]

def Server.StdinReady (srv : Server) (revents : List UInt16) : Prop :=
  revents.length = srv.pollStruct.nfds ∧ revents.head?.any (· &&& pollin ≠ 0)

theorem Server.dispatch_stdin {srv : Server} (hwf : srv.pollStruct.Wf) (hpos : 0 < srv.pollStruct.nfds)
    {revents : List UInt16} (h : srv.StdinReady revents) :
    dispatch (srv.pollStruct.setRevents revents) = some .stdin := by
  obtain ⟨hlen, hready⟩ := h
  cases revents with
  | nil => exact absurd hlen (Nat.ne_of_lt hpos)
  | cons r revents =>
    obtain ⟨x, live, hlive⟩ := List.exists_cons_of_length_pos (hwf.length_live.symm ▸ hpos)
    have hfirst : (srv.pollStruct.setRevents (r :: revents)).pollfds[0]? = some { x with revents := r } := by
      rw [PollAdjustable.Wf.getElem?_live (show 0 < (srv.pollStruct.setRevents (r :: revents)).nfds from hpos),
        PollAdjustable.setRevents_live hwf hlen, hlive]
      rfl
    have hr : ready { x with revents := r } = true := by simpa [ready] using hready
    simp only [dispatch, hfirst, Option.bind_eq_bind, Option.bind_some, hr, if_true]
    rfl

theorem Server.rounds_cons {host : Host} {srv : Server} (hwf : srv.pollStruct.Wf) (hpos : 0 < srv.pollStruct.nfds)
    (hpc : srv.pc = .poll) {revents : List UInt16} (h : srv.StdinReady revents) (polls : List (List UInt16)) :
    Server.rounds host (revents :: polls) srv = (stdinBranch { srv with
      pollStruct := srv.pollStruct.setRevents revents, pc := .stdin } []).bind fun r => Server.rounds host polls r.1 := by
  have hstep : srv.step host (.poll (some revents)) =
      some ({ srv with pollStruct := srv.pollStruct.setRevents revents, pc := .stdin }, []) := by
    simp [step, hpc, pollStep, h.1, dispatch_stdin hwf hpos h]
  simp only [rounds, hstep, Option.bind_eq_bind, Option.bind_some]
  rfl

theorem Server.stdinBranch_eof {srv : Server} {b s : Bytes} (hchop : chop srv.stdin_buffer = some b) (h : Holds b s) :
    stdinBranch srv [] = if s = ascii "exit" then exit { srv with stdin_buffer := b }
      else some ({ srv with stdin_buffer := b, pc := .poll }, []) := by
  have hexit := h.strcmpEq_eq (holds_terminated (s := ascii "exit") (by decide) [])
  simp only [stdinBranch, fgets, hchop, hexit, if_true, Option.bind_eq_bind, Option.bind_some, decide_eq_true_eq]
  rfl

theorem Server.rounds_exit {host : Host} {srv srv₁ srv' : Server} {acts : List Act}
    (hexit : exit srv = some (srv₁, acts)) : ∀ {polls : List (List UInt16)},
      Server.rounds host polls srv₁ = some srv' → srv'.pc = .exited := by
  have hpc : srv₁.pc = .exited := by
    obtain ⟨⟨p, acts'⟩, -, heq⟩ := Option.bind_eq_some_iff.1 hexit
    rw [← (Prod.mk.inj (Option.some.inj heq)).1]
  intro polls hrounds
  cases polls with
  | nil => rwa [← Option.some.inj hrounds]
  | cons revents polls => simp [rounds, step_exited hpc] at hrounds

theorem Server.harmless_cons {host : Host} {srv : Server} (hwf : srv.pollStruct.Wf) (hpos : 0 < srv.pollStruct.nfds)
    (hpc : srv.pc = .poll) {revents : List UInt16} (h : srv.StdinReady revents) (polls : List (List UInt16)) :
    srv.Harmless host (revents :: polls) ↔ ∃ b s, chop srv.stdin_buffer = some b ∧ Holds b s ∧ s ≠ ascii "exit" ∧
      Server.Harmless host { srv with
        pollStruct := srv.pollStruct.setRevents revents, stdin_buffer := b, pc := .poll } polls := by
  have hstdin : ∀ {b s}, chop srv.stdin_buffer = some b → Holds b s →
      stdinBranch { srv with pollStruct := srv.pollStruct.setRevents revents, pc := .stdin } [] =
        if s = ascii "exit" then exit { srv with
          pollStruct := srv.pollStruct.setRevents revents, stdin_buffer := b, pc := .stdin }
        else some ({ srv with pollStruct := srv.pollStruct.setRevents revents, stdin_buffer := b, pc := .poll }, []) :=
    fun hchop hhold => stdinBranch_eof hchop hhold
  rw [Harmless, rounds_cons hwf hpos hpc h]
  constructor
  · rintro ⟨srv', hrounds, hpc'⟩
    obtain ⟨⟨srv₁, acts⟩, hbranch, hrounds⟩ := Option.bind_eq_some_iff.1 hrounds
    cases hchop : chop srv.stdin_buffer with
    | none => simp [stdinBranch, fgets, hchop] at hbranch
    | some b =>
      obtain ⟨s, -, -, hhold⟩ := holds_of_chop hchop
      rw [hstdin hchop hhold] at hbranch
      by_cases hexit : s.dropLast = ascii "exit"
      · rw [if_pos hexit] at hbranch
        exact absurd (rounds_exit hbranch hrounds) hpc'
      · rw [if_neg hexit] at hbranch
        obtain ⟨rfl, rfl⟩ := Prod.mk.inj (Option.some.inj hbranch)
        exact ⟨b, s.dropLast, rfl, hhold, hexit, srv', hrounds, hpc'⟩
  · rintro ⟨b, s, hchop, hhold, hexit, srv', hrounds, hpc'⟩
    refine ⟨srv', ?_, hpc'⟩
    rw [hstdin hchop hhold, if_neg hexit]
    exact hrounds

theorem Server.rounds_eof {host : Host} {srv : Server} (hwf : srv.pollStruct.Wf) (hpos : 0 < srv.pollStruct.nfds)
    (hpc : srv.pc = .poll) {polls : List (List UInt16)} (h : ∀ revents ∈ polls, srv.StdinReady revents) :
    srv.Harmless host polls ↔ EofSafe (· = ascii "exit") polls.length srv.stdin_buffer := by
  induction polls generalizing srv with
  | nil => exact iff_of_true ⟨srv, rfl, by rw [hpc]; decide⟩ (Or.inl rfl)
  | cons revents polls ih =>
    have hready := h revents List.mem_cons_self
    have hnext : ∀ b, Server.Harmless host { srv with
        pollStruct := srv.pollStruct.setRevents revents, stdin_buffer := b, pc := .poll } polls ↔
          EofSafe (· = ascii "exit") polls.length b := fun b =>
      ih (PollAdjustable.setRevents_wf hwf hready.1) hpos rfl (fun x hx => h x (List.mem_cons_of_mem _ hx))
    simp only [harmless_cons hwf hpos hpc hready, List.length_cons, eofSafe_succ, hnext, ne_eq]

/-- **When the end of the input is harmless**: for the subscriber and for the server alike, as long as the iterations are
no more than the bytes of the text left in the buffer, and none of its beginnings that they come to is `exit` or, for the
subscriber, a command. -/
theorem eof_iff {host : Host} {p₀ p : Proc} {tr : List (Event × List Act)} (h₀ : p₀.Start host)
    (hrun : Lts.Run (Proc.Step host) p₀ tr p) (hpc : p.server.pc = .poll) {polls : List (List UInt16)}
    (hpolls : ∀ revents ∈ polls, p.server.StdinReady revents) {cli : Client} (hgo : cli.running = true)
    (hin : cli.input = []) (k : Nat) :
    (cli.Harmless k ↔ EofSafe Telling k cli.stdin_buffer) ∧
      (p.server.Harmless host polls ↔ EofSafe (· = ascii "exit") polls.length p.server.stdin_buffer) := by
  have hi : p.server.Inv := ((run_inv h₀ hrun).resolve_left (by rw [hpc]; decide)).1
  exact ⟨Client.rounds_eof hgo hin k, Server.rounds_eof hi.wf (Nat.lt_of_lt_of_le (by decide) hi.three_le) hpc hpolls⟩

theorem eof_iff_poll : ∃ p : Proc, p.server.stdin_buffer.take 4 = ascii "abc" ++ [0] ∧
    (⟨ascii "hello" ++ [0], 3, [], true⟩ : Client).Harmless 5 ∧ p.server.Harmless exactHost [[1, 0, 0], [1, 1, 0]] := by
  have hrun : ((Proc.boot exactHost 3 4).bind fun p₀ => (Lts.exec (Proc.next exactHost) p₀ [.poll (some [1, 0, 0]),
      .fgets (ascii "abc\n")]).map fun r => (r.2.server.stdin_buffer, r.2.server.pc, r.2.server.pollStruct.nfds)) =
        some (ascii "abc" ++ 0 :: [0, 0, 0, 0, 0, 0, 0], .poll, 3) := by decide +kernel
  obtain ⟨p₀, hboot, hrun⟩ := Option.bind_eq_some_iff.1 hrun
  obtain ⟨⟨tr, p⟩, hexec, hp⟩ := Option.map_eq_some_iff.1 hrun
  simp only [Prod.mk.injEq] at hp
  obtain ⟨hbuf, hpc, hnfds⟩ := hp
  have hpolls : ∀ revents ∈ [[1, 0, 0], [1, 1, 0]], p.server.StdinReady revents := by
    unfold Server.StdinReady
    rw [hnfds]
    decide
  have heof := eof_iff ⟨3, 4, by decide, by decide, by decide, hboot⟩ (Lts.exec_run Proc.next_step .nil hexec) hpc hpolls
    (show (⟨ascii "hello" ++ [0], 3, [], true⟩ : Client).running = true from rfl) rfl 5
  refine ⟨p, by rw [hbuf]; rfl, heof.1.2 (Or.inr ⟨ascii "hello", ?_, by decide +kernel⟩), heof.2.2 ?_⟩
  · exact holds_terminated (by decide) []
  · rw [hbuf]
    exact Or.inr ⟨ascii "abc", holds_terminated (by decide) _, by decide +kernel⟩

/-- At the end of the input the subscriber sends a command that nobody typed, and the server takes a line for `exit`. -/
theorem eof_obeyed : (∃ cli acts, (Client.start exactHost 3 (typed [ascii "subscribe ab"])).rounds 1 = some (cli, acts) ∧
    cli.running = true ∧ cli.input = [] ∧ ¬ cli.Harmless 1) ∧
    ∃ p₀ p tr, p₀.Start exactHost ∧ Lts.Run (Proc.Step exactHost) p₀ tr p ∧ p.server.pc = .poll ∧
      p.server.StdinReady [1, 0, 0] ∧ ¬ p.server.Harmless exactHost [[1, 0, 0]] := by
  constructor
  · have hrun : ((Client.start exactHost 3 (typed [ascii "subscribe ab"])).rounds 1).bind (fun r => (r.1.rounds 1).map
        fun q => (r.1.running, r.1.input, frames q.2)) = some (true, [], [ascii "subscribe a"]) := by decide +kernel
    obtain ⟨⟨cli, acts⟩, hread, hrun⟩ := Option.bind_eq_some_iff.1 hrun
    obtain ⟨⟨cli', acts'⟩, heof, hrun⟩ := Option.map_eq_some_iff.1 hrun
    simp only [Prod.mk.injEq] at hrun
    refine ⟨cli, acts, hread, hrun.1, hrun.2.1, ?_⟩
    rintro ⟨cli'', acts'', heof', hframes, -⟩
    rw [heof, Option.some.injEq, Prod.mk.injEq] at heof'
    rw [← heof'.2, hrun.2.2] at hframes
    cases hframes
  · have hrun : ((Proc.boot exactHost 3 4).bind fun p₀ => (Lts.exec (Proc.next exactHost) p₀ [.poll (some [1, 0, 0]),
        .fgets (ascii "exit!\n")]).bind fun r => (Server.rounds exactHost [[1, 0, 0]] r.2.server).map fun q =>
          (r.2.server.pc, r.2.server.pollStruct.nfds, q.pc)) = some (.poll, 3, .exited) := by decide +kernel
    obtain ⟨p₀, hboot, hrun⟩ := Option.bind_eq_some_iff.1 hrun
    obtain ⟨⟨tr, p⟩, hexec, hrun⟩ := Option.bind_eq_some_iff.1 hrun
    obtain ⟨srv, hrounds, hrun⟩ := Option.map_eq_some_iff.1 hrun
    simp only [Prod.mk.injEq] at hrun
    obtain ⟨hpc, hnfds, hexited⟩ := hrun
    refine ⟨p₀, p, _, ⟨3, 4, by decide, by decide, by decide, hboot⟩, Lts.exec_run Proc.next_step .nil hexec, hpc,
      ⟨hnfds.symm, rfl⟩, ?_⟩
    rintro ⟨srv', hrounds', hpc'⟩
    rw [hrounds, Option.some.injEq] at hrounds'
    exact hpc' (hrounds' ▸ hexited)

end Ts
