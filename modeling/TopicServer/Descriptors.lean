import TopicServer.Session
/-!
# Descriptors — what the server holds open

Descriptors come from `accept` and go with `close`, in branches far apart: a login that fails closes its connection at
once, the end of a connection closes it in the client loop, and `freeMemory` closes the rest.  Nothing is left open and
nothing is used after it was closed: between two steps the open descriptors are those of the poll array
(`descriptors_exact`), which is all that the signal handler goes through there (`signal_exact`).
-/
namespace Ts

open Text (ascii)

def Act.needs : Act → Option Fd
  | .recv fd _ => some fd
  | .sendTcp fd _ => some fd
  | .close fd => some fd
  | .accept _ => none
  | .cout _ => none

/-- Every act in its turn finds open what it needs, and `accept` gives what is not open. -/
def Proper : Finset Fd → List Act → Prop
  | _, [] => True
  | opened, a :: acts =>
    (∀ fd, a.needs = some fd → fd ∈ opened) ∧ (∀ fd, a = .accept fd → fd ∉ opened) ∧ Proper (kernelAct opened a) acts

/-- `shutdown_server`, when the signal comes between two steps of the loop; what it prints goes to the standard error, and
the process ends. -/
def Server.shutdownServer (srv : Server) : Option (List Act) := srv.pollStruct.freeMemory.map (·.2)

/-! ## Acts in a row -/

theorem proper_append {opened : Finset Fd} {acts acts' : List Act} :
    Proper opened (acts ++ acts') ↔ Proper opened acts ∧ Proper (acts.foldl kernelAct opened) acts' := by
  induction acts generalizing opened with
  | nil => simp [Proper]
  | cons a acts ih => simp only [List.cons_append, Proper, List.foldl_cons, ih, and_assoc]

/-- The act is a read or a send on an open descriptor, or a line printed. -/
def Act.Idle (opened : Finset Fd) (a : Act) : Prop :=
  (∀ fd, a.needs = some fd → fd ∈ opened) ∧ ∀ o, kernelAct o a = o

theorem idle_recv {opened : Finset Fd} {fd : Fd} (h : fd ∈ opened) (buff : Bytes) : (Act.recv fd buff).Idle opened :=
  ⟨fun _ hx => Option.some.inj hx ▸ h, fun _ => rfl⟩

theorem idle_sendTcp {opened : Finset Fd} {fd : Fd} (h : fd ∈ opened) (str : Bytes) :
    (Act.sendTcp fd str).Idle opened :=
  ⟨fun _ hx => Option.some.inj hx ▸ h, fun _ => rfl⟩

theorem idle_cout (opened : Finset Fd) (line : Bytes) : (Act.cout line).Idle opened :=
  ⟨fun _ hx => (nomatch hx), fun _ => rfl⟩

theorem proper_idle {opened : Finset Fd} {acts : List Act} (h : ∀ a ∈ acts, a.Idle opened) :
    Proper opened acts ∧ acts.foldl kernelAct opened = opened := by
  induction acts with
  | nil => exact ⟨trivial, rfl⟩
  | cons a acts ih =>
    obtain ⟨hneeds, hidle⟩ := h a List.mem_cons_self
    obtain ⟨hproper, hfold⟩ := ih fun x hx => h x (List.mem_cons_of_mem _ hx)
    refine ⟨⟨hneeds, fun fd hfd => ?_, by rwa [hidle]⟩, by rw [List.foldl_cons, hidle, hfold]⟩
    -- an `accept` would open its descriptor
    have hnew := hidle ∅
    rw [hfd] at hnew
    exact absurd hnew (Finset.insert_ne_empty fd ∅)

theorem proper_visit {opened : Finset Fd} {fd : Fd} {acts : List Act} (hfresh : fd ∉ opened)
    (h : ∀ a ∈ acts, a.Idle (insert fd opened)) : Proper opened (.accept fd :: acts ++ [.close fd]) ∧
      (Act.accept fd :: acts ++ [Act.close fd]).foldl kernelAct opened = opened := by
  obtain ⟨hproper, hfold⟩ := proper_idle h
  have hopened : (Act.accept fd :: acts).foldl kernelAct opened = insert fd opened := hfold
  rw [proper_append, List.foldl_append, hopened]
  refine ⟨⟨⟨fun _ hx => (nomatch hx), fun x hx => Act.accept.inj hx ▸ hfresh, hproper⟩, ?_⟩, ?_⟩
  · exact ⟨fun x hx => Option.some.inj hx ▸ Finset.mem_insert_self fd opened, fun _ hx => (nomatch hx), trivial⟩
  · exact Finset.erase_insert hfresh

theorem foldl_close (fds : List Fd) (opened : Finset Fd) (fd : Fd) :
    fd ∈ (fds.map Act.close).foldl kernelAct opened ↔ fd ∈ opened ∧ fd ∉ fds := by
  induction fds generalizing opened with
  | nil => simp
  | cons x fds ih =>
    simp only [List.map_cons, List.foldl_cons, ih, kernelAct, Finset.mem_erase, List.mem_cons, not_or]
    tauto

theorem proper_closes {fds : List Fd} (hnd : fds.Nodup) {opened : Finset Fd} (h : ∀ fd ∈ fds, fd ∈ opened) :
    Proper opened (fds.map .close) := by
  induction fds generalizing opened with
  | nil => trivial
  | cons x fds ih =>
    rw [List.nodup_cons] at hnd
    refine ⟨fun fd hfd => ?_, (fun _ hfd => nomatch hfd), ih hnd.2 fun fd hfd => ?_⟩
    · obtain rfl : x = fd := Option.some.inj hfd
      exact h x List.mem_cons_self
    · rw [kernelAct, Finset.mem_erase]
      exact ⟨fun he => hnd.1 (he ▸ hfd), h fd (List.mem_cons_of_mem _ hfd)⟩

def openCount (opened : Finset Fd) (fd : Fd) : Nat := opened.val.count fd

theorem openCount_of_mem {opened : Finset Fd} {fd : Fd} (h : fd ∈ opened) : openCount opened fd = 1 :=
  Multiset.count_eq_one_of_mem opened.nodup h

theorem openCount_of_not_mem {opened : Finset Fd} {fd : Fd} (h : fd ∉ opened) : openCount opened fd = 0 :=
  Multiset.count_eq_zero_of_notMem h

theorem openCount_congr {opened opened' : Finset Fd} {fd : Fd} (h : fd ∈ opened' ↔ fd ∈ opened) :
    openCount opened' fd = openCount opened fd := by
  by_cases hfd : fd ∈ opened
  · rw [openCount_of_mem hfd, openCount_of_mem (h.2 hfd)]
  · rw [openCount_of_not_mem hfd, openCount_of_not_mem (mt h.1 hfd)]

/-- **Opened and closed in turn**: as often closed as given, but for what was open before and what is open at the end. -/
theorem Proper.balance {opened : Finset Fd} {acts : List Act} (h : Proper opened acts) (fd : Fd) :
    acts.count (.accept fd) + openCount opened fd =
      acts.count (.close fd) + openCount (acts.foldl kernelAct opened) fd := by
  induction acts generalizing opened with
  | nil => rfl
  | cons a acts ih =>
    obtain ⟨hneeds, hfresh, hrest⟩ := h
    have ih := ih hrest
    rw [List.foldl_cons]
    cases a with
    | accept x =>
      have hx := hfresh x rfl
      by_cases hfd : x = fd
      · subst hfd
        have hopen : x ∈ kernelAct opened (.accept x) := Finset.mem_insert_self x opened
        rw [openCount_of_mem hopen] at ih
        rw [openCount_of_not_mem hx, List.count_cons_self, List.count_cons_of_ne (by simp)]
        omega
      · have hsame : fd ∈ kernelAct opened (.accept x) ↔ fd ∈ opened := by simp [kernelAct, Ne.symm hfd]
        rw [openCount_congr hsame] at ih
        rw [List.count_cons_of_ne (by simpa using hfd), List.count_cons_of_ne (by simp)]
        exact ih
    | close x =>
      have hx := hneeds x rfl
      by_cases hfd : x = fd
      · subst hfd
        have hshut : x ∉ kernelAct opened (.close x) := Finset.notMem_erase x opened
        rw [openCount_of_not_mem hshut] at ih
        rw [openCount_of_mem hx, List.count_cons_self, List.count_cons_of_ne (by simp)]
        omega
      · have hsame : fd ∈ kernelAct opened (.close x) ↔ fd ∈ opened := by simp [kernelAct, Ne.symm hfd]
        rw [openCount_congr hsame] at ih
        rw [List.count_cons_of_ne (by simp), List.count_cons_of_ne (by simpa using hfd)]
        exact ih
    | recv x buff => simpa [kernelAct] using ih
    | sendTcp x str => simpa [kernelAct] using ih
    | cout line => simpa [kernelAct] using ih

/-! ## One step -/

theorem deliver_active {host : Host} {subs : Table.Map Bytes UserIdSubscriptions} {toSend topic : Bytes} :
    ∀ {order : List Bytes} {acts : List Act}, Server.deliver host subs toSend topic order = some acts →
      ∀ a ∈ acts, ∃ u v, subs.lookup u = some v ∧ v.active = true ∧ a = .sendTcp v.fd toSend
  | [], acts, h => by
    obtain rfl := Option.some.inj h
    simp
  | u :: order, acts, h => by
    obtain ⟨value, hvalue, h⟩ := Option.bind_eq_some_iff.1 h
    obtain ⟨res, hres, h⟩ := Option.bind_eq_some_iff.1 h
    obtain ⟨acts', hrest, h⟩ := Option.bind_eq_some_iff.1 h
    obtain rfl := Option.some.inj h
    have ih := deliver_active hrest
    cases res with
    | false => exact ih
    | true =>
      have hactive : value.active = true := by
        cases hact : value.active with
        | true => rfl
        | false => simp [getMatch, hact] at hres
      intro a ha
      rcases List.mem_cons.1 ha with rfl | ha
      · exact ⟨u, value, hvalue, hactive, rfl⟩
      · exact ih a ha

theorem udpBranch_active {host : Host} {srv srv' : Server} {d : Option (Bytes × SockaddrIn)} {order : List Bytes}
    {acts : List Act} (hi : srv.Inv) (h : Server.udpBranch host srv d order = some (srv', acts)) :
    ∀ a ∈ acts, ∃ fd ∈ srv.clientFds, ∃ str, a = .sendTcp fd str := by
  unfold Server.udpBranch at h
  obtain ⟨toSend, -, h⟩ := Option.bind_eq_some_iff.1 h
  split at h
  · obtain ⟨topic, -, h⟩ := Option.bind_eq_some_iff.1 h
    obtain ⟨acts', hdeliver, h⟩ := Option.bind_eq_some_iff.1 h
    obtain rfl := (Prod.mk.inj (Option.some.inj h)).2
    intro a ha
    obtain ⟨u, v, hv, hact, rfl⟩ := deliver_active hdeliver a ha
    exact ⟨v.fd, (hi.keys _).2 (Table.mem_iff_lookup.2 ⟨u, (hi.binding _ u).2 ⟨v, hv, hact, rfl⟩⟩), toSend, rfl⟩
  · obtain rfl := (Prod.mk.inj (Option.some.inj h)).2
    simp

theorem mem_fds_of_client {srv : Server} {fd : Fd} (h : fd ∈ srv.clientFds) : fd ∈ srv.fds := List.mem_of_mem_drop h

/-- **`freeMemory` leaves standard input open and nothing else**, and closes nothing twice. -/
theorem proper_farewell {srv : Server} {opened : Finset Fd} (hi : srv.Inv) (hstdin : srv.fds.head? = some 0)
    (hopen : ∀ fd, fd ∈ opened ↔ fd ∈ srv.fds) :
    Proper opened srv.farewell ∧ srv.farewell.foldl kernelAct opened = {0} := by
  have hsends : ∀ a ∈ srv.clientFds.map (fun fd => Act.sendTcp fd (ascii "shutdown")), a.Idle opened := by
    intro a ha
    obtain ⟨fd, hfd, rfl⟩ := List.mem_map.1 ha
    exact idle_sendTcp ((hopen fd).2 (mem_fds_of_client hfd)) _
  obtain ⟨hproper, hkept⟩ := proper_idle hsends
  obtain ⟨fds, hfds⟩ : ∃ fds, srv.fds = 0 :: fds := ⟨srv.fds.tail, List.eq_cons_of_mem_head? hstdin⟩
  have hnd := hi.nodup
  rw [hfds, List.nodup_cons] at hnd
  rw [Server.farewell, proper_append, List.foldl_append, hkept, hfds, List.drop_one, List.tail_cons]
  refine ⟨⟨hproper, ?_⟩, ?_⟩
  · apply proper_closes hnd.2
    intro fd hfd
    rw [hopen, hfds]
    exact List.mem_cons_of_mem _ hfd
  · apply Finset.ext
    intro fd
    rw [foldl_close, hopen, hfds, List.mem_cons, Finset.mem_singleton]
    constructor
    · exact fun h => h.1.resolve_right h.2
    · rintro rfl
      exact ⟨Or.inl rfl, hnd.1⟩

def Proc.Exact (p : Proc) : Prop :=
  p.server.pc = .exited ∧ p.opened = {0} ∨
    p.server.Inv ∧ p.server.fds.head? = some 0 ∧ ∀ fd, fd ∈ p.opened ↔ fd ∈ p.server.fds

/-- **A move uses what is open**, and leaves open what it leaves in the poll array. -/
theorem Move.exact {host : Host} {srv srv' : Server} {ev : Event} {acts : List Act} {opened : Finset Fd} (hi : srv.Inv)
    (hstdin : srv.fds.head? = some 0) (hopen : ∀ fd, fd ∈ opened ↔ fd ∈ srv.fds)
    (hfresh : ∀ fd, Act.accept fd ∈ acts → fd ∉ opened) (hm : Move host srv ev acts srv')
    (hi' : srv'.pc = .exited ∨ srv'.Inv) :
    Proper opened acts ∧ Proc.Exact ⟨srv', acts.foldl kernelAct opened⟩ := by
  have hsame : srv'.Inv → srv'.fds = srv.fds → acts.foldl kernelAct opened = opened →
      Proc.Exact ⟨srv', acts.foldl kernelAct opened⟩ := fun hinv hfds hfold =>
    Or.inr ⟨hinv, hfds ▸ hstdin, fun fd => by rw [hfold, hfds]; exact hopen fd⟩
  have hgoes : ∀ pc, srv'.pc = pc → pc ≠ .exited → srv'.Inv := fun pc hpc hne => hi'.resolve_left (hpc ▸ hne)
  cases hm with
  | exit hexit =>
    obtain ⟨hproper, hfold⟩ := proper_farewell hi hstdin hopen
    exact ⟨hproper, Or.inl ⟨hexit, hfold⟩⟩
  | quiet hinv _ hfds => exact ⟨trivial, hsame hinv hfds rfl⟩
  | @dropped acts c _ hinv _ hfds _ hacts =>
    have hidle : ∀ a ∈ acts, a.Idle (insert c.connfd opened) := by
      rcases hacts with rfl | rfl
      · exact fun a ha => absurd ha List.not_mem_nil
      · intro a ha
        obtain rfl := List.mem_singleton.1 ha
        exact idle_sendTcp (Finset.mem_insert_self _ _) _
    obtain ⟨hproper, hfold⟩ := proper_visit (hfresh _ List.mem_cons_self) hidle
    exact ⟨hproper, hsame hinv hfds hfold⟩
  | @refused acts c _ hinv _ hfds _ hacts =>
    have hnew : c.connfd ∈ insert c.connfd opened := Finset.mem_insert_self _ _
    have hidle : ∀ a ∈ .recv c.connfd c.buff :: acts ++ [.sendTcp c.connfd (ascii "shutdown")],
        a.Idle (insert c.connfd opened) := by
      intro a ha
      simp only [List.cons_append, List.mem_cons, List.mem_append, List.not_mem_nil, or_false] at ha
      rcases ha with rfl | ha | rfl
      · exact idle_recv hnew _
      · rcases hacts with ⟨rfl, -⟩ | ⟨rfl, -⟩
        · cases ha
        · rw [List.mem_singleton.1 ha]
          exact idle_cout _ _
      · exact idle_sendTcp hnew _
    obtain ⟨hproper, hfold⟩ := proper_visit (hfresh _ List.mem_cons_self) hidle
    have hlist : Act.accept c.connfd :: .recv c.connfd c.buff :: acts ++ [.sendTcp c.connfd (ascii "shutdown"),
        .close c.connfd] = .accept c.connfd :: (.recv c.connfd c.buff :: acts ++
          [.sendTcp c.connfd (ascii "shutdown")]) ++ [.close c.connfd] := by simp
    rw [← hlist] at hproper hfold
    exact ⟨hproper, hsame hinv hfds hfold⟩
  | @login c _ _ _ _ _ hpc hfds =>
    have hnew := hfresh _ List.mem_cons_self
    have hidle : ∀ a ∈ [.recv c.connfd c.buff, Server.newClient c.buff c.cli], a.Idle (insert c.connfd opened) := by
      intro a ha
      simp only [List.mem_cons, List.not_mem_nil, or_false] at ha
      rcases ha with rfl | rfl
      · exact idle_recv (Finset.mem_insert_self _ _) _
      · exact idle_cout _ _
    obtain ⟨hproper, hfold⟩ := proper_idle hidle
    refine ⟨⟨fun _ hx => (nomatch hx), fun x hx => Act.accept.inj hx ▸ hnew, hproper⟩,
      Or.inr ⟨hgoes _ hpc (by decide), ?_, ?_⟩⟩
    · rw [hfds, List.head?_append, hstdin, Option.some_or]
    · intro fd
      have hopened : fd ∈ insert c.connfd opened ↔ fd ∈ srv.fds ++ [c.connfd] := by
        rw [Finset.mem_insert, List.mem_append, List.mem_singleton, hopen, or_comm]
      rw [hfds, ← hopened, List.foldl_cons]
      exact iff_of_eq (congrArg (fd ∈ ·) hfold)
  | datagram hinv _ hfds hbranch =>
    have hidle : ∀ a ∈ acts, a.Idle opened := by
      intro a ha
      obtain ⟨fd, hfd, str, rfl⟩ := udpBranch_active hi hbranch a ha
      exact idle_sendTcp ((hopen fd).2 (mem_fds_of_client hfd)) _
    obtain ⟨hproper, hfold⟩ := proper_idle hidle
    exact ⟨hproper, hsame hinv hfds hfold⟩
  | @logout _ _ fd _ _ a b _ _ _ _ hsplit ha _ _ hpc hfds =>
    have hmem : fd ∈ opened := by
      rw [hopen, hsplit]
      exact List.mem_append_right _ List.mem_cons_self
    have hnd := hi.nodup
    rw [hsplit, List.nodup_middle, List.nodup_cons] at hnd
    refine ⟨⟨fun x hx => Option.some.inj hx ▸ hmem, (fun _ hx => nomatch hx), fun x hx => Option.some.inj hx ▸ hmem,
      (fun _ hx => nomatch hx), (fun _ hx => nomatch hx), (fun _ hx => nomatch hx), trivial⟩,
      Or.inr ⟨hgoes _ hpc (by simp), ?_, ?_⟩⟩
    · cases a with
      | nil => exact absurd ha (by decide)
      | cons x a =>
        rw [hsplit] at hstdin
        rw [hfds]
        exact hstdin
    · intro x
      have hopened : x ∈ opened.erase fd ↔ x ∈ a ++ b := by
        rw [Finset.mem_erase, hopen, hsplit, List.perm_middle.mem_iff, List.mem_cons]
        constructor
        · exact fun h => h.2.resolve_left h.1
        · exact fun h => ⟨fun he => hnd.1 (he ▸ h), Or.inr h⟩
      rw [hfds, ← hopened]
      exact Iff.rfl
  | @ignored buff _ fd _ _ hfd _ hinv _ hfds =>
    have hidle : ∀ a ∈ [Act.recv fd buff], a.Idle opened := fun a ha =>
      List.mem_singleton.1 ha ▸ idle_recv ((hopen fd).2 (mem_fds_of_client hfd)) _
    obtain ⟨hproper, hfold⟩ := proper_idle hidle
    exact ⟨hproper, hsame hinv hfds hfold⟩
  | @command buff fd _ _ _ _ _ _ _ hfd _ _ _ _ _ hp hpc =>
    have hidle : ∀ a ∈ [Act.recv fd buff], a.Idle opened := fun a ha =>
      List.mem_singleton.1 ha ▸ idle_recv ((hopen fd).2 (mem_fds_of_client hfd)) _
    obtain ⟨hproper, hfold⟩ := proper_idle hidle
    exact ⟨hproper, hsame (hgoes _ hpc (by simp)) (by rw [Server.fds, hp, Server.fds]) hfold⟩

/-! ## Runs -/

theorem start_fds (host : Host) (l u : Fd) : (Server.start host l u).map (·.fds) = some [0, l, u] := rfl

theorem start_exact {host : Host} {p : Proc} (h : p.Start host) : p.Exact := by
  have hi := (start_inv h).1
  obtain ⟨l, u, -, -, -, hboot⟩ := h
  obtain ⟨srv, hstart, rfl⟩ := Option.map_eq_some_iff.1 hboot
  have hfds : srv.fds = [0, l, u] := by simpa [hstart] using start_fds host l u
  refine Or.inr ⟨hi, by rw [hfds]; rfl, fun fd => ?_⟩
  rw [hfds]
  simp

theorem Proc.Step.exact {host : Host} {p q : Proc} {e : Event × List Act} (hp : p.Exact) (h : p.Step host e q) :
    Proper p.opened e.2 ∧ q.Exact := by
  rcases hp with ⟨hexit, -⟩ | ⟨hi, hstdin, hopen⟩
  · exact absurd h.step (by simp [step_exited hexit])
  obtain ⟨-, hmove, hq⟩ := h.move (Or.inr ⟨hi, fun fd => (hopen fd).2⟩)
  obtain ⟨hproper, hexact⟩ := hmove.exact hi hstdin hopen h.fresh (hq.imp id And.left)
  rw [← h.opened] at hexact
  exact ⟨hproper, hexact⟩

def actsOf (tr : List (Event × List Act)) : List Act := tr.flatMap (·.2)

theorem run_exact {host : Host} {p₀ p : Proc} {tr : List (Event × List Act)} (h₀ : p₀.Start host)
    (hrun : Lts.Run (Proc.Step host) p₀ tr p) :
    Proper p₀.opened (actsOf tr) ∧ (actsOf tr).foldl kernelAct p₀.opened = p.opened ∧ p.Exact := by
  refine hrun.history (P := fun tr p => Proper p₀.opened (actsOf tr) ∧
    (actsOf tr).foldl kernelAct p₀.opened = p.opened ∧ p.Exact) ⟨trivial, rfl, start_exact h₀⟩ ?_
  rintro tr p e q - ⟨hproper, hfold, hexact⟩ hstep
  obtain ⟨hproper', hexact'⟩ := hstep.exact hexact
  have hacts : actsOf (tr ++ [e]) = actsOf tr ++ e.2 := by simp [actsOf]
  rw [hacts, proper_append, List.foldl_append, hfold]
  exact ⟨⟨hproper, hproper'⟩, hstep.opened.symm, hexact'⟩

/-- **No descriptor leaks and none is used after it was closed**: along every run each read, send and close is on a
descriptor that is open at that moment; between two steps those open are exactly those of the poll array, whatever
logins failed or were refused; and once the loop was left only standard input is, and every accepted descriptor was
closed as often as it was accepted. -/
theorem descriptors_exact {host : Host} {p₀ p : Proc} {tr : List (Event × List Act)} (h₀ : p₀.Start host)
    (hrun : Lts.Run (Proc.Step host) p₀ tr p) :
    Proper p₀.opened (actsOf tr) ∧ (p.server.pc ≠ .exited → ∀ fd, fd ∈ p.opened ↔ fd ∈ p.server.fds) ∧
      (p.server.pc = .exited → p.opened = {0} ∧
        ∀ fd ∉ p₀.opened, (actsOf tr).count (.accept fd) = (actsOf tr).count (.close fd)) := by
  obtain ⟨hproper, hfold, hexact⟩ := run_exact h₀ hrun
  refine ⟨hproper, fun hpc => (hexact.resolve_left fun h => hpc h.1).2.2, fun hpc => ?_⟩
  have hopened : p.opened = {0} := by
    rcases hexact with h | h
    · exact h.2
    · exact absurd h.1.loop (by simp [hpc, Pc.Ok])
  refine ⟨hopened, fun fd hfd => ?_⟩
  have hstdin : 0 ∈ p₀.opened := by
    obtain ⟨-, hhead, hopen⟩ := (start_exact h₀).resolve_left fun h => absurd h.1 (by simp [(start_inv h₀).2.2.1])
    exact (hopen 0).2 (List.mem_of_mem_head? hhead)
  have hlast : fd ∉ p.opened := by
    rw [hopened, Finset.mem_singleton]
    rintro rfl
    exact hfd hstdin
  have hbalance := hproper.balance fd
  rwa [hfold, openCount_of_not_mem hfd, openCount_of_not_mem hlast] at hbalance

theorem descriptors_exact_exit : ∃ (p : Proc) (tr : List (Event × List Act)), p.server.pc = .exited ∧ p.opened = {0} ∧
    (actsOf tr).count (.accept 5) = (actsOf tr).count (.close 5) := by
  have hrun : ((Proc.boot exactHost 3 4).bind fun p₀ => (Lts.exec (Proc.next exactHost) p₀ [.poll (some [0, 1, 0]),
      .accept (some ⟨5, ⟨(127, 0, 0, 1), (0, 9)⟩, true, true, ⟨[97], by decide⟩⟩), .poll (some [1, 0, 0, 0]),
      .fgets (ascii "exit\n")]).map fun r => (p₀.opened, r.2.server.pc)) = some ({0, 3, 4}, .exited) := by decide +kernel
  obtain ⟨p₀, hboot, hrun⟩ := Option.bind_eq_some_iff.1 hrun
  obtain ⟨⟨tr, p⟩, hexec, hp⟩ := Option.map_eq_some_iff.1 hrun
  obtain ⟨hopened, hpc⟩ := Prod.mk.inj hp
  obtain ⟨-, -, hexit⟩ := descriptors_exact ⟨3, 4, by decide, by decide, by decide, hboot⟩
    (Lts.exec_run Proc.next_step .nil hexec)
  exact ⟨p, tr, hpc, (hexit hpc).1, (hexit hpc).2 5 (by rw [hopened]; decide)⟩

/-- **The signal handler between two steps of the loop**: it closes every open descriptor but standard input, each once,
and before that it tells every active user to shut down, each once, and nobody else. -/
theorem signal_exact {host : Host} {p₀ p : Proc} {tr : List (Event × List Act)} (h₀ : p₀.Start host)
    (hrun : Lts.Run (Proc.Step host) p₀ tr p) (hpc : p.server.pc ≠ .exited) :
    ∃ told closed, p.server.shutdownServer = some (told ++ closed) ∧ Proper p.opened (told ++ closed) ∧
      (told ++ closed).foldl kernelAct p.opened = {0} ∧
      (∀ fd ∈ p.opened, fd ≠ 0 → closed.count (.close fd) = 1) ∧
      (∀ a, a ∈ told ↔ ∃ u v, p.server.userSubscriptions.lookup u = some v ∧ v.active = true ∧
        a = .sendTcp v.fd (ascii "shutdown")) ∧ told.Nodup := by
  obtain ⟨hi, hstdin, hopen⟩ := (run_exact h₀ hrun).2.2.resolve_left fun h => hpc h.1
  obtain ⟨hproper, hfold⟩ := proper_farewell hi hstdin hopen
  have hnd : (p.server.fds.drop 1).Nodup := hi.nodup.sublist (List.drop_sublist 1 _)
  refine ⟨p.server.clientFds.map (fun fd => .sendTcp fd (ascii "shutdown")), (p.server.fds.drop 1).map .close, ?_,
    hproper, hfold, fun fd hfd hne => ?_, fun a => ?_, ?_⟩
  · rw [Server.shutdownServer, PollAdjustable.freeMemory_eq hi.wf hi.three_le]
    simp [Server.clientFds, Server.fds, List.map_drop, Function.comp_def]
  · rw [List.count_eq_one_of_mem (hnd.map fun _ _ h => Act.close.inj h)]
    apply List.mem_map_of_mem
    rw [hopen, List.eq_cons_of_mem_head? hstdin] at hfd
    rw [List.drop_one]
    exact (List.mem_cons.1 hfd).resolve_left hne
  · rw [List.mem_map]
    constructor
    · rintro ⟨fd, hfd, rfl⟩
      obtain ⟨u, v, -, hv, hact, rfl⟩ := hi.user hfd
      exact ⟨u, v, hv, hact, rfl⟩
    · rintro ⟨u, v, hv, hact, rfl⟩
      exact ⟨v.fd, (hi.keys _).2 (Table.mem_iff_lookup.2 ⟨u, (hi.binding _ u).2 ⟨v, hv, hact, rfl⟩⟩), rfl⟩
  · exact (hi.nodup.sublist (List.drop_sublist 3 _)).map fun _ _ h => (Act.sendTcp.inj h).1

theorem signal_exact_client : ∃ (p : Proc) (told closed : List Act), p.server.clientFds = [5] ∧
    p.server.shutdownServer = some (told ++ closed) ∧ told.Nodup := by
  have hrun : ((Proc.boot exactHost 3 4).bind fun p₀ => (Lts.exec (Proc.next exactHost) p₀ [.poll (some [0, 1, 0]),
      .accept (some ⟨5, ⟨(127, 0, 0, 1), (0, 9)⟩, true, true, ⟨[97], by decide⟩⟩), .poll (some [0, 0, 0, 0])]).map
        fun r => (r.2.server.clientFds, r.2.server.pc)) = some ([5], .clients 3) := by decide +kernel
  obtain ⟨p₀, hboot, hrun⟩ := Option.bind_eq_some_iff.1 hrun
  obtain ⟨⟨tr, p⟩, hexec, hp⟩ := Option.map_eq_some_iff.1 hrun
  obtain ⟨hfds, hpc⟩ := Prod.mk.inj hp
  obtain ⟨told, closed, hacts, -, -, -, -, hnd⟩ := signal_exact ⟨3, 4, by decide, by decide, by decide, hboot⟩
    (Lts.exec_run Proc.next_step .nil hexec) (by rw [show p.server.pc = _ from hpc]; decide)
  exact ⟨p, told, closed, hfds, hacts, hnd⟩

end Ts
