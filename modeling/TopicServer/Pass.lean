import TopicServer.Descriptors
/-!
# Pass — which clients a pass of the client loop serves

After a call of `poll` that finds only clients ready the server walks the poll array once.  A client whose connection
has ended is deleted from the array while the index goes on, so the entry behind it is passed over.  `pass_exact` says
what a whole pass reads; an entry passed over has moved towards the front, so a client that stays ready is not passed
over for ever (`bounded_wait`).
-/
namespace Ts

/-- What a pass over the entries reads, in order, when the connections for which `ends` holds have ended; `skip` when the
entry before was deleted. -/
def served (ends : Fd → Bool) : Bool → List Pollfd → List Fd
  | _, [] => []
  | true, _ :: xs => served ends false xs
  | false, x :: xs => if ready x then x.fd :: served ends (ends x.fd) xs else served ends false xs

def readsOf (acts : List Act) : List Fd := acts.filterMap fun
  | .recv fd _ => some fd
  | _ => none

def ended (acts : List Act) (fd : Fd) : Bool := decide (Act.recv fd [] ∈ acts)

def Event.inLoop : Event → Bool
  | .recv _ _ => true
  | .next => true
  | _ => false

/-! ## One index -/

theorem clientData_live {host : Host} {srv srv' : Server} {buff : CText} {ok : Bool} {acts : List Act} {i j : Nat}
    {x : Pollfd} (h : srv.Inv) (hi : 3 ≤ i) (hx : srv.pollStruct.live[i]? = some x)
    (hstep : Server.clientData host { srv with pc := .clients j } x.fd buff ok = some (srv', acts)) :
    srv'.pc = .clients j ∧
      ((∃ b, b ≠ [] ∧ acts = [.recv x.fd b]) ∧ srv'.pollStruct.live = srv.pollStruct.live ∨
        (∃ line, acts = [.recv x.fd [], .close x.fd, .cout line]) ∧
          srv'.pollStruct.live = srv.pollStruct.live.take i ++ srv.pollStruct.live.drop (i + 1)) := by
  obtain ⟨hilt, hxi⟩ := List.getElem?_eq_some_iff.1 hx
  have hsplit : srv.pollStruct.live = srv.pollStruct.live.take i ++ x :: srv.pollStruct.live.drop (i + 1) := by
    rw [← hxi, List.cons_getElem_drop_succ, List.take_append_drop]
  have hfds : srv.fds = (srv.pollStruct.live.take i).map (·.fd) ++
      x.fd :: (srv.pollStruct.live.drop (i + 1)).map (·.fd) := by
    conv => lhs; rw [Server.fds, hsplit, List.map_append, List.map_cons]
  have hclient : x.fd ∈ srv.clientFds := by
    rw [Server.clientFds, Server.fds, ← List.map_drop]
    apply List.mem_map_of_mem
    rw [List.mem_drop_iff_getElem]
    exact ⟨i - 3, by omega, by rw [← hxi]; congr 1; omega⟩
  obtain ⟨u, e, hu, he, -, -⟩ := h.user hclient
  simp only [Server.clientData, Table.entry_of_lookup hu] at hstep
  by_cases hb : buff.1 = []
  · have hfirst : ∀ y ∈ srv.pollStruct.live.take i, y.fd ≠ x.fd := by
      intro y hy hyx
      have hnd := h.nodup
      rw [hfds, List.nodup_append] at hnd
      exact hnd.2.2 _ (List.mem_map_of_mem hy) _ List.mem_cons_self hyx
    obtain ⟨p, hrem, -, hlive⟩ := PollAdjustable.remove_spec h.wf hsplit hfirst
    simp only [hb, hrem, Table.entry_of_lookup he, Option.bind_eq_bind, Option.bind_some, if_true] at hstep
    obtain ⟨rfl, rfl⟩ := Prod.mk.inj (Option.some.inj hstep)
    exact ⟨rfl, Or.inr ⟨⟨_, rfl⟩, hlive⟩⟩
  · rw [if_neg hb] at hstep
    obtain ⟨srv₁, hcmd, hstep⟩ := Option.bind_eq_some_iff.1 hstep
    obtain ⟨rfl, rfl⟩ := Prod.mk.inj (Option.some.inj hstep)
    rcases Server.command_done { srv with pc := .clients j } buff.2 he hcmd with
      ⟨-, hp, hpc, -⟩ | ⟨-, c, s, -, -, rfl⟩
    · exact ⟨hpc, Or.inl ⟨⟨buff, hb, rfl⟩, by rw [hp]⟩⟩
    · exact ⟨rfl, Or.inl ⟨⟨buff, hb, rfl⟩, rfl⟩⟩

/-- **What the loop does at an index**: it ends behind the last entry; it goes past an entry that is not ready; it reads
one that is, and deletes it when its connection has ended. -/
theorem clientStep_cases {host : Host} {srv srv' : Server} {ev : Event} {acts : List Act} {i : Nat} (h : srv.Inv)
    (hi : 3 ≤ i) (hstep : srv.clientStep host i ev = some (srv', acts)) :
    srv.pollStruct.live[i]? = none ∧ acts = [] ∧ srv'.pc = .poll ∧ srv'.pollStruct.live = srv.pollStruct.live ∨
      ∃ x, srv.pollStruct.live[i]? = some x ∧ srv'.pc = .clients (i + 1) ∧
        (ready x = false ∧ acts = [] ∧ srv'.pollStruct.live = srv.pollStruct.live ∨
          ready x = true ∧ (∃ buff, buff ≠ [] ∧ acts = [.recv x.fd buff]) ∧
            srv'.pollStruct.live = srv.pollStruct.live ∨
          ready x = true ∧ (∃ line, acts = [.recv x.fd [], .close x.fd, .cout line]) ∧
            srv'.pollStruct.live = srv.pollStruct.live.take i ++ srv.pollStruct.live.drop (i + 1)) := by
  have hlen := h.wf.length_live
  by_cases hend : srv.pollStruct.nfds ≤ i
  · have hnone : srv.pollStruct.live[i]? = none := List.getElem?_eq_none (by omega)
    cases ev with
    | next =>
      obtain ⟨rfl, rfl⟩ : _ ∧ [] = acts := by simpa [Server.clientStep, hend] using hstep
      exact Or.inl ⟨hnone, rfl, rfl, rfl⟩
    | recv buff ok => simp [Server.clientStep, hend] at hstep
    | _ => cases hstep
  obtain ⟨x, hx⟩ : ∃ x, srv.pollStruct.live[i]? = some x := ⟨_, List.getElem?_eq_getElem (by omega)⟩
  have hcell : srv.pollStruct.pollfds[i]? = some x := by rw [PollAdjustable.Wf.getElem?_live (by omega), hx]
  cases ev with
  | next =>
    cases hr : ready x with
    | true => simp [Server.clientStep, hend, hcell, hr] at hstep
    | false =>
      obtain ⟨rfl, rfl⟩ : _ ∧ [] = acts := by simpa [Server.clientStep, hend, hcell, hr] using hstep
      exact Or.inr ⟨x, hx, rfl, Or.inl ⟨hr, rfl, rfl⟩⟩
  | recv buff ok =>
    cases hr : ready x with
    | false => simp [Server.clientStep, hend, hcell, hr] at hstep
    | true =>
      simp only [Server.clientStep, if_neg hend, hcell, hr, Option.bind_eq_bind, Option.bind_some, Bool.not_true,
        Bool.false_eq_true, if_false] at hstep
      obtain ⟨hpc, hsame | hgone⟩ := clientData_live h hi hx hstep
      · exact Or.inr ⟨x, hx, hpc, Or.inr (Or.inl ⟨hr, hsame⟩)⟩
      · exact Or.inr ⟨x, hx, hpc, Or.inr (Or.inr ⟨hr, hgone⟩)⟩
  | _ => cases hstep

/-! ## The pass -/

theorem served_sublist (ends : Fd → Bool) : ∀ (skip : Bool) (l : List Pollfd),
    (served ends skip l).Sublist (l.map (·.fd))
  | _, [] => by simp [served]
  | true, x :: xs => (served_sublist ends false xs).cons x.fd
  | false, x :: xs => by
    rw [served]
    split
    · exact (served_sublist ends (ends x.fd) xs).cons_cons x.fd
    · exact (served_sublist ends false xs).cons x.fd

theorem served_mem {ends : Fd → Bool} {skip : Bool} {l : List Pollfd} {fd : Fd} (h : fd ∈ served ends skip l) :
    fd ∈ l.map (·.fd) := (served_sublist ends skip l).subset h

/-- **A ready entry is read unless the one right before it was, and has ended.** -/
theorem served_behind (ends : Fd → Bool) {x y : Pollfd} {b : List Pollfd} (hy : ready y = true) :
    ∀ (skip : Bool) {a : List Pollfd}, ((a ++ x :: y :: b).map (·.fd)).Nodup →
      (y.fd ∈ served ends skip (a ++ x :: y :: b) ↔
        ¬ (x.fd ∈ served ends skip (a ++ x :: y :: b) ∧ ends x.fd = true))
  | skip, [], hnd => by
    simp only [List.nil_append, List.map_cons, List.nodup_cons] at hnd ⊢
    have hread : y.fd ∈ served ends false (y :: b) := by
      rw [served, if_pos hy]
      exact List.mem_cons_self
    have hx : ∀ skip, x.fd ∉ served ends skip (y :: b) := fun skip h => hnd.1 (served_mem h)
    cases skip with
    | true => exact iff_of_true hread fun h => hx false h.1
    | false =>
      rw [served]
      split
      · have hne : y.fd ≠ x.fd := fun h => hnd.1 (h ▸ List.mem_cons_self)
        cases hend : ends x.fd with
        | false => simp [hread]
        | true =>
          have hb : y.fd ∉ served ends true (y :: b) := fun h => hnd.2.1 (served_mem h)
          simp [hne, hb]
      · exact iff_of_true hread fun h => hx false h.1
  | skip, z :: a, hnd => by
    have hnd' := hnd
    simp only [List.cons_append, List.map_cons, List.nodup_cons] at hnd'
    have hz : ∀ w ∈ a ++ x :: y :: b, w.fd ≠ z.fd := fun w hw h => hnd'.1 (h ▸ List.mem_map_of_mem hw)
    have ih := fun skip => served_behind ends hy skip hnd'.2
    cases skip with
    | true => exact ih false
    | false =>
      rw [List.cons_append, served]
      split
      · simp only [List.mem_cons, hz y (by simp), hz x (by simp), false_or]
        exact ih (ends z.fd)
      · exact ih false

theorem served_congr {ends ends' : Fd → Bool} : ∀ (skip : Bool) {l : List Pollfd},
    (∀ x ∈ l, ends x.fd = ends' x.fd) → served ends skip l = served ends' skip l
  | _, [], _ => by simp [served]
  | true, x :: xs, h => by
    rw [served, served]
    exact served_congr false fun y hy => h y (List.mem_cons_of_mem _ hy)
  | false, x :: xs, h => by
    have ih := fun skip => served_congr skip fun y hy => h y (List.mem_cons_of_mem _ hy)
    rw [served, served, h x List.mem_cons_self, ih, ih]

theorem mem_readsOf {acts : List Act} {fd : Fd} : fd ∈ readsOf acts ↔ ∃ buff, Act.recv fd buff ∈ acts := by
  rw [readsOf, List.mem_filterMap]
  constructor
  · rintro ⟨a, ha, hfd⟩
    cases a with
    | recv x buff =>
      obtain rfl : x = fd := Option.some.inj hfd
      exact ⟨buff, ha⟩
    | _ => cases hfd
  · rintro ⟨buff, h⟩
    exact ⟨_, h, rfl⟩

theorem mem_reads_of_ended {acts : List Act} {fd : Fd} (h : ended acts fd = true) : fd ∈ readsOf acts :=
  mem_readsOf.2 ⟨[], of_decide_eq_true h⟩

theorem actsOf_cons (e : Event × List Act) (tr : List (Event × List Act)) : actsOf (e :: tr) = e.2 ++ actsOf tr := rfl

theorem step_poll_inLoop {host : Host} {srv : Server} {ev : Event} (hpc : srv.pc = .poll) (h : ev.inLoop = true) :
    srv.step host ev = none := by
  cases ev with
  | recv buff ok => simp [Server.step, hpc]
  | next => simp [Server.step, hpc]
  | _ => cases h

/-- What acts do that pass over the entries `rest`, behind the entries `before`: they read what a pass reads, and leave
the entries whose connections have not ended. -/
structure Passes (acts : List Act) (before rest after : List Pollfd) : Prop where
  reads : readsOf acts = served (ended acts) false rest
  left : after = before ++ rest.filter fun x => !ended acts x.fd

namespace Passes

variable {acts : List Act} {before rest after : List Pollfd} {x : Pollfd}

theorem goes (h : Passes acts before rest after) {fd : Fd} (hfd : fd ∉ rest.map (·.fd)) : ended acts fd = false := by
  by_contra hend
  have hmem := mem_reads_of_ended (Bool.eq_true_of_not_eq_false hend)
  rw [h.reads] at hmem
  exact hfd (served_mem hmem)

theorem idle (hr : ready x = false) (hx : x.fd ∉ rest.map (·.fd)) (h : Passes acts (before ++ [x]) rest after) :
    Passes acts before (x :: rest) after where
  reads := by rw [h.reads, served, if_neg (by simp [hr])]
  left := by
    rw [h.left, List.filter_cons_of_pos (by simp [h.goes hx]), List.append_assoc, List.singleton_append]

theorem frame {buff : Bytes} (hr : ready x = true) (hne : buff ≠ []) (hx : x.fd ∉ rest.map (·.fd))
    (h : Passes acts (before ++ [x]) rest after) : Passes (.recv x.fd buff :: acts) before (x :: rest) after := by
  have hsame : ended (.recv x.fd buff :: acts) = ended acts := by
    funext fd
    simp [ended, hne.symm]
  have hread : readsOf (.recv x.fd buff :: acts) = x.fd :: readsOf acts := rfl
  constructor
  · rw [hsame, hread, h.reads, served, if_pos hr, h.goes hx]
  · rw [hsame, h.left, List.filter_cons_of_pos (by simp [h.goes hx]), List.append_assoc, List.singleton_append]

/-- An entry whose connection has ended: the one behind it takes its place, and the index goes past it. -/
theorem closed (line : Bytes) (hr : ready x = true) (hnd : ((x :: rest).map (·.fd)).Nodup)
    (h : Passes acts (before ++ rest.take 1) (rest.drop 1) after) :
    Passes (.recv x.fd [] :: .close x.fd :: .cout line :: acts) before (x :: rest) after := by
  rw [List.map_cons, List.nodup_cons] at hnd
  have hends : ended (.recv x.fd [] :: .close x.fd :: .cout line :: acts) x.fd = true := by simp [ended]
  have hrest : ∀ y ∈ rest, ended (.recv x.fd [] :: .close x.fd :: .cout line :: acts) y.fd = ended acts y.fd := by
    intro y hy
    have hne : y.fd ≠ x.fd := fun h => hnd.1 (h ▸ List.mem_map_of_mem hy)
    simp [ended, hne]
  have hread : readsOf (.recv x.fd [] :: .close x.fd :: .cout line :: acts) = x.fd :: readsOf acts := rfl
  have hfilter : rest.filter (fun y => !ended (.recv x.fd [] :: .close x.fd :: .cout line :: acts) y.fd) =
      rest.filter (fun y => !ended acts y.fd) := List.filter_congr fun y hy => by rw [hrest y hy]
  refine ⟨?_, ?_⟩
  · rw [hread, h.reads, served, if_pos hr, hends, served_congr true hrest]
    cases rest with
    | nil => rfl
    | cons y rest => rfl
  · rw [h.left, List.filter_cons_of_neg (by simp [hends]), hfilter]
    cases rest with
    | nil => simp
    | cons y rest =>
      rw [List.map_cons, List.nodup_cons] at hnd
      have hgoes := h.goes hnd.2.1
      simp [hgoes]

theorem first (h : Passes acts before (x :: rest) after) (hr : ready x = true) : x.fd ∈ readsOf acts := by
  rw [h.reads, served, if_pos hr]
  exact List.mem_cons_self

theorem behind {y : Pollfd} {a b : List Pollfd} (h : Passes acts before (a ++ x :: y :: b) after)
    (hnd : ((a ++ x :: y :: b).map (·.fd)).Nodup) (hy : ready y = true) :
    y.fd ∈ readsOf acts ↔ ended acts x.fd = false := by
  have hx := served_behind (ended acts) hy false hnd
  rw [← h.reads] at hx
  rw [hx]
  constructor
  · exact fun hread => Bool.eq_false_of_not_eq_true fun hend => hread ⟨mem_reads_of_ended hend, hend⟩
  · exact fun hgoes hread => by simp [hgoes] at hread

end Passes

theorem loop_pass {host : Host} : ∀ {tr : List (Event × List Act)} {p q : Proc} {i : Nat}, p.Inv →
    p.server.pc = .clients i → Lts.Run (Proc.Step host) p tr q → (∀ e ∈ tr, e.1.inLoop = true) → q.server.pc = .poll →
    Passes (actsOf tr) (p.server.pollStruct.live.take i) (p.server.pollStruct.live.drop i) q.server.pollStruct.live ∧
      tr.length ≤ (p.server.pollStruct.live.drop i).length + 1
  | [], p, q, i, _, hpc, hrun, _, hq => by
    rw [hrun.of_nil, hpc] at hq
    cases hq
  | e :: tr, p, q, i, hp, hpc, hrun, hloop, hq => by
    obtain ⟨p₁, hstep, hrun⟩ := hrun.uncons
    obtain ⟨hi, -, hp₁⟩ := hstep.move hp
    have h3 : 3 ≤ i := by
      have := hi.loop
      rwa [hpc] at this
    have hloop' : ∀ e ∈ tr, e.1.inLoop = true := fun x hx => hloop x (List.mem_cons_of_mem _ hx)
    have hserver : p.server.clientStep host i e.1 = some (p₁.server, e.2) := by
      have hs := hstep.step
      have hin := hloop e List.mem_cons_self
      cases hev : e.1 with
      | recv buff ok => simpa [Server.step, hpc, hev] using hs
      | next => simpa [Server.step, hpc, hev] using hs
      | _ => rw [hev] at hin; cases hin
    have hnd : (p.server.pollStruct.live.map (·.fd)).Nodup := hi.nodup
    rw [actsOf_cons]
    rcases clientStep_cases hi h3 hserver with ⟨hnone, hacts, hpc₁, hlive⟩ | ⟨x, hx, hpc₁, hcase⟩
    · -- behind the last entry the loop is left
      have htr : tr = [] := by
        cases tr with
        | nil => rfl
        | cons e' tr =>
          obtain ⟨p₂, hstep', -⟩ := hrun.uncons
          have hs := hstep'.step
          rw [step_poll_inLoop hpc₁ (hloop' e' List.mem_cons_self)] at hs
          cases hs
      subst htr
      have hle : p.server.pollStruct.live.length ≤ i := List.getElem?_eq_none_iff.1 hnone
      rw [hrun.of_nil, hlive, hacts, List.drop_eq_nil_of_le hle, List.take_of_length_le hle]
      exact ⟨⟨rfl, (List.append_nil _).symm⟩, Nat.le_refl 1⟩
    obtain ⟨hilt, hxi⟩ := List.getElem?_eq_some_iff.1 hx
    obtain ⟨hpass, hcount⟩ := loop_pass hp₁ hpc₁ hrun hloop' hq
    generalize p.server.pollStruct.live = live at *
    have hdrop : live.drop i = x :: live.drop (i + 1) := by rw [List.drop_eq_getElem_cons hilt, hxi]
    have htake : live.take (i + 1) = live.take i ++ [x] := by rw [List.take_succ_eq_append_getElem hilt, hxi]
    have hnd := hnd.sublist ((List.drop_sublist i live).map (·.fd))
    rw [hdrop] at hnd ⊢
    have hapart : x.fd ∉ (live.drop (i + 1)).map (·.fd) := (List.nodup_cons.1 hnd).1
    rcases hcase with ⟨hr, hacts, hlive⟩ | ⟨hr, ⟨buff, hne, hacts⟩, hlive⟩ | ⟨hr, ⟨line, hacts⟩, hlive⟩
    · rw [hlive, htake] at hpass
      rw [hlive] at hcount
      rw [hacts]
      exact ⟨hpass.idle hr hapart, by simpa using hcount⟩
    · rw [hlive, htake] at hpass
      rw [hlive] at hcount
      rw [hacts]
      exact ⟨hpass.frame hr hne hapart, by simpa using hcount⟩
    · have hlen : (live.take i).length = i := by
        rw [List.length_take]
        omega
      have hback : (live.take i ++ live.drop (i + 1)).drop (i + 1) = (live.drop (i + 1)).drop 1 ∧
          (live.take i ++ live.drop (i + 1)).take (i + 1) = live.take i ++ (live.drop (i + 1)).take 1 := by
        rw [List.drop_append, List.take_append, hlen, List.drop_eq_nil_of_le (by omega),
          List.take_of_length_le (by omega), Nat.add_sub_cancel_left]
        exact ⟨rfl, rfl⟩
      rw [hlive, hback.1] at hcount
      rw [hlive, hback.1, hback.2] at hpass
      rw [hacts]
      refine ⟨hpass.closed line hr hnd, ?_⟩
      rw [List.length_drop] at hcount
      simp only [List.length_cons]
      omega

def Server.clients (srv : Server) : List Pollfd := srv.pollStruct.live.drop 3

theorem clientFds_eq (srv : Server) : srv.clientFds = srv.clients.map (·.fd) := by
  rw [Server.clientFds, Server.fds, Server.clients, List.map_drop]

theorem nodup_clients {srv : Server} (hi : srv.Inv) : (srv.clients.map (·.fd)).Nodup := by
  rw [← clientFds_eq]
  exact hi.nodup.sublist (List.drop_sublist 3 _)

theorem Passes.clientFds {srv srv' : Server} {acts : List Act} (hi : srv.Inv)
    (h : Passes acts (srv.pollStruct.live.take 3) srv.clients srv'.pollStruct.live) :
    srv'.clientFds = srv.clientFds.filter fun fd => !ended acts fd := by
  have htake : (srv.pollStruct.live.take 3).length = 3 := by
    have hlen := hi.three
    rw [Server.fds, List.length_map] at hlen
    rw [List.length_take]
    omega
  have hclients : srv'.clients = srv.clients.filter fun x => !ended acts x.fd := by
    rw [Server.clients, h.left]
    exact List.drop_left' htake
  rw [clientFds_eq, clientFds_eq, hclients, List.filter_map]
  rfl

/-- **What a whole pass reads**: the clients that `poll` has found ready, in the order of the array and each at most once,
but for an entry right behind one whose connection has just ended; those that have not ended are left, in their order;
and the pass ends after as many rounds as there are clients, and one. -/
theorem pass_exact {host : Host} {p₀ p q : Proc} {tr pass : List (Event × List Act)} (h₀ : p₀.Start host)
    (hrun : Lts.Run (Proc.Step host) p₀ tr p) (hpc : p.server.pc = .clients 3)
    (hpass : Lts.Run (Proc.Step host) p pass q) (hloop : ∀ e ∈ pass, e.1.inLoop = true) (hq : q.server.pc = .poll) :
    readsOf (actsOf pass) = served (ended (actsOf pass)) false p.server.clients ∧ (readsOf (actsOf pass)).Nodup ∧
      q.server.clientFds = p.server.clientFds.filter (fun fd => !ended (actsOf pass) fd) ∧
      pass.length ≤ p.server.clientFds.length + 1 ∧
      (∀ y b, p.server.clients = y :: b → ready y = true → y.fd ∈ readsOf (actsOf pass)) ∧
      ∀ a x y b, p.server.clients = a ++ x :: y :: b → ready y = true →
        (y.fd ∈ readsOf (actsOf pass) ↔ ended (actsOf pass) x.fd = false) := by
  have hp := run_inv h₀ hrun
  obtain ⟨hi, -⟩ := hp.resolve_left (by rw [hpc]; decide)
  obtain ⟨hpasses, hcount⟩ := loop_pass hp hpc hpass hloop hq
  rw [← Server.clients] at hpasses hcount
  have hnd := nodup_clients hi
  refine ⟨hpasses.reads, ?_, hpasses.clientFds hi, ?_, fun y b hl hy => ?_, fun a x y b hl hy => ?_⟩
  · rw [hpasses.reads]
    exact hnd.sublist (served_sublist _ _ _)
  · rwa [clientFds_eq, List.length_map]
  · rw [hl] at hpasses
    exact hpasses.first hy
  · rw [hl] at hpasses hnd
    exact hpasses.behind hnd hy

theorem pass_exact_skips : ∃ (p : Proc) (pass : List (Event × List Act)),
    p.server.clients = [⟨5, pollin, 1⟩, ⟨6, pollin, 1⟩] ∧ readsOf (actsOf pass) = [5] ∧
      readsOf (actsOf pass) = served (ended (actsOf pass)) false p.server.clients := by
  have hrun : ((Proc.boot exactHost 3 4).bind fun p₀ => (Lts.exec (Proc.next exactHost) p₀
      [.poll (some [0, 1, 0]), .accept (some ⟨5, ⟨(127, 0, 0, 1), (0, 9)⟩, true, true, ⟨[97], by decide⟩⟩),
        .poll (some [0, 1, 0, 0]), .accept (some ⟨6, ⟨(127, 0, 0, 1), (0, 9)⟩, true, true, ⟨[98], by decide⟩⟩),
        .poll (some [0, 0, 0, 1, 1])]).bind fun r =>
      (Lts.exec (Proc.next exactHost) r.2 [.recv ⟨[], by decide⟩ true, .next]).map fun s =>
        (r.2.server.pc, r.2.server.clients, s.2.server.pc, s.1.all (·.1.inLoop), readsOf (actsOf s.1))) =
          some (.clients 3, [⟨5, pollin, 1⟩, ⟨6, pollin, 1⟩], .poll, true, [5]) := by
    decide +kernel
  obtain ⟨p₀, hboot, hrun⟩ := Option.bind_eq_some_iff.1 hrun
  obtain ⟨⟨tr, p⟩, hexec, hrun⟩ := Option.bind_eq_some_iff.1 hrun
  obtain ⟨⟨pass, q⟩, hexec', hpq⟩ := Option.map_eq_some_iff.1 hrun
  simp only [Prod.mk.injEq, List.all_eq_true] at hpq
  obtain ⟨hpc, hclients, hq, hloop, hreads⟩ := hpq
  exact ⟨p, pass, hclients, hreads, (pass_exact ⟨3, 4, by decide, by decide, by decide, hboot⟩
    (Lts.exec_run Proc.next_step .nil hexec) hpc (Lts.exec_run Proc.next_step .nil hexec') hloop hq).1⟩

/-! ## Nobody waits for ever -/

/-- `k` passes of the client loop that had found the client ready did not read it, and nothing else did. -/
inductive Waits (host : Host) (fd : Fd) (p : Proc) : Nat → Proc → Prop
  | start : Waits host fd p 0 p
  | step {k : Nat} {q r : Proc} {e : Event × List Act} : Waits host fd p k q → q.Step host e r →
      fd ∉ readsOf e.2 → Waits host fd p k r
  | pass {k : Nat} {q q₁ r : Proc} {revents : List UInt16} {pass : List (Event × List Act)} : Waits host fd p k q →
      q.Step host (.poll (some revents), []) q₁ → q₁.server.pc = .clients 3 →
        (∃ x ∈ q₁.server.clients, x.fd = fd ∧ ready x = true) →
      Lts.Run (Proc.Step host) q₁ pass r → (∀ e ∈ pass, e.1.inLoop = true) → r.server.pc = .poll →
      fd ∉ readsOf (actsOf pass) → Waits host fd p (k + 1) r

/-- The client is in the array, at most `n` others before it. -/
def Server.Within (srv : Server) (fd : Fd) (n : Nat) : Prop :=
  ∃ before after, srv.clientFds = before ++ fd :: after ∧ before.length ≤ n

theorem within_delete {a b before after : List Fd} {x fd : Fd} (hne : x ≠ fd) (h : a ++ x :: b = before ++ fd :: after) :
    ∃ before' after', a ++ b = before' ++ fd :: after' ∧ before'.length ≤ before.length := by
  rcases List.append_eq_append_iff.1 h with ⟨c, rfl, hc⟩ | ⟨c, rfl, hc⟩
  · cases c with
    | nil => exact absurd (List.cons.inj hc).1 hne
    | cons y c =>
      obtain ⟨rfl, rfl⟩ := List.cons.inj hc
      exact ⟨a ++ c, after, by simp, by simp⟩
  · cases c with
    | nil => exact absurd (List.cons.inj hc).1.symm hne
    | cons y c =>
      obtain ⟨rfl, rfl⟩ := List.cons.inj hc
      exact ⟨before, c ++ b, by simp, Nat.le_refl _⟩

/-- **No step moves a client back** but the one that reads it. -/
theorem Move.within {host : Host} {srv srv' : Server} {ev : Event} {acts : List Act} {fd : Fd} {n : Nat} (hi : srv.Inv)
    (hm : Move host srv ev acts srv') (hread : fd ∉ readsOf acts) (h : srv.Within fd n) :
    srv'.pc = .exited ∨ srv'.Within fd n := by
  obtain ⟨before, after, hsplit, hn⟩ := h
  have hsame : srv'.fds = srv.fds → srv'.Within fd n := fun hfds =>
    ⟨before, after, (clientFds_congr hfds).trans hsplit, hn⟩
  cases hm with
  | exit hexit => exact Or.inl hexit
  | quiet _ _ hfds => exact Or.inr (hsame hfds)
  | dropped _ _ _ hfds => exact Or.inr (hsame hfds)
  | refused _ _ _ hfds => exact Or.inr (hsame hfds)
  | @login c _ _ _ _ _ _ hfds =>
    refine Or.inr ⟨before, after ++ [c.connfd], ?_, hn⟩
    rw [clientFds_append hfds hi.three, ← Server.clientFds, hsplit]
    simp
  | datagram _ _ hfds => exact Or.inr (hsame hfds)
  | @logout _ _ x _ _ a b _ _ _ _ hfds ha _ _ _ hfds' =>
    have hne : x ≠ fd := by
      rintro rfl
      exact hread (mem_readsOf.2 ⟨[], List.mem_cons_self⟩)
    rw [clientFds_append hfds ha] at hsplit
    obtain ⟨before', after', hleft, hle⟩ := within_delete hne hsplit
    exact Or.inr ⟨before', after', (clientFds_append hfds' ha).trans hleft, hle.trans hn⟩
  | ignored _ _ _ _ _ hfds => exact Or.inr (hsame hfds)
  | command _ _ _ _ _ _ _ hp => exact Or.inr (hsame (by rw [Server.fds, hp, Server.fds]))

/-- **A pass that does not read a ready client moves it to the front**: the entry before it was deleted. -/
theorem Passes.within {srv srv' : Server} {acts : List Act} {fd : Fd} {n : Nat} (hi : srv.Inv)
    (h : Passes acts (srv.pollStruct.live.take 3) srv.clients srv'.pollStruct.live)
    (hready : ∃ x ∈ srv.clients, x.fd = fd ∧ ready x = true) (hread : fd ∉ readsOf acts) (hw : srv.Within fd n) :
    0 < n ∧ srv'.Within fd (n - 1) := by
  obtain ⟨before, after, hsplit, hn⟩ := hw
  obtain ⟨y, hy, hyfd, hr⟩ := hready
  have hnd := nodup_clients hi
  obtain ⟨a, l, hclients, rfl, hl⟩ := List.map_eq_append_iff.1 (clientFds_eq srv ▸ hsplit)
  obtain ⟨z, b, rfl, hzfd, rfl⟩ := List.map_eq_cons_iff.1 hl
  have hz : z ∈ srv.clients := hclients ▸ List.mem_append_right _ List.mem_cons_self
  obtain rfl : z = y := List.inj_on_of_nodup_map hnd hz hy (hzfd.trans hyfd.symm)
  have hleft := h.clientFds hi
  rw [hclients] at h hnd
  rw [hsplit] at hleft
  rcases List.eq_nil_or_concat a with rfl | ⟨a, x, rfl⟩
  · -- the first client is always read
    exact absurd (hzfd ▸ h.first hr) hread
  · rw [List.concat_eq_append] at h hnd hleft hn
    rw [List.append_assoc, List.singleton_append] at h hnd
    have hbehind := h.behind hnd hr
    rw [hzfd] at hbehind
    have hend : ended acts x.fd = true := Bool.eq_true_of_not_eq_false (mt hbehind.2 hread)
    have hgoes : ended acts fd = false := by
      by_contra hfd
      exact hread (mem_reads_of_ended (Bool.eq_true_of_not_eq_false hfd))
    simp only [List.map_append, List.length_append, List.map_cons, List.map_nil, List.length_cons, List.length_nil] at hn
    refine ⟨by omega, (a.map (·.fd)).filter fun fd => !ended acts fd,
      (b.map (·.fd)).filter fun fd => !ended acts fd, ?_, ?_⟩
    · rw [hleft]
      simp [hend, hgoes]
    · have := List.length_filter_le (fun fd => !ended acts fd) (a.map (·.fd))
      rw [List.length_map] at this hn
      omega

/-- **A client that stays ready is read in time**: no more passes of the client loop that find it ready miss it than there
are clients before it in the array, whatever else happens meanwhile. -/
theorem bounded_wait {host : Host} {p₀ p q : Proc} {tr : List (Event × List Act)} {fd : Fd} {before after : List Fd}
    {k : Nat} (h₀ : p₀.Start host) (hrun : Lts.Run (Proc.Step host) p₀ tr p)
    (hclients : p.server.clientFds = before ++ fd :: after) (hw : Waits host fd p k q) : k ≤ before.length := by
  suffices h : q.Inv ∧ ∃ m, k + m ≤ before.length ∧ (q.server.pc = .exited ∨ q.server.Within fd m) by
    obtain ⟨-, m, hk, -⟩ := h
    omega
  induction hw with
  | start => exact ⟨run_inv h₀ hrun, before.length, by omega, Or.inr ⟨before, after, hclients, Nat.le_refl _⟩⟩
  | step _ hstep hread ih =>
    obtain ⟨hq, m, hk, hwithin⟩ := ih
    obtain ⟨hi, hmove, hr⟩ := hstep.move hq
    have hrunning := hwithin.resolve_left fun hexit => absurd hi.loop (by simp [hexit, Pc.Ok])
    exact ⟨hr, m, hk, hmove.within hi hread hrunning⟩
  | @pass k q q₁ r revents pass _ hstep hpc hready hpass hloop hpoll hread ih =>
    obtain ⟨hq, m, hk, hwithin⟩ := ih
    obtain ⟨hi, hmove, hq₁⟩ := hstep.move hq
    have hrunning := hwithin.resolve_left fun hexit => absurd hi.loop (by simp [hexit, Pc.Ok])
    obtain ⟨hi₁, -⟩ := hq₁.resolve_left (by rw [hpc]; decide)
    have hwithin₁ := (hmove.within hi (by simp [readsOf]) hrunning).resolve_left (by rw [hpc]; decide)
    obtain ⟨hpos, hnext⟩ := (loop_pass hq₁ hpc hpass hloop hpoll).1.within hi₁ hready hread hwithin₁
    have hr : r.Inv := hpass.invariant hq₁ fun _ _ _ hp h => (h.move hp).2.2
    exact ⟨hr, m - 1, by omega, Or.inr hnext⟩

theorem bounded_wait_skipped : ∃ p q : Proc, p.server.clientFds = [5] ++ [6] ∧ Waits exactHost 6 p 1 q ∧
    1 ≤ [(5 : Fd)].length := by
  have hrun : ((Proc.boot exactHost 3 4).bind fun p₀ => (Lts.exec (Proc.next exactHost) p₀
      [.poll (some [0, 1, 0]), .accept (some ⟨5, ⟨(127, 0, 0, 1), (0, 9)⟩, true, true, ⟨[97], by decide⟩⟩),
        .poll (some [0, 1, 0, 0]), .accept (some ⟨6, ⟨(127, 0, 0, 1), (0, 9)⟩, true, true, ⟨[98], by decide⟩⟩)]).bind
      fun r => (r.2.next exactHost (.poll (some [0, 0, 0, 1, 1]))).bind fun s =>
        (Lts.exec (Proc.next exactHost) s.2 [.recv ⟨[], by decide⟩ true, .next]).map fun t =>
          (decide (r.2.server.clientFds = [5, 6] ∧ s.1.2 = [] ∧ s.2.server.pc = .clients 3) &&
            decide (s.2.server.clients = [⟨5, pollin, 1⟩, ⟨6, pollin, 1⟩]) && decide (t.2.server.pc = .poll) &&
            t.1.all (·.1.inLoop) && decide (readsOf (actsOf t.1) = [5]))) = some true := by
    decide +kernel
  obtain ⟨p₀, hboot, hrun⟩ := Option.bind_eq_some_iff.1 hrun
  obtain ⟨⟨tr, p⟩, hexec, hrun⟩ := Option.bind_eq_some_iff.1 hrun
  obtain ⟨⟨⟨ev, acts⟩, q₁⟩, hnext, hrun⟩ := Option.bind_eq_some_iff.1 hrun
  obtain ⟨⟨pass, q⟩, hexec', hpq⟩ := Option.map_eq_some_iff.1 hrun
  simp only [Bool.and_eq_true, decide_eq_true_eq, List.all_eq_true] at hpq
  obtain ⟨⟨⟨⟨⟨hclients, rfl, hpc⟩, hentries⟩, hq⟩, hloop⟩, hreads⟩ := hpq
  have hlabel : ev = _ := Proc.next_label hnext
  have hstep := Proc.next_step p _ _ _ hnext
  rw [hlabel] at hstep
  have hpass : Lts.Run (Proc.Step exactHost) q₁ pass q := Lts.exec_run Proc.next_step .nil hexec'
  have hw : Waits exactHost 6 p 1 q := .pass .start hstep hpc ⟨⟨6, pollin, 1⟩, by rw [hentries]; simp, rfl, by decide⟩
    hpass hloop hq (by rw [hreads]; decide)
  exact ⟨p, q, hclients, hw, bounded_wait ⟨3, 4, by decide, by decide, by decide, hboot⟩
    (Lts.exec_run Proc.next_step .nil hexec) (show p.server.clientFds = [5] ++ 6 :: [] from hclients) hw⟩

end Ts
