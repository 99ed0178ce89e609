import TopicServer.Delivery
import TopicServer.Net
/-!
# Order — no command is lost, doubled or given to another user

The client loop deletes entries of the array it walks, and it finds a user by a descriptor the system may have given out
before.  Neither matters: `Links` ties every descriptor in use to one connection, and every active user to the last of
its sessions, so a frame that is taken belongs to the session whose user the server finds.  `commands_exact` reads the
lists of all users off the connections.
-/
namespace Ts

open Text (ascii)

namespace Net

/-- **What ties descriptors, connections and sessions.** -/
structure Links (n : Net) : Prop where
  bound : ∀ fd, fd ∈ n.server.clientFds ↔ ∃ k, n.onFd.lookup fd = some k
  single : ∀ fd fd' k, n.onFd.lookup fd = some k → n.onFd.lookup fd' = some k → fd = fd'
  known : ∀ fd k, n.onFd.lookup fd = some k → k < n.conns.length
  waiting : ∀ k ∈ n.backlog, (∀ fd, n.onFd.lookup fd ≠ some k) ∧ (∀ u, (u, k) ∉ n.sessions) ∧
    ∃ conn, n.conns[k]? = some conn ∧ conn.chan.read = []
  queued : n.backlog.Nodup
  once : (n.sessions.map (·.2)).Nodup
  begun : ∀ s ∈ n.sessions, ∃ conn m rest, n.conns[s.2]? = some conn ∧ conn.chan.read = m :: rest ∧ m.1 = s.1
  current : ∀ fd u k, n.server.fdsToUsers.lookup fd = some u → n.onFd.lookup fd = some k →
    ∃ pre, n.sessionsOf u = pre ++ [k]

/-- **Every user's list is what its sessions gave**, in the order of the logins. -/
def Exact (n : Net) : Prop :=
  ∀ u, (n.server.subscriptionsOf u).map (·.command) = (n.sessionsOf u).flatMap n.commandsOf

theorem mem_sessionsOf {n : Net} {u : Bytes} {k : Nat} : k ∈ n.sessionsOf u ↔ (u, k) ∈ n.sessions := by
  simp only [sessionsOf, List.mem_filterMap, Option.ite_none_right_eq_some, Option.some.injEq]
  constructor
  · rintro ⟨⟨v, j⟩, hmem, rfl, rfl⟩
    exact hmem
  · exact fun h => ⟨(u, k), h, rfl, rfl⟩

theorem sessionsOf_congr {n n' : Net} (h : n'.sessions = n.sessions) : n'.sessionsOf = n.sessionsOf := by
  funext u
  unfold sessionsOf
  rw [h]

theorem sessionsOf_append {n n' : Net} {l : List (Bytes × Nat)} (h : n'.sessions = n.sessions ++ l) (u : Bytes) :
    n'.sessionsOf u = n.sessionsOf u ++ l.filterMap fun s => if s.1 = u then some s.2 else none := by
  unfold sessionsOf
  rw [h, List.filterMap_append]

theorem commandsOf_congr {n n' : Net} {k : Nat} (h : (n'.conns[k]?).map (·.chan.read) = (n.conns[k]?).map (·.chan.read)) :
    n'.commandsOf k = n.commandsOf k := by
  have htail : ∀ m : Net, m.framesOf k = (((m.conns[k]?).map (·.chan.read)).map List.tail).getD [] := fun m => by
    rw [framesOf, Option.map_map]
    rfl
  rw [commandsOf, htail, h, commandsOf, htail]

theorem commandsOf_read {n n' : Net} {k : Nat} {conn conn' : Conn} {m : Frame} (hk : n.conns[k]? = some conn)
    (hread : conn'.chan.read = conn.chan.read ++ [m]) (hne : conn.chan.read ≠ [])
    (hset : n'.conns = n.conns.set k conn') : n'.commandsOf k = n.commandsOf k ++ (commandOf m.1).toList := by
  have hk' : n'.conns[k]? = some conn' := by
    rw [hset, List.getElem?_set_self (List.getElem?_eq_some_iff.1 hk).1]
  have htail : conn'.chan.read.tail = conn.chan.read.tail ++ [m] := by
    rw [hread, List.tail_append_of_ne_nil hne]
  simp only [commandsOf, framesOf, hk, hk', Option.map_some, Option.getD_some, htail, List.filterMap_append]
  cases hc : commandOf m.1 <;> simp [hc]

/-! ## What keeps the links -/

theorem Links.mono {n n' : Net} (h : n.Links) (hbound : ∀ fd, fd ∈ n'.server.clientFds ↔ ∃ k, n'.onFd.lookup fd = some k)
    (hbind : ∀ fd k, n'.onFd.lookup fd = some k → n.onFd.lookup fd = some k)
    (husers : ∀ fd u, n'.server.fdsToUsers.lookup fd = some u → n.server.fdsToUsers.lookup fd = some u)
    (hback : n'.backlog.Sublist n.backlog) (hsess : n'.sessions = n.sessions)
    (hlen : n.conns.length ≤ n'.conns.length)
    (hread : ∀ k conn, n.conns[k]? = some conn → ∃ conn', n'.conns[k]? = some conn' ∧
      (conn'.chan.read = conn.chan.read ∨ k ∉ n'.backlog ∧ ∃ m, conn'.chan.read = conn.chan.read ++ [m])) : n'.Links where
  bound := hbound
  single := fun fd fd' k hk hk' => h.single fd fd' k (hbind _ _ hk) (hbind _ _ hk')
  known := fun fd k hk => (h.known fd k (hbind _ _ hk)).trans_le hlen
  waiting := fun k hk => by
    obtain ⟨hfree, hnew, conn, hconn, hnil⟩ := h.waiting k (hback.subset hk)
    refine ⟨fun fd hb => hfree fd (hbind fd k hb), fun u hu => hnew u (hsess ▸ hu), ?_⟩
    obtain ⟨conn', hconn', hsame | ⟨hnot, -⟩⟩ := hread k conn hconn
    · exact ⟨conn', hconn', hsame.trans hnil⟩
    · exact absurd hk hnot
  queued := h.queued.sublist hback
  once := hsess ▸ h.once
  begun := fun s hs => by
    rw [hsess] at hs
    obtain ⟨conn, m, rest, hconn, hfirst, hm⟩ := h.begun s hs
    obtain ⟨conn', hconn', hsame | ⟨-, x, hmore⟩⟩ := hread s.2 conn hconn
    · exact ⟨conn', m, rest, hconn', hsame.trans hfirst, hm⟩
    · exact ⟨conn', m, rest ++ [x], hconn', by rw [hmore, hfirst, List.cons_append], hm⟩
  current := fun fd u k hu hk => by
    rw [sessionsOf_congr hsess]
    exact h.current fd u k (husers fd u hu) (hbind fd k hk)

theorem Exact.of_same {n n' : Net} (h : n.Exact) (hs : ∀ u, n'.server.subscriptionsOf u = n.server.subscriptionsOf u)
    (hsess : n'.sessions = n.sessions) (hcmd : ∀ s ∈ n.sessions, n'.commandsOf s.2 = n.commandsOf s.2) : n'.Exact := by
  intro u
  rw [hs, h u, sessionsOf_congr hsess]
  exact List.flatMap_congr fun k hk => (hcmd (u, k) (mem_sessionsOf.1 hk)).symm

theorem read_set {n n' : Net} {k : Nat} {conn conn' : Conn} (hk : n.conns[k]? = some conn)
    (hset : n'.conns = n.conns.set k conn')
    (hread : conn'.chan.read = conn.chan.read ∨ k ∉ n'.backlog ∧ ∃ m, conn'.chan.read = conn.chan.read ++ [m])
    (j : Nat) (c : Conn) (hj : n.conns[j]? = some c) : ∃ c', n'.conns[j]? = some c' ∧
      (c'.chan.read = c.chan.read ∨ j ∉ n'.backlog ∧ ∃ m, c'.chan.read = c.chan.read ++ [m]) := by
  by_cases hjk : j = k
  · subst hjk
    obtain rfl := Option.some.inj (hj.symm.trans hk)
    exact ⟨conn', by rw [hset, List.getElem?_set_self (List.getElem?_eq_some_iff.1 hk).1], hread⟩
  · exact ⟨c, by rw [hset, List.getElem?_set_ne (Ne.symm hjk), hj], Or.inl rfl⟩

theorem commandsOf_set {n n' : Net} {k j : Nat} {conn' : Conn} (hset : n'.conns = n.conns.set k conn') (hjk : j ≠ k) :
    n'.commandsOf j = n.commandsOf j := by
  apply commandsOf_congr
  rw [hset, List.getElem?_set_ne (Ne.symm hjk)]

theorem Links.apart {n : Net} (h : n.Links) {u v : Bytes} {k : Nat} (hu : (u, k) ∈ n.sessions)
    (hv : (v, k) ∈ n.sessions) : u = v :=
  (Prod.mk.inj (List.inj_on_of_nodup_map h.once hu hv rfl)).1

theorem Links.nodup_sessionsOf {n : Net} (h : n.Links) (u : Bytes) : (n.sessionsOf u).Nodup := by
  apply (List.Nodup.of_map _ h.once).filterMap
  rintro ⟨v, j⟩ ⟨v', j'⟩ k hk hk'
  simp only [Option.mem_def, Option.ite_none_right_eq_some, Option.some.injEq] at hk hk'
  rw [Prod.mk.injEq]
  exact ⟨hk.1.trans hk'.1.symm, hk.2.trans hk'.2.symm⟩

theorem connect_kept {n n' : Net} (h : n.Links) (hn : n' = { n with
    conns := n.conns ++ [⟨.new, n.closedNow⟩], backlog := n.backlog ++ [n.conns.length] }) :
    n'.Links ∧ (n.Exact → n'.Exact) := by
  have hold : ∀ {j : Nat} {c : Conn}, n.conns[j]? = some c → n'.conns[j]? = some c := fun hj => by
    rw [hn]
    exact (List.getElem?_append_left (List.getElem?_eq_some_iff.1 hj).1).trans hj
  have hnone : n.conns[n.conns.length]? = none := List.getElem?_eq_none (Nat.le_refl _)
  have hsame : n'.proc = n.proc ∧ n'.onFd = n.onFd ∧ n'.sessions = n.sessions := by
    rw [hn]
    exact ⟨rfl, rfl, rfl⟩
  obtain ⟨hproc, honFd, hsess⟩ := hsame
  have hback : n'.backlog = n.backlog ++ [n.conns.length] := by rw [hn]
  constructor
  · exact
      { bound := by rw [server, hproc, honFd]; exact h.bound
        single := by rw [honFd]; exact h.single
        known := fun fd k hk => by
          rw [honFd] at hk
          rw [hn, List.length_append]
          exact (h.known fd k hk).trans_le (Nat.le_add_right _ _)
        waiting := fun k hk => by
          rw [honFd, hsess]
          rcases List.mem_append.1 (hback ▸ hk) with hk | hk
          · obtain ⟨hfree, hnew, conn, hconn, hnil⟩ := h.waiting k hk
            exact ⟨hfree, hnew, conn, hold hconn, hnil⟩
          · obtain rfl := List.mem_singleton.1 hk
            refine ⟨fun fd hb => absurd (h.known fd _ hb) (Nat.lt_irrefl _), fun u hu => ?_,
              ⟨.new, n.closedNow⟩, ?_, rfl⟩
            · obtain ⟨conn, -, -, hconn, -⟩ := h.begun _ hu
              exact absurd (hconn.symm.trans hnone) (by simp)
            · rw [hn]
              exact List.getElem?_concat_length
        queued := by
          rw [hback]
          apply h.queued.append (List.nodup_singleton _)
          intro k hk hk'
          obtain rfl := List.mem_singleton.1 hk'
          obtain ⟨-, -, conn, hconn, -⟩ := h.waiting _ hk
          exact absurd (hconn.symm.trans hnone) (by simp)
        once := hsess ▸ h.once
        begun := fun s hs => by
          obtain ⟨conn, m, rest, hconn, hfirst⟩ := h.begun s (hsess ▸ hs)
          exact ⟨conn, m, rest, hold hconn, hfirst⟩
        current := by
          rw [server, hproc, honFd, sessionsOf_congr hsess]
          exact h.current }
  · intro he
    apply he.of_same (fun u => by rw [server, hproc]) hsess
    intro s hs
    obtain ⟨conn, -, -, hconn, -⟩ := h.begun s hs
    apply commandsOf_congr
    rw [hold hconn, hconn]

theorem peer_kept {n n' : Net} {k : Nat} {conn conn' : Conn} (h : n.Links) (hk : n.conns[k]? = some conn)
    (hread : conn'.chan.read = conn.chan.read) (hn : n' = { n with conns := n.conns.set k conn' }) :
    n'.Links ∧ (n.Exact → n'.Exact) := by
  subst hn
  constructor
  · exact h.mono h.bound (fun _ _ h => h) (fun _ _ h => h) (List.Sublist.refl _) rfl
      (List.length_set ..).ge (read_set hk rfl (Or.inl hread))
  · intro he
    refine he.of_same (fun _ => rfl) rfl (fun s _ => ?_)
    apply commandsOf_congr
    by_cases hsk : s.2 = k
    · rw [hsk]
      simp [List.getElem?_set_self (List.getElem?_eq_some_iff.1 hk).1, hk, hread]
    · simp [List.getElem?_set_ne (Ne.symm hsk)]

theorem same_kept {n n' : Net} (h : n.Links) (hconns : n'.conns = n.conns)
    (hback : n'.backlog.Sublist n.backlog) (hsess : n'.sessions = n.sessions)
    (hbound : ∀ fd, fd ∈ n'.server.clientFds ↔ ∃ k, n'.onFd.lookup fd = some k)
    (hbind : ∀ fd k, n'.onFd.lookup fd = some k → n.onFd.lookup fd = some k)
    (husers : ∀ fd u, n'.server.fdsToUsers.lookup fd = some u → n.server.fdsToUsers.lookup fd = some u)
    (hsubs : ∀ u, n'.server.subscriptionsOf u = n.server.subscriptionsOf u) : n'.Links ∧ (n.Exact → n'.Exact) := by
  constructor
  · exact h.mono hbound hbind husers hback hsess (by rw [hconns])
      (fun k conn hk => ⟨conn, by rw [hconns, hk], Or.inl rfl⟩)
  · exact fun he => he.of_same hsubs hsess (fun s _ => commandsOf_congr (by rw [hconns]))

theorem frame_kept {n n' : Net} {fd : Fd} {u : Bytes} {k : Nat} {conn conn' : Conn} {m : Frame} {l : List Subscription}
    (h : n.Links) (hu : n.server.fdsToUsers.lookup fd = some u) (hfd : n.onFd.lookup fd = some k)
    (hk : n.conns[k]? = some conn) (hread : conn'.chan.read = conn.chan.read ++ [m])
    (hconns : n'.conns = n.conns.set k conn') (honFd : n'.onFd = n.onFd) (hback : n'.backlog = n.backlog)
    (hsess : n'.sessions = n.sessions) (hfds : n'.server.clientFds = n.server.clientFds)
    (husers : n'.server.fdsToUsers = n.server.fdsToUsers)
    (hsubs : ∀ v, n'.server.subscriptionsOf v = n.server.subscriptionsOf v ++ if v = u then l else []) :
    n'.Links ∧ (l.map (·.command) = (commandOf m.1).toList → n.Exact → n'.Exact) := by
  obtain ⟨pre, hpre⟩ := h.current fd u k hu hfd
  have hmem : (u, k) ∈ n.sessions := mem_sessionsOf.1 (by rw [hpre]; exact List.mem_append_right _ List.mem_cons_self)
  have hnot : k ∉ n.backlog := fun hb => (h.waiting k hb).1 fd hfd
  constructor
  · exact h.mono (by rw [hfds, honFd]; exact h.bound) (by rw [honFd]; exact fun _ _ h => h)
      (by rw [husers]; exact fun _ _ h => h) (by rw [hback]) hsess (by rw [hconns, List.length_set])
      (read_set hk hconns (Or.inr ⟨hback ▸ hnot, m, hread⟩))
  · intro hl he v
    rw [hsubs, List.map_append, he v, sessionsOf_congr hsess]
    by_cases hv : v = u
    · subst hv
      have hfirst : conn.chan.read ≠ [] := by
        obtain ⟨conn₀, m₀, rest, hconn₀, hread₀, -⟩ := h.begun _ hmem
        obtain rfl := Option.some.inj (hconn₀.symm.trans hk)
        rw [hread₀]
        exact List.cons_ne_nil _ _
      have hnd := h.nodup_sessionsOf v
      rw [hpre] at hnd ⊢
      have hothers : pre.flatMap n'.commandsOf = pre.flatMap n.commandsOf :=
        List.flatMap_congr fun j hj => commandsOf_set hconns fun hjk =>
          List.disjoint_of_nodup_append hnd (hjk ▸ hj) List.mem_cons_self
      rw [List.flatMap_append, List.flatMap_append, hothers, List.append_assoc, if_pos rfl, hl]
      simp only [List.flatMap_cons, List.flatMap_nil, List.append_nil, commandsOf_read hk hread hfirst hconns]
    · rw [if_neg hv, List.map_nil, List.append_nil]
      exact List.flatMap_congr fun j hj => (commandsOf_set hconns fun hjk =>
        hv (h.apart (mem_sessionsOf.1 (hjk ▸ hj)) hmem)).symm

theorem login_kept {n n' : Net} {fd : Fd} {u : Bytes} {k : Nat} {rest : List Nat} {conn conn' : Conn} {m : Frame}
    (hi : n.server.Inv) (h : n.Links) (hback : n.backlog = k :: rest) (hk : n.conns[k]? = some conn)
    (hread : conn'.chan.read = conn.chan.read ++ [m]) (hm : m.1 = u)
    (hoff : ∀ e, n.server.userSubscriptions.lookup u = some e → e.active = false)
    (hback' : n'.backlog = rest) (hconns : n'.conns = n.conns.set k conn') (honFd : n'.onFd = n.onFd.insert fd k)
    (hsess : n'.sessions = n.sessions ++ [(u, k)]) (hfds : n'.server.clientFds = n.server.clientFds ++ [fd])
    (husers : n'.server.fdsToUsers = n.server.fdsToUsers.insert fd u)
    (hsubs : ∀ v, n'.server.subscriptionsOf v = n.server.subscriptionsOf v) : n'.Links ∧ (n.Exact → n'.Exact) := by
  obtain ⟨hfree, hnew, conn₀, hconn₀, hnil⟩ := h.waiting k (hback ▸ List.mem_cons_self)
  obtain rfl := Option.some.inj (hconn₀.symm.trans hk)
  have hqueue := h.queued
  rw [hback, List.nodup_cons] at hqueue
  have hself : n'.conns[k]? = some conn' := by
    rw [hconns, List.getElem?_set_self (List.getElem?_eq_some_iff.1 hk).1]
  have hother : ∀ {j : Nat}, j ≠ k → n'.conns[j]? = n.conns[j]? := fun hjk => by
    rw [hconns, List.getElem?_set_ne (Ne.symm hjk)]
  have hlookup : ∀ x, n'.onFd.lookup x = if x = fd then some k else n.onFd.lookup x := fun x => by
    rw [honFd, Table.lookup_insert_if]
  have hof : ∀ v, n'.sessionsOf v = n.sessionsOf v ++ if u = v then [k] else [] := fun v => by
    rw [sessionsOf_append hsess]
    by_cases huv : u = v <;> simp [huv]
  have hbegun : ∀ s ∈ n.sessions, s.2 ≠ k := fun s hs hsk => hnew s.1 (by rw [← hsk]; exact hs)
  constructor
  · exact
      { bound := fun x => by
          rw [hlookup, hfds, List.mem_append, List.mem_singleton, h.bound]
          by_cases hxfd : x = fd <;> simp [hxfd]
        single := fun x y j hx hy => by
          rw [hlookup] at hx hy
          split at hx <;> split at hy
          · rename_i hxfd hyfd
            rw [hxfd, hyfd]
          · exact absurd (Option.some.inj hx ▸ hy) (hfree y)
          · exact absurd (Option.some.inj hy ▸ hx) (hfree x)
          · exact h.single x y j hx hy
        known := fun x j hx => by
          rw [hlookup] at hx
          rw [hconns, List.length_set]
          split at hx
          · exact Option.some.inj hx ▸ (List.getElem?_eq_some_iff.1 hk).1
          · exact h.known x j hx
        waiting := fun j hj => by
          rw [hback'] at hj
          have hjk : j ≠ k := fun hjk => hqueue.1 (hjk ▸ hj)
          obtain ⟨hfree', hnew', c, hc, hcnil⟩ := h.waiting j (hback ▸ List.mem_cons_of_mem _ hj)
          refine ⟨fun x hx => ?_, fun v hv => ?_, c, (hother hjk).trans hc, hcnil⟩
          · rw [hlookup] at hx
            split at hx
            · exact hjk (Option.some.inj hx).symm
            · exact hfree' x hx
          · rw [hsess, List.mem_append, List.mem_singleton] at hv
            rcases hv with hv | hv
            · exact hnew' v hv
            · exact hjk (Prod.mk.inj hv).2
        queued := hback' ▸ hqueue.2
        once := by
          rw [hsess, List.map_append]
          apply h.once.append (List.nodup_singleton _)
          intro j hj hj'
          obtain ⟨s, hs, rfl⟩ := List.mem_map.1 hj
          exact hbegun s hs (List.mem_singleton.1 hj')
        begun := fun s hs => by
          rw [hsess, List.mem_append, List.mem_singleton] at hs
          rcases hs with hs | rfl
          · obtain ⟨c, m', rest', hc, hfirst⟩ := h.begun s hs
            exact ⟨c, m', rest', (hother (hbegun s hs)).trans hc, hfirst⟩
          · exact ⟨conn', m, [], hself, by rw [hread, hnil, List.nil_append], hm⟩
        current := fun x v j hx hj => by
          rw [husers, Table.lookup_insert_if] at hx
          rw [hlookup] at hj
          rw [hof]
          by_cases hxfd : x = fd
          · rw [if_pos hxfd] at hx hj
            rw [if_pos (Option.some.inj hx), Option.some.inj hj]
            exact ⟨_, rfl⟩
          · rw [if_neg hxfd] at hx hj
            have huv : u ≠ v := by
              -- an active user is not the one that logs in
              rintro rfl
              obtain ⟨e, hlook, hact, -⟩ := (hi.binding x u).1 hx
              exact absurd hact (by simp [hoff e hlook])
            rw [if_neg huv, List.append_nil]
            exact h.current x v j hx hj }
  · intro he v
    have hold : (n.sessionsOf v).flatMap n'.commandsOf = (n.sessionsOf v).flatMap n.commandsOf :=
      List.flatMap_congr fun j hj => commandsOf_set hconns (hbegun (v, j) (mem_sessionsOf.1 hj))
    have hnone : n'.commandsOf k = [] := by simp [commandsOf, framesOf, hself, hread, hnil]
    rw [hsubs, he v, hof, List.flatMap_append, hold]
    split
    · simp [hnone]
    · simp

theorem turned_kept {n n' : Net} {fd : Fd} {k : Nat} {rest : List Nat} (h : n.Links)
    (hnew : fd ∉ n.server.clientFds) (hqueue : n.backlog = k :: rest) (hback : n'.backlog = rest)
    (honFd : n'.onFd = (n.onFd.insert fd k).erase fd) (hsess : n'.sessions = n.sessions)
    (hfds : n'.server.fds = n.server.fds) (ht : SameTables n.server n'.server)
    (hconns : n'.conns = n.conns ∨ ∃ conn conn' m, n.conns[k]? = some conn ∧
      conn'.chan.read = conn.chan.read ++ [m] ∧ n'.conns = n.conns.set k conn') :
    n'.Links ∧ (n.Exact → n'.Exact) := by
  have hlookup : ∀ x i, n'.onFd.lookup x = some i ↔ x ≠ fd ∧ n.onFd.lookup x = some i := fun x i => by
    rw [honFd, Table.lookup_erase_eq_some]
    exact and_congr_right fun hx => by rw [Table.lookup_insert_if, if_neg hx]
  have hclient := clientFds_congr hfds
  have hsub : n'.backlog.Sublist n.backlog := by
    rw [hback, hqueue]
    exact List.sublist_cons_self _ _
  have hbind : ∀ x i, n'.onFd.lookup x = some i → n.onFd.lookup x = some i := fun x i hx => ((hlookup x i).1 hx).2
  have hbound : ∀ x, x ∈ n'.server.clientFds ↔ ∃ i, n'.onFd.lookup x = some i := fun x => by
    rw [hclient, h.bound]
    constructor
    · rintro ⟨i, hi⟩
      refine ⟨i, (hlookup x i).2 ⟨?_, hi⟩⟩
      rintro rfl
      exact hnew ((h.bound x).2 ⟨i, hi⟩)
    · exact fun ⟨i, hi⟩ => ⟨i, hbind x i hi⟩
  have husers : ∀ x u, n'.server.fdsToUsers.lookup x = some u → n.server.fdsToUsers.lookup x = some u := by
    rw [ht.fdsToUsers]
    exact fun _ _ h => h
  rcases hconns with hconns | ⟨conn, conn', m, hconn, hread, hset⟩
  · exact same_kept h hconns hsub hsess hbound hbind husers ht.subscriptionsOf
  · have hnot : k ∉ n'.backlog := by
      have := h.queued
      rw [hqueue, List.nodup_cons] at this
      exact hback ▸ this.1
    have hother : ∀ s ∈ n.sessions, s.2 ≠ k := fun s hs hsk =>
      (h.waiting k (hqueue ▸ List.mem_cons_self)).2.1 s.1 (by rw [← hsk]; exact hs)
    constructor
    · exact h.mono hbound hbind husers hsub hsess (by rw [hset, List.length_set])
        (read_set hconn hset (Or.inr ⟨hnot, m, hread⟩))
    · exact fun he => he.of_same ht.subscriptionsOf hsess (fun s hs => commandsOf_set hset (hother s hs))

theorem still_kept {n n' : Net} (h : n.Links) (hconns : n'.conns = n.conns)
    (hback : n'.backlog = n.backlog) (honFd : n'.onFd = n.onFd) (hsess : n'.sessions = n.sessions)
    (hfds : n'.server.fds = n.server.fds) (ht : SameTables n.server n'.server) : n'.Links ∧ (n.Exact → n'.Exact) := by
  have hclient := clientFds_congr hfds
  exact same_kept h hconns (by rw [hback]) hsess (by rw [hclient, honFd]; exact h.bound)
    (by rw [honFd]; exact fun _ _ h => h) (by rw [ht.fdsToUsers]; exact fun _ _ h => h) ht.subscriptionsOf

theorem logout_kept {n n' : Net} {fd : Fd} {a b : List Fd} (hi : n.server.Inv) (h : n.Links)
    (hsplit : n.server.fds = a ++ fd :: b) (ha : 3 ≤ a.length) (hconns : n'.conns = n.conns)
    (hback : n'.backlog = n.backlog) (honFd : n'.onFd = n.onFd.erase fd) (hsess : n'.sessions = n.sessions)
    (hfds : n'.server.fds = a ++ b) (husers : n'.server.fdsToUsers = n.server.fdsToUsers.erase fd)
    (hsubs : ∀ v, n'.server.subscriptionsOf v = n.server.subscriptionsOf v) : n'.Links ∧ (n.Exact → n'.Exact) := by
  have hnd := hi.nodup
  rw [hsplit, List.nodup_middle, List.nodup_cons] at hnd
  have hmem : ∀ x, x ∈ n'.server.clientFds ↔ x ∈ n.server.clientFds ∧ x ≠ fd := fun x => by
    rw [clientFds_append hsplit ha, clientFds_append hfds ha, List.mem_append, List.mem_append, List.mem_cons]
    have ha' : fd ∉ a.drop 3 := fun hx => hnd.1 (List.mem_append_left _ (List.mem_of_mem_drop hx))
    have hb' : fd ∉ b := fun hx => hnd.1 (List.mem_append_right _ hx)
    by_cases hx : x = fd <;> simp [hx, ha', hb']
  refine same_kept h hconns (by rw [hback]) hsess (fun x => ?_) (fun x k hx => ?_) (fun x u hx => ?_) hsubs
  · simp only [honFd, Table.lookup_erase_eq_some, exists_and_left]
    rw [hmem, h.bound, and_comm]
  · rw [honFd] at hx
    exact (Table.lookup_erase_eq_some.1 hx).2
  · rw [husers] at hx
    exact (Table.lookup_erase_eq_some.1 hx).2

theorem server_kept {host : Host} {n n₁ n' : Net} {proc : Proc} {ev : Event} {acts : List Act} (hp : n.proc.Inv)
    (h : n.Links) (hproc : n.proc.Step host (ev, acts) proc) (hfold : acts.foldlM act n = some n₁)
    (hn : n' = { n₁ with proc, sessions := n.sessions ++ n.logins ev acts }) :
    n'.Links ∧ ((∀ buff ok, ev = .recv buff ok → ok = true) → n.Exact → n'.Exact) := by
  subst hn
  obtain ⟨hi, hmove, -⟩ := hproc.move hp
  have hnew : ∀ fd, Act.accept fd ∈ acts → fd ∉ n.server.clientFds := fun fd hfd hmem => by
    rcases hp with hexit | ⟨-, hopen⟩
    · exact absurd hproc.step (by simp [step_exited hexit])
    · exact hproc.fresh fd hfd (hopen fd (List.mem_of_mem_drop hmem))
  cases hmove with
  | exit _ ht hfds hacc =>
    obtain ⟨hconns, hback, hbind⟩ := foldlM_farewell (fun a ha => by
      rcases List.mem_append.1 ha with ha | ha
      · obtain ⟨fd, -, rfl⟩ := List.mem_map.1 ha
        exact Or.inl ⟨fd, _, rfl⟩
      · obtain ⟨fd, -, rfl⟩ := List.mem_map.1 ha
        exact Or.inr ⟨fd, rfl⟩) hfold
    have hnone : proc.server.clientFds = [] := by simp [Server.clientFds, hfds]
    refine And.imp_right (fun he _ => he) (same_kept h hconns (by rw [hback])
      (by simp [logins_none (fun c => hacc (some c))]) (fun fd => ?_) (fun fd k hk => (hbind fd k hk).1) ?_
      ht.subscriptionsOf)
    · constructor
      · exact fun hfd => absurd (hnone ▸ hfd) List.not_mem_nil
      · -- every client's descriptor is closed
        rintro ⟨k, hk⟩
        obtain ⟨hk, hopen⟩ := hbind fd k hk
        have hfd := (h.bound fd).2 ⟨k, hk⟩
        refine absurd (List.mem_append_right _ (List.mem_map_of_mem ?_)) hopen
        exact List.mem_of_mem_drop (i := 2) (by rwa [List.drop_drop])
    · rw [show proc.server.fdsToUsers = _ from ht.fdsToUsers]
      exact fun _ _ h => h
  | quiet _ ht hfds hacc =>
    obtain rfl := Option.some.inj hfold
    exact And.imp_right (fun he _ => he) (still_kept h rfl rfl rfl (by simp [logins_none hacc]) hfds ht)
  | datagram _ ht hfds hbranch =>
    obtain rfl := Option.some.inj ((foldlM_sends n (udpBranch_sends hbranch)).symm.trans hfold)
    exact And.imp_right (fun he _ => he) (still_kept h rfl rfl rfl (by simp [logins_none]) hfds ht)
  | @dropped tail c _ _ ht hfds _ htail =>
    rw [List.foldlM_cons] at hfold
    obtain ⟨n₂, haccept, hfold⟩ := Option.bind_eq_some_iff.1 hfold
    obtain ⟨k, rest, hqueue, rfl⟩ := act_accept haccept
    have hn₁ : n₁ = { n with backlog := rest, onFd := (n.onFd.insert c.connfd k).erase c.connfd } := by
      rcases htail with rfl | rfl
      · exact (Option.some.inj hfold).symm
      · exact (Option.some.inj hfold).symm
    subst hn₁
    exact And.imp_right (fun he _ => he)
      (turned_kept h (hnew _ List.mem_cons_self) hqueue rfl rfl (by simp [logins_closed]) hfds ht (Or.inl rfl))
  | @refused tail c _ _ ht hfds _ htail =>
    obtain ⟨k, rest, conn, n₂, hqueue, hconn, hfold, htake⟩ := foldlM_accept_recv hfold
    have hn₁ : n₁ = { n₂ with onFd := n₂.onFd.erase c.connfd } := by
      rcases htail with ⟨rfl, -⟩ | ⟨rfl, -⟩
      · exact (Option.some.inj hfold).symm
      · exact (Option.some.inj hfold).symm
    subst hn₁
    rcases htake with ⟨-, rfl⟩ | ⟨m, chan, -, hread, rfl⟩
    · exact And.imp_right (fun he _ => he)
        (turned_kept h (hnew _ List.mem_cons_self) hqueue rfl rfl (by simp [logins_closed]) hfds ht (Or.inl rfl))
    · exact And.imp_right (fun he _ => he) (turned_kept h (hnew _ List.mem_cons_self) hqueue rfl rfl
        (by simp [logins_closed]) hfds ht (Or.inr ⟨conn, _, m, hconn, hread, rfl⟩))
  | @login c _ hne _ hoff _ _ hfds _ hsubs husers =>
    obtain ⟨k, rest, conn, n₂, hqueue, hconn, hfold, ⟨hempty, -⟩ | ⟨m, chan, hm, hread, rfl⟩⟩ :=
      foldlM_accept_recv hfold
    · exact absurd hempty hne
    obtain rfl := Option.some.inj hfold
    refine And.imp_right (fun he _ => he)
      (login_kept hi h hqueue hconn hread hm hoff rfl rfl rfl ?_ (clientFds_append hfds hi.three) husers
        (subscriptionsOf_kept hsubs rfl))
    simp [logins, hqueue, Server.newClient]
  | logout _ he hsplit ha _ _ _ hfds _ hsubs husers =>
    rw [List.foldlM_cons] at hfold
    obtain ⟨n₂, hrecv, hfold⟩ := Option.bind_eq_some_iff.1 hfold
    obtain rfl := Option.some.inj hfold
    obtain ⟨-, -, -, -, ⟨-, -, -, hsame⟩ | ⟨m, -, hm, -⟩⟩ := act_recv hrecv
    · subst hsame
      exact And.imp_right (fun he _ => he) (logout_kept hi h hsplit ha rfl rfl rfl (by simp [logins_none]) hfds husers
        (subscriptionsOf_kept hsubs (subscriptionsOf_of_lookup he).symm))
    · exact absurd hm m.2.1
  | @ignored buff ok fd _ hne hfd hnone _ ht hfds =>
    obtain ⟨k, conn, m, chan, hk, hconn, hm, hread, rfl⟩ := foldlM_recv hne hfold
    obtain ⟨u, e, hu, -⟩ := hi.user hfd
    have hnil : ∀ v, proc.server.subscriptionsOf v = n.server.subscriptionsOf v ++ if v = u then [] else [] := fun v => by
      rw [ht.subscriptionsOf v, ite_self, List.append_nil]
    refine And.imp_right (fun he hok => he ?_) (frame_kept h hu hk hconn hread rfl rfl rfl (by simp [logins_none])
      (clientFds_congr hfds) ht.fdsToUsers hnil)
    rw [hm, hnone (hok _ _ rfl)]
    rfl
  | @command buff fd u e c sub _ _ hne hfd hu hlook hc hsub _ hp _ _ hsubs husers =>
    obtain ⟨k, conn, m, chan, hk, hconn, hm, hread, rfl⟩ := foldlM_recv hne hfold
    refine And.imp_right (fun he _ => he ?_) (frame_kept h hu hk hconn hread rfl rfl rfl (by simp [logins_none])
      (congrArg (fun p => (p.live.map (·.fd)).drop 3) hp) husers (subscriptionsOf_added hsubs hlook))
    rw [hm, hc, List.map_singleton, newSubscription_command hsub]
    rfl

/-- What the copy of a topic needs is given. -/
def Allocates (e : NetEvent × List Act) : Prop := ∀ buff ok, e.1 = .server (.recv buff ok) → ok = true

/-- **A step of the system** keeps the links, and the lists while allocations succeed. -/
theorem Step.kept {host : Host} {n n' : Net} {e : NetEvent × List Act} (hstep : n.Step host e n') (hp : n.proc.Inv)
    (h : n.Links) : n'.proc.Inv ∧ n'.Links ∧ (Allocates e → n.Exact → n'.Exact) := by
  rcases hstep.cases with ⟨-, rfl | ⟨k, conn, conn', hk, hread, rfl⟩⟩ | ⟨ev, acts, proc, n₁, rfl, hproc, hfold, hn⟩
  · exact ⟨hp, And.imp_right (fun he _ => he) (connect_kept h rfl)⟩
  · exact ⟨hp, And.imp_right (fun he _ => he) (peer_kept h hk hread rfl)⟩
  · obtain ⟨hlinks, hexact⟩ := server_kept hp h hproc hfold hn
    refine ⟨?_, hlinks, fun hok => hexact fun buff ok hev => hok buff ok (by rw [hev])⟩
    rw [hn]
    exact (hproc.move hp).2.2

theorem Start.kept {host : Host} {n : Net} (h : n.Start host) : n.proc.Inv ∧ n.Links ∧ n.Exact := by
  obtain ⟨hproc, hn⟩ := h
  obtain ⟨hinv, hopen, -, hsubs, husers⟩ := start_inv hproc
  have hfields : n.conns = [] ∧ n.backlog = [] ∧ n.onFd = ∅ ∧ n.sessions = [] := by
    rw [hn]
    exact ⟨rfl, rfl, rfl, rfl⟩
  obtain ⟨hconns, hback, honFd, hsess⟩ := hfields
  refine ⟨Or.inr ⟨hinv, hopen⟩, ?_, fun u => ?_⟩
  · exact
      { bound := fun fd => by
          rw [hinv.keys, husers, honFd]
          simp
        single := fun fd fd' k hk => by simp [honFd] at hk
        known := fun fd k hk => by simp [honFd] at hk
        waiting := fun k hk => by simp [hback] at hk
        queued := by simp [hback]
        once := by simp [hsess]
        begun := fun s hs => by simp [hsess] at hs
        current := fun fd u k _ hk => by simp [honFd] at hk }
  · rw [Server.subscriptionsOf, hsubs, sessionsOf, hsess]
    rfl

/-! ## Runs -/

theorem run_kept {host : Host} {n₀ n : Net} {tr : List (NetEvent × List Act)} (h₀ : n₀.Start host)
    (hrun : Lts.Run (Step host) n₀ tr n) (hok : ∀ e ∈ tr, Allocates e) : n.proc.Inv ∧ n.Links ∧ n.Exact :=
  hrun.invariant_of (L := Allocates) (P := fun n => n.proc.Inv ∧ n.Links ∧ n.Exact) h₀.kept
    (fun _ _ _ h he hstep => by
      obtain ⟨hp, hlinks, hexact⟩ := Step.kept hstep h.1 h.2.1
      exact ⟨hp, hlinks, hexact he h.2.2⟩) hok

theorem run_proc {host : Host} {n₀ n : Net} {tr : List (NetEvent × List Act)} (hrun : Lts.Run (Step host) n₀ tr n) :
    Lts.Run (Proc.Step host) n₀.proc (tr.filterMap serverStep) n.proc := by
  apply hrun.project
  intro m e m' hstep
  rcases Step.cases hstep with ⟨hnone, rfl | ⟨k, conn, conn', -, -, rfl⟩⟩ | ⟨ev, acts, proc, n₁, rfl, hproc, -, rfl⟩
  · rw [hnone]
  · rw [hnone]
  · exact hproc

/-- **A session ends at the end of its connection**: everything that was sent has been read. -/
theorem Step.removed {host : Host} {n n' : Net} {e : NetEvent × List Act} (hstep : n.Step host e n')
    (hp : n.proc.Inv) (hpc : n'.server.pc ≠ .exited) {fd : Fd} (hfd : fd ∈ n.server.clientFds)
    (hgone : fd ∉ n'.server.clientFds) : n.server.Inv ∧ ∃ k conn, n.onFd.lookup fd = some k ∧ n.conns[k]? = some conn ∧
      conn.chan.closed = true ∧ conn.chan.read = conn.chan.sent := by
  have hstays : n'.server.fds = n.server.fds → False := fun h =>
    hgone (by rw [Server.clientFds, h]; exact hfd)
  rcases hstep.cases with ⟨-, rfl | ⟨k, conn, conn', -, -, rfl⟩⟩ | ⟨ev, acts, proc, n₁, rfl, hproc, hfold, rfl⟩
  · exact absurd hfd hgone
  · exact absurd hfd hgone
  obtain ⟨hi, hmove, -⟩ := hproc.move hp
  refine ⟨hi, ?_⟩
  cases hmove with
  | exit hexit => exact absurd hexit hpc
  | quiet _ _ hfds => exact (hstays hfds).elim
  | dropped _ _ _ hfds => exact (hstays hfds).elim
  | refused _ _ _ hfds => exact (hstays hfds).elim
  | login _ _ _ _ _ hfds =>
    refine absurd ?_ hgone
    rw [clientFds_append hfds hi.three]
    exact List.mem_append_left _ hfd
  | datagram _ _ hfds => exact (hstays hfds).elim
  | @logout _ _ x _ _ a b _ _ _ _ hsplit ha _ _ _ hfds =>
    have hx : fd = x := by
      rw [clientFds_append hsplit ha, List.mem_append, List.mem_cons] at hfd
      rw [clientFds_append hfds ha, List.mem_append, not_or] at hgone
      exact (hfd.resolve_left hgone.1).resolve_right hgone.2
    obtain ⟨n₂, hrecv, -⟩ := Option.bind_eq_some_iff.1 hfold
    obtain ⟨k, conn, hk, hconn, ⟨-, hclosed, hread, -⟩ | ⟨m, chan, hm, -⟩⟩ := act_recv hrecv
    · exact ⟨k, conn, hx ▸ hk, hconn, hclosed, hread⟩
    · exact absurd hm m.2.1
  | ignored _ _ _ _ _ hfds => exact (hstays hfds).elim
  | command _ _ _ _ _ _ _ hp => exact (hstays (congrArg (fun p => p.live.map (·.fd)) hp)).elim

theorem made_eq {host : Host} {subs subs' : List Subscription}
    (h : ∀ s ∈ subs, newSubscription host s.getExpression s.isSubscribed = some s)
    (h' : ∀ s ∈ subs', newSubscription host s.getExpression s.isSubscribed = some s)
    (heq : subs.map (·.command) = subs'.map (·.command)) : subs = subs' := by
  have hmap : ∀ l : List Subscription, (∀ s ∈ l, newSubscription host s.getExpression s.isSubscribed = some s) →
      l.map some = (l.map (·.command)).map fun c => newSubscription host c.expression c.subscribed := fun l hl => by
    rw [List.map_map]
    exact List.map_congr_left fun s hs => (hl s hs).symm
  apply List.map_injective_iff.2 (Option.some_injective Subscription)
  rw [hmap subs h, hmap subs' h', heq]

/-- **No command is lost, doubled or given to another user**: after every run the list of a user is what the frames read
on its sessions' connections ask for, in the order of the sessions; a session is a connection of its own whose first
frame is the name, and is removed only once the connection is closed and all that was sent on it is in the list.  So two
runs in which a user's sessions read the same frames give it the same list. -/
theorem commands_exact {host : Host} {n₀ n : Net} {tr : List (NetEvent × List Act)} (h₀ : n₀.Start host)
    (hrun : Lts.Run (Step host) n₀ tr n) (hok : ∀ e ∈ tr, Allocates e) :
    (∀ u, (n.server.subscriptionsOf u).map (·.command) = (n.sessionsOf u).flatMap n.commandsOf) ∧
    (n.sessions.map (·.2)).Nodup ∧
    (∀ s ∈ n.sessions, ∃ conn m rest, n.conns[s.2]? = some conn ∧ conn.chan.read = m :: rest ∧ m.1 = s.1) ∧
    (∀ e n', n.Step host e n' → n'.server.pc ≠ .exited → ∀ fd ∈ n.server.clientFds, fd ∉ n'.server.clientFds →
      ∃ u k pre conn, n.server.fdsToUsers.lookup fd = some u ∧ n.sessionsOf u = pre ++ [k] ∧
        n.conns[k]? = some conn ∧ conn.chan.closed = true ∧
        n.commandsOf k = conn.chan.sent.tail.filterMap fun m => commandOf m.1) ∧
    (∀ m₀ m tr', m₀.Start host → Lts.Run (Step host) m₀ tr' m → (∀ e ∈ tr', Allocates e) →
      ∀ u, (n.sessionsOf u).map n.framesOf = (m.sessionsOf u).map m.framesOf →
        n.server.subscriptionsOf u = m.server.subscriptionsOf u) := by
  obtain ⟨hp, hlinks, hexact⟩ := run_kept h₀ hrun hok
  refine ⟨hexact, hlinks.once, hlinks.begun, ?_, ?_⟩
  · intro e n' hstep hpc fd hfd hgone
    obtain ⟨hi, k, conn, hk, hconn, hclosed, hread⟩ := hstep.removed hp hpc hfd hgone
    obtain ⟨u, -, hu, -⟩ := hi.user hfd
    obtain ⟨pre, hpre⟩ := hlinks.current fd u k hu hk
    refine ⟨u, k, pre, conn, hu, hpre, hconn, hclosed, ?_⟩
    rw [← hread, commandsOf, framesOf, hconn]
    rfl
  · intro m₀ m tr' h₀' hrun' hok' u hframes
    obtain ⟨-, -, hexact'⟩ := run_kept h₀' hrun' hok'
    have hsim := (run_sim h₀.1 (run_proc hrun)).2
    have hsim' := (run_sim h₀'.1 (run_proc hrun')).2
    apply made_eq (hsim.made u) (hsim'.made u)
    have hall : ∀ m : Net, (m.sessionsOf u).flatMap m.commandsOf =
        ((m.sessionsOf u).map m.framesOf).flatMap fun l => l.filterMap fun x => commandOf x.1 := fun m => by
      rw [List.flatMap_map]
      rfl
    rw [hexact u, hexact' u, hall, hall, hframes]

theorem commands_exact_pair : ∃ n : Net, n.commandsOf 0 = [⟨true, ascii "x"⟩, ⟨false, ascii "x"⟩] ∧
    (n.server.subscriptionsOf [97]).map (·.command) = [⟨true, ascii "x"⟩, ⟨false, ascii "x"⟩] := by
  have hrun : ((Proc.boot exactHost 3 4).bind fun p₀ => (Lts.exec (Net.next exactHost) (boot p₀) [.connect, .connect,
      .send 0 ⟨[97], by decide⟩, .send 1 ⟨[98], by decide⟩,
      .server (.poll (some [0, 1, 0])),
      .server (.accept (some ⟨5, ⟨(127, 0, 0, 1), (0, 9)⟩, true, true, ⟨[97], by decide⟩⟩)),
      .server (.poll (some [0, 1, 0, 0])),
      .server (.accept (some ⟨6, ⟨(127, 0, 0, 1), (0, 10)⟩, true, true, ⟨[98], by decide⟩⟩)),
      .send 0 ⟨ascii "subscribe x", by decide⟩, .send 1 ⟨ascii "subscribe y", by decide⟩,
      .send 0 ⟨ascii "unsubscribe x", by decide⟩, .close 1,
      .server (.poll (some [0, 0, 0, 1, 1])), .server (.recv ⟨ascii "subscribe x", by decide⟩ true),
      .server (.recv ⟨ascii "subscribe y", by decide⟩ true), .server .next,
      .server (.poll (some [0, 0, 0, 1, 1])), .server (.recv ⟨ascii "unsubscribe x", by decide⟩ true),
      .server (.recv ⟨[], by decide⟩ true)]).map fun r => (r.2.commandsOf 0, r.2.sessions)) =
        some ([⟨true, ascii "x"⟩, ⟨false, ascii "x"⟩], [([97], 0), ([98], 1)]) := by decide +kernel
  obtain ⟨p₀, hboot, hrun⟩ := Option.bind_eq_some_iff.1 hrun
  obtain ⟨⟨tr, n⟩, hexec, hn⟩ := Option.map_eq_some_iff.1 hrun
  obtain ⟨hcommands, hsess⟩ := Prod.mk.inj hn
  have h₀ : (boot p₀).Start exactHost := ⟨⟨3, 4, by decide, by decide, by decide, hboot⟩, rfl⟩
  have hevents := Lts.exec_map (f := fun e : NetEvent × List Act => e.1) (fun _ _ _ _ => next_label) hexec
  refine ⟨n, hcommands, ?_⟩
  rw [(commands_exact h₀ (Lts.exec_run next_step .nil hexec) ?_).1]
  · have hof : n.sessionsOf [97] = [0] := by rw [sessionsOf, show n.sessions = _ from hsess]; rfl
    rw [hof, List.flatMap_singleton]
    exact hcommands
  · intro e he buff ok hev
    have hmem : e.1 ∈ tr.map (·.1) := List.mem_map_of_mem he
    rw [hevents, hev] at hmem
    simp only [List.mem_cons, NetEvent.server.injEq, Event.recv.injEq, reduceCtorEq, false_or, or_false,
      List.not_mem_nil] at hmem
    rcases hmem with h | h | h | h
    · exact h.2
    · exact h.2
    · exact h.2
    · exact h.2

end Net

end Ts
