import TopicServer.Lib.Lts
import TopicServer.Base
/-!
# Poll — the adjustable poll array

`pollAdjustable` holds an allocated array of `maxSize` entries of which the first `nfds` are in use.  Its member
functions read and write the array by index, and every access is checked against the allocated block.  `live` is the
list the entries in use make up; the lemmas below say what each function does to that list, and that `Wf` is kept.  Over
calls in the order the server makes them the array is a list (`poll_refines_list`).
-/
namespace Ts

def pollin : UInt16 := 1

structure Pollfd where
  fd : Fd
  events : UInt16
  revents : UInt16
deriving DecidableEq

/-- What the programs ask the system to do, in order: the system calls, the two wire functions, the lines printed. -/
inductive Act
  | accept (fd : Fd)
  | recv (fd : Fd) (buff : Bytes)
  | sendTcp (fd : Fd) (str : Bytes)
  | close (fd : Fd)
  | cout (line : Bytes)
deriving DecidableEq

structure PollAdjustable where
  pollfds : List Pollfd
  nfds : Nat
  maxSize : Nat
deriving DecidableEq

def Host.cell (host : Host) (i : Nat) : Pollfd :=
  ⟨(host.junk i).toNat, (host.junk i).toNat.toUInt16, (host.junk i).toNat.toUInt16⟩

def initPoll (host : Host) : PollAdjustable := ⟨Mem.fresh host.cell 4, 0, 4⟩

/-- `addFd`: the result, and the array after it; `reallocOk` is whether `realloc` finds the memory. -/
def PollAdjustable.addFd (host : Host) (p : PollAdjustable) (fd : Fd) (reallocOk : Bool) :
    Option (Int × PollAdjustable) :=
  let store (q : PollAdjustable) : Option (Int × PollAdjustable) := do
    let cell ← q.pollfds[q.nfds]?
    let pollfds ← Mem.write q.pollfds q.nfds [{ cell with fd, events := pollin }]
    return (1, { q with pollfds, nfds := q.nfds + 1 })
  if p.nfds = p.maxSize then
    if !reallocOk then some (-1, p)
    else store { p with pollfds := p.pollfds ++ Mem.fresh host.cell p.maxSize, maxSize := p.maxSize * 2 }
  else store p

/-- `removeLast`, which also closes `fd`. -/
def PollAdjustable.removeLast (p : PollAdjustable) (fd : Fd) : PollAdjustable × List Act :=
  ({ p with nfds := p.nfds - 1 }, [.close fd])

/-- The first of `k` entries from index `i` on whose descriptor is `fd`. -/
def findFd (pollfds : List Pollfd) (fd : Fd) : Nat → Nat → Option (Option Nat)
  | 0, _ => some none
  | k + 1, i => do
    let p ← pollfds[i]?
    if p.fd = fd then return some i
    findFd pollfds fd k (i + 1)

def PollAdjustable.remove (p : PollAdjustable) (fd : Fd) : Option (PollAdjustable × List Act) := do
  match ← findFd p.pollfds fd p.nfds 0 with
  | none => return (p, [])
  | some i => do
    let nfds := p.nfds - 1
    let pollfds ← Mem.memmove p.pollfds i (i + 1) (nfds - i)
    return ({ p with pollfds, nfds }, [.close fd])

def PollAdjustable.freeMemory (p : PollAdjustable) : Option (PollAdjustable × List Act) := do
  let clients ← Mem.read p.pollfds 3 (p.nfds - 3)
  let opened ← Mem.read p.pollfds 1 (p.nfds - 1)
  return (⟨[], 0, 0⟩, clients.map (fun x => .sendTcp x.fd (Text.ascii "shutdown")) ++ opened.map (fun x => .close x.fd))

/-- What `poll` stores: the returned events of each entry in use. -/
def PollAdjustable.setRevents (p : PollAdjustable) (revents : List UInt16) : PollAdjustable :=
  { p with pollfds := List.zipWith (fun x r => { x with revents := r }) (p.pollfds.take p.nfds) revents ++
      p.pollfds.drop p.nfds }

namespace PollAdjustable

def live (p : PollAdjustable) : List Pollfd := p.pollfds.take p.nfds

structure Wf (p : PollAdjustable) : Prop where
  length : p.pollfds.length = p.maxSize
  le : p.nfds ≤ p.maxSize
  pos : 0 < p.maxSize

theorem Wf.length_live {p : PollAdjustable} (h : p.Wf) : p.live.length = p.nfds := by
  rw [live, List.length_take, h.length]
  exact Nat.min_eq_left h.le

theorem Wf.getElem?_live {p : PollAdjustable} {i : Nat} (hi : i < p.nfds) : p.pollfds[i]? = p.live[i]? := by
  rw [live, List.getElem?_take_of_lt hi]

theorem initPoll_wf (host : Host) : (initPoll host).Wf :=
  ⟨Mem.length_fresh _ _, Nat.zero_le _, Nat.succ_pos 3⟩

theorem initPoll_live (host : Host) : (initPoll host).live = [] := rfl

theorem store_live {p : PollAdjustable} (h : p.Wf) (hlt : p.nfds < p.maxSize) (fd : Fd) :
    ∃ cell cells r, p.pollfds[p.nfds]? = some cell ∧
      Mem.write p.pollfds p.nfds [{ cell with fd, events := pollin }] = some cells ∧
      PollAdjustable.Wf ⟨cells, p.nfds + 1, p.maxSize⟩ ∧
      PollAdjustable.live ⟨cells, p.nfds + 1, p.maxSize⟩ = p.live ++ [⟨fd, pollin, r⟩] := by
  have hlen := h.length
  obtain ⟨cell, hcell⟩ : ∃ cell, p.pollfds[p.nfds]? = some cell :=
    ⟨_, List.getElem?_eq_getElem (show p.nfds < p.pollfds.length by omega)⟩
  have hwrite := Mem.write_eq (m := p.pollfds) (x := [{ cell with fd, events := pollin }]) p.nfds
    (by simp only [List.length_singleton]; omega)
  refine ⟨cell, _, cell.revents, hcell, hwrite, ⟨?_, ?_, h.pos⟩, ?_⟩
  · exact (Mem.length_of_write hwrite).trans hlen
  · exact hlt
  · have htake : (p.pollfds.take p.nfds).length = p.nfds := by rw [List.length_take]; omega
    simp only [live, List.length_singleton]
    rw [List.take_append, htake, List.take_of_length_le (by omega), Nat.add_sub_cancel_left]
    rfl

/-- **`addFd` appends the descriptor, or gives up and changes nothing**; it gives up only when the array is full and
cannot grow. -/
theorem addFd_cases (host : Host) {p : PollAdjustable} (h : p.Wf) (fd : Fd) (reallocOk : Bool) :
    (addFd host p fd reallocOk = some (-1, p) ∧ p.nfds = p.maxSize ∧ reallocOk = false) ∨
      (p.nfds = p.maxSize → reallocOk = true) ∧
        ∃ q r, addFd host p fd reallocOk = some (1, q) ∧ q.Wf ∧ q.live = p.live ++ [⟨fd, pollin, r⟩] := by
  by_cases hfull : p.nfds = p.maxSize
  · cases reallocOk with
    | false => exact Or.inl ⟨by simp [addFd, hfull], hfull, rfl⟩
    | true =>
      -- the grown array holds the same entries and has room for one more
      have hpos := h.pos
      have hg : PollAdjustable.Wf ⟨p.pollfds ++ Mem.fresh host.cell p.maxSize, p.nfds, p.maxSize * 2⟩ :=
        ⟨by simp [h.length]; omega, by simp; omega, by simp; omega⟩
      have hlive : PollAdjustable.live ⟨p.pollfds ++ Mem.fresh host.cell p.maxSize, p.nfds, p.maxSize * 2⟩ = p.live := by
        rw [live, live, List.take_append_of_le_length (by rw [h.length]; exact h.le)]
      obtain ⟨cell, cells, r, hcell, hwrite, hwf, hl⟩ := store_live hg (by simp; omega) fd
      refine Or.inr ⟨fun _ => rfl, _, r, ?_, hwf, by rw [hl, hlive]⟩
      simp only [addFd, if_pos hfull, hcell, hwrite, Option.bind_eq_bind, Option.bind_some]
      rfl
  · obtain ⟨cell, cells, r, hcell, hwrite, hwf, hl⟩ := store_live h (by have := h.le; omega) fd
    refine Or.inr ⟨fun h => absurd h hfull, _, r, ?_, hwf, hl⟩
    simp only [addFd, if_neg hfull, hcell, hwrite, Option.bind_eq_bind, Option.bind_some]
    rfl

theorem removeLast_wf {p : PollAdjustable} (h : p.Wf) (fd : Fd) : (p.removeLast fd).1.Wf :=
  ⟨h.length, (Nat.sub_le _ _).trans h.le, h.pos⟩

theorem removeLast_live {p : PollAdjustable} (h : p.Wf) (fd : Fd) : (p.removeLast fd).1.live = p.live.dropLast := by
  rw [List.dropLast_eq_take, h.length_live, live, removeLast, live, List.take_take,
    Nat.min_eq_left (Nat.sub_le _ _)]

theorem findFd_eq (pollfds : List Pollfd) (fd : Fd) : ∀ (l : List Pollfd) (pre post : List Pollfd),
    pollfds = pre ++ (l ++ post) →
    findFd pollfds fd l.length pre.length = some ((l.findIdx? (fun x => x.fd == fd)).map (· + pre.length))
  | [], _, _, _ => rfl
  | x :: l, pre, post, h => by
    have hx : pollfds[pre.length]? = some x := by rw [h]; simp
    simp only [List.length_cons, findFd, hx, Option.bind_eq_bind, Option.bind_some, List.findIdx?_cons]
    by_cases hfd : x.fd = fd
    · simp [hfd]
    · have ih := findFd_eq pollfds fd l (pre ++ [x]) post (by rw [h]; simp)
      rw [List.length_append, List.length_singleton] at ih
      simp only [if_neg hfd, ih, beq_iff_eq, Option.map_map]
      congr 2
      funext i
      simp only [Function.comp]
      omega

/-- **`remove` deletes the first entry of the descriptor** and keeps the order of the others. -/
theorem remove_spec {p : PollAdjustable} (h : p.Wf) {a b : List Pollfd} {x : Pollfd} (hlive : p.live = a ++ x :: b)
    (ha : ∀ y ∈ a, y.fd ≠ x.fd) :
    ∃ q, p.remove x.fd = some (q, [.close x.fd]) ∧ q.Wf ∧ q.live = a ++ b := by
  have hcells : p.pollfds = (a ++ x :: b) ++ p.pollfds.drop p.nfds := by
    rw [← hlive, live, List.take_append_drop]
  have hn : p.nfds = a.length + (b.length + 1) := by
    rw [← h.length_live, hlive, List.length_append, List.length_cons]
  have hfind : findFd p.pollfds x.fd p.nfds 0 = some (some a.length) := by
    have hidx : (a ++ x :: b).findIdx? (fun y => y.fd == x.fd) = some a.length := by
      rw [List.findIdx?_append, List.findIdx?_eq_none_iff.2 (fun y hy => by simpa using ha y hy)]
      simp [List.findIdx?_cons]
    have := findFd_eq p.pollfds x.fd (a ++ x :: b) [] (p.pollfds.drop p.nfds) hcells
    rw [hidx, ← hlive, h.length_live] at this
    exact this
  generalize hpost : p.pollfds.drop p.nfds = post at hcells
  have hread : Mem.read p.pollfds (a.length + 1) b.length = some b := by
    have := Mem.read_mid (a ++ [x]) b post
    rw [hcells]
    simpa using this
  have hmove : Mem.memmove p.pollfds a.length (a.length + 1) (p.nfds - 1 - a.length) =
      some (a ++ (b ++ p.pollfds.drop (a.length + b.length))) := by
    have hk : p.nfds - 1 - a.length = b.length := by omega
    rw [hk, Mem.memmove, hread, Option.bind_some, Mem.write_eq a.length (by rw [h.length]; have := h.le; omega)]
    congr 2
    rw [hcells, List.append_assoc, List.take_left]
  refine ⟨⟨a ++ (b ++ p.pollfds.drop (a.length + b.length)), p.nfds - 1, p.maxSize⟩, ?_, ⟨?_, ?_, h.pos⟩, ?_⟩
  · simp only [remove, hfind, hmove, Option.bind_eq_bind, Option.bind_some]
    rfl
  · simp only [List.length_append, List.length_drop, h.length]
    have := h.le
    omega
  · exact (Nat.sub_le _ _).trans h.le
  · rw [live, ← List.append_assoc]
    exact List.take_left' (by rw [List.length_append]; exact (by omega : a.length + b.length = p.nfds - 1))

/-- **`freeMemory` tells every client to shut down**, then closes what is open. -/
theorem freeMemory_eq {p : PollAdjustable} (h : p.Wf) (h3 : 3 ≤ p.nfds) :
    p.freeMemory = some (⟨[], 0, 0⟩, (p.live.drop 3).map (fun x => .sendTcp x.fd (Text.ascii "shutdown")) ++
      (p.live.drop 1).map (fun x => .close x.fd)) := by
  have hle := h.le
  have hread : ∀ k ≤ 3, Mem.read p.pollfds k (p.nfds - k) = some (p.live.drop k) := by
    intro k hk
    rw [Mem.read, if_pos (by rw [h.length]; omega), live, List.drop_take]
  simp only [freeMemory, hread 3 (Nat.le_refl _), hread 1 (by decide), Option.bind_eq_bind, Option.bind_some]
  rfl

theorem setRevents_wf {p : PollAdjustable} (h : p.Wf) {revents : List UInt16} (hr : revents.length = p.nfds) :
    (p.setRevents revents).Wf := by
  refine ⟨?_, h.le, h.pos⟩
  have := h.length_live
  rw [live] at this
  simp only [setRevents, List.length_append, List.length_zipWith, this, hr, List.length_drop, h.length, Nat.min_self]
  have := h.le
  omega

theorem setRevents_live {p : PollAdjustable} (h : p.Wf) {revents : List UInt16} (hr : revents.length = p.nfds) :
    (p.setRevents revents).live = List.zipWith (fun x r => { x with revents := r }) p.live revents := by
  have hlen : (List.zipWith (fun (x : Pollfd) r => { x with revents := r }) p.live revents).length = p.nfds := by
    rw [List.length_zipWith, h.length_live, hr, Nat.min_self]
  show List.take p.nfds (List.zipWith _ p.live revents ++ _) = _
  exact List.take_left' hlen

end PollAdjustable

/-! ## The array is a list -/

/-- A call of one of the three member functions, with what it returned. -/
inductive PollCall
  | addFd (fd : Fd) (reallocOk : Bool) (rc : Int)
  | removeLast (fd : Fd)
  | remove (fd : Fd)

/-- What a call does to a list of descriptors and the events they wait for. -/
def PollCall.onList (l : List (Fd × UInt16)) : PollCall → List (Fd × UInt16)
  | .addFd fd _ rc => if rc = -1 then l else l ++ [(fd, pollin)]
  | .removeLast _ => l.dropLast
  | .remove fd => l.eraseP (·.1 == fd)

/-- A call as the server makes it: `removeLast` right after the descriptor was added, `remove` for one that is there.
With the array goes the descriptor just added. -/
inductive PollCall.Step (host : Host) : PollAdjustable × Option Fd → PollCall → PollAdjustable × Option Fd → Prop
  | addFd {p q : PollAdjustable} {added : Option Fd} {fd : Fd} {reallocOk : Bool} {rc : Int} :
      p.addFd host fd reallocOk = some (rc, q) →
      Step host (p, added) (.addFd fd reallocOk rc) (q, if rc = -1 then none else some fd)
  | removeLast {p : PollAdjustable} {fd : Fd} : Step host (p, some fd) (.removeLast fd) ((p.removeLast fd).1, none)
  | remove {p q : PollAdjustable} {added : Option Fd} {fd : Fd} {acts : List Act} : (∃ x ∈ p.live, x.fd = fd) →
      p.remove fd = some (q, acts) → Step host (p, added) (.remove fd) (q, none)

def PollAdjustable.entries (p : PollAdjustable) : List (Fd × UInt16) := p.live.map (fun x => (x.fd, x.events))

theorem PollAdjustable.remove_present {p : PollAdjustable} (h : p.Wf) {fd : Fd} (hfd : ∃ x ∈ p.live, x.fd = fd) :
    ∃ q, p.remove fd = some (q, [.close fd]) ∧ q.Wf ∧ q.entries = p.entries.eraseP (·.1 == fd) := by
  obtain ⟨x, a, b, ha, hx, hlive, herase⟩ := List.exists_of_eraseP (p := fun x : Pollfd => x.fd == fd)
    hfd.choose_spec.1 (by simpa using hfd.choose_spec.2)
  rw [beq_iff_eq] at hx
  subst hx
  obtain ⟨q, hq, hwf, hqlive⟩ := remove_spec h hlive (fun y hy => by simpa using ha y hy)
  refine ⟨q, hq, hwf, ?_⟩
  rw [entries, entries, List.eraseP_map, hqlive, ← herase]
  rfl

def PollCall.Inv (s : PollAdjustable × Option Fd) : Prop :=
  s.1.Wf ∧ ∀ fd, s.2 = some fd → s.1.entries.getLast? = some (fd, pollin)

/-- **One call** does to the entries what it does to a list. -/
theorem PollCall.Step.refines {host : Host} {s t : PollAdjustable × Option Fd} {c : PollCall} (h : Inv s)
    (hs : Step host s c t) : Inv t ∧ t.1.entries = c.onList s.1.entries := by
  cases hs with
  | @addFd p q added fd reallocOk rc hadd =>
    rcases PollAdjustable.addFd_cases host h.1 fd reallocOk with ⟨hfail, -, -⟩ | ⟨-, q', r, hok, hwf, hlive⟩
    · obtain ⟨rfl, rfl⟩ := Prod.mk.inj (Option.some.inj (hadd.symm.trans hfail))
      exact ⟨⟨h.1, fun fd hfd => by simp at hfd⟩, rfl⟩
    · obtain ⟨rfl, rfl⟩ := Prod.mk.inj (Option.some.inj (hadd.symm.trans hok))
      have hentries : q.entries = p.entries ++ [(fd, pollin)] := by
        rw [PollAdjustable.entries, hlive, List.map_append]
        rfl
      refine ⟨⟨hwf, fun fd' hfd => ?_⟩, hentries⟩
      obtain rfl : fd = fd' := by simpa using hfd
      rw [hentries, List.getLast?_concat]
  | @removeLast p fd =>
    refine ⟨⟨PollAdjustable.removeLast_wf h.1 fd, fun fd hfd => by cases hfd⟩, ?_⟩
    rw [PollAdjustable.entries, PollAdjustable.removeLast_live h.1, List.map_dropLast]
    rfl
  | @remove p q added fd acts hfd hrem =>
    obtain ⟨q', hq, hwf, hentries⟩ := PollAdjustable.remove_present h.1 hfd
    obtain ⟨rfl, -⟩ := Prod.mk.inj (Option.some.inj (hrem.symm.trans hq))
    exact ⟨⟨hwf, fun fd hfd => by cases hfd⟩, hentries⟩

/-- **The poll array refines a list**: after any calls from `initPoll` on, the entries in use are those of the list the
calls make, `nfds` is their number and not above `maxSize`, the number of cells the array has, and every further call
stays inside them. -/
theorem poll_refines_list {host : Host} {tr : List PollCall} {s : PollAdjustable × Option Fd}
    (r : Lts.Run (PollCall.Step host) (initPoll host, none) tr s) :
    s.1.entries = tr.foldl PollCall.onList [] ∧ s.1.entries.length = s.1.nfds ∧ s.1.nfds ≤ s.1.maxSize ∧
      s.1.pollfds.length = s.1.maxSize ∧ (∀ fd, s.2 = some fd → s.1.entries.getLast? = some (fd, pollin)) ∧
      (∀ fd reallocOk, ∃ rc q, s.1.addFd host fd reallocOk = some (rc, q) ∧
        (rc = 1 ∨ rc = -1 ∧ s.1.nfds = s.1.maxSize ∧ reallocOk = false)) ∧
      ∀ x ∈ s.1.live, ∃ q, s.1.remove x.fd = some (q, [.close x.fd]) := by
  obtain ⟨⟨hwf, hlast⟩, hlist⟩ : PollCall.Inv s ∧ s.1.entries = tr.foldl PollCall.onList [] := by
    refine r.history (P := fun tr s => PollCall.Inv s ∧ s.1.entries = tr.foldl PollCall.onList []) ?_ ?_
    · exact ⟨⟨PollAdjustable.initPoll_wf host, fun fd hfd => by cases hfd⟩, rfl⟩
    · rintro tr s c t - ⟨hinv, hlist⟩ hstep
      obtain ⟨hinv', hentries⟩ := hstep.refines hinv
      exact ⟨hinv', by rw [hentries, hlist, List.foldl_append]; rfl⟩
  refine ⟨hlist, ?_, hwf.le, hwf.length, hlast, fun fd reallocOk => ?_, fun x hx => ?_⟩
  · rw [PollAdjustable.entries, List.length_map, hwf.length_live]
  · rcases PollAdjustable.addFd_cases host hwf fd reallocOk with ⟨hfail, hfull, hno⟩ | ⟨-, q, -, hok, -⟩
    · exact ⟨-1, _, hfail, Or.inr ⟨rfl, hfull, hno⟩⟩
    · exact ⟨1, q, hok, Or.inl rfl⟩
  · obtain ⟨q, hq, -⟩ := PollAdjustable.remove_present hwf ⟨x, hx, rfl⟩
    exact ⟨q, hq⟩

theorem poll_refines_list_grown : ∃ s : PollAdjustable × Option Fd,
    s.1.entries = [(0, pollin), (3, pollin), (5, pollin), (6, pollin)] ∧ s.1.nfds ≤ s.1.maxSize := by
  have r : Lts.Run (PollCall.Step exactHost) (initPoll exactHost, none)
      [.addFd 0 true 1, .addFd 3 true 1, .addFd 4 true 1, .addFd 5 true 1, .addFd 6 false (-1), .addFd 6 true 1,
        .remove 4] _ :=
    ((((((Lts.Run.nil.snoc (.addFd rfl)).snoc (.addFd rfl)).snoc (.addFd rfl)).snoc (.addFd rfl)).snoc
      (.addFd rfl)).snoc (.addFd rfl)).snoc (.remove ⟨⟨4, pollin, 0⟩, by decide, rfl⟩ rfl)
  obtain ⟨hlist, -, hle, -⟩ := poll_refines_list r
  exact ⟨_, hlist, hle⟩

end Ts
