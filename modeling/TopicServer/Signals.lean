import TopicServer.Session
/-!
# Signals — sends that fail

The acts of a step are the calls that the server makes.  A send on a connection that the other end has reset does not go
out: the call fails, which `sendTcp` keeps to itself, or raises SIGPIPE, for which there is no handler, and the process
is gone before its next call.  `Life.Step` is a step of the process with its sends so.  As long as no send ends it, it
goes through the states of a process whose sends all go out (`Life.run_proc`); a run of `Proc.Step` is a run in which
none fails (`Life.run_out`).
-/
namespace Ts

/-- How the sends on a descriptor end: they go out, fail, or end the process. -/
inductive Sent
  | out
  | failed
  | killed
deriving DecidableEq

def Act.sent (ends : Fd → Sent) : Act → Sent
  | .sendTcp fd _ => ends fd
  | _ => .out

/-- The calls of a step that are made and do not fail. -/
def carriedOut (ends : Fd → Sent) (acts : List Act) : List Act :=
  (acts.takeWhile (·.sent ends ≠ .killed)).filter (·.sent ends = .out)

theorem Proc.Step.next {host : Host} {p q : Proc} {e : Event × List Act} (h : p.Step host e q) :
    p.next host e.1 = some (e, q) := by
  have hfresh : ∀ fd ∈ p.opened, Act.accept fd ∉ e.2 := fun fd hfd hmem => h.fresh fd hmem hfd
  rw [Proc.next, h.step, Option.bind_some]
  refine (if_pos hfresh).trans ?_
  rw [← h.opened]

/-- The process, which a signal may have ended. -/
inductive Life
  | on (p : Proc)
  | killed

namespace Life

def next (host : Host) : Life → Event × (Fd → Sent) → Option (((Event × (Fd → Sent)) × List Act) × Life)
  | .on p, (ev, ends) => do
    let ((_, acts), q) ← p.next host ev
    return (((ev, ends), carriedOut ends acts), if acts.all (·.sent ends ≠ .killed) then .on q else .killed)
  | .killed, _ => none

/-- A step of the process, in which sends may fail. -/
def Step (host : Host) (l : Life) (e : (Event × (Fd → Sent)) × List Act) (l' : Life) : Prop :=
  l.next host e.1 = some (e, l')

theorem next_step {host : Host} (l : Life) (ev : Event × (Fd → Sent)) (e : (Event × (Fd → Sent)) × List Act) (l' : Life)
    (h : l.next host ev = some (e, l')) : l.Step host e l' := by
  cases l with
  | killed => cases h
  | on p =>
    obtain ⟨_, -, h'⟩ := Option.bind_eq_some_iff.1 h
    have hlabel : e.1 = ev := by rw [← (Prod.mk.inj (Option.some.inj h')).1]
    rw [Step, hlabel]
    exact h

/-- **Everything a step can do**: the process makes the calls of its step, and goes on unless one of its sends ends it. -/
theorem step_iff {host : Host} {p : Proc} {ev : Event} {ends : Fd → Sent} {done : List Act} {l : Life} :
    (Life.on p).Step host ((ev, ends), done) l ↔ ∃ acts q, p.Step host (ev, acts) q ∧ done = carriedOut ends acts ∧
      l = if acts.all (·.sent ends ≠ .killed) then .on q else .killed := by
  constructor
  · intro h
    obtain ⟨⟨⟨ev', acts⟩, q⟩, hnext, h⟩ := Option.bind_eq_some_iff.1 h
    obtain rfl : ev' = ev := Proc.next_label hnext
    obtain ⟨hlabel, rfl⟩ := Prod.mk.inj (Option.some.inj h)
    exact ⟨acts, q, Proc.next_step _ _ _ _ hnext, (Prod.mk.inj hlabel).2.symm, rfl⟩
  · rintro ⟨acts, q, hstep, rfl, rfl⟩
    simp only [Step, next, hstep.next, Option.bind_eq_bind, Option.bind_some]
    rfl

end Life

/-! ## The calls of a step -/

theorem carriedOut_out {ends : Fd → Sent} {acts : List Act} (h : ∀ a ∈ acts, a.sent ends = .out) :
    carriedOut ends acts = acts := by
  have hall : acts.takeWhile (·.sent ends ≠ .killed) = acts :=
    List.takeWhile_eq_self_iff.2 fun a ha => by simp [h a ha]
  rw [carriedOut, hall, List.filter_eq_self]
  exact fun a ha => decide_eq_true (h a ha)

/-! ## Runs -/

namespace Life

/-- **Failing sends change nothing in the process**, as long as none ends it: the steps are those of a process whose sends
go out. -/
theorem run_proc {host : Host} {p₀ : Proc} {l₀ l : Life} {tr : List ((Event × (Fd → Sent)) × List Act)}
    (hrun : Lts.Run (Step host) l₀ tr l) (h₀ : l₀ = .on p₀) : ∀ {p : Proc}, l = .on p →
      ∃ ptr, Lts.Run (Proc.Step host) p₀ ptr p ∧ ptr.map (·.1) = tr.map (·.1.1) := by
  induction hrun with
  | nil =>
    intro p hp
    obtain rfl := Life.on.inj (h₀.symm.trans hp)
    exact ⟨[], .nil, rfl⟩
  | @snoc tr l l' e _ hstep ih =>
    rintro q rfl
    obtain ⟨⟨ev, ends⟩, done⟩ := e
    cases l with
    | killed => cases hstep
    | on p =>
      obtain ⟨ptr, hptr, hlabels⟩ := ih rfl
      obtain ⟨acts, q', hproc, -, hgoes⟩ := step_iff.1 hstep
      obtain rfl : q = q' := by
        split at hgoes
        · exact Life.on.inj hgoes
        · cases hgoes
      exact ⟨ptr ++ [(ev, acts)], hptr.snoc hproc, by rw [List.map_append, List.map_append, hlabels]; rfl⟩

/-- **The tables agree** after every run, whatever sends have failed. -/
theorem run_inv {host : Host} {p₀ p : Proc} {tr : List ((Event × (Fd → Sent)) × List Act)} (h₀ : p₀.Start host)
    (hrun : Lts.Run (Step host) (.on p₀) tr (.on p)) : p.Inv := by
  obtain ⟨ptr, hproc, -⟩ := run_proc hrun rfl rfl
  exact Ts.run_inv h₀ hproc

/-- **A run of the process is a run in which every send goes out.** -/
theorem run_out {host : Host} {p₀ p : Proc} {ptr : List (Event × List Act)} (hrun : Lts.Run (Proc.Step host) p₀ ptr p) :
    Lts.Run (Step host) (.on p₀) (ptr.map fun e => ((e.1, fun _ => .out), e.2)) (.on p) := by
  induction hrun with
  | nil => exact .nil
  | @snoc ptr p q e _ hstep ih =>
    have hout : ∀ a ∈ e.2, a.sent (fun _ => .out) = .out := fun a _ => by cases a <;> rfl
    rw [List.map_append]
    refine ih.snoc (step_iff.2 ⟨e.2, q, hstep, (carriedOut_out hout).symm, (if_pos ?_).symm⟩)
    exact List.all_eq_true.2 fun a ha => by simp [hout a ha]

end Life

end Ts
