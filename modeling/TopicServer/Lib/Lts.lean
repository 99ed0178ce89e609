import Mathlib.Logic.Basic
import Mathlib.Data.List.Basic
/-!
# Lts — runs of a labelled transition system

A system is a relation `step : σ → ε → σ → Prop`.  A run carries the labels of its steps in order, so a statement about
a run may speak of its history.  An invariant is proved of one step and read off every run (`Run.invariant`, and
`Run.invariant_of` when the labels are restricted); a run of one system becomes a run of another along a function of the
states, with the labels the function does not see left out (`Run.project`), or along a relation, where one step may be
matched by several or by none (`Run.matched`).
-/
namespace Lts

variable {σ τ ε δ : Type}

/-- A run from `s₀`: the labels of its steps, oldest first, and the state it reaches. -/
inductive Run (step : σ → ε → σ → Prop) (s₀ : σ) : List ε → σ → Prop
  | nil : Run step s₀ [] s₀
  | snoc {tr : List ε} {s t : σ} {e : ε} : Run step s₀ tr s → step s e t → Run step s₀ (tr ++ [e]) t

variable {step : σ → ε → σ → Prop} {s₀ s : σ} {tr : List ε}

theorem Run.append {t : σ} {tr' : List ε} (r : Run step s₀ tr s) (r' : Run step s tr' t) : Run step s₀ (tr ++ tr') t := by
  induction r' with
  | nil => rwa [List.append_nil]
  | snoc _ h ih =>
    rw [← List.append_assoc]
    exact ih.snoc h

theorem Run.of_nil (r : Run step s₀ [] s) : s = s₀ := by
  generalize htr : ([] : List ε) = tr at r
  cases r with
  | nil => rfl
  | snoc => simp at htr

theorem Run.uncons {e : ε} {t : σ} (r : Run step s₀ (e :: tr) t) : ∃ s, step s₀ e s ∧ Run step s tr t := by
  generalize htr : e :: tr = tr' at r
  induction r generalizing tr with
  | nil => cases htr
  | @snoc tr₀ s₁ t d r h ih =>
    cases tr₀ with
    | nil =>
      obtain ⟨rfl, rfl⟩ := List.cons.inj htr
      exact ⟨t, r.of_nil ▸ h, .nil⟩
    | cons d' tr₀ =>
      obtain ⟨rfl, rfl⟩ := List.cons.inj htr
      obtain ⟨s, hs, hr⟩ := ih rfl
      exact ⟨s, hs, hr.snoc h⟩

/-- **The invariant rule, with the history in view.** -/
theorem Run.history {P : List ε → σ → Prop} (h0 : P [] s₀)
    (hs : ∀ tr s e t, Run step s₀ tr s → P tr s → step s e t → P (tr ++ [e]) t) (r : Run step s₀ tr s) : P tr s := by
  induction r with
  | nil => exact h0
  | snoc r h ih => exact hs _ _ _ _ r ih h

theorem Run.invariant_of {L : ε → Prop} {P : σ → Prop} (h0 : P s₀) (hs : ∀ s e t, P s → L e → step s e t → P t)
    (r : Run step s₀ tr s) (hL : ∀ e ∈ tr, L e) : P s := by
  induction r with
  | nil => exact h0
  | snoc r h ih =>
    have hpre := ih (fun e he => hL e (List.mem_append_left _ he))
    exact hs _ _ _ hpre (hL _ (List.mem_append_right _ List.mem_cons_self)) h

theorem Run.invariant {P : σ → Prop} (h0 : P s₀) (hs : ∀ s e t, P s → step s e t → P t) (r : Run step s₀ tr s) :
    P s :=
  r.invariant_of (L := fun _ => True) h0 (fun s e t hP _ h => hs s e t hP h) (fun _ _ => trivial)

theorem Run.labels {P : σ → Prop} {Q : ε → Prop} (h0 : P s₀) (hs : ∀ s e t, P s → step s e t → P t ∧ Q e)
    (r : Run step s₀ tr s) : P s ∧ ∀ e ∈ tr, Q e := by
  refine r.history (P := fun tr s => P s ∧ ∀ e ∈ tr, Q e) ⟨h0, by simp⟩ ?_
  rintro tr s e t - ⟨hP, hQ⟩ h
  obtain ⟨hP', he⟩ := hs s e t hP h
  refine ⟨hP', fun e' he' => ?_⟩
  rcases List.mem_append.1 he' with hm | hm
  · exact hQ e' hm
  · exact List.mem_singleton.1 hm ▸ he

def Along (step : σ → ε → σ → Prop) (Q : σ → ε → Prop) (s : σ) (e : ε) (t : σ) : Prop := step s e t ∧ Q s e

theorem Run.mono {step' : σ → ε → σ → Prop} {I : σ → Prop} (h0 : I s₀)
    (hs : ∀ s e t, I s → step s e t → step' s e t ∧ I t) (r : Run step s₀ tr s) : Run step' s₀ tr s ∧ I s := by
  induction r with
  | nil => exact ⟨.nil, h0⟩
  | snoc r h ih =>
    obtain ⟨h', hI⟩ := hs _ _ _ ih.2 h
    exact ⟨ih.1.snoc h', hI⟩

/-- **Two conditions that an invariant makes the same** hold along the same runs. -/
theorem Run.along_iff {Q Q' : σ → ε → Prop} {I : σ → Prop} (h0 : I s₀) (hs : ∀ s e t, I s → step s e t → I t)
    (hiff : ∀ s e t, I s → step s e t → (Q s e ↔ Q' s e)) :
    Run (Along step Q) s₀ tr s ↔ Run (Along step Q') s₀ tr s := by
  constructor
  · exact fun r => (r.mono h0 fun s e t hI h => ⟨⟨h.1, (hiff s e t hI h.1).1 h.2⟩, hs s e t hI h.1⟩).1
  · exact fun r => (r.mono h0 fun s e t hI h => ⟨⟨h.1, (hiff s e t hI h.1).2 h.2⟩, hs s e t hI h.1⟩).1

/-- A system that computes its steps, run over a list of inputs: the labels and the state reached. -/
def exec {α : Type} (next : σ → α → Option (ε × σ)) : σ → List α → Option (List ε × σ)
  | s, [] => some ([], s)
  | s, a :: as => do
    let (e, s) ← next s a
    let (tr, s) ← exec next s as
    return (e :: tr, s)

/-- **What is computed is a run.** -/
theorem exec_run {α : Type} {next : σ → α → Option (ε × σ)} (hn : ∀ s a e t, next s a = some (e, t) → step s e t) :
    ∀ {as : List α} {tr tr' : List ε} {s t : σ}, Run step s₀ tr s → exec next s as = some (tr', t) →
      Run step s₀ (tr ++ tr') t
  | [], tr, tr', s, t, r, h => by
    cases h
    rwa [List.append_nil]
  | a :: as, tr, tr', s, t, r, h => by
    obtain ⟨⟨e, s'⟩, he, h⟩ := Option.bind_eq_some_iff.1 h
    obtain ⟨⟨tr'', t'⟩, hrest, h⟩ := Option.bind_eq_some_iff.1 h
    cases h
    have := exec_run hn (r.snoc (hn _ _ _ _ he)) hrest
    rwa [List.append_assoc] at this

def filter {α : Type} (next : σ → α → Option (ε × σ)) (ok : σ → ε → Bool) (s : σ) (a : α) : Option (ε × σ) :=
  (next s a).filter fun r => ok s r.1

theorem filter_along {α : Type} {next : σ → α → Option (ε × σ)} {ok : σ → ε → Bool} {Q : σ → ε → Prop}
    (hn : ∀ s a e t, next s a = some (e, t) → step s e t) (hq : ∀ s e, ok s e = true → Q s e) (s : σ) (a : α) (e : ε)
    (t : σ) (h : filter next ok s a = some (e, t)) : Along step Q s e t := by
  obtain ⟨h, hok⟩ := Option.filter_eq_some_iff.1 h
  exact ⟨hn s a e t h, hq s e hok⟩

theorem exec_map {α : Type} {next : σ → α → Option (ε × σ)} {f : ε → α}
    (hn : ∀ s a e t, next s a = some (e, t) → f e = a) :
    ∀ {as : List α} {tr : List ε} {s t : σ}, exec next s as = some (tr, t) → tr.map f = as
  | [], tr, s, t, h => by
    cases h
    rfl
  | a :: as, tr, s, t, h => by
    obtain ⟨⟨e, s'⟩, he, h⟩ := Option.bind_eq_some_iff.1 h
    obtain ⟨⟨tr', t'⟩, hrest, h⟩ := Option.bind_eq_some_iff.1 h
    cases h
    rw [List.map_cons, hn _ _ _ _ he, exec_map hn hrest]

/-- **Projection**: a run is a run of the system a function of its states maps it to, over the labels it keeps. -/
theorem Run.project {stepB : τ → δ → τ → Prop} {f : σ → τ} {keep : ε → Option δ}
    (hs : ∀ s e t, step s e t → match keep e with | some d => stepB (f s) d (f t) | none => f t = f s)
    (r : Run step s₀ tr s) : Run stepB (f s₀) (tr.filterMap keep) (f s) := by
  induction r with
  | nil => exact .nil
  | @snoc tr s t e r h ih =>
    have he := hs _ _ _ h
    rw [List.filterMap_append]
    cases hk : keep e with
    | some d =>
      rw [hk] at he
      simpa [hk] using ih.snoc he
    | none =>
      rw [hk] at he
      simpa [hk, he] using ih

/-- **Weak simulation**: when every step of a run is matched by a run with the same visible labels, so is the run. -/
theorem Run.matched {γ : Type} {stepB : τ → δ → τ → Prop} {R : σ → τ → Prop} {t₀ : τ} {L : ε → Prop}
    {seen : ε → Option γ} {seenB : δ → Option γ} (h0 : R s₀ t₀)
    (hs : ∀ s e s' t, R s t → L e → step s e s' →
      ∃ tr t', Run stepB t tr t' ∧ tr.filterMap seenB = (seen e).toList ∧ R s' t')
    (r : Run step s₀ tr s) (hL : ∀ e ∈ tr, L e) :
    ∃ tr' t, Run stepB t₀ tr' t ∧ tr'.filterMap seenB = tr.filterMap seen ∧ R s t := by
  induction r with
  | nil => exact ⟨[], t₀, .nil, rfl, h0⟩
  | @snoc tr s s' e _ h ih =>
    obtain ⟨past, t, hpast, hseen, hR⟩ := ih fun e he => hL e (List.mem_append_left _ he)
    obtain ⟨next, t', hnext, hlast, hR'⟩ := hs _ _ _ _ hR (hL e (List.mem_append_right _ List.mem_cons_self)) h
    refine ⟨past ++ next, t', hpast.append hnext, ?_, hR'⟩
    rw [List.filterMap_append, List.filterMap_append, hseen, hlast]
    cases he : seen e <;> simp [he]

end Lts
