import Mathlib.Data.List.TakeWhile
import Mathlib.Data.List.Forall2
/-!
# Glob — patterns over a list of levels, and the cutting of a text into levels

A pattern stands for one level (`one`), for one or more (`many`), or for one given level (`lit`).  A list of patterns
matches a list of levels when the levels can be cut into consecutive blocks, one accepted by each pattern (`Cuts`).
`glob` decides it by looking at one level at a time (`glob_iff_cuts`).  A text is cut into its levels at a separator,
and an empty last level is dropped (`levels`); `levels_of_ne_nil` is the recursion a scanner follows.
-/
namespace Glob

variable {α : Type}

inductive Pat (α : Type)
  | one
  | many
  | lit (a : α)
deriving DecidableEq

/-- The blocks of consecutive levels a pattern accepts. -/
def Pat.Accepts : Pat α → List α → Prop
  | .one,   b => b.length = 1
  | .many,  b => b ≠ []
  | .lit a, b => b = [a]

/-- **The matching relation**: `xs` can be cut into consecutive blocks, one accepted by each pattern in order. -/
def Cuts (ps : List (Pat α)) (xs : List α) : Prop :=
  ∃ blocks : List (List α), blocks.flatten = xs ∧ List.Forall₂ Pat.Accepts ps blocks

theorem Pat.Accepts.ne_nil {p : Pat α} {b : List α} (h : p.Accepts b) : b ≠ [] := by
  cases p with
  | one => rintro rfl; cases h
  | many => exact h
  | lit a => rintro rfl; cases h

theorem cuts_nil_iff (xs : List α) : Cuts [] xs ↔ xs = [] := by
  constructor
  · rintro ⟨blocks, rfl, h⟩
    cases h
    rfl
  · rintro rfl
    exact ⟨[], rfl, .nil⟩

theorem cuts_cons_iff (p : Pat α) (ps : List (Pat α)) (xs : List α) :
    Cuts (p :: ps) xs ↔ ∃ b rest, xs = b ++ rest ∧ p.Accepts b ∧ Cuts ps rest := by
  constructor
  · rintro ⟨blocks, rfl, h⟩
    cases h with
    | cons hp hps => exact ⟨_, _, by rw [List.flatten_cons], hp, _, rfl, hps⟩
  · rintro ⟨b, rest, rfl, hp, blocks, rfl, hps⟩
    exact ⟨b :: blocks, by rw [List.flatten_cons], .cons hp hps⟩

theorem not_cuts_cons_nil (p : Pat α) (ps : List (Pat α)) : ¬ Cuts (p :: ps) [] := by
  rw [cuts_cons_iff]
  rintro ⟨b, rest, hb, hp, -⟩
  exact hp.ne_nil (List.append_eq_nil_iff.1 hb.symm).1

theorem cuts_one_iff (ps : List (Pat α)) (x : α) (xs : List α) : Cuts (.one :: ps) (x :: xs) ↔ Cuts ps xs := by
  rw [cuts_cons_iff]
  constructor
  · rintro ⟨b, rest, hb, hp, hps⟩
    obtain ⟨y, rfl⟩ := List.length_eq_one_iff.1 hp
    obtain ⟨-, rfl⟩ := List.cons.inj hb
    exact hps
  · intro h
    exact ⟨[x], xs, rfl, rfl, h⟩

theorem cuts_lit_iff (a : α) (ps : List (Pat α)) (x : α) (xs : List α) :
    Cuts (.lit a :: ps) (x :: xs) ↔ a = x ∧ Cuts ps xs := by
  rw [cuts_cons_iff]
  constructor
  · rintro ⟨b, rest, hb, hp, hps⟩
    obtain rfl : b = [a] := hp
    obtain ⟨rfl, rfl⟩ := List.cons.inj hb
    exact ⟨rfl, hps⟩
  · rintro ⟨rfl, h⟩
    exact ⟨[a], xs, rfl, rfl, h⟩

theorem cuts_many_iff (ps : List (Pat α)) (x : α) (xs : List α) :
    Cuts (.many :: ps) (x :: xs) ↔ Cuts ps xs ∨ Cuts (.many :: ps) xs := by
  constructor
  · intro h
    obtain ⟨b, rest, hb, hp, hps⟩ := (cuts_cons_iff _ _ _).1 h
    cases b with
    | nil => exact absurd rfl hp
    | cons y b =>
      obtain ⟨rfl, rfl⟩ := List.cons.inj hb
      by_cases hne : b = []
      · subst hne
        exact Or.inl hps
      · exact Or.inr ((cuts_cons_iff _ _ _).2 ⟨b, rest, rfl, hne, hps⟩)
  · rintro (h | h)
    · exact (cuts_cons_iff _ _ _).2 ⟨[x], xs, rfl, List.cons_ne_nil _ _, h⟩
    · obtain ⟨b, rest, rfl, -, hps⟩ := (cuts_cons_iff _ _ _).1 h
      exact (cuts_cons_iff _ _ _).2 ⟨x :: b, rest, rfl, List.cons_ne_nil _ _, hps⟩

/-- The decision, one level at a time; a `many` is tried as a block that ends here before one that goes on. -/
def glob [DecidableEq α] : List (Pat α) → List α → Bool
  | [],          []      => true
  | [],          _ :: _  => false
  | _ :: _,      []      => false
  | .one :: ps,   _ :: xs => glob ps xs
  | .many :: ps,  _ :: xs => glob ps xs || glob (.many :: ps) xs
  | .lit a :: ps, x :: xs => decide (a = x) && glob ps xs

theorem glob_iff_cuts [DecidableEq α] : ∀ (ps : List (Pat α)) (xs : List α), glob ps xs = true ↔ Cuts ps xs
  | [], [] => by simp [glob, cuts_nil_iff]
  | [], x :: xs => by simp [glob, cuts_nil_iff]
  | p :: ps, [] => by simp [glob, not_cuts_cons_nil]
  | .one :: ps, x :: xs => by rw [glob, cuts_one_iff, glob_iff_cuts ps xs]
  | .many :: ps, x :: xs => by
    rw [glob, cuts_many_iff, Bool.or_eq_true, glob_iff_cuts ps xs, glob_iff_cuts (.many :: ps) xs]
  | .lit a :: ps, x :: xs => by
    rw [glob, cuts_lit_iff, Bool.and_eq_true, decide_eq_true_eq, glob_iff_cuts ps xs]

instance [DecidableEq α] (ps : List (Pat α)) (xs : List α) : Decidable (Cuts ps xs) :=
  decidable_of_iff _ (glob_iff_cuts ps xs)

/-! ## Levels -/

section Levels

variable [DecidableEq α]

/-- The text before the first separator. -/
def firstPart (sep : α) (s : List α) : List α := s.takeWhile (· ≠ sep)

/-- The text after the first separator; nothing when there is none. -/
def restPart (sep : α) (s : List α) : List α := (s.dropWhile (· ≠ sep)).drop 1

/-- **The levels of a text**: it is cut at every separator, and one empty last level is dropped. -/
def levels (sep : α) (s : List α) : List (List α) :=
  if (s.splitOn sep).getLast? = some [] then (s.splitOn sep).dropLast else s.splitOn sep

variable (sep : α)

theorem firstPart_append {a : List α} (h : sep ∉ a) (b : List α) : firstPart sep (a ++ sep :: b) = a := by
  unfold firstPart
  rw [List.takeWhile_append_of_pos (fun x hx => by simpa using fun e : x = sep => h (e ▸ hx))]
  simp

theorem restPart_append {a : List α} (h : sep ∉ a) (b : List α) : restPart sep (a ++ sep :: b) = b := by
  unfold restPart
  rw [List.dropWhile_append_of_pos (fun x hx => by simpa using fun e : x = sep => h (e ▸ hx))]
  simp

theorem firstPart_eq_self {s : List α} (h : sep ∉ s) : firstPart sep s = s :=
  List.takeWhile_eq_self_iff.2 (fun x hx => by simpa using fun e : x = sep => h (e ▸ hx))

theorem restPart_eq_nil {s : List α} (h : sep ∉ s) : restPart sep s = [] := by
  unfold restPart
  rw [List.dropWhile_eq_nil_iff.2 (fun x hx => by simpa using fun e : x = sep => h (e ▸ hx))]
  rfl

theorem eq_firstPart_append {s : List α} (h : sep ∈ s) : s = firstPart sep s ++ sep :: restPart sep s := by
  obtain ⟨a, b, rfl, ha⟩ := List.eq_append_cons_of_mem h
  rw [firstPart_append sep ha, restPart_append sep ha]

theorem sep_not_mem_firstPart (s : List α) : sep ∉ firstPart sep s :=
  fun h => by simpa using List.mem_takeWhile_imp h

theorem firstPart_infix (s : List α) : firstPart sep s <:+: s := by
  unfold firstPart
  exact List.IsPrefix.isInfix ( List.takeWhile_prefix _)

theorem restPart_suffix (s : List α) : restPart sep s <:+ s :=
  (List.drop_suffix 1 _).trans (List.dropWhile_suffix _)

/-- **The rest is shorter**: a scanner that goes on with it ends. -/
theorem length_restPart_lt {s : List α} (h : s ≠ []) : (restPart sep s).length < s.length := by
  by_cases hs : sep ∈ s
  · have hlen := congrArg List.length (eq_firstPart_append sep hs)
    simp only [List.length_append, List.length_cons] at hlen
    omega
  · rw [restPart_eq_nil sep hs]
    exact List.length_pos_iff.2 h

@[simp] theorem levels_nil : levels sep [] = [] := by simp [levels]

theorem levels_of_ne_nil {s : List α} (h : s ≠ []) :
    levels sep s = firstPart sep s :: levels sep (restPart sep s) := by
  by_cases hs : sep ∈ s
  · have hsplit : s.splitOn sep = firstPart sep s :: (restPart sep s).splitOn sep := by
      conv => lhs; rw [eq_firstPart_append sep hs]
      exact List.splitOn_append_cons_self_of_not_mem (sep_not_mem_firstPart sep s) _
    obtain ⟨x, L, hL⟩ := List.exists_cons_of_ne_nil (List.splitOn_ne_nil sep (restPart sep s))
    unfold levels
    rw [hsplit, hL, List.getLast?_cons_cons, List.dropLast_cons_cons]
    split <;> rfl
  · unfold levels
    rw [List.splitOn_eq_singleton hs, firstPart_eq_self sep hs, restPart_eq_nil sep hs]
    simp [h]

theorem infix_of_mem_levels : ∀ (s : List α), ∀ l ∈ levels sep s, l <:+: s := by
  intro s
  induction hn : s.length using Nat.strong_induction_on generalizing s with
  | _ n ih =>
    subst hn
    intro l hl
    by_cases hs : s = []
    · subst hs
      simp at hl
    · rw [levels_of_ne_nil sep hs] at hl
      rcases List.mem_cons.1 hl with rfl | hl
      · exact firstPart_infix sep s
      · exact (ih _ (length_restPart_lt sep hs) _ rfl l hl).trans (restPart_suffix sep s).isInfix

/-- A level is one of the pieces between two separators; only an empty one can be missing among them. -/
theorem mem_levels_iff {s l : List α} (hl : l ≠ []) : l ∈ levels sep s ↔ l ∈ s.splitOn sep := by
  unfold levels
  split
  · rename_i hlast
    have hsplit : s.splitOn sep = (s.splitOn sep).dropLast ++ [[]] := (List.dropLast_append_getLast? [] hlast).symm
    conv => rhs; rw [hsplit, List.mem_append, List.mem_singleton]
    exact ⟨Or.inl, fun h => h.resolve_right hl⟩
  · exact Iff.rfl

/-- `t` is `s` with one separator more, behind a last level that is not empty. -/
def Trailing (s t : List α) : Prop := t = s ++ [sep] ∧ s ≠ [] ∧ s.getLast? ≠ some sep

instance (s t : List α) : Decidable (Trailing sep s t) := inferInstanceAs (Decidable (_ ∧ _ ∧ _))

theorem levels_append_cons {a : List α} (ha : sep ∉ a) (b : List α) :
    levels sep (a ++ sep :: b) = a :: levels sep b := by
  rw [levels_of_ne_nil sep (by simp), firstPart_append sep ha, restPart_append sep ha]

theorem levels_of_not_mem {s : List α} (hne : s ≠ []) (hs : sep ∉ s) : levels sep s = [s] := by
  rw [levels_of_ne_nil sep hne, firstPart_eq_self sep hs, restPart_eq_nil sep hs, levels_nil]

/-- **The levels closed one by one** give back the text, itself closed if its last level is not empty. -/
theorem flatMap_levels : ∀ (s : List α), (levels sep s).flatMap (· ++ [sep]) =
    if s = [] ∨ s.getLast? = some sep then s else s ++ [sep] := by
  intro s
  induction hn : s.length using Nat.strong_induction_on generalizing s with
  | _ n ih =>
    subst hn
    by_cases hs : s = []
    · subst hs
      simp
    by_cases hmem : sep ∈ s
    · obtain ⟨a, b, rfl, ha⟩ := List.eq_append_cons_of_mem hmem
      have hrest := ih b.length (by simp; omega) b rfl
      rw [levels_append_cons sep ha, List.flatMap_cons, hrest]
      rcases List.eq_nil_or_concat b with rfl | ⟨b, x, rfl⟩
      · simp
      · by_cases hx : x = sep
        · simp [hx, List.getLast?_cons]
        · simp [hx, List.getLast?_cons]
    · have hlast : s.getLast? ≠ some sep := fun h => hmem (List.mem_of_getLast? h)
      rw [levels_of_not_mem sep hs hmem]
      simp [hs, hlast]

theorem levels_append_sep : ∀ (s : List α), s ≠ [] → s.getLast? ≠ some sep → levels sep (s ++ [sep]) = levels sep s := by
  intro s
  induction hn : s.length using Nat.strong_induction_on generalizing s with
  | _ n ih =>
    subst hn
    intro hs hlast
    by_cases hmem : sep ∈ s
    · obtain ⟨a, b, rfl, ha⟩ := List.eq_append_cons_of_mem hmem
      have hb : b ≠ [] := fun h => hlast (by simp [h])
      have hblast : b.getLast? ≠ some sep := fun h => hlast (by simp [List.getLast?_append, List.getLast?_cons, h])
      rw [List.append_assoc, List.cons_append, levels_append_cons sep ha, levels_append_cons sep ha,
        ih b.length (by simp; omega) b rfl hb hblast]
    · rw [levels_append_cons sep hmem, levels_of_not_mem sep hs hmem, levels_nil]

/-- **Two texts have the same levels** when they are equal, or when one is the other with a separator more at its end. -/
theorem levels_eq_iff (s t : List α) : levels sep s = levels sep t ↔ s = t ∨ Trailing sep s t ∨ Trailing sep t s := by
  constructor
  · intro h
    have hjoin := congrArg (List.flatMap (· ++ [sep])) h
    rw [flatMap_levels, flatMap_levels] at hjoin
    by_cases hs : s = [] ∨ s.getLast? = some sep
    · by_cases ht : t = [] ∨ t.getLast? = some sep
      · rw [if_pos hs, if_pos ht] at hjoin
        exact Or.inl hjoin
      · rw [if_pos hs, if_neg ht] at hjoin
        rw [not_or] at ht
        exact Or.inr (Or.inr ⟨hjoin, ht⟩)
    · by_cases ht : t = [] ∨ t.getLast? = some sep
      · rw [if_neg hs, if_pos ht] at hjoin
        rw [not_or] at hs
        exact Or.inr (Or.inl ⟨hjoin.symm, hs⟩)
      · rw [if_neg hs, if_neg ht] at hjoin
        exact Or.inl (List.append_cancel_right hjoin)
  · rintro (rfl | ⟨rfl, hne, hlast⟩ | ⟨rfl, hne, hlast⟩)
    · rfl
    · exact (levels_append_sep sep s hne hlast).symm
    · exact levels_append_sep sep t hne hlast

end Levels

theorem glob_lit [DecidableEq α] : ∀ (ls xs : List α), glob (ls.map .lit) xs = decide (ls = xs)
  | [], [] => rfl
  | [], _ :: _ => rfl
  | _ :: _, [] => rfl
  | l :: ls, x :: xs => by
    rw [List.map_cons, glob, glob_lit ls xs]
    simp [List.cons.injEq]

end Glob
