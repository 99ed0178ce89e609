import Mathlib.Data.List.AList
/-!
# Table — finite maps with an indexing operator that inserts

A finite map is an association list without a key twice.  `entry` is the indexing operator of the C++ maps: a key that
is missing is first inserted with a default value.
-/
namespace Table

variable {α β : Type} [DecidableEq α]

abbrev Map (α β : Type) [DecidableEq α] := AList (fun _ : α => β)

/-- `m[k]`: the value, and the map after the access. -/
def entry (m : Map α β) (k : α) (default : β) : β × Map α β :=
  match m.lookup k with
  | some v => (v, m)
  | none => (default, m.insert k default)

theorem entry_of_lookup {m : Map α β} {k : α} {v : β} (h : m.lookup k = some v) (default : β) :
    entry m k default = (v, m) := by
  simp [entry, h]

theorem lookup_insert_if (m : Map α β) (k a : α) (v : β) :
    (m.insert k v).lookup a = if a = k then some v else m.lookup a := by
  by_cases h : a = k
  · rw [h, if_pos rfl, AList.lookup_insert]
  · rw [if_neg h, AList.lookup_insert_ne h]

theorem lookup_erase_if (m : Map α β) (k a : α) :
    (m.erase k).lookup a = if a = k then none else m.lookup a := by
  by_cases h : a = k
  · rw [h, if_pos rfl, AList.lookup_erase]
  · rw [if_neg h, AList.lookup_erase_ne h]

theorem lookup_erase_eq_some {m : Map α β} {k a : α} {v : β} :
    (m.erase k).lookup a = some v ↔ a ≠ k ∧ m.lookup a = some v := by
  rw [lookup_erase_if]
  by_cases h : a = k <;> simp [h]

theorem mem_iff_lookup {m : Map α β} {k : α} : k ∈ m ↔ ∃ v, m.lookup k = some v := by
  rw [← AList.lookup_isSome, Option.isSome_iff_exists]

end Table
