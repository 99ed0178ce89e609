import TopicServer.Base
/-!
# Stdio — lines of the standard input

Both programs read a line with `fgets` into a buffer of their own and then cut its last byte off, which is the newline
unless the line was longer than the size given or the input ended without one.  At the end of the input `fgets` leaves
the buffer as it is.
-/
namespace Ts

open Mem

/-- Up to `n` bytes of the input, a newline the last of them; and what is left. -/
def fgetsLine : Nat → Bytes → Bytes × Bytes
  | 0, input => ([], input)
  | _ + 1, [] => ([], [])
  | n + 1, c :: input =>
    if c = newline then ([c], input)
    else (c :: (fgetsLine n input).1, (fgetsLine n input).2)

def fgets (buffer : Bytes) (size : Nat) (input : Bytes) : Option (Bytes × Bytes) :=
  if input = [] then some (buffer, [])
  else do
    let (line, input) := fgetsLine (size - 1) input
    let buffer ← write buffer 0 (line ++ [0])
    return (buffer, input)

/-- `buffer[strlen(buffer) - 1] = '\0'`; an empty string has no last byte. -/
def chop (buffer : Bytes) : Option Bytes := do
  let s ← cstr buffer
  if s.length = 0 then none
  else write buffer (s.length - 1) [0]

theorem fgetsLine_append : ∀ (n : Nat) (input : Bytes), (fgetsLine n input).1 ++ (fgetsLine n input).2 = input
  | 0, _ => rfl
  | _ + 1, [] => rfl
  | n + 1, c :: input => by
    unfold fgetsLine
    split
    · rfl
    · rw [List.cons_append, fgetsLine_append n input]

theorem length_fgetsLine_le : ∀ (n : Nat) (input : Bytes), (fgetsLine n input).1.length ≤ n
  | 0, _ => Nat.le_refl 0
  | _ + 1, [] => Nat.zero_le _
  | n + 1, c :: input => by
    have := length_fgetsLine_le n input
    unfold fgetsLine
    split
    · simp
    · simpa using this

theorem fgetsLine_ne_nil {n : Nat} (hn : 0 < n) {input : Bytes} (h : input ≠ []) : (fgetsLine n input).1 ≠ [] := by
  obtain ⟨n, rfl⟩ := Nat.exists_eq_add_of_lt hn
  obtain ⟨c, input, rfl⟩ := List.exists_cons_of_ne_nil h
  unfold fgetsLine
  split <;> simp

theorem newline_not_mem_dropLast : ∀ (n : Nat) (input : Bytes), newline ∉ (fgetsLine n input).1.dropLast
  | 0, _ => by simp [fgetsLine]
  | _ + 1, [] => by simp [fgetsLine]
  | n + 1, c :: input => by
    have ih := newline_not_mem_dropLast n input
    unfold fgetsLine
    split
    · simp
    · rename_i hc
      cases hl : (fgetsLine n input).1 with
      | nil => simp
      | cons x l =>
        rw [hl] at ih
        simp only [List.dropLast_cons_cons, List.mem_cons, not_or]
        exact ⟨Ne.symm hc, ih⟩

theorem chop_holds {buffer s : Bytes} (h : Holds buffer s) (hs : s ≠ []) :
    ∃ buffer', chop buffer = some buffer' ∧ Holds buffer' s.dropLast ∧ buffer'.length = buffer.length := by
  have hcstr := h.cstr_eq
  obtain ⟨h0, rest, rfl⟩ := h
  have hsplit : s ++ 0 :: rest = s.dropLast ++ ([s.getLast hs] ++ (0 :: rest)) := by
    rw [← List.append_assoc, List.dropLast_append_getLast hs]
  have hlen : s.length - 1 = s.dropLast.length := List.length_dropLast.symm
  have h0' : 0 ∉ s.dropLast := fun hm => h0 (List.mem_of_mem_dropLast hm)
  refine ⟨s.dropLast ++ 0 :: (0 :: rest), ?_, holds_terminated h0' _, ?_⟩
  · simp only [chop, hcstr, Option.bind_eq_bind, Option.bind_some]
    rw [if_neg (fun hz => hs (List.length_eq_zero_iff.1 hz)), hlen, hsplit]
    exact write_mid rfl
  · have := List.length_pos_iff.2 hs
    simp only [List.length_append, List.length_cons, List.length_dropLast]
    omega

theorem holds_of_chop {buffer buffer' : Bytes} (h : chop buffer = some buffer') :
    ∃ s, Holds buffer s ∧ s ≠ [] ∧ Holds buffer' s.dropLast := by
  obtain ⟨s, hs, hcut⟩ := Option.bind_eq_some_iff.1 h
  have hhold := holds_of_cstr hs
  have hne : s ≠ [] := by
    rintro rfl
    simp at hcut
  obtain ⟨b, hb, hhold', -⟩ := chop_holds hhold hne
  obtain rfl : b = buffer' := Option.some.inj (hb.symm.trans h)
  exact ⟨s, hhold, hne, hhold'⟩

/-- **A line read and cut**: the buffer holds it without its last byte. -/
theorem fgets_chop (buffer : Bytes) (size : Nat) {input : Bytes} (hsize : 1 < size) (hbuf : size ≤ buffer.length)
    (h0 : 0 ∉ input) (hne : input ≠ []) : ∃ b b', fgets buffer size input = some (b, (fgetsLine (size - 1) input).2) ∧
      chop b = some b' ∧ Holds b' (fgetsLine (size - 1) input).1.dropLast ∧ b'.length = buffer.length := by
  have happ := fgetsLine_append (size - 1) input
  have hlen := length_fgetsLine_le (size - 1) input
  have hline := fgetsLine_ne_nil (n := size - 1) (by omega) hne
  generalize hL : (fgetsLine (size - 1) input).1 = line at *
  have h0' : 0 ∉ line := fun hm => h0 (happ ▸ List.mem_append_left _ hm)
  have hwrite : write buffer 0 (line ++ [0]) = some (line ++ 0 :: buffer.drop (line.length + 1)) := by
    rw [write_zero (by rw [List.length_append, List.length_singleton]; omega)]
    simp
  obtain ⟨b', hchop, hhold, hb'⟩ := chop_holds (holds_terminated h0' (buffer.drop (line.length + 1))) hline
  refine ⟨_, b', ?_, hchop, hhold, ?_⟩
  · simp only [fgets, if_neg hne, hL, hwrite, Option.bind_eq_bind, Option.bind_some]
    rfl
  · rw [hb']
    simp only [List.length_append, List.length_cons, List.length_drop]
    omega

/-! ## Lines and pieces -/

theorem fgetsLine_line {n : Nat} {l : Bytes} (rest : Bytes) (hnl : newline ∉ l) (hlen : l.length < n) :
    fgetsLine n (l ++ newline :: rest) = (l ++ [newline], rest) := by
  induction l generalizing n with
  | nil =>
    obtain ⟨n, rfl⟩ := Nat.exists_eq_add_of_lt hlen
    simp [fgetsLine]
  | cons c l ih =>
    rw [List.mem_cons, not_or] at hnl
    obtain ⟨n, rfl⟩ : ∃ m, n = m + 1 := ⟨n - 1, by omega⟩
    have hlen : l.length < n := by simpa using hlen
    simp [fgetsLine, Ne.symm hnl.1, ih hnl.2 hlen]

theorem fgetsLine_piece {n : Nat} {l : Bytes} (rest : Bytes) (hnl : newline ∉ l) (hlen : n ≤ l.length) :
    fgetsLine n (l ++ rest) = (l.take n, l.drop n ++ rest) := by
  induction l generalizing n with
  | nil =>
    obtain rfl : n = 0 := Nat.le_zero.1 hlen
    rfl
  | cons c l ih =>
    rw [List.mem_cons, not_or] at hnl
    cases n with
    | zero => rfl
    | succ n =>
      have hlen : n ≤ l.length := by simpa using hlen
      simp [fgetsLine, Ne.symm hnl.1, ih hnl.2 hlen]

end Ts
