import Mathlib.Data.List.TakeWhile
import Mathlib.Tactic.Linarith
/-!
# Mem — flat memory with its bounds checked, and the C strings it holds

A block of memory is the list of its cells.  Every access says which cells it touches and gives `none` when one of them
is not in the block, so a computation that returns has stayed inside every block it used.  Over blocks of bytes stand
the functions of the C string library that a caller can tell apart: a string is the bytes before the first `0`, and a
function that has to find that `0` gives `none` when the block has none.
-/
namespace Mem

section Cells

variable {α : Type}

/-- A fresh block of `n` cells holding whatever the allocator left in them. -/
def fresh (junk : Nat → α) (n : Nat) : List α := (List.range n).map junk

def read (m : List α) (off n : Nat) : Option (List α) :=
  if off + n ≤ m.length then some ((m.drop off).take n) else none

def write (m : List α) (off : Nat) (xs : List α) : Option (List α) :=
  if off + xs.length ≤ m.length then some (m.take off ++ (xs ++ m.drop (off + xs.length))) else none

/-- `n` cells copied inside one block; the source and the destination may overlap. -/
def memmove (m : List α) (dst src n : Nat) : Option (List α) := (read m src n).bind (write m dst)

@[simp] theorem length_fresh (junk : Nat → α) (n : Nat) : (fresh junk n).length = n := by simp [fresh]

theorem read_mid (a b c : List α) : read (a ++ (b ++ c)) a.length b.length = some b := by
  simp [read]

theorem write_mid {a b c x : List α} (h : x.length = b.length) :
    write (a ++ (b ++ c)) a.length x = some (a ++ (x ++ c)) := by
  have hdrop : (a ++ (b ++ c)).drop (a.length + b.length) = c := by
    rw [← List.append_assoc, ← List.length_append, List.drop_left]
  simp [write, h, hdrop]

theorem write_zero {m xs : List α} (h : xs.length ≤ m.length) :
    write m 0 xs = some (xs ++ m.drop xs.length) := by
  simp [write, h]

theorem length_of_write {m m' xs : List α} {off : Nat} (h : write m off xs = some m') : m'.length = m.length := by
  unfold write at h
  split at h
  · cases h
    simp
    omega
  · cases h

/-- **What a store that stays inside does**: the cells before and after the stored ones are kept. -/
theorem write_eq {m x : List α} (off : Nat) (h : off + x.length ≤ m.length) :
    write m off x = some (m.take off ++ (x ++ m.drop (off + x.length))) := by
  simp [write, h]

end Cells

/-! ## C strings -/

/-- The string at the start of a block: its bytes before the first `0`. -/
def cstr (b : List UInt8) : Option (List UInt8) := if 0 ∈ b then some (b.takeWhile (· ≠ 0)) else none

/-- The block holds the string `s`: `s`, then a `0`, then anything. -/
def Holds (b s : List UInt8) : Prop := 0 ∉ s ∧ ∃ rest, b = s ++ 0 :: rest

theorem takeWhile_append_zero {s rest : List UInt8} (h : 0 ∉ s) : (s ++ 0 :: rest).takeWhile (· ≠ 0) = s := by
  rw [List.takeWhile_append_of_pos (fun x hx => by simpa using fun h0 : x = 0 => h (h0 ▸ hx))]
  simp

theorem Holds.cstr_eq {b s : List UInt8} (h : Holds b s) : cstr b = some s := by
  obtain ⟨h0, rest, rfl⟩ := h
  simp only [cstr, List.mem_append, List.mem_cons, true_or, or_true, if_true]
  rw [takeWhile_append_zero h0]

theorem holds_of_cstr {b s : List UInt8} (h : cstr b = some s) : Holds b s := by
  unfold cstr at h
  split at h
  · rename_i h0
    cases h
    refine ⟨fun hm => by simpa using List.mem_takeWhile_imp hm, ?_⟩
    induction b with
    | nil => cases h0
    | cons x b ih =>
      by_cases hx : x = 0
      · exact ⟨b, by simp [hx]⟩
      · obtain ⟨rest, hr⟩ := ih ((List.mem_cons.1 h0).resolve_left (Ne.symm hx))
        exact ⟨rest, by rw [List.takeWhile_cons_of_pos (by simpa using hx), List.cons_append, ← hr]⟩
  · cases h

theorem holds_terminated {s : List UInt8} (h : 0 ∉ s) (rest : List UInt8) : Holds (s ++ 0 :: rest) s := ⟨h, rest, rfl⟩

theorem cstr_append_zero (l : List UInt8) : cstr (l ++ [0]) = some (l.takeWhile (· ≠ 0)) := by
  simp only [cstr, List.mem_append, List.mem_singleton, or_true, if_true, List.takeWhile_append]
  split
  · rename_i h
    have hl : l.takeWhile (· ≠ 0) = l := List.IsPrefix.eq_of_length ( List.takeWhile_prefix _) h
    rw [hl]
    simp
  · rfl

theorem Holds.length_lt {b s : List UInt8} (h : Holds b s) : s.length < b.length := by
  obtain ⟨-, rest, rfl⟩ := h
  simp

/-- The first byte of a held string is the block's first cell; an empty string shows as `0` there. -/
theorem Holds.head? {b s : List UInt8} (h : Holds b s) : b[0]? = some (s.headD 0) := by
  obtain ⟨-, rest, rfl⟩ := h
  cases s <;> simp

theorem write_terminator {s c : List UInt8} (h0 : 0 ∉ s) (hc : 0 < c.length) :
    ∃ b, write (s ++ c) s.length [0] = some b ∧ Holds b s ∧ b.length = (s ++ c).length := by
  obtain ⟨x, c, rfl⟩ := List.exists_cons_of_length_pos hc
  have hw : write (s ++ ([x] ++ c)) s.length [0] = some (s ++ ([0] ++ c)) := write_mid rfl
  exact ⟨s ++ 0 :: c, hw, holds_terminated h0 c, by simp⟩

/-- A freshly allocated copy of the string at the start of `b`, exactly as long as it has to be. -/
def strdup (b : List UInt8) : Option (List UInt8) := (cstr b).map (· ++ [0])

/-- `strcmp` as its callers read it: whether the two strings are equal. -/
def strcmpEq (x y : List UInt8) : Option Bool := do
  let a ← cstr x
  let b ← cstr y
  return decide (a = b)

def strcpy (dst src : List UInt8) : Option (List UInt8) := do
  let s ← cstr src
  write dst 0 (s ++ [0])

/-- `strncpy (dst + off) src n`: at most `n` bytes of the string at `src`, padded with `0` up to `n`.  It reads past the
block when neither a `0` nor the `n`-th byte comes before its end. -/
def strncpy (dst : List UInt8) (off : Nat) (src : List UInt8) (n : Nat) : Option (List UInt8) :=
  let s := (src.take n).takeWhile (· ≠ 0)
  if n ≤ src.length ∨ 0 ∈ src then write dst off (s ++ List.replicate (n - s.length) 0) else none

theorem Holds.strdup_eq {b s : List UInt8} (h : Holds b s) : strdup b = some (s ++ [0]) := by
  simp [strdup, h.cstr_eq]

theorem Holds.strcmpEq_eq {x y a b : List UInt8} (hx : Holds x a) (hy : Holds y b) :
    strcmpEq x y = some (decide (a = b)) := by
  simp [strcmpEq, hx.cstr_eq, hy.cstr_eq]

theorem Holds.strcpy_eq {dst src s : List UInt8} (h : Holds src s) (hd : s.length < dst.length) :
    strcpy dst src = some (s ++ 0 :: dst.drop (s.length + 1)) := by
  simp only [strcpy, h.cstr_eq, Option.bind_eq_bind, Option.bind_some]
  rw [write_zero (by simpa using Nat.succ_le_of_lt hd)]
  simp

theorem Holds.strncpy_all {dst src s : List UInt8} (h : Holds src s) (hd : s.length < dst.length) :
    strncpy dst 0 src (s.length + 1) = some (s ++ 0 :: dst.drop (s.length + 1)) := by
  obtain ⟨h0, rest, rfl⟩ := h
  have htake : (s ++ 0 :: rest).take (s.length + 1) = s ++ 0 :: [] := by
    rw [List.take_append, List.take_of_length_le (Nat.le_succ _), Nat.add_sub_cancel_left]
    simp
  simp only [strncpy, htake, takeWhile_append_zero h0, List.mem_append, List.mem_cons, true_or, or_true, if_true]
  rw [Nat.add_sub_cancel_left, write_zero (by simpa using Nat.succ_le_of_lt hd)]
  simp

/-- **Copying the first `n` bytes of a longer string**: no terminator is stored. -/
theorem strncpy_part {dst a b : List UInt8} (h0 : 0 ∉ a) (hd : a.length ≤ dst.length) :
    strncpy dst 0 (a ++ b) a.length = some (a ++ dst.drop a.length) := by
  have hall : a.takeWhile (· ≠ 0) = a :=
    List.takeWhile_eq_self_iff.2 (fun x hx => by simpa using fun hz : x = 0 => h0 (hz ▸ hx))
  simp only [strncpy, List.take_left, hall, List.length_append, Nat.le_add_right, true_or, if_true, Nat.sub_self,
    List.replicate_zero, List.append_nil]
  exact write_zero hd

end Mem
