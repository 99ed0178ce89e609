import Mathlib.Data.List.Basic
/-!
# Fifo — a reliable ordered channel from a sender that may close it

The receiver takes the messages one by one; when none is left it waits, or, once the sender has closed the channel,
learns that there are no more.  Nothing is lost and nothing is doubled: what was taken and what is left make up what was
sent (`Chan.sent`).
-/
namespace Fifo

variable {α : Type}

structure Chan (α : Type) where
  read : List α
  unread : List α
  closed : Bool

namespace Chan

def sent (c : Chan α) : List α := c.read ++ c.unread

def new : Chan α := ⟨[], [], false⟩

def send (c : Chan α) (m : α) : Option (Chan α) := if c.closed then none else some { c with unread := c.unread ++ [m] }

def close (c : Chan α) : Chan α := { c with closed := true }

/-- What the receiver is given next: a message, or the end; it waits when there is neither. -/
def take (c : Chan α) : Option (Option α × Chan α) :=
  match c.unread with
  | m :: rest => some (some m, { c with read := c.read ++ [m], unread := rest })
  | [] => if c.closed then some (none, c) else none

def pending (c : Chan α) : Bool := !c.unread.isEmpty || c.closed

theorem send_eq_some {c c' : Chan α} {m : α} (h : c.send m = some c') : c' = { c with unread := c.unread ++ [m] } := by
  unfold send at h
  split at h
  · cases h
  · exact (Option.some.inj h).symm

theorem sent_send {c c' : Chan α} {m : α} (h : c.send m = some c') : c'.read = c.read ∧ c'.sent = c.sent ++ [m] := by
  rw [send_eq_some h]
  exact ⟨rfl, (List.append_assoc ..).symm⟩

/-- **A message is taken in order and once.** -/
theorem take_message {c c' : Chan α} {m : α} (h : c.take = some (some m, c')) :
    c'.read = c.read ++ [m] ∧ c'.sent = c.sent ∧ c'.closed = c.closed := by
  unfold take at h
  split at h
  · rename_i x rest hu
    obtain ⟨hm, rfl⟩ := Prod.mk.inj (Option.some.inj h)
    obtain rfl := Option.some.inj hm
    exact ⟨rfl, by simp [sent, hu], rfl⟩
  · split at h
    · exact absurd (Prod.mk.inj (Option.some.inj h)).1 (by simp)
    · cases h

theorem take_end {c c' : Chan α} (h : c.take = some (none, c')) : c' = c ∧ c.closed = true ∧ c.read = c.sent := by
  unfold take at h
  split at h
  · exact absurd (Prod.mk.inj (Option.some.inj h)).1 (by simp)
  · rename_i hu
    split at h
    · rename_i hc
      exact ⟨(Prod.mk.inj (Option.some.inj h)).2.symm, hc, by simp [sent, hu]⟩
    · cases h

theorem take_kept {c c' : Chan α} {m : Option α} (h : c.take = some (m, c')) :
    c'.sent = c.sent ∧ c'.closed = c.closed := by
  cases m with
  | none => rw [(take_end h).1]; exact ⟨rfl, rfl⟩
  | some m => exact (take_message h).2

theorem eq_of_sent_nil {c : Chan α} (h : c.sent = []) : c = ⟨[], [], c.closed⟩ := by
  obtain ⟨read, unread, closed⟩ := c
  obtain ⟨rfl, rfl⟩ := List.append_eq_nil_iff.1 h
  rfl

end Chan

end Fifo
