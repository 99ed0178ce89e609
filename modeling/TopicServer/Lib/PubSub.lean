import Mathlib.Data.List.Induction
import Mathlib.Logic.Function.Basic
import Mathlib.Data.List.Basic
/-!
# PubSub — a broker that lets the last matching command decide

A broker knows who is logged in on which connection and, for every user, the commands the user has ever given, oldest
first; a logout forgets the session and keeps the commands.  A user receives a topic when the last of the commands that
match it (`Last`) asks for it.  What matches and what a command asks for are parameters.
-/
namespace PubSub

variable {Conn User Cmd Topic : Type}

structure Broker (Conn User Cmd : Type) where
  session : Conn → Option User
  history : User → List Cmd

namespace Broker

def empty : Broker Conn User Cmd := ⟨fun _ => none, fun _ => []⟩

section Sessions

variable [DecidableEq Conn]

def login (b : Broker Conn User Cmd) (c : Conn) (u : User) : Broker Conn User Cmd :=
  { b with session := Function.update b.session c (some u) }

def logout (b : Broker Conn User Cmd) (c : Conn) : Broker Conn User Cmd :=
  { b with session := Function.update b.session c none }

@[simp] theorem session_login (b : Broker Conn User Cmd) (c x : Conn) (u : User) :
    (b.login c u).session x = if x = c then some u else b.session x := Function.update_apply _ _ _ _

@[simp] theorem session_logout (b : Broker Conn User Cmd) (c x : Conn) :
    (b.logout c).session x = if x = c then none else b.session x := Function.update_apply _ _ _ _

@[simp] theorem history_login (b : Broker Conn User Cmd) (c : Conn) (u : User) :
    (b.login c u).history = b.history := rfl

@[simp] theorem history_logout (b : Broker Conn User Cmd) (c : Conn) : (b.logout c).history = b.history := rfl

end Sessions

section Commands

variable [DecidableEq User]

def command (b : Broker Conn User Cmd) (u : User) (cmd : Cmd) : Broker Conn User Cmd :=
  { b with history := Function.update b.history u (b.history u ++ [cmd]) }

@[simp] theorem session_command (b : Broker Conn User Cmd) (u : User) (cmd : Cmd) :
    (b.command u cmd).session = b.session := rfl

@[simp] theorem history_command (b : Broker Conn User Cmd) (u v : User) (cmd : Cmd) :
    (b.command u cmd).history v = if v = u then b.history u ++ [cmd] else b.history v := Function.update_apply _ _ _ _

end Commands

end Broker

/-- `c` is the last of the commands that satisfy `P`. -/
def Last (P : Cmd → Prop) (h : List Cmd) (c : Cmd) : Prop :=
  ∃ pre post, h = pre ++ c :: post ∧ P c ∧ ∀ x ∈ post, ¬ P x

/-- **Who receives a topic**: a connection with a user whose last matching command asks for it. -/
def Broker.Receives (b : Broker Conn User Cmd) (Match : Cmd → Topic → Prop) (on : Cmd → Bool) (c : Conn) (t : Topic) :
    Prop :=
  ∃ u, b.session c = some u ∧ ∃ cmd, Last (Match · t) (b.history u) cmd ∧ on cmd = true

theorem find?_reverse_eq_some_iff {p : Cmd → Bool} {h : List Cmd} {c : Cmd} :
    h.reverse.find? p = some c ↔ Last (fun x => p x = true) h c := by
  rw [List.find?_eq_some_iff_append]
  constructor
  · rintro ⟨hc, as, bs, hsplit, has⟩
    refine ⟨bs.reverse, as.reverse, ?_, hc, fun x hx => ?_⟩
    · rw [← List.reverse_reverse h, hsplit]
      simp
    · simpa using has x (List.mem_reverse.1 hx)
  · rintro ⟨pre, post, rfl, hc, hpost⟩
    refine ⟨hc, post.reverse, pre.reverse, by simp, fun x hx => ?_⟩
    simpa using hpost x (List.mem_reverse.1 hx)

theorem find?_reverse_asks_iff {p on : Cmd → Bool} {h : List Cmd} :
    ((h.reverse.find? p).map on).getD false = true ↔ ∃ c, Last (fun x => p x = true) h c ∧ on c = true := by
  constructor
  · intro hf
    cases hfind : h.reverse.find? p with
    | none => simp [hfind] at hf
    | some c => exact ⟨c, find?_reverse_eq_some_iff.1 hfind, by simpa [hfind] using hf⟩
  · rintro ⟨c, hlast, hon⟩
    rw [find?_reverse_eq_some_iff.2 hlast]
    exact hon

theorem last_map_iff {α : Type} {f : α → Cmd} {P : Cmd → Prop} {h : List α} {c : Cmd} :
    Last P (h.map f) c ↔ ∃ a, Last (fun x => P (f x)) h a ∧ f a = c := by
  constructor
  · rintro ⟨pre, post, hsplit, hc, hpost⟩
    obtain ⟨pre', rest, rfl, rfl, hrest⟩ := List.map_eq_append_iff.1 hsplit
    obtain ⟨a, post', rfl, rfl, rfl⟩ := List.map_eq_cons_iff.1 hrest
    exact ⟨a, ⟨pre', post', rfl, hc, fun x hx => hpost (f x) (List.mem_map_of_mem hx)⟩, rfl⟩
  · rintro ⟨a, ⟨pre, post, rfl, ha, hpost⟩, rfl⟩
    refine ⟨pre.map f, post.map f, by simp, ha, fun x hx => ?_⟩
    obtain ⟨y, hy, rfl⟩ := List.mem_map.1 hx
    exact hpost y hy

theorem last_congr {P Q : Cmd → Prop} {h : List Cmd} (hPQ : ∀ x ∈ h, P x ↔ Q x) (c : Cmd) : Last P h c ↔ Last Q h c := by
  constructor
  · rintro ⟨pre, post, rfl, hc, hpost⟩
    exact ⟨pre, post, rfl, (hPQ c (by simp)).1 hc, fun x hx hq => hpost x hx ((hPQ x (by simp [hx])).2 hq)⟩
  · rintro ⟨pre, post, rfl, hc, hpost⟩
    exact ⟨pre, post, rfl, (hPQ c (by simp)).2 hc, fun x hx hp => hpost x hx ((hPQ x (by simp [hx])).1 hp)⟩

theorem concat_eq_append_cons {h pre post : List Cmd} {c d : Cmd} (hs : h ++ [c] = pre ++ d :: post) :
    (h = pre ∧ c = d ∧ post = []) ∨ ∃ post', post = post' ++ [c] ∧ h = pre ++ d :: post' := by
  rcases List.eq_nil_or_concat post with rfl | ⟨post, x, rfl⟩
  · obtain ⟨rfl, hcd⟩ := List.append_inj' hs rfl
    exact Or.inl ⟨rfl, (List.cons.inj hcd).1, rfl⟩
  · rw [List.concat_eq_append, ← List.cons_append, ← List.append_assoc] at hs
    obtain ⟨rfl, hcx⟩ := List.append_inj' hs rfl
    exact Or.inr ⟨post, by rw [(List.cons.inj hcx).1, List.concat_eq_append], rfl⟩

/-- What the last command that matches asks for; no, when none matches. -/
def Asks (P : Cmd → Prop) (on : Cmd → Bool) (h : List Cmd) : Prop := ∃ c, Last P h c ∧ on c = true

theorem asks_nil (P : Cmd → Prop) (on : Cmd → Bool) : ¬ Asks P on [] := by
  rintro ⟨c, ⟨pre, post, h, -⟩, -⟩
  cases pre <;> cases h

/-- **The last command decides if it matches**, and otherwise the history before it does. -/
theorem asks_concat_iff {P : Cmd → Prop} {on : Cmd → Bool} {h : List Cmd} {c : Cmd} :
    Asks P on (h ++ [c]) ↔ P c ∧ on c = true ∨ ¬ P c ∧ Asks P on h := by
  constructor
  · rintro ⟨d, ⟨pre, post, hsplit, hd, hpost⟩, hon⟩
    rcases concat_eq_append_cons hsplit with ⟨rfl, rfl, rfl⟩ | ⟨post, rfl, rfl⟩
    · exact Or.inl ⟨hd, hon⟩
    · exact Or.inr ⟨hpost c (by simp), d, ⟨pre, post, rfl, hd, fun x hx => hpost x (by simp [hx])⟩, hon⟩
  · rintro (⟨hc, hon⟩ | ⟨hc, d, ⟨pre, post, rfl, hd, hpost⟩, hon⟩)
    · exact ⟨c, ⟨h, [], rfl, hc, by simp⟩, hon⟩
    · refine ⟨d, ⟨pre, post ++ [c], by simp, hd, fun x hx => ?_⟩, hon⟩
      rcases List.mem_append.1 hx with hx | hx
      · exact hpost x hx
      · rwa [List.mem_singleton.1 hx]

/-- **A coarser match decides the same** exactly when each command that only it sees, and that no later one hides, asks
for what is decided without it. -/
theorem asks_coarser_iff {P Q : Cmd → Prop} (hPQ : ∀ c, P c → Q c) (on : Cmd → Bool) (h : List Cmd) :
    (Asks P on h ↔ Asks Q on h) ↔ ∀ pre c post, h = pre ++ c :: post → Q c → ¬ P c → (∀ x ∈ post, ¬ Q x) →
      (on c = true ↔ Asks P on pre) := by
  -- from the end on: the last command decides for both, for the coarser match only, or for neither
  induction h using List.reverseRecOn with
  | nil => simp [asks_nil]
  | append_singleton h c ih =>
    rw [asks_concat_iff, asks_concat_iff]
    by_cases hQ : Q c
    · by_cases hP : P c
      · refine ⟨fun _ pre d post hsplit hQd hPd hpost => ?_, fun _ => by simp [hP, hQ]⟩
        rcases concat_eq_append_cons hsplit with ⟨rfl, rfl, rfl⟩ | ⟨post, rfl, rfl⟩
        · exact absurd hP hPd
        · exact absurd hQ (hpost c (by simp))
      · simp only [hP, hQ, false_and, not_false_eq_true, true_and, false_or, not_true_eq_false, or_false]
        constructor
        · intro hiff pre d post hsplit hQd hPd hpost
          rcases concat_eq_append_cons hsplit with ⟨rfl, rfl, rfl⟩ | ⟨post, rfl, rfl⟩
          · exact hiff.symm
          · exact absurd hQ (hpost c (by simp))
        · exact fun hcond => (hcond h c [] rfl hQ hP (by simp)).symm
    · have hP : ¬ P c := fun hp => hQ (hPQ c hp)
      simp only [hP, hQ, false_and, not_false_eq_true, true_and, false_or, ih]
      constructor
      · intro hcond pre d post hsplit hQd hPd hpost
        rcases concat_eq_append_cons hsplit with ⟨rfl, rfl, rfl⟩ | ⟨post, rfl, rfl⟩
        · exact absurd hQd hQ
        · exact hcond pre d post rfl hQd hPd (fun y hy => hpost y (by simp [hy]))
      · intro hcond pre d post hsplit hQd hPd hpost
        refine hcond pre d (post ++ [c]) (by simp [hsplit]) hQd hPd (fun y hy => ?_)
        rcases List.mem_append.1 hy with hy | hy
        · exact hpost y hy
        · rwa [List.mem_singleton.1 hy]

/-! ## What each connection has been sent -/

/-- A broker with, for every connection, what it has been sent since its login. -/
structure Post (Conn User Cmd Msg : Type) where
  broker : Broker Conn User Cmd
  sent : Conn → List Msg

namespace Post

variable {Msg : Type}

def empty : Post Conn User Cmd Msg := ⟨.empty, fun _ => []⟩

section Login

variable [DecidableEq Conn]

def login (p : Post Conn User Cmd Msg) (c : Conn) (u : User) : Post Conn User Cmd Msg :=
  ⟨p.broker.login c u, Function.update p.sent c []⟩

@[simp] theorem broker_login (p : Post Conn User Cmd Msg) (c : Conn) (u : User) :
    (p.login c u).broker = p.broker.login c u := rfl

@[simp] theorem sent_login (p : Post Conn User Cmd Msg) (c x : Conn) (u : User) :
    (p.login c u).sent x = if x = c then [] else p.sent x := Function.update_apply _ _ _ _

end Login

open Classical in
noncomputable def publish (p : Post Conn User Cmd Msg) (Match : Cmd → Topic → Prop) (on : Cmd → Bool) (t : Topic)
    (m : Msg) : Post Conn User Cmd Msg :=
  { p with sent := fun c => if p.broker.Receives Match on c t then p.sent c ++ [m] else p.sent c }

def broadcast (p : Post Conn User Cmd Msg) (m : Msg) : Post Conn User Cmd Msg :=
  { p with sent := fun c => if (p.broker.session c).isSome then p.sent c ++ [m] else p.sent c }

@[simp] theorem broker_publish (p : Post Conn User Cmd Msg) (Match : Cmd → Topic → Prop) (on : Cmd → Bool) (t : Topic)
    (m : Msg) : (p.publish Match on t m).broker = p.broker := rfl

@[simp] theorem broker_broadcast (p : Post Conn User Cmd Msg) (m : Msg) : (p.broadcast m).broker = p.broker := rfl

theorem sent_publish_of {p : Post Conn User Cmd Msg} {Match : Cmd → Topic → Prop} {on : Cmd → Bool} {c : Conn} {t : Topic}
    (h : p.broker.Receives Match on c t) (m : Msg) : (p.publish Match on t m).sent c = p.sent c ++ [m] := if_pos h

theorem sent_publish_of_not {p : Post Conn User Cmd Msg} {Match : Cmd → Topic → Prop} {on : Cmd → Bool} {c : Conn}
    {t : Topic} (h : ¬ p.broker.Receives Match on c t) (m : Msg) : (p.publish Match on t m).sent c = p.sent c := if_neg h

theorem sent_broadcast_of {p : Post Conn User Cmd Msg} {c : Conn} {u : User} (h : p.broker.session c = some u) (m : Msg) :
    (p.broadcast m).sent c = p.sent c ++ [m] := if_pos (by rw [h]; rfl)

end Post

end PubSub
