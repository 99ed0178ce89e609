import TopicServer.Match
/-!
# Subs — the subscriptions of one user

A user's subscriptions are kept in the order of the commands, a subscribe and an unsubscribe alike, and never removed;
`getMatch` walks them from the last to the first and lets the first one that matches decide.  The walk copies every
expression and the target into two buffers of 51 bytes, which the matchers destroy.  `getMatch_eq` says what it answers.
-/
namespace Ts

open Mem Glob

/-- The two classes behind `Subscription*`; the expression is the string they own. -/
inductive Subscription
  | nonRegExSubscription (expression : Bytes) (subscribed : Bool)
  | regExSubscription (expression : Bytes) (subscribed : Bool)
deriving DecidableEq

def Subscription.isSubscribed : Subscription → Bool
  | .nonRegExSubscription _ subscribed => subscribed
  | .regExSubscription _ subscribed => subscribed

def Subscription.getExpression : Subscription → Bytes
  | .nonRegExSubscription expression _ => expression
  | .regExSubscription expression _ => expression

/-- The virtual `match` on two buffers; the parameter `expression` hides the member. -/
def Subscription.matchBufs (host : Host) : Subscription → Bytes → Bytes → Option (Bool × Bytes × Bytes)
  | .nonRegExSubscription _ _, expression, target => do
    let res ← strcmpEq expression target
    return (res, expression, target)
  | .regExSubscription _ _, expression, target => regExMatch host (target.length + 1) expression target

structure UserIdSubscriptions where
  subscriptions : List Subscription
  active : Bool
  fd : Fd
deriving DecidableEq

/-- `userIdSubscriptions(active = true, userFd = -1)`. -/
def UserIdSubscriptions.mk' (active : Bool) (userFd : Fd) : UserIdSubscriptions := ⟨[], active, userFd⟩

/-- The loop of `getMatch`, over the subscriptions from the last to the first. -/
def getMatchLoop (host : Host) (target : Bytes) : List Subscription → Bytes → Bytes → Option Bool
  | [], _, _ => some false
  | it :: rest, expressionCopy, targetCopy => do
    let e ← cstr (it.getExpression ++ [0])
    let expressionCopy ← strncpy expressionCopy 0 (it.getExpression ++ [0]) (e.length + 1)
    let t ← cstr target
    let targetCopy ← strncpy targetCopy 0 target (t.length + 1)
    let (m, expressionCopy, targetCopy) ← it.matchBufs host expressionCopy targetCopy
    if m && it.isSubscribed then return true
    else if m && !it.isSubscribed then return false
    else getMatchLoop host target rest expressionCopy targetCopy

def getMatch (host : Host) (u : UserIdSubscriptions) (target : Bytes) : Option Bool :=
  if !u.active then some false
  else getMatchLoop host target u.subscriptions.reverse (List.replicate 51 0) (List.replicate 51 0)

/-- `new regExSubscription(topic, sub)` or `new nonRegExSubscription(topic, sub)`. -/
def newSubscription (host : Host) (topic : Bytes) (sub : Bool) : Option Subscription := do
  if ← isItRegEx host topic then return .regExSubscription topic sub
  else return .nonRegExSubscription topic sub

/-- The common body of `addSubscribe` and `addUnsubscribe`. -/
def addAction (host : Host) (u : UserIdSubscriptions) (topic : Bytes) (sub : Bool) : Option UserIdSubscriptions :=
  if topic = [] then some u
  else do
    let s ← newSubscription host topic sub
    return { u with subscriptions := u.subscriptions ++ [s] }

def addSubscribe (host : Host) (u : UserIdSubscriptions) (topic : Bytes) : Option UserIdSubscriptions :=
  addAction host u topic true

def addUnsubscribe (host : Host) (u : UserIdSubscriptions) (topic : Bytes) : Option UserIdSubscriptions :=
  addAction host u topic false

/-! ## One match -/

def Subscription.accepts : Subscription → Bytes → Bool
  | .nonRegExSubscription e _, t => decide (e = t)
  | .regExSubscription e _, t => Ts.accepts e t

theorem fits_of_length {s : Bytes} (h : s.length ≤ 50) : Fits s :=
  fun l hl => (infix_of_mem_levels slash s l hl).length_le.trans h

theorem Subscription.matchBufs_spec (host : Host) (s : Subscription) {t eb tb : Bytes} (he : Holds eb s.getExpression)
    (ht : Holds tb t) (hfe : Fits s.getExpression) (hft : Fits t) : ∃ eb' tb',
    s.matchBufs host eb tb = some (s.accepts t, eb', tb') ∧ eb'.length = eb.length ∧ tb'.length = tb.length := by
  cases s with
  | nonRegExSubscription e sub =>
    refine ⟨eb, tb, ?_, rfl, rfl⟩
    simp only [matchBufs, he.strcmpEq_eq ht, Option.bind_eq_bind, Option.bind_some]
    rfl
  | regExSubscription e sub =>
    exact regExMatch_spec host _ he ht hfe hft (by have := ht.length_lt; omega)

/-! ## The last action decides -/

/-- What the last of the matching subscriptions says; no, when none matches. -/
def lastAction (subs : List Subscription) (t : Bytes) : Bool :=
  ((subs.reverse.find? (·.accepts t)).map (·.isSubscribed)).getD false

/-- An expression the buffers of `getMatch` have room for. -/
def Storable (e : Bytes) : Prop := 0 ∉ e ∧ e.length ≤ 50

theorem strncpy_copy {buf src s : Bytes} (hbuf : buf.length = 51) (h : Holds src s) (hs : s.length ≤ 50) :
    ∃ buf', strncpy buf 0 src (s.length + 1) = some buf' ∧ Holds buf' s ∧ buf'.length = 51 := by
  refine ⟨_, h.strncpy_all (by omega), holds_terminated h.1 _, ?_⟩
  simp only [List.length_append, List.length_cons, List.length_drop, hbuf]
  omega

theorem getMatchLoop_eq (host : Host) {tb t : Bytes} (ht : Holds tb t) (htl : t.length ≤ 50) :
    ∀ (subs : List Subscription) (eb cb : Bytes), (∀ s ∈ subs, Storable s.getExpression) → eb.length = 51 →
      cb.length = 51 → getMatchLoop host tb subs eb cb =
        some (((subs.find? (·.accepts t)).map (·.isSubscribed)).getD false)
  | [], _, _, _, _, _ => rfl
  | s :: subs, eb, cb, hsub, heb, hcb => by
    obtain ⟨h0, hlen⟩ := hsub s List.mem_cons_self
    have hexp : Holds (s.getExpression ++ [0]) s.getExpression := holds_terminated h0 []
    obtain ⟨eb', hcopy, hhold, heb'⟩ := strncpy_copy heb hexp hlen
    obtain ⟨cb', hcopy', hhold', hcb'⟩ := strncpy_copy hcb ht htl
    obtain ⟨eb₂, cb₂, hm, hlen₁, hlen₂⟩ := s.matchBufs_spec host hhold hhold' (fits_of_length hlen) (fits_of_length htl)
    -- whatever the match left in the two buffers, the next round copies over it
    have ih := getMatchLoop_eq host ht htl subs eb₂ cb₂ (fun x hx => hsub x (List.mem_cons_of_mem _ hx))
      (hlen₁.trans heb') (hlen₂.trans hcb')
    simp only [getMatchLoop, hexp.cstr_eq, hcopy, ht.cstr_eq, hcopy', hm, Option.bind_eq_bind, Option.bind_some]
    cases hacc : s.accepts t with
    | false => simp [hacc, ih]
    | true => cases hs : s.isSubscribed <;> simp [hacc, hs]

/-- **`getMatch` answers what the last matching subscription says**, and no for a user who is off. -/
theorem getMatch_eq (host : Host) {u : UserIdSubscriptions} {tb t : Bytes} (ht : Holds tb t) (htl : t.length ≤ 50)
    (hsub : ∀ s ∈ u.subscriptions, Storable s.getExpression) :
    getMatch host u tb = some (u.active && lastAction u.subscriptions t) := by
  unfold getMatch
  cases hact : u.active with
  | false => rfl
  | true =>
    have hrev : ∀ s ∈ u.subscriptions.reverse, Storable s.getExpression := fun s hs => hsub s (List.mem_reverse.1 hs)
    exact getMatchLoop_eq host ht htl _ _ _ hrev (List.length_replicate ..) (List.length_replicate ..)

/-! ## One command -/

/-- A command as a subscription keeps it: whether it subscribes, and its expression. -/
structure Command where
  subscribed : Bool
  expression : Bytes
deriving DecidableEq

def Subscription.command (s : Subscription) : Command := ⟨s.isSubscribed, s.getExpression⟩

theorem newSubscription_command {host : Host} {topic : Bytes} {sub : Bool} {s : Subscription}
    (h : newSubscription host topic sub = some s) : s.command = ⟨sub, topic⟩ := by
  unfold newSubscription at h
  cases hr : isItRegEx host topic with
  | none => simp [hr] at h
  | some r =>
    cases r
    · obtain rfl : Subscription.nonRegExSubscription topic sub = s := by simpa [hr] using h
      rfl
    · obtain rfl : Subscription.regExSubscription topic sub = s := by simpa [hr] using h
      rfl

theorem newSubscription_isSome (host : Host) {topic : Bytes} (sub : Bool) (h : Storable topic) :
    ∃ s, newSubscription host topic sub = some s := by
  simp only [newSubscription, isItRegEx_eq host h.1 (fits_of_length h.2), Option.bind_eq_bind, Option.bind_some]
  split
  · exact ⟨_, rfl⟩
  · exact ⟨_, rfl⟩

/-- **What a command does to its user**: an empty topic nothing, any other one entry more. -/
theorem addAction_cases {host : Host} {u u' : UserIdSubscriptions} {topic : Bytes} {sub : Bool}
    (h : addAction host u topic sub = some u') : topic = [] ∧ u' = u ∨
      topic ≠ [] ∧ ∃ s, newSubscription host topic sub = some s ∧
        u' = { u with subscriptions := u.subscriptions ++ [s] } := by
  unfold addAction at h
  by_cases ht : topic = []
  · rw [if_pos ht, Option.some.injEq] at h
    exact Or.inl ⟨ht, h.symm⟩
  · rw [if_neg ht] at h
    cases hs : newSubscription host topic sub with
    | none => simp [hs] at h
    | some s => exact Or.inr ⟨ht, s, rfl, by simpa [hs] using h.symm⟩

end Ts
