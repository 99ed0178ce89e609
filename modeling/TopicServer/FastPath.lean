import TopicServer.Lib.PubSub
import TopicServer.Client
/-!
# FastPath — a plain expression compared as a whole or level by level

An expression without a wildcard is compared with `strcmp`; had it been stored as a `regExSubscription`, it would be
walked level by level.  The walk drops an empty last level, so it takes `a/` and `a` for the same and `strcmp` does not.
`fast_path_iff` says that this is the only difference, and in which histories it shows.
-/
namespace Ts

open Mem Glob
open PubSub (Last Asks)

/-- One of the two is the other with a slash more, behind a last level that is not empty. -/
def SlashApart (e t : Bytes) : Prop := Trailing slash e t ∨ Trailing slash t e

instance (e t : Bytes) : Decidable (SlashApart e t) := inferInstanceAs (Decidable (_ ∨ _))

theorem SlashApart.ne {e t : Bytes} (h : SlashApart e t) : e ≠ t := by
  rintro rfl
  rcases h with ⟨h, -⟩ | ⟨h, -⟩ <;> simp at h

theorem accepts_plain_iff {e t : Bytes} (h : ¬ HasWildcard e) : Ts.accepts e t = true ↔ e = t ∨ SlashApart e t := by
  have hlit : (levels slash e).map patOf = (levels slash e).map Pat.lit := by
    refine List.map_congr_left (fun l hl => ?_)
    have hplus : l ≠ [plus] := fun hp => h ⟨l, hl, Or.inr hp⟩
    have hstar : l ≠ [star] := fun hs => h ⟨l, hl, Or.inl hs⟩
    rw [patOf, if_neg hplus, if_neg hstar]
  rw [Ts.accepts, hlit, glob_lit, decide_eq_true_eq, levels_eq_iff]
  rfl

/-! ## Histories -/

/-- A call of `addSubscribe` or `addUnsubscribe`. -/
def UserIdSubscriptions.obey (host : Host) (u : UserIdSubscriptions) (c : Command) : Option UserIdSubscriptions :=
  if c.subscribed then addSubscribe host u c.expression else addUnsubscribe host u c.expression

/-- The same user with every expression stored as a `regExSubscription`. -/
def UserIdSubscriptions.asRegEx (u : UserIdSubscriptions) : UserIdSubscriptions :=
  { u with subscriptions := u.subscriptions.map fun s => .regExSubscription s.getExpression s.isSubscribed }

def Admitted (topic : Bytes) : Prop := 0 ∉ topic ∧ validateMessage (blank :: topic ++ [0]) = some true

instance (topic : Bytes) : Decidable (Admitted topic) := inferInstanceAs (Decidable (_ ∧ _))

theorem Admitted.valid {topic : Bytes} (h : Admitted topic) : ValidTopic topic := by
  have h0 : 0 ∉ blank :: topic := fun hm => h.1 ((List.mem_cons.1 hm).resolve_left (by decide))
  have hcheck := h.2
  rw [validateMessage_eq (holds_terminated h0 [])] at hcheck
  exact (of_decide_eq_true (Option.some.inj hcheck)).2

/-- What a command adds to the list of its user. -/
def Command.stored (c : Command) : Subscription :=
  if HasWildcard c.expression then .regExSubscription c.expression c.subscribed
  else .nonRegExSubscription c.expression c.subscribed

@[simp] theorem Command.getExpression_stored (c : Command) : c.stored.getExpression = c.expression := by
  unfold stored
  split <;> rfl

@[simp] theorem Command.isSubscribed_stored (c : Command) : c.stored.isSubscribed = c.subscribed := by
  unfold stored
  split <;> rfl

theorem obey_eq (host : Host) (u : UserIdSubscriptions) {c : Command} (h : Admitted c.expression) :
    u.obey host c = some { u with subscriptions := u.subscriptions ++ [c.stored] } := by
  have hclass : isItRegEx host c.expression = some (decide (HasWildcard c.expression)) :=
    isItRegEx_eq host h.1 (fits_of_length h.valid.2.1)
  have hadd : ∀ sub, addAction host u c.expression sub = some { u with subscriptions := u.subscriptions ++
      [if HasWildcard c.expression then .regExSubscription c.expression sub
        else .nonRegExSubscription c.expression sub] } := by
    intro sub
    simp only [addAction, if_neg h.valid.1, newSubscription, hclass, Option.bind_eq_bind, Option.bind_some]
    by_cases hw : HasWildcard c.expression <;> simp [hw]
  unfold UserIdSubscriptions.obey Command.stored
  cases hsub : c.subscribed with
  | true => exact hadd true
  | false => exact hadd false

theorem foldlM_obey (host : Host) : ∀ (cs : List Command) (u : UserIdSubscriptions), (∀ c ∈ cs, Admitted c.expression) →
    cs.foldlM (UserIdSubscriptions.obey host) u =
      some { u with subscriptions := u.subscriptions ++ cs.map Command.stored }
  | [], u, _ => by simp
  | c :: cs, u, h => by
    rw [List.foldlM_cons, obey_eq host u (h c List.mem_cons_self), Option.bind_eq_bind, Option.bind_some,
      foldlM_obey host cs _ (fun x hx => h x (List.mem_cons_of_mem _ hx))]
    simp

theorem lastAction_map_iff {f : Command → Subscription} (hf : ∀ c, (f c).isSubscribed = c.subscribed) (cs : List Command)
    (t : Bytes) : lastAction (cs.map f) t = true ↔ Asks (fun c => (f c).accepts t = true) Command.subscribed cs := by
  rw [lastAction, PubSub.find?_reverse_asks_iff]
  constructor
  · rintro ⟨s, hs, hon⟩
    obtain ⟨c, hc, rfl⟩ := PubSub.last_map_iff.1 hs
    exact ⟨c, hc, hf c ▸ hon⟩
  · rintro ⟨c, hc, hon⟩
    exact ⟨f c, PubSub.last_map_iff.2 ⟨c, hc, rfl⟩, (hf c).trans hon⟩

/-- **Where the difference does not show**: a plain expression that is a slash apart from the target is followed by one
that the walk matches, or asks for what the commands before it ask for. -/
def Transparent (cs : List Command) (t : Bytes) : Prop :=
  ∀ pre c post, cs = pre ++ c :: post → ¬ HasWildcard c.expression → SlashApart c.expression t →
    (∀ d ∈ post, ¬ Ts.accepts d.expression t = true) →
      (c.subscribed = true ↔ Asks (fun d => d.stored.accepts t = true) Command.subscribed pre)

theorem accepts_not_stored_iff (c : Command) (t : Bytes) :
    (Ts.accepts c.expression t = true ∧ ¬ c.stored.accepts t = true) ↔ ¬ HasWildcard c.expression ∧
      SlashApart c.expression t := by
  unfold Command.stored
  by_cases hw : HasWildcard c.expression
  · simp [hw, Subscription.accepts]
  · simp only [hw, if_false, accepts_plain_iff hw, Subscription.accepts, decide_eq_true_eq, not_false_eq_true, true_and]
    exact ⟨fun h => h.1.resolve_left h.2, fun h => ⟨Or.inr h, h.ne⟩⟩

theorem accepts_of_stored {c : Command} {t : Bytes} (h : c.stored.accepts t = true) :
    Ts.accepts c.expression t = true := by
  unfold Command.stored at h
  by_cases hw : HasWildcard c.expression
  · simpa [hw, Subscription.accepts] using h
  · simp only [hw, if_false, Subscription.accepts, decide_eq_true_eq] at h
    exact (accepts_plain_iff hw).2 (Or.inl h)

/-- **When the fast path cannot be seen.**  A plain expression and a target match by the walk and by `strcmp` alike unless
they are a slash apart; and a user's answer is the same with every expression walked exactly in the histories where no
such pair decides. -/
theorem fast_path_iff (host : Host) :
    (∀ e t eb tb, Holds eb e → Holds tb t → Fits e → Fits t → isItRegEx host e = some false →
      ∃ m s eb' tb', regExMatch host (tb.length + 1) eb tb = some (m, eb', tb') ∧ strcmpEq eb tb = some s ∧
        (m = s ↔ ¬ SlashApart e t)) ∧
    ∀ fd cs t tb, (∀ c ∈ cs, Admitted c.expression) → Holds tb t → t.length ≤ 50 →
      ∃ u b b', cs.foldlM (UserIdSubscriptions.obey host) (.mk' true fd) = some u ∧ getMatch host u tb = some b ∧
        getMatch host u.asRegEx tb = some b' ∧ (b = b' ↔ Transparent cs t) := by
  constructor
  · intro e t eb tb he ht hfe hft hclass
    rw [isItRegEx_eq host he.1 hfe, Option.some.injEq, decide_eq_false_iff_not] at hclass
    obtain ⟨eb', tb', hrun, -, -⟩ := regExMatch_spec host (tb.length + 1) he ht hfe hft (by have := ht.length_lt; omega)
    refine ⟨_, _, eb', tb', hrun, he.strcmpEq_eq ht, ?_⟩
    have hplain := accepts_plain_iff (t := t) hclass
    rw [Bool.eq_iff_iff, hplain, decide_eq_true_eq]
    exact ⟨fun h hs => hs.ne (h.1 (Or.inr hs)), fun h => ⟨fun ho => ho.resolve_right h, Or.inl⟩⟩
  · intro fd cs t tb hcs ht htl
    have hstorable : ∀ c ∈ cs, Storable c.expression := fun c hc => ⟨(hcs c hc).1, (hcs c hc).valid.2.1⟩
    have hhist := foldlM_obey host cs (.mk' true fd) hcs
    have hmatch : getMatch host ⟨cs.map Command.stored, true, fd⟩ tb = some (lastAction (cs.map Command.stored) t) :=
      getMatch_eq host ht htl (by simpa using hstorable)
    have hwalk : getMatch host ⟨cs.map fun c => .regExSubscription c.expression c.subscribed, true, fd⟩ tb =
        some (lastAction (cs.map fun c => .regExSubscription c.expression c.subscribed) t) :=
      getMatch_eq host ht htl (by simpa [Subscription.getExpression] using hstorable)
    have hregex : UserIdSubscriptions.asRegEx ⟨cs.map Command.stored, true, fd⟩ =
        ⟨cs.map fun c => .regExSubscription c.expression c.subscribed, true, fd⟩ := by
      simp [UserIdSubscriptions.asRegEx, Function.comp_def]
    refine ⟨⟨cs.map Command.stored, true, fd⟩, _, _, hhist, hmatch, by rw [hregex]; exact hwalk, ?_⟩
    rw [Bool.eq_iff_iff, lastAction_map_iff (fun c => c.isSubscribed_stored), lastAction_map_iff (fun c => rfl)]
    refine (PubSub.asks_coarser_iff (P := fun c : Command => c.stored.accepts t = true) (fun c h => accepts_of_stored h)
      Command.subscribed cs).trans ⟨?_, ?_⟩
    · intro h pre c post hsplit hplain hapart hpost
      obtain ⟨hq, hp⟩ := (accepts_not_stored_iff c t).2 ⟨hplain, hapart⟩
      exact h pre c post hsplit hq hp hpost
    · intro h pre c post hsplit hq hp hpost
      obtain ⟨hplain, hapart⟩ := (accepts_not_stored_iff c t).1 ⟨hq, hp⟩
      exact h pre c post hsplit hplain hapart hpost

theorem fast_path_iff_plain : ∃ u b b',
    [⟨true, [97, 47]⟩, ⟨true, [97]⟩].foldlM (UserIdSubscriptions.obey exactHost) (.mk' true 5) = some u ∧
      getMatch exactHost u [97, 0] = some b ∧ getMatch exactHost u.asRegEx [97, 0] = some b' ∧
        (b = b' ↔ Transparent [⟨true, [97, 47]⟩, ⟨true, [97]⟩] [97]) :=
  (fast_path_iff exactHost).2 5 [⟨true, [97, 47]⟩, ⟨true, [97]⟩] [97] [97, 0] (by decide +kernel)
    (holds_terminated (by decide) []) (by decide)

/-- A user who has subscribed to `a/` does not get `a`, and would get it if the expression were walked. -/
theorem fast_path_differs : Admitted [97, 47] ∧ ∃ u,
    [⟨true, [97, 47]⟩].foldlM (UserIdSubscriptions.obey exactHost) (.mk' true 5) = some u ∧
      getMatch exactHost u [97, 0] = some false ∧ getMatch exactHost u.asRegEx [97, 0] = some true := by
  refine ⟨by decide +kernel, ⟨[.nonRegExSubscription [97, 47] true], true, 5⟩, ?_⟩
  decide +kernel

end Ts
