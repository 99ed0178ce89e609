import TopicServer.Client
import TopicServer.Session
/-!
# Commands — what the server reads in a frame the client sends

The client checks a line and sends it as it is; the server cuts the frame into words and takes the client's word for the
rest.  The client looks for blanks, the server for any white space, so the two agree on a topic exactly when it has no
white space at all (`agree_iff`).  In any case the server reads a piece of the topic the client let through
(`topic_piece`), also when the connection broke inside the frame.
-/
namespace Ts

open Text (ascii isspace)
open Server (readCommand)

theorem not_isspace_commandWord (sub : Bool) : ∀ b ∈ commandWord sub, isspace b = false := by
  cases sub <;> decide +kernel

theorem commandWord_ne_nil (sub : Bool) : commandWord sub ≠ [] := by
  cases sub <;> decide +kernel

theorem readCommand_append (sub : Bool) (t : Bytes) :
    readCommand (commandWord sub ++ blank :: t) = (commandWord sub, (Text.word t).1) := by
  have hfirst : Text.word (commandWord sub ++ blank :: t) = (commandWord sub, blank :: t) :=
    Text.word_of_nonspace (not_isspace_commandWord sub) (commandWord_ne_nil sub)
      (fun b hb => by rw [← Option.some.inj hb]; rfl)
  simp only [readCommand, hfirst, Text.word_cons_of_space (show isspace blank = true from rfl)]

theorem readCommand_line {c : Command} (hne : c.expression ≠ []) (h : ∀ b ∈ c.expression, isspace b = false) :
    readCommand c.line = (commandWord c.subscribed, c.expression) := by
  rw [Command.line, readCommand_append, Text.word_self h hne]

theorem readCommand_of_nonspace {buff : Bytes} (h : ∀ b ∈ buff, isspace b = false) : (readCommand buff).2 = [] := by
  by_cases hne : buff = []
  · subst hne
    rfl
  · simp only [readCommand, Text.word_self h hne]
    rfl

/-- **The topic the server reads is a piece of the client's**, in a whole frame and in the start of one. -/
theorem topic_piece {c : Command} {buff : Bytes} (h : buff <+: c.line) : (readCommand buff).2 <:+: c.expression := by
  have hnil : (∀ b ∈ buff, isspace b = false) → (readCommand buff).2 <:+: c.expression := fun hb => by
    rw [readCommand_of_nonspace hb]
    exact List.nil_infix
  rcases List.prefix_or_prefix_of_prefix h (List.prefix_append (commandWord c.subscribed) _) with hshort | ⟨q, rfl⟩
  · exact hnil (fun b hb => not_isspace_commandWord _ b (hshort.subset hb))
  · cases q with
    | nil => exact hnil (by simpa using not_isspace_commandWord c.subscribed)
    | cons x q =>
      obtain ⟨rfl, hq⟩ := List.cons_prefix_cons.1 ((List.prefix_append_right_inj _).1 h)
      rw [readCommand_append]
      exact (Text.word_fst_piece q).trans hq.isInfix

/-- A frame as it comes from a subscriber; a connection that breaks cuts it short. -/
def SubscriberFrame (buff : Bytes) : Prop := ∃ s, Sends s ∧ buff <+: s

/-- What every expression that is kept looks like. -/
structure Stored (e : Bytes) : Prop where
  nul : 0 ∉ e
  pos : 1 ≤ e.length
  le : e.length ≤ 50
  nonspace : ∀ b ∈ e, isspace b = false
  single : ¬ [slash, slash] <:+: e

theorem SubscriberFrame.stored {buff : Bytes} (h0 : 0 ∉ buff) (h : SubscriberFrame buff)
    (hne : (readCommand buff).2 ≠ []) : Stored (readCommand buff).2 := by
  obtain ⟨s, hs, hpre⟩ := h
  obtain ⟨c, hv, rfl⟩ := hs.line
  have hin := topic_piece hpre
  exact
    { nul := fun hm => h0 ((Server.readCommand_piece buff).subset hm)
      pos := List.length_pos_iff.2 hne
      le := hin.length_le.trans hv.2.1
      nonspace := fun b hb => Text.not_isspace_of_mem_word hb
      single := fun hd => hv.2.2.2 (hd.trans hin) }

/-! ## When the two agree -/

/-- The server reads the command `c` in the frame `s`, and adds exactly one entry for it, to the user whose frame it
is. -/
def Agree (host : Host) (s : Bytes) (c : Command) : Prop :=
  readCommand s = (commandWord c.subscribed, c.expression) ∧
    ∀ (srv : Server) (userId : Bytes) (u : UserIdSubscriptions), srv.userSubscriptions.lookup userId = some u →
      ∃ srv' entry, srv.command host userId s true = some srv' ∧ entry.command = c ∧
        srv'.userSubscriptions =
          srv.userSubscriptions.insert userId { u with subscriptions := u.subscriptions ++ [entry] }

theorem ValidTopic.storable {t : Bytes} (h : ValidTopic t) (h0 : 0 ∉ t) : Storable t := ⟨h0, h.2.1⟩

theorem command_line {host : Host} {c : Command} (hs : Storable c.expression) (hne : c.expression ≠ [])
    (h : ∀ b ∈ c.expression, isspace b = false) (srv : Server) {userId : Bytes} {u : UserIdSubscriptions}
    (hu : srv.userSubscriptions.lookup userId = some u) :
    ∃ srv' entry, srv.command host userId c.line true = some srv' ∧ entry.command = c ∧
      srv'.userSubscriptions =
        srv.userSubscriptions.insert userId { u with subscriptions := u.subscriptions ++ [entry] } := by
  obtain ⟨sub, e⟩ := c
  obtain ⟨entry, hentry⟩ := newSubscription_isSome host sub hs
  have hhold := Mem.holds_terminated hs.1 []
  refine ⟨{ srv with
    userSubscriptions := srv.userSubscriptions.insert userId { u with subscriptions := u.subscriptions ++ [entry] } },
    entry, ?_, newSubscription_command hentry, rfl⟩
  cases sub with
  | false =>
    simp [Server.command, readCommand_line hne h, hhold.strdup_eq, hhold.cstr_eq, Table.entry_of_lookup hu,
      commandWord, addUnsubscribe, addAction, show e ≠ [] from hne, hentry]
  | true =>
    have hword : ascii "subscribe" ≠ ascii "unsubscribe" := by decide
    simp [Server.command, readCommand_line hne h, hhold.strdup_eq, hhold.cstr_eq, Table.entry_of_lookup hu,
      commandWord, addSubscribe, addAction, show e ≠ [] from hne, hentry, hword]

/-- **The client and the server agree on a topic exactly when it has no white space**: a line the client accepts is sent
as it is, and the server reads its command and its topic in it if and only if none of its bytes is a tab or another
white space. -/
theorem agree_iff (host : Host) (fd : Fd) {buf s : Bytes} {acts : List Act} (h : Mem.Holds buf s)
    (hacts : Client.command fd buf = some acts) (hacc : acts ≠ []) :
    ∃ c : Command, s = c.line ∧ acts = [.sendTcp fd s, .cout (echoWord c.subscribed ++ c.expression)] ∧
      (Agree host s c ↔ ∀ b ∈ c.expression, isspace b = false) := by
  rcases command_cases fd h with ⟨-, hnone⟩ | ⟨c, hv, hline, hsome⟩
  · rw [hnone, Option.some.injEq] at hacts
    exact absurd hacts.symm hacc
  rw [hsome, Option.some.injEq] at hacts
  refine ⟨c, hline, hacts.symm, ?_, ?_⟩
  · rintro ⟨hread, -⟩ b hb
    have htopic : (readCommand s).2 = c.expression := by rw [hread]
    exact Text.not_isspace_of_mem_word (htopic ▸ hb)
  · intro hns
    have h0 : 0 ∉ c.expression := by
      intro hm
      apply h.1
      simp [hline, Command.line, hm]
    rw [hline]
    exact ⟨readCommand_line hv.1 hns, fun srv userId u hu => command_line (hv.storable h0) hv.1 hns srv hu⟩

theorem agree_subscribe : ∃ c : Command, ascii "subscribe a/+" = c.line ∧
    [Act.sendTcp 3 (ascii "subscribe a/+"), .cout (ascii "Subscribed to topic a/+")] =
      [.sendTcp 3 (ascii "subscribe a/+"), .cout (echoWord c.subscribed ++ c.expression)] ∧
      (Agree exactHost (ascii "subscribe a/+") c ↔ ∀ b ∈ c.expression, isspace b = false) :=
  agree_iff exactHost 3 (Mem.holds_terminated (s := ascii "subscribe a/+") (by decide) []) (by decide +kernel) (by decide)

/-- The client accepts a topic with a tab and prints it whole; the server stops at the tab. -/
theorem disagree_tab : Client.command 3 (ascii "subscribe a\tb" ++ [0]) =
    some [.sendTcp 3 (ascii "subscribe a\tb"), .cout (ascii "Subscribed to topic a\tb")] ∧
      readCommand (ascii "subscribe a\tb") = (ascii "subscribe", ascii "a") ∧
      ¬ Agree exactHost (ascii "subscribe a\tb") ⟨true, ascii "a\tb"⟩ := by
  refine ⟨by decide +kernel, by decide +kernel, fun h => ?_⟩
  exact absurd h.1 (by decide +kernel)

end Ts
