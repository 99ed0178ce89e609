import TopicServer.Lib.Lts
import TopicServer.Stdio
import TopicServer.Poll
import TopicServer.Subs
/-!
# Client — the subscriber

The main loop of the subscriber reads lines from its standard input and notifications from its connection.  A line that
starts with one of the two command words and whose rest `validateMessage` accepts is sent as it is, and the subscriber
prints what follows the word.  `Sends` is what can come out: the frames of any run, over any input without a `0`, up to
the end of that input.
-/
namespace Ts

open Mem
open Text (ascii)

/-- The loop of `validateMessage`: `k` rounds from index `i` on. -/
def validateLoop (str : Bytes) : Nat → Nat → Option Bool
  | 0, _ => some true
  | k + 1, i => do
    let c ← str[i]?
    if c = blank then return false
    let d ← str[i + 1]?
    if c = d ∧ c = slash then return false
    validateLoop str k (i + 1)

def validateMessage (str : Bytes) : Option Bool := do
  let s ← cstr str
  if s.length > 51 then return false
  let c ← str[0]?
  if c ≠ blank then return false
  if !(← validateLoop str (s.length - 1) 1) then return false
  let last ← str[s.length - 1]?
  if last = blank then return false
  else return true

/-- `strncmp(x, y, n) == 0`. -/
def strncmpEq (x y : Bytes) (n : Nat) : Option Bool := do
  let a ← cstr x
  let b ← cstr y
  return decide (a.take n = b.take n)

structure Client where
  stdin_buffer : Bytes
  socket_cli : Fd
  input : Bytes
  running : Bool

inductive ClientEvent
  | stdin
  | notification (buff : CText)

/-- The common body of the two command branches; the topic starts a byte after the `n` bytes of the command word. -/
def Client.sendLine (socket_cli : Fd) (stdin_buffer : Bytes) (n : Nat) (echo : Bytes) : Option (List Act) := do
  if ← validateMessage (stdin_buffer.drop n) then
    let str ← cstr stdin_buffer
    let topic ← cstr (stdin_buffer.drop (n + 1))
    return [.sendTcp socket_cli str, .cout (echo ++ topic)]
  else return []

def Client.command (socket_cli : Fd) (stdin_buffer : Bytes) : Option (List Act) := do
  if ← strncmpEq stdin_buffer (ascii "subscribe" ++ [0]) 9 then
    sendLine socket_cli stdin_buffer 9 (ascii "Subscribed to topic ")
  else if ← strncmpEq stdin_buffer (ascii "unsubscribe" ++ [0]) 11 then
    sendLine socket_cli stdin_buffer 11 (ascii "Unsubscribed from topic ")
  else return []

/-- One round of the main loop.  `freeMemory` finds no entry past the first two, so it only closes the connection.  A
notification is the text that `applicationProtocol` returns, whatever its length; `stepRead` has the buffer it is read into. -/
def Client.step (cli : Client) : ClientEvent → Option (Client × List Act)
  | .stdin => do
    if !cli.running then none
    let (stdin_buffer, input) ← fgets cli.stdin_buffer 65 cli.input
    let stdin_buffer ← chop stdin_buffer
    if ← strcmpEq stdin_buffer (ascii "exit" ++ [0]) then
      return ({ cli with stdin_buffer, input, running := false }, [.close cli.socket_cli])
    let acts ← Client.command cli.socket_cli stdin_buffer
    return ({ cli with stdin_buffer, input }, acts)
  | .notification buff =>
    if !cli.running then none
    else if buff.1 = ascii "shutdown" then some ({ cli with running := false }, [.close cli.socket_cli])
    else if buff.1 ≠ [] then some (cli, [.cout buff.1])
    else some (cli, [])

/-- The client as it starts to read lines; the buffer holds what was on the stack. -/
def Client.start (host : Host) (socket_cli : Fd) (input : Bytes) : Client := ⟨host.malloc 100, socket_cli, input, true⟩

/-- A round before the end of the input. -/
def Client.Trans (cli : Client) (e : ClientEvent × List Act) (cli' : Client) : Prop :=
  cli.step e.1 = some (cli', e.2) ∧ (e.1 = .stdin → cli.input ≠ [])

/-- **A frame a subscriber can send** after its login. -/
def Sends (s : Bytes) : Prop :=
  ∃ host fd input tr cli, 0 ∉ input ∧ Lts.Run Client.Trans (Client.start host fd input) tr cli ∧
    ∃ e ∈ tr, Act.sendTcp fd s ∈ e.2

/-! ## What is sent -/

/-- A topic the client lets through. -/
def ValidTopic (topic : Bytes) : Prop :=
  topic ≠ [] ∧ topic.length ≤ 50 ∧ blank ∉ topic ∧ ¬ [slash, slash] <:+: topic

instance (topic : Bytes) : Decidable (ValidTopic topic) := inferInstanceAs (Decidable (_ ∧ _ ∧ _ ∧ _))

def commandWord (sub : Bool) : Bytes := if sub then ascii "subscribe" else ascii "unsubscribe"

def echoWord (sub : Bool) : Bytes := if sub then ascii "Subscribed to topic " else ascii "Unsubscribed from topic "

def Command.line (c : Command) : Bytes := commandWord c.subscribed ++ blank :: c.expression

/-- The lines the client sends. -/
def IsCommandLine (s : Bytes) : Prop := ∃ c : Command, ValidTopic c.expression ∧ s = c.line

theorem validateLoop_eq (rest : Bytes) : ∀ (t pre : Bytes), 0 ∉ t →
    validateLoop (pre ++ (t ++ 0 :: rest)) t.length pre.length = some (decide (blank ∉ t ∧ ¬ [slash, slash] <:+: t))
  | [], pre, _ => by simp [validateLoop]
  | c :: t, pre, h => by
    rw [List.mem_cons, not_or] at h
    have ih := validateLoop_eq rest t (pre ++ [c]) h.2
    have hc : (pre ++ c :: (t ++ 0 :: rest))[pre.length]? = some c := by simp
    have hd : (pre ++ c :: (t ++ 0 :: rest))[pre.length + 1]? = some (t.headD 0) := by cases t <;> simp
    rw [List.length_append, List.length_singleton, List.append_assoc, List.singleton_append] at ih
    simp only [List.length_cons, validateLoop, List.cons_append, hc, Option.bind_eq_bind, Option.bind_some]
    by_cases hb : c = blank
    · simp [hb]
    · have hhead : c = t.headD 0 ∧ c = slash ↔ [slash, slash] <+: c :: t := by
        cases t with
        | nil => simp [Ne.symm h.1]
        | cons x t =>
          simp only [List.headD_cons, List.cons_prefix_cons, List.nil_prefix, and_true]
          exact ⟨fun ⟨h1, h2⟩ => ⟨h2.symm, h2 ▸ h1⟩, fun ⟨h1, h2⟩ => ⟨h1 ▸ h2, h1.symm⟩⟩
      rw [if_neg hb, hd, Option.bind_some, ih]
      simp only [hhead, List.infix_cons_iff, List.mem_cons, not_or]
      by_cases hp : [slash, slash] <+: c :: t
      · simp [hp]
      · simp [hp, Ne.symm hb]

/-- **The client's check**: a blank, then a topic of 1 to 50 bytes without a blank or a double slash. -/
theorem validateMessage_eq {str s : Bytes} (h : Holds str s) :
    validateMessage str = some (decide (s.head? = some blank ∧ ValidTopic s.tail)) := by
  have hcstr := h.cstr_eq
  have hhead := h.head?
  obtain ⟨h0, rest, rfl⟩ := h
  simp only [validateMessage, hcstr, hhead, Option.bind_eq_bind, Option.bind_some]
  cases s with
  | nil => simp [blank]
  | cons c t =>
    rw [List.mem_cons, not_or] at h0
    have hloop := validateLoop_eq rest t [c] h0.2
    simp only [List.singleton_append, List.length_singleton] at hloop
    have hlast : (c :: t ++ 0 :: rest)[t.length]? = some ((c :: t).getLast (List.cons_ne_nil c t)) := by
      rw [List.getElem?_append_left (by simp), List.getLast_eq_getElem]
      simp
    simp only [List.length_cons, Nat.add_sub_cancel, List.headD_cons, List.head?_cons, List.tail_cons, hlast,
      Option.bind_some, Option.some.injEq]
    rw [List.cons_append, hloop]
    by_cases hlen : t.length + 1 > 51
    · have hv : ¬ ValidTopic t := fun hv => absurd hv.2.1 (by omega)
      simp [hlen, hv]
    by_cases hc : c = blank
    · -- past the loop only the lone blank is left to refuse
      by_cases hbody : blank ∉ t ∧ ¬ [slash, slash] <:+: t
      · cases t with
        | nil => simp [hc, ValidTopic]
        | cons x t =>
          have hv : ValidTopic (x :: t) := ⟨List.cons_ne_nil x t, by omega, hbody⟩
          have hlast : (x :: t).getLast (List.cons_ne_nil x t) ≠ blank :=
            fun h => hbody.1 (h ▸ List.getLast_mem _)
          have hlt : t.length < 50 := by
            rw [List.length_cons] at hlen
            omega
          simp [hlt, hc, hbody, hv, hlast]
      · have hv : ¬ ValidTopic t := fun hv => hbody hv.2.2
        simp [hlen, hc, hbody, hv]
    · simp [hlen, hc]

theorem strncmpEq_eq {x y a b : Bytes} (hx : Holds x a) (hy : Holds y b) (n : Nat) :
    strncmpEq x y n = some (decide (a.take n = b.take n)) := by
  simp [strncmpEq, hx.cstr_eq, hy.cstr_eq]

theorem holds_drop {b s t : Bytes} (h : Holds b (s ++ t)) : Holds (b.drop s.length) t := by
  obtain ⟨h0, rest, rfl⟩ := h
  exact ⟨fun hm => h0 (List.mem_append_right _ hm), rest, by rw [List.append_assoc, List.drop_left]⟩

theorem line_eq_append {c : Command} {sub : Bool} {t : Bytes} (h : commandWord sub ++ t = c.line) :
    t = blank :: c.expression := by
  obtain ⟨sub', topic⟩ := c
  have hhead := congrArg List.head? h
  cases sub with
  | true =>
    cases sub' with
    | true => exact List.append_cancel_left h
    | false => exact absurd hhead (by simp [Command.line, commandWord, ascii])
  | false =>
    cases sub' with
    | true => exact absurd hhead (by simp [Command.line, commandWord, ascii])
    | false => exact List.append_cancel_left h

theorem sendLine_cases {buf t : Bytes} {sub : Bool} (fd : Fd) (h : Holds buf (commandWord sub ++ t)) (echo : Bytes) :
    ¬ IsCommandLine (commandWord sub ++ t) ∧ Client.sendLine fd buf (commandWord sub).length echo = some [] ∨
      ∃ topic, ValidTopic topic ∧ t = blank :: topic ∧ Client.sendLine fd buf (commandWord sub).length echo =
        some [.sendTcp fd (commandWord sub ++ t), .cout (echo ++ topic)] := by
  unfold Client.sendLine
  rw [validateMessage_eq (holds_drop h)]
  by_cases hv : t.head? = some blank ∧ ValidTopic t.tail
  · obtain ⟨topic, rfl⟩ : ∃ topic, t = blank :: topic := ⟨t.tail, List.eq_cons_of_mem_head? hv.1⟩
    have hecho : Holds (buf.drop ((commandWord sub).length + 1)) topic := by
      simpa using holds_drop (s := commandWord sub ++ [blank]) (t := topic) (by simpa using h)
    have hvalid : ValidTopic topic := hv.2
    exact Or.inr ⟨topic, hvalid, rfl, by simp [hvalid, h.cstr_eq, hecho.cstr_eq]⟩
  · refine Or.inl ⟨?_, by simp only [hv]; rfl⟩
    rintro ⟨c, hvalid, hline⟩
    obtain rfl := line_eq_append hline
    exact hv ⟨rfl, hvalid⟩

/-- **What a line makes the client do**: send it as a command and print its topic, or nothing. -/
theorem command_cases {buf s : Bytes} (fd : Fd) (h : Holds buf s) :
    ¬ IsCommandLine s ∧ Client.command fd buf = some [] ∨
    ∃ c : Command, ValidTopic c.expression ∧ s = c.line ∧
      Client.command fd buf = some [.sendTcp fd s, .cout (echoWord c.subscribed ++ c.expression)] := by
  have hsub := strncmpEq_eq h (holds_terminated (s := ascii "subscribe") (by decide) []) 9
  have hunsub := strncmpEq_eq h (holds_terminated (s := ascii "unsubscribe") (by decide) []) 11
  have htake : ∀ w, s.take w.length = w → s = w ++ s.drop w.length := by
    intro w hw
    conv => lhs; rw [← List.take_append_drop w.length s, hw]
  unfold Client.command
  simp only [hsub, hunsub, Option.bind_eq_bind, Option.bind_some]
  by_cases h9 : s.take 9 = ascii "subscribe"
  · have hs := htake (commandWord true) h9
    rw [decide_eq_true (show s.take 9 = (ascii "subscribe").take 9 from h9), if_pos rfl]
    rcases sendLine_cases fd (hs ▸ h) (ascii "Subscribed to topic ") with hnone | ⟨topic, hv, ht, hsome⟩
    · rw [← hs] at hnone
      exact Or.inl hnone
    · exact Or.inr ⟨⟨true, topic⟩, hv, by rw [hs, ht]; rfl, by rw [hs]; exact hsome⟩
  · rw [decide_eq_false (show s.take 9 ≠ (ascii "subscribe").take 9 from h9), if_neg Bool.false_ne_true]
    by_cases h11 : s.take 11 = ascii "unsubscribe"
    · have hs := htake (commandWord false) h11
      rw [decide_eq_true (show s.take 11 = (ascii "unsubscribe").take 11 from h11), if_pos rfl]
      rcases sendLine_cases fd (hs ▸ h) (ascii "Unsubscribed from topic ") with hnone | ⟨topic, hv, ht, hsome⟩
      · rw [← hs] at hnone
        exact Or.inl hnone
      · exact Or.inr ⟨⟨false, topic⟩, hv, by rw [hs, ht]; rfl, by rw [hs]; exact hsome⟩
    · refine Or.inl ⟨?_, by rw [decide_eq_false (show s.take 11 ≠ (ascii "unsubscribe").take 11 from h11)]; rfl⟩
      rintro ⟨⟨sub, topic⟩, -, rfl⟩
      cases sub with
      | true => exact h9 rfl
      | false => exact h11 rfl

def Client.Ok (fd : Fd) (cli : Client) : Prop := cli.stdin_buffer.length = 100 ∧ cli.socket_cli = fd ∧ 0 ∉ cli.input

/-- **One round**: the client stays well formed, and what it sends is a command line with a valid topic. -/
theorem Client.Trans.ok {fd : Fd} {cli cli' : Client} {e : ClientEvent × List Act} (h : cli.Ok fd)
    (ht : cli.Trans e cli') : cli'.Ok fd ∧ ∀ s, Act.sendTcp fd s ∈ e.2 →
      ∃ c : Command, ValidTopic c.expression ∧ s = c.line := by
  obtain ⟨hbuf, hfd, h0⟩ := h
  obtain ⟨hstep, hin⟩ := ht
  obtain ⟨ev, acts⟩ := e
  cases ev with
  | stdin =>
    obtain ⟨b, b', hfgets, hchop, hhold, hlen⟩ :=
      fgets_chop cli.stdin_buffer 65 (by decide) (by omega) h0 (hin rfl)
    have h0' : 0 ∉ (fgetsLine 64 cli.input).2 := fun hm =>
      h0 (fgetsLine_append 64 cli.input ▸ List.mem_append_right _ hm)
    have hexit := hhold.strcmpEq_eq (holds_terminated (s := ascii "exit") (by decide) [])
    cases hrun : cli.running with
    | false => simp [step, hrun] at hstep
    | true =>
    simp only [step, hrun, hfgets, hchop, hexit, Option.bind_eq_bind, Option.bind_some, Bool.not_true,
      Bool.false_eq_true, if_false] at hstep
    split at hstep
    · obtain ⟨rfl, rfl⟩ := Prod.mk.inj (Option.some.inj hstep)
      exact ⟨⟨hlen.trans hbuf, hfd, h0'⟩, fun s hs => by simp at hs⟩
    · rcases command_cases cli.socket_cli hhold with ⟨-, hnone⟩ | ⟨c, hv, hline, hsome⟩
      · rw [hnone] at hstep
        obtain ⟨rfl, rfl⟩ := Prod.mk.inj (Option.some.inj hstep)
        exact ⟨⟨hlen.trans hbuf, hfd, h0'⟩, fun s hs => by simp at hs⟩
      · rw [hsome] at hstep
        obtain ⟨rfl, rfl⟩ := Prod.mk.inj (Option.some.inj hstep)
        refine ⟨⟨hlen.trans hbuf, hfd, h0'⟩, fun s hs => ⟨c, hv, ?_⟩⟩
        obtain ⟨-, rfl⟩ : fd = cli.socket_cli ∧ s = _ := by simpa using hs
        exact hline
  | notification buff =>
    simp only [step] at hstep
    split at hstep
    · cases hstep
    · split at hstep
      · obtain ⟨rfl, rfl⟩ := Prod.mk.inj (Option.some.inj hstep)
        exact ⟨⟨hbuf, hfd, h0⟩, fun s hs => by simp at hs⟩
      · split at hstep
        · obtain ⟨rfl, rfl⟩ := Prod.mk.inj (Option.some.inj hstep)
          exact ⟨⟨hbuf, hfd, h0⟩, fun s hs => by simp at hs⟩
        · obtain ⟨rfl, rfl⟩ := Prod.mk.inj (Option.some.inj hstep)
          exact ⟨⟨hbuf, hfd, h0⟩, fun s hs => by simp at hs⟩

/-- **A frame that a subscriber sends is a command line with a valid topic.** -/
theorem Sends.line {s : Bytes} (h : Sends s) : ∃ c : Command, ValidTopic c.expression ∧ s = c.line := by
  obtain ⟨host, fd, input, tr, cli, h0, hrun, e, he, hs⟩ := h
  exact (hrun.labels (P := Client.Ok fd) ⟨host.length_malloc 100, rfl, h0⟩
    (fun _ _ _ hok ht => ht.ok hok)).2 e he s hs

end Ts
