import TopicServer.Lib.Glob
import TopicServer.Base
/-!
# Match — the expressions of a subscription

`split_at_first_separator` cuts a string in place: the first level goes to a buffer of 51 bytes and the rest is moved to
the front of the string.  `isItRegEx` looks for a wildcard level with it, and `regExSubscription::match` walks an
expression and a target with it, destroying both, and takes up copies where it has to try again.  All run on memory
whose bounds are checked; the allocations succeed.
-/
namespace Ts

open Mem Glob

def plus : UInt8 := 43
def star : UInt8 := 42

/-- `split_at_first_separator(str, first_part, str)`: every caller passes the string itself as `rest_part`. -/
def splitAtFirstSeparator (str firstPart : Bytes) : Option (Bytes × Bytes) := do
  let s ← cstr str
  match s.idxOf? slash with
  | some len => do
    let firstPart ← strncpy firstPart 0 str len
    let firstPart ← write firstPart len [0]
    let tail ← cstr (str.drop (len + 1))
    let str ← memmove str 0 (len + 1) tail.length
    let str ← write str tail.length [0]
    return (firstPart, str)
  | none => do
    let firstPart ← strcpy firstPart str
    let str ← write str 0 [0]
    return (firstPart, str)

/-- `first_part[0] == c && first_part[1] == '\0'`. -/
def isLevel (c : UInt8) (firstPart : Bytes) : Option Bool := do
  let c0 ← firstPart[0]?
  if c0 = c then
    let c1 ← firstPart[1]?
    return c1 = 0
  else return false

def isWildcard (firstPart : Bytes) : Option Bool := do
  if ← isLevel star firstPart then return true
  isLevel plus firstPart

/-- The loop of `isItRegEx`; the fuel bounds its rounds. -/
def isItRegExLoop : Nat → Bytes → Bytes → Option Bool
  | 0, _, _ => none
  | fuel + 1, expressionCopy, firstPart => do
    let c ← expressionCopy[0]?
    if c = 0 then return false
    let (firstPart, expressionCopy) ← splitAtFirstSeparator expressionCopy firstPart
    if ← isWildcard firstPart then return true
    isItRegExLoop fuel expressionCopy firstPart

def isItRegEx (host : Host) (exp : Bytes) : Option Bool := do
  let expressionCopy ← strdup (exp ++ [0])
  let (firstPart, expressionCopy) ← splitAtFirstSeparator expressionCopy (host.malloc 51)
  if ← isWildcard firstPart then return true
  isItRegExLoop (exp.length + 1) expressionCopy firstPart

/-- `regExSubscription::match`: the answer and what is left of the two buffers.  The fuel bounds the depth of its
calls. -/
def regExMatch (host : Host) : Nat → Bytes → Bytes → Option (Bool × Bytes × Bytes)
  | 0, _, _ => none
  | fuel + 1, expression, target => do
    let e0 ← expression[0]?
    let t0 ← target[0]?
    if (e0 = 0 ∧ t0 ≠ 0) ∨ (e0 ≠ 0 ∧ t0 = 0) then return (false, expression, target)
    if e0 = 0 ∧ t0 = 0 then return (true, expression, target)
    let expressionCopy ← strdup expression
    let (firstPart1, expression) ← splitAtFirstSeparator expression (host.malloc 51)
    let (firstPart2, target) ← splitAtFirstSeparator target (host.malloc 51)
    let targetCopy ← strdup target
    if ← isLevel plus firstPart1 then regExMatch host fuel expression target
    else if ← isLevel star firstPart1 then do
      let (res, expression, target) ← regExMatch host fuel expression target
      if res then return (true, expression, target)
      -- the first alternative has destroyed both strings
      let (res, _, _) ← regExMatch host fuel expressionCopy targetCopy
      return (res, expression, target)
    else if ← strcmpEq firstPart1 firstPart2 then regExMatch host fuel expression target
    else return (false, expression, target)

/-! ## What the buffers hold -/

def patOf (l : Bytes) : Pat Bytes := if l = [plus] then .one else if l = [star] then .many else .lit l

/-- The levels of a string all fit the buffer of a first part. -/
def Fits (s : Bytes) : Prop := ∀ l ∈ levels slash s, l.length ≤ 50

def accepts (e t : Bytes) : Bool := glob ((levels slash e).map patOf) (levels slash t)

example : (levels slash [97, 47, 47], levels slash [47], levels slash []) = ([[97], []], [[]], []) := by decide

theorem idxOf?_append_cons : ∀ (a : Bytes) (c : UInt8) (b : Bytes), c ∉ a → (a ++ c :: b).idxOf? c = some a.length
  | [], c, b, _ => by simp [List.idxOf?_cons]
  | x :: a, c, b, h => by
    rw [List.mem_cons, not_or] at h
    rw [List.cons_append, List.idxOf?_cons, if_neg (by simpa using Ne.symm h.1), idxOf?_append_cons a c b h.2]
    rfl

theorem splitAtFirstSeparator_spec {str s : Bytes} (fp : Bytes) (h : Holds str s)
    (hfp : (firstPart slash s).length < fp.length) :
    ∃ fp' str', splitAtFirstSeparator str fp = some (fp', str') ∧ Holds fp' (firstPart slash s) ∧
      Holds str' (restPart slash s) ∧ fp'.length = fp.length ∧ str'.length = str.length := by
  have hcstr := h.cstr_eq
  have hlt := h.length_lt
  obtain ⟨h0, rest, rfl⟩ := h
  by_cases hs : slash ∈ s
  · obtain ⟨a, b, rfl, ha⟩ := List.eq_append_cons_of_mem hs
    rw [firstPart_append slash ha] at hfp ⊢
    rw [restPart_append slash ha]
    have h0a : 0 ∉ a := fun hm => h0 (List.mem_append_left _ hm)
    have h0b : 0 ∉ b := fun hm => h0 (List.mem_append_right _ (List.mem_cons_of_mem _ hm))
    have hcopy : strncpy fp 0 (a ++ slash :: b ++ 0 :: rest) a.length = some (a ++ fp.drop a.length) := by
      rw [List.append_assoc]
      exact strncpy_part h0a hfp.le
    obtain ⟨fp', hfp', hhold, hflen⟩ := write_terminator (c := fp.drop a.length) h0a (by rw [List.length_drop]; omega)
    have htail : (a ++ slash :: b ++ 0 :: rest).drop (a.length + 1) = b ++ 0 :: rest := by
      rw [List.append_assoc, List.drop_length_add_append]
      rfl
    have hread : read (a ++ slash :: b ++ 0 :: rest) (a.length + 1) b.length = some b := by
      have := read_mid (a ++ [slash]) b (0 :: rest)
      simpa using this
    have hmove : memmove (a ++ slash :: b ++ 0 :: rest) 0 (a.length + 1) b.length =
        some (b ++ (a ++ slash :: b ++ 0 :: rest).drop b.length) := by
      rw [memmove, hread, Option.bind_some, write_zero (by simp only [List.length_append, List.length_cons]; omega)]
    obtain ⟨str', hstr', hhold', hslen⟩ := write_terminator (c := (a ++ slash :: b ++ 0 :: rest).drop b.length) h0b
      (by simp only [List.length_drop, List.length_append, List.length_cons]; omega)
    refine ⟨fp', str', ?_, hhold, hhold', ?_, ?_⟩
    · simp only [splitAtFirstSeparator, hcstr, idxOf?_append_cons a slash b ha, hcopy, hfp', htail,
        (holds_terminated h0b rest).cstr_eq, hmove, hstr', Option.bind_eq_bind, Option.bind_some]
      rfl
    · rw [hflen, List.length_append, List.length_drop]
      omega
    · rw [hslen]
      simp only [List.length_append, List.length_drop, List.length_cons]
      omega
  · rw [firstPart_eq_self slash hs] at hfp ⊢
    rw [restPart_eq_nil slash hs]
    have hidx : s.idxOf? slash = none := List.idxOf?_eq_none_iff.2 hs
    have hcopy := (holds_terminated h0 rest).strcpy_eq hfp
    obtain ⟨str', hstr', hhold', hslen⟩ := write_terminator (s := []) (c := s ++ 0 :: rest) (by simp)
      (by rw [List.length_append, List.length_cons]; omega)
    refine ⟨s ++ 0 :: fp.drop (s.length + 1), str', ?_, holds_terminated h0 _, hhold', ?_, hslen⟩
    · simp only [List.nil_append, List.length_nil] at hstr'
      simp only [splitAtFirstSeparator, hcstr, hidx, hcopy, hstr', Option.bind_eq_bind, Option.bind_some]
      rfl
    · simp only [List.length_append, List.length_cons, List.length_drop]
      omega

theorem isLevel_eq {c : UInt8} (hc : c ≠ 0) {fp l : Bytes} (h : Holds fp l) : isLevel c fp = some (decide (l = [c])) := by
  obtain ⟨h0, rest, rfl⟩ := h
  match l with
  | [] => simp [isLevel, Ne.symm hc]
  | [x] =>
    by_cases hx : x = c
    · simp [isLevel, hx]
    · simp [isLevel, hx]
  | x :: y :: l =>
    have hy : y ≠ 0 := fun hy => h0 (by simp [hy])
    by_cases hx : x = c
    · simp [isLevel, hx, hy]
    · simp [isLevel, hx]

theorem isWildcard_eq {fp l : Bytes} (h : Holds fp l) : isWildcard fp = some (decide (l = [star] ∨ l = [plus])) := by
  simp only [isWildcard, isLevel_eq (show star ≠ 0 by decide) h, isLevel_eq (show plus ≠ 0 by decide) h,
    Option.bind_eq_bind, Option.bind_some]
  by_cases hs : l = [star]
  · simp [hs]
  · simp [hs]

theorem Fits.firstPart {s : Bytes} (h : Fits s) (hs : s ≠ []) : (firstPart slash s).length < 51 := by
  have := h (Glob.firstPart slash s) (by rw [levels_of_ne_nil slash hs]; exact List.mem_cons_self)
  omega

theorem Fits.restPart {s : Bytes} (h : Fits s) : Fits (restPart slash s) := by
  by_cases hs : s = []
  · rw [hs]
    intro l hl
    simp [Glob.restPart] at hl
  · intro l hl
    exact h l (by rw [levels_of_ne_nil slash hs]; exact List.mem_cons_of_mem _ hl)

theorem accepts_step {e t : Bytes} (he : e ≠ []) (ht : t ≠ []) : accepts e t =
    if firstPart slash e = [plus] then accepts (restPart slash e) (restPart slash t)
    else if firstPart slash e = [star] then
      accepts (restPart slash e) (restPart slash t) || accepts e (restPart slash t)
    else decide (firstPart slash e = firstPart slash t) && accepts (restPart slash e) (restPart slash t) := by
  unfold accepts
  rw [levels_of_ne_nil slash ht]
  by_cases hp : firstPart slash e = [plus]
  · rw [if_pos hp]
    conv => lhs; rw [levels_of_ne_nil slash he, List.map_cons, patOf, if_pos hp, glob]
  · rw [if_neg hp]
    by_cases hs : firstPart slash e = [star]
    · rw [if_pos hs]
      have hmany : (levels slash e).map patOf = .many :: (levels slash (restPart slash e)).map patOf := by
        rw [levels_of_ne_nil slash he, List.map_cons, patOf, if_neg hp, if_pos hs]
      rw [hmany, glob]
    · rw [if_neg hs]
      conv => lhs; rw [levels_of_ne_nil slash he, List.map_cons, patOf, if_neg hp, if_neg hs, glob]

/-- **The walk on the buffers is the walk on the strings**: it ends, stays inside every buffer, and keeps their sizes. -/
theorem regExMatch_spec (host : Host) : ∀ (fuel : Nat) {e t eb tb : Bytes}, Holds eb e → Holds tb t → Fits e → Fits t →
    t.length < fuel → ∃ eb' tb', regExMatch host fuel eb tb = some (accepts e t, eb', tb') ∧
      eb'.length = eb.length ∧ tb'.length = tb.length
  | 0, _, _, _, _, _, _, _, _, hf => absurd hf (Nat.not_lt_zero _)
  | fuel + 1, e, t, eb, tb, he, ht, hfe, hft, hf => by
    unfold regExMatch
    simp only [he.head?, ht.head?, Option.bind_eq_bind, Option.bind_some]
    by_cases hene : e = []
    · subst hene
      cases t with
      | nil => exact ⟨eb, tb, by simp [accepts, glob], rfl, rfl⟩
      | cons y t =>
        have hy : y ≠ 0 := fun hy => ht.1 (by simp [hy])
        exact ⟨eb, tb, by simp [hy, accepts, glob, levels_of_ne_nil], rfl, rfl⟩
    · obtain ⟨x, e', rfl⟩ := List.exists_cons_of_ne_nil hene
      have hx : x ≠ 0 := fun hx => he.1 (by simp [hx])
      cases t with
      | nil => exact ⟨eb, tb, by simp [hx, accepts, glob, levels_of_ne_nil], rfl, rfl⟩
      | cons y t =>
        have hy : y ≠ 0 := fun hy => ht.1 (by simp [hy])
        generalize hE : x :: e' = E at *
        generalize hT : y :: t = T at *
        have hEne : E ≠ [] := by rw [← hE]; exact List.cons_ne_nil _ _
        have hTne : T ≠ [] := by rw [← hT]; exact List.cons_ne_nil _ _
        obtain ⟨fp1, eb1, hsplit1, hfp1, heb1, hlen1, helen⟩ := splitAtFirstSeparator_spec (host.malloc 51) he
          (by rw [host.length_malloc]; exact hfe.firstPart hEne)
        obtain ⟨fp2, tb1, hsplit2, hfp2, htb1, hlen2, htlen⟩ := splitAtFirstSeparator_spec (host.malloc 51) ht
          (by rw [host.length_malloc]; exact hft.firstPart hTne)
        have hshort : (restPart slash T).length < fuel := by
          have := length_restPart_lt slash hTne
          omega
        -- the first alternative: both rests
        obtain ⟨eb2, tb2, hrec, helen2, htlen2⟩ := regExMatch_spec host fuel heb1 htb1 hfe.restPart hft.restPart hshort
        -- the second: the whole expression again, from its copy, and the rest of the target from its own
        obtain ⟨eb3, tb3, hrec', -, -⟩ := regExMatch_spec host fuel (holds_terminated he.1 [])
          (holds_terminated htb1.1 []) hfe hft.restPart hshort
        have hE0 : E.headD 0 = x := by rw [← hE]; rfl
        have hT0 : T.headD 0 = y := by rw [← hT]; rfl
        simp only [hE0, hT0, hx, hy, he.strdup_eq, hsplit1, hsplit2, htb1.strdup_eq,
          isLevel_eq (show plus ≠ 0 by decide) hfp1,
          isLevel_eq (show star ≠ 0 by decide) hfp1, hfp1.strcmpEq_eq hfp2, Option.bind_some, hrec, hrec']
        rw [accepts_step hEne hTne]
        by_cases hp : firstPart slash E = [plus]
        · simp only [hp]
          exact ⟨eb2, tb2, by simp, by omega, by omega⟩
        · by_cases hs : firstPart slash E = [star]
          · cases hacc : accepts (restPart slash E) (restPart slash T) with
            | true => exact ⟨eb2, tb2, by simp [hs, star, plus], by omega, by omega⟩
            | false => exact ⟨eb2, tb2, by simp [hs, star, plus], by omega, by omega⟩
          · by_cases heq : firstPart slash E = firstPart slash T
            · rw [heq] at hp hs
              exact ⟨eb2, tb2, by simp [hp, hs, heq], by omega, by omega⟩
            · exact ⟨eb1, tb1, by simp [hp, hs, heq], by omega, by omega⟩

theorem mem_splitOn_of_mem_levels {s l : Bytes} (h : l ∈ levels slash s) : l ∈ s.splitOn slash := by
  unfold levels at h
  split at h
  · exact List.mem_of_mem_dropLast h
  · exact h

theorem fits_of_splitOn {s : Bytes} (h : ∀ l ∈ s.splitOn slash, l.length ≤ 50) : Fits s :=
  fun l hl => h l (mem_splitOn_of_mem_levels hl)

/-- **The matcher is correct**: on any buffers holding two strings whose levels have at most 50 bytes it ends, and
answers whether the levels of the target can be cut into blocks, one for each level of the expression. -/
theorem regExMatch_correct (host : Host) {e t eb tb : Bytes} (fuel : Nat) (heb : Holds eb e) (htb : Holds tb t)
    (he : ∀ l ∈ e.splitOn slash, l.length ≤ 50) (ht : ∀ l ∈ t.splitOn slash, l.length ≤ 50) (hf : t.length < fuel) :
    ∃ b eb' tb', regExMatch host fuel eb tb = some (b, eb', tb') ∧
      (b = true ↔ Cuts ((levels slash e).map patOf) (levels slash t)) := by
  obtain ⟨eb', tb', hrun, -, -⟩ := regExMatch_spec host fuel heb htb (fits_of_splitOn he) (fits_of_splitOn ht) hf
  exact ⟨_, eb', tb', hrun, glob_iff_cuts _ _⟩

theorem regExMatch_correct_star : ∃ b eb' tb', regExMatch exactHost 6 [42, 47, 98, 0] [97, 47, 97, 47, 98, 0] =
    some (b, eb', tb') ∧
      (b = true ↔ Cuts ((levels slash [42, 47, 98]).map patOf) (levels slash [97, 47, 97, 47, 98])) :=
  regExMatch_correct exactHost (e := [42, 47, 98]) (t := [97, 47, 97, 47, 98]) 6
    (holds_terminated (by decide) []) (holds_terminated (by decide) []) (by decide) (by decide) (by decide)

/-! ## The classification -/

def HasWildcard (s : Bytes) : Prop := ∃ l ∈ levels slash s, l = [star] ∨ l = [plus]

instance (s : Bytes) : Decidable (HasWildcard s) := inferInstanceAs (Decidable (∃ l ∈ levels slash s, _))

theorem hasWildcard_step {s : Bytes} (hs : s ≠ []) : HasWildcard s ↔
    (firstPart slash s = [star] ∨ firstPart slash s = [plus]) ∨ HasWildcard (restPart slash s) := by
  simp only [HasWildcard, levels_of_ne_nil slash hs, List.mem_cons, exists_eq_or_imp]

theorem not_hasWildcard_nil : ¬ HasWildcard [] := by simp [HasWildcard]

theorem isItRegExLoop_spec : ∀ (fuel : Nat) {s buf fp : Bytes}, Holds buf s → Fits s → fp.length = 51 →
    s.length < fuel → isItRegExLoop fuel buf fp = some (decide (HasWildcard s))
  | 0, _, _, _, _, _, _, hf => absurd hf (Nat.not_lt_zero _)
  | fuel + 1, s, buf, fp, h, hfit, hfp, hf => by
    unfold isItRegExLoop
    simp only [h.head?, Option.bind_eq_bind, Option.bind_some]
    by_cases hs : s = []
    · subst hs
      simp [not_hasWildcard_nil]
    · have hhead : s.headD 0 ≠ 0 := by
        obtain ⟨x, s', rfl⟩ := List.exists_cons_of_ne_nil hs
        exact fun hx => h.1 (by simpa using Or.inl (Eq.symm hx))
      obtain ⟨fp', buf', hsplit, hfp', hbuf', hlen, -⟩ := splitAtFirstSeparator_spec fp h
        (by rw [hfp]; exact hfit.firstPart hs)
      have ih := isItRegExLoop_spec fuel hbuf' hfit.restPart (hlen.trans hfp)
        (by have := length_restPart_lt slash hs; omega)
      simp only [if_neg hhead, hsplit, Option.bind_some, isWildcard_eq hfp', ih]
      by_cases hw : firstPart slash s = [star] ∨ firstPart slash s = [plus]
      · simp [hw, (hasWildcard_step hs).2 (Or.inl hw)]
      · simp [hw, hasWildcard_step hs]

/-- **`isItRegEx` finds a wildcard level**, for every string whose levels fit the buffer. -/
theorem isItRegEx_eq (host : Host) {s : Bytes} (h0 : 0 ∉ s) (hfit : Fits s) :
    isItRegEx host s = some (decide (HasWildcard s)) := by
  have hbuf : Holds (s ++ [0]) s := holds_terminated h0 []
  by_cases hs : s = []
  · subst hs
    obtain ⟨fp, buf, hsplit, hfp, hbuf', hlen, -⟩ := splitAtFirstSeparator_spec (host.malloc 51) hbuf
      (by rw [host.length_malloc]; decide)
    have hnil : firstPart slash ([] : Bytes) = [] := rfl
    rw [hnil] at hfp
    simp only [isItRegEx, hbuf.strdup_eq, hsplit, isWildcard_eq hfp, Option.bind_eq_bind, Option.bind_some]
    have hrest : restPart slash ([] : Bytes) = [] := rfl
    rw [hrest] at hbuf'
    simpa using isItRegExLoop_spec 1 hbuf' hfit (by rw [hlen, host.length_malloc]) (by decide)
  · obtain ⟨fp, buf, hsplit, hfp, hbuf', hlen, -⟩ := splitAtFirstSeparator_spec (host.malloc 51) hbuf
      (by rw [host.length_malloc]; exact hfit.firstPart hs)
    have hloop := isItRegExLoop_spec (s.length + 1) hbuf' hfit.restPart (by rw [hlen, host.length_malloc])
      (by have := length_restPart_lt slash hs; omega)
    simp only [isItRegEx, hbuf.strdup_eq, hsplit, isWildcard_eq hfp, hloop, Option.bind_eq_bind, Option.bind_some]
    by_cases hw : firstPart slash s = [star] ∨ firstPart slash s = [plus]
    · simp [hw, (hasWildcard_step hs).2 (Or.inl hw)]
    · simp [hw, hasWildcard_step hs]

/-- **The classification is exact**: on every string whose pieces between slashes have at most 50 bytes `isItRegEx` ends,
and says yes when one of these pieces is a `+` or a `*` and nothing else. -/
theorem isItRegEx_exact (host : Host) {e : Bytes} (h0 : 0 ∉ e) (he : ∀ l ∈ e.splitOn slash, l.length ≤ 50) :
    ∃ r, isItRegEx host e = some r ∧ (r = true ↔ [plus] ∈ e.splitOn slash ∨ [star] ∈ e.splitOn slash) := by
  refine ⟨_, isItRegEx_eq host h0 (fits_of_splitOn he), ?_⟩
  rw [decide_eq_true_eq, ← mem_levels_iff slash (List.cons_ne_nil plus []),
    ← mem_levels_iff slash (List.cons_ne_nil star [])]
  constructor
  · rintro ⟨l, hl, rfl | rfl⟩
    · exact Or.inr hl
    · exact Or.inl hl
  · rintro (hl | hl)
    · exact ⟨_, hl, Or.inr rfl⟩
    · exact ⟨_, hl, Or.inl rfl⟩

theorem isItRegEx_exact_last : ∃ r, isItRegEx exactHost [97, 43, 47, 42, 47] = some r ∧
    (r = true ↔ [plus] ∈ [97, 43, 47, 42, 47].splitOn slash ∨ [star] ∈ [97, 43, 47, 42, 47].splitOn slash) :=
  isItRegEx_exact exactHost (by decide) (by decide)

end Ts
