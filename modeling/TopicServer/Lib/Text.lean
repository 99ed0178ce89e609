import Mathlib.Data.Nat.Digits.Lemmas
import Mathlib.Data.List.TakeWhile
import Mathlib.Data.Rat.Floor
import Mathlib.Tactic.Linarith
import Mathlib.Tactic.Ring
import Mathlib.Tactic.FieldSimp
/-!
# Text — bytes as text: decimal numbers, words, separators

Numbers are written in decimal (`dec`), with a fixed number of decimals (`fixedNat`, and `fixed` for a fraction that is
first rounded to the nearest one), and read big-endian (`be`).  A text is read word by word as a stream of words
separated by white space (`word`).  What a reader needs is that each form is unambiguous: `dec_injective`,
`fixedNat_injective`, and `append_sep_inj` for two texts joined at the first separator.
-/
namespace Text

def ascii (s : String) : List UInt8 := s.toList.map (fun c => c.toNat.toUInt8)

/-- **What comes before the first separator, and what comes after it, are read off the joined text.** -/
theorem append_sep_inj {α : Type} [DecidableEq α] {sep : α} {a a' b b' : List α} (ha : sep ∉ a) (ha' : sep ∉ a')
    (h : a ++ sep :: b = a' ++ sep :: b') : a = a' ∧ b = b' := by
  have before : ∀ {x : List α} (y : List α), sep ∉ x → (x ++ sep :: y).takeWhile (· ≠ sep) = x := by
    intro x y hx
    rw [List.takeWhile_append_of_pos (fun z hz => by simpa using fun e : z = sep => hx (e ▸ hz))]
    simp
  have hpre := congrArg (List.takeWhile (· ≠ sep)) h
  rw [before b ha, before b' ha'] at hpre
  subst hpre
  exact ⟨rfl, by simpa using h⟩

/-! ## Decimal -/

def digit (d : Nat) : UInt8 := (48 + d).toUInt8

def IsDigit (b : UInt8) : Prop := 48 ≤ b ∧ b ≤ 57

def undec (s : List UInt8) : Nat := s.foldl (fun n b => 10 * n + (b.toNat - 48)) 0

/-- The decimal digits of `n`, the most significant first, without a leading zero. -/
def digitsOf (n : Nat) : List UInt8 := (Nat.digits 10 n).reverse.map digit

def dec (n : Nat) : List UInt8 := if n = 0 then [48] else digitsOf n

/-- `m` in `p` digits, padded with zeros on the left. -/
def pad (p m : Nat) : List UInt8 := List.replicate (p - (digitsOf m).length) 48 ++ digitsOf m

theorem toNat_digit {d : Nat} (h : d < 10) : (digit d).toNat = 48 + d := by
  unfold digit
  rw [Nat.toUInt8, UInt8.toNat_ofNat']
  omega

theorem isDigit_digit {d : Nat} (h : d < 10) : IsDigit (digit d) := by
  simp only [IsDigit, UInt8.le_iff_toNat_le, toNat_digit h]
  constructor
  · simp
  · simp only [UInt8.reduceToNat]
    omega

theorem undec_append (a b : List UInt8) : undec (a ++ b) = undec a * 10 ^ b.length + undec b := by
  unfold undec
  rw [List.foldl_append]
  generalize a.foldl (fun n b => 10 * n + (b.toNat - 48)) 0 = v
  have shift : ∀ (l : List UInt8) (v : Nat), l.foldl (fun n b => 10 * n + (b.toNat - 48)) v =
      v * 10 ^ l.length + l.foldl (fun n b => 10 * n + (b.toNat - 48)) 0 := by
    intro l
    induction l with
    | nil => intro v; simp
    | cons x l ih =>
      intro v
      rw [List.foldl_cons, List.foldl_cons, ih, ih (10 * 0 + _), List.length_cons, pow_succ]
      ring
  exact shift b v

theorem undec_digits_reverse : ∀ (l : List Nat), (∀ d ∈ l, d < 10) →
    undec (l.reverse.map digit) = Nat.ofDigits 10 l
  | [], _ => rfl
  | d :: l, h => by
    have hd : d < 10 := h d List.mem_cons_self
    have ih := undec_digits_reverse l (fun x hx => h x (List.mem_cons_of_mem _ hx))
    rw [List.reverse_cons, List.map_append, undec_append, ih, Nat.ofDigits_cons]
    simp [undec, toNat_digit hd]
    ring

theorem undec_digitsOf (n : Nat) : undec (digitsOf n) = n := by
  unfold digitsOf
  rw [undec_digits_reverse _ (fun d hd => Nat.digits_lt_base (by decide) hd), Nat.ofDigits_digits]

theorem undec_dec (n : Nat) : undec (dec n) = n := by
  unfold dec
  split
  · rename_i h
    rw [h]
    rfl
  · exact undec_digitsOf n

theorem dec_injective {n m : Nat} (h : dec n = dec m) : n = m := by
  rw [← undec_dec n, h, undec_dec]

theorem isDigit_of_mem_digitsOf {n : Nat} {b : UInt8} (h : b ∈ digitsOf n) : IsDigit b := by
  obtain ⟨d, hd, rfl⟩ := List.mem_map.1 h
  exact isDigit_digit (Nat.digits_lt_base (by decide) (List.mem_reverse.1 hd))

theorem isDigit_of_mem_dec {n : Nat} {b : UInt8} (h : b ∈ dec n) : IsDigit b := by
  unfold dec at h
  split at h
  · rw [List.mem_singleton.1 h]
    exact ⟨by decide, by decide⟩
  · exact isDigit_of_mem_digitsOf h

theorem not_mem_dec {b : UInt8} (hb : ¬ IsDigit b) (n : Nat) : b ∉ dec n := fun h => hb (isDigit_of_mem_dec h)

theorem length_digitsOf_le {n k : Nat} (h : n < 10 ^ k) : (digitsOf n).length ≤ k := by
  simp only [digitsOf, List.length_map, List.length_reverse]
  exact (Nat.digits_length_le_iff (by decide) n).2 h

theorem length_dec_le {n k : Nat} (hk : 0 < k) (h : n < 10 ^ k) : (dec n).length ≤ k := by
  unfold dec
  split
  · exact hk
  · exact length_digitsOf_le h

theorem length_pad {p m : Nat} (h : m < 10 ^ p) : (pad p m).length = p := by
  have := length_digitsOf_le h
  simp only [pad, List.length_append, List.length_replicate]
  omega

theorem undec_pad (p m : Nat) : undec (pad p m) = m := by
  have hzero : ∀ k, undec (List.replicate k 48) = 0 := by
    intro k
    induction k with
    | zero => rfl
    | succ k ih => rw [List.replicate_succ', undec_append, ih]; rfl
  rw [pad, undec_append, hzero, undec_digitsOf]
  simp

theorem isDigit_of_mem_pad {p m : Nat} {b : UInt8} (h : b ∈ pad p m) : IsDigit b := by
  rcases List.mem_append.1 h with h | h
  · rw [(List.mem_replicate.1 h).2]
    exact ⟨by decide, by decide⟩
  · exact isDigit_of_mem_digitsOf h

/-! ## A fixed number of decimals -/

/-- `n / 10 ^ p` written with `p` decimals; no point when there are none. -/
def fixedNat (p n : Nat) : List UInt8 :=
  if p = 0 then dec n else dec (n / 10 ^ p) ++ 46 :: pad p (n % 10 ^ p)

/-- The nearest natural number to a non-negative fraction; of two equally near, the even one. -/
def nearest (y : ℚ) : Nat :=
  let r := y - ⌊y⌋
  if r < 1 / 2 then ⌊y⌋.toNat
  else if 1 / 2 < r then ⌊y⌋.toNat + 1
  else if ⌊y⌋.toNat % 2 = 0 then ⌊y⌋.toNat else ⌊y⌋.toNat + 1

def fixed (p : Nat) (x : ℚ) : List UInt8 :=
  (if x < 0 then [45] else []) ++ fixedNat p (nearest (|x| * 10 ^ p))

theorem nearest_of_close {y : ℚ} {n : Nat} (h0 : 0 ≤ y) (h : |y - n| < 1 / 2) : nearest y = n := by
  obtain ⟨hlo, hhi⟩ := abs_lt.1 h
  by_cases hle : (n : ℚ) ≤ y
  · have hfloor : ⌊y⌋ = (n : ℤ) := Int.floor_eq_iff.2 ⟨by exact_mod_cast hle, by push_cast; linarith⟩
    have hr : y - ((n : ℤ) : ℚ) < 1 / 2 := by push_cast; linarith
    simp only [nearest, hfloor, if_pos hr, Int.toNat_natCast]
  · -- `y` is below `n` by less than a half, so its floor is `n - 1` and it is rounded up
    have hlt : y < (n : ℚ) := lt_of_not_ge hle
    have hfloor : ⌊y⌋ = (n : ℤ) - 1 := Int.floor_eq_iff.2 ⟨by push_cast; linarith, by push_cast; linarith⟩
    have hn : 0 < n := by exact_mod_cast lt_of_le_of_lt h0 hlt
    have hr1 : ¬ y - (((n : ℤ) - 1 : ℤ) : ℚ) < 1 / 2 := by push_cast; linarith
    have hr2 : 1 / 2 < y - (((n : ℤ) - 1 : ℤ) : ℚ) := by push_cast; linarith
    simp only [nearest, hfloor, if_neg hr1, if_pos hr2]
    omega

theorem fixed_of_close {p n : Nat} {x : ℚ} (h0 : 0 ≤ x) (h : |x * 10 ^ p - n| < 1 / 2) : fixed p x = fixedNat p n := by
  have hpow : (0 : ℚ) ≤ x * 10 ^ p := mul_nonneg h0 (by positivity)
  simp only [fixed, if_neg (not_lt.2 h0), abs_of_nonneg h0, nearest_of_close hpow h, List.nil_append]

/-- **A relative error of `2 ^ -51` is not seen**, in a number of fewer than 51 bits of decimals. -/
theorem fixed_of_relative {p n : Nat} {x q : ℚ} (hq : q * 10 ^ p = n) (hn : n < 2 ^ 50) (h : |x - q| ≤ q / 2 ^ 51) :
    fixed p x = fixedNat p n := by
  have hpow : (0 : ℚ) < 10 ^ p := by positivity
  have hn' : (n : ℚ) < 2 ^ 50 := by exact_mod_cast hn
  have hq0 : 0 ≤ q := by
    rw [← mul_nonneg_iff_of_pos_right hpow, hq]
    positivity
  have hx0 : 0 ≤ x := by
    have hlo := (abs_le.1 h).1
    have : q / 2 ^ 51 ≤ q := div_le_self hq0 (by norm_num)
    linarith
  have hscaled : |x * 10 ^ p - n| ≤ n / 2 ^ 51 := by
    rw [← hq, ← sub_mul, abs_mul, abs_of_pos hpow, mul_div_right_comm]
    exact mul_le_mul_of_nonneg_right h hpow.le
  refine fixed_of_close hx0 (lt_of_le_of_lt hscaled ?_)
  rw [div_lt_iff₀ (by norm_num)]
  norm_num at hn' ⊢
  linarith

theorem not_mem_fixedNat {b : UInt8} (hb : ¬ IsDigit b) (hpt : b ≠ 46) (p n : Nat) : b ∉ fixedNat p n := by
  unfold fixedNat
  split
  · exact not_mem_dec hb n
  · intro h
    rcases List.mem_append.1 h with h | h
    · exact not_mem_dec hb _ h
    · rcases List.mem_cons.1 h with h | h
      · exact hpt h
      · exact hb (isDigit_of_mem_pad h)

theorem length_fixedNat_le {p n k : Nat} (hk : 0 < k) (h : n < 10 ^ k) : (fixedNat p n).length ≤ k + 1 + p := by
  unfold fixedNat
  split
  · have := length_dec_le hk h
    omega
  · have hint : n / 10 ^ p < 10 ^ k := lt_of_le_of_lt (Nat.div_le_self _ _) h
    have := length_dec_le hk hint
    rw [List.length_append, List.length_cons, length_pad (Nat.mod_lt _ (by positivity))]
    omega

theorem fixedNat_injective {p p' n n' : Nat} (h : fixedNat p n = fixedNat p' n') : p = p' ∧ n = n' := by
  have hpoint : ∀ m, (46 : UInt8) ∉ dec m := not_mem_dec (fun hd => absurd hd.1 (by decide))
  have hmem : ∀ {q m}, (46 : UInt8) ∈ fixedNat q m ↔ q ≠ 0 := by
    intro q m
    unfold fixedNat
    split
    · rename_i hq
      exact ⟨fun hm => absurd hm (hpoint m), fun hne => absurd hq hne⟩
    · rename_i hq
      exact ⟨fun _ => hq, fun _ => by simp⟩
  by_cases hp : p = 0
  · have hp' : p' = 0 := by
      by_contra hne
      exact absurd (h ▸ hmem.2 hne) (fun hm => hmem.1 hm hp)
    subst hp hp'
    exact ⟨rfl, dec_injective (by simpa [fixedNat] using h)⟩
  · have hp' : p' ≠ 0 := hmem.1 (h ▸ hmem.2 hp)
    simp only [fixedNat, if_neg hp, if_neg hp'] at h
    obtain ⟨hint, hfrac⟩ := append_sep_inj (hpoint _) (hpoint _) h
    have hlt : ∀ q m : Nat, m % 10 ^ q < 10 ^ q := fun q m => Nat.mod_lt _ (by positivity)
    have hpp : p = p' := by
      rw [← length_pad (hlt p n), hfrac, length_pad (hlt p' n')]
    subst hpp
    refine ⟨rfl, ?_⟩
    have hdiv : n / 10 ^ p = n' / 10 ^ p := dec_injective hint
    have hmod : n % 10 ^ p = n' % 10 ^ p := by
      rw [← undec_pad p (n % 10 ^ p), hfrac, undec_pad]
    rw [← Nat.div_add_mod n (10 ^ p), hdiv, hmod, Nat.div_add_mod]

/-! ## The number a text denotes -/

instance (b : UInt8) : Decidable (IsDigit b) := inferInstanceAs (Decidable (_ ∧ _))

def Digits (s : List UInt8) : Prop := ∀ b ∈ s, IsDigit b

instance (s : List UInt8) : Decidable (Digits s) := List.decidableBAll IsDigit s

/-- The fraction a text without a sign denotes: a whole part and, behind a point, decimals. -/
def unsigned (s : List UInt8) : Option ℚ :=
  let i := s.takeWhile (· ≠ 46)
  let f := (s.dropWhile (· ≠ 46)).drop 1
  if i ≠ [] ∧ Digits i ∧ Digits f ∧ (46 ∈ s → f ≠ []) then
    some (undec i + undec f / 10 ^ f.length)
  else none

/-- The fraction a text denotes; none when it is not a number. -/
def denoted (s : List UInt8) : Option ℚ :=
  match s with
  | 45 :: s => (unsigned s).map (- ·)
  | s => unsigned s

theorem dec_ne_nil (n : Nat) : dec n ≠ [] := by
  unfold dec
  split
  · simp
  · rename_i h
    simpa [digitsOf, Nat.digits_eq_nil_iff_eq_zero] using h

theorem point_not_mem_dec (n : Nat) : (46 : UInt8) ∉ dec n := not_mem_dec (fun hd => absurd hd.1 (by decide)) n

theorem minus_not_mem_fixedNat (p n : Nat) : (45 : UInt8) ∉ fixedNat p n :=
  not_mem_fixedNat (fun hd => absurd hd.1 (by decide)) (by decide) p n

theorem unsigned_fixedNat (p n : Nat) : unsigned (fixedNat p n) = some ((n : ℚ) / 10 ^ p) := by
  have hpoint : ∀ x ∈ dec (n / 10 ^ p), (decide (x ≠ 46)) = true :=
    fun x hx => by simpa using fun h : x = 46 => point_not_mem_dec _ (h ▸ hx)
  have hdigits : ∀ m, Digits (dec m) := fun m b => isDigit_of_mem_dec
  by_cases hp : p = 0
  · subst hp
    have hi : (dec n).takeWhile (· ≠ 46) = dec n := by simpa using hpoint
    have hf : ((dec n).dropWhile (· ≠ 46)).drop 1 = [] := by
      rw [List.dropWhile_eq_nil_iff.2 (by simpa using hpoint)]
      rfl
    simp only [unsigned, fixedNat, if_true, hi, hf]
    have hnil : Digits [] := fun b hb => absurd hb List.not_mem_nil
    rw [if_pos ⟨dec_ne_nil n, hdigits n, hnil, fun h => absurd h (point_not_mem_dec n)⟩, undec_dec]
    simp [undec]
  · have hlt : n % 10 ^ p < 10 ^ p := Nat.mod_lt _ (by positivity)
    have hi : (dec (n / 10 ^ p) ++ 46 :: pad p (n % 10 ^ p)).takeWhile (· ≠ 46) = dec (n / 10 ^ p) := by
      rw [List.takeWhile_append_of_pos hpoint]
      simp
    have hf : ((dec (n / 10 ^ p) ++ 46 :: pad p (n % 10 ^ p)).dropWhile (· ≠ 46)).drop 1 = pad p (n % 10 ^ p) := by
      rw [List.dropWhile_append_of_pos hpoint]
      simp
    have hpad : pad p (n % 10 ^ p) ≠ [] := fun h => hp (by rw [← length_pad hlt, h]; rfl)
    simp only [unsigned, fixedNat, if_neg hp, hi, hf]
    rw [if_pos ⟨dec_ne_nil _, hdigits _, fun b => isDigit_of_mem_pad, fun _ => hpad⟩, undec_dec, undec_pad,
      length_pad hlt]
    have hpow : (10 : ℚ) ^ p ≠ 0 := by positivity
    have hsum : (n : ℚ) = 10 ^ p * (n / 10 ^ p : Nat) + (n % 10 ^ p : Nat) := by
      exact_mod_cast (Nat.div_add_mod n (10 ^ p)).symm
    rw [Option.some.injEq]
    conv => rhs; rw [hsum]
    field_simp

theorem denoted_fixedNat (p n : Nat) : denoted (fixedNat p n) = some ((n : ℚ) / 10 ^ p) := by
  rw [← unsigned_fixedNat]
  unfold denoted
  split
  · rename_i s hs
    exact absurd (hs ▸ List.mem_cons_self) (minus_not_mem_fixedNat p n)
  · rfl

theorem denoted_minus (p n : Nat) : denoted (45 :: fixedNat p n) = some (-((n : ℚ) / 10 ^ p)) := by
  show (unsigned (fixedNat p n)).map (- ·) = _
  rw [unsigned_fixedNat]
  rfl

/-- The canonical way to write a number with `k` decimals: digits without a superfluous zero in front, no point when there
are no decimals, and a sign only for a number below zero. -/
def Canonical (k : Nat) (s : List UInt8) : Prop :=
  ∃ sign i f d, s = sign ++ (i ++ f) ∧ (sign = [] ∨ sign = [45] ∧ denoted s ≠ some 0) ∧
    i ≠ [] ∧ Digits i ∧ (i.head? = some 48 → i = [48]) ∧ Digits d ∧ d.length = k ∧ f = if k = 0 then [] else 46 :: d

theorem dec_head (n : Nat) (h : (dec n).head? = some 48) : dec n = [48] := by
  unfold dec at h ⊢
  split
  · rfl
  · rename_i hn
    rw [if_neg hn, digitsOf, List.head?_map, List.head?_reverse] at h
    obtain ⟨d, hd, hz⟩ := Option.map_eq_some_iff.1 h
    have hlt : d < 10 := Nat.digits_lt_base (by decide) (List.mem_of_getLast? hd)
    have hd0 : d = 0 := by
      have := congrArg UInt8.toNat hz
      rw [toNat_digit hlt] at this
      simpa using this
    have hne : Nat.digits 10 n ≠ [] := Nat.digits_ne_nil_iff_ne_zero.2 hn
    have hlast := Nat.getLast_digit_ne_zero 10 hn
    rw [List.getLast?_eq_some_getLast hne] at hd
    exact absurd ((Option.some.inj hd).trans hd0) hlast

theorem canonical_fixedNat (p n : Nat) : Canonical p (fixedNat p n) := by
  have hlt : n % 10 ^ p < 10 ^ p := Nat.mod_lt _ (by positivity)
  refine ⟨[], dec (n / 10 ^ p), if p = 0 then [] else 46 :: pad p (n % 10 ^ p), pad p (n % 10 ^ p), ?_, Or.inl rfl,
    dec_ne_nil _, fun b => isDigit_of_mem_dec, dec_head _, fun b => isDigit_of_mem_pad, length_pad hlt, rfl⟩
  unfold fixedNat
  split
  · rename_i hp
    simp [hp]
  · rfl

theorem canonical_minus_iff (p n : Nat) : Canonical p (45 :: fixedNat p n) ↔ n ≠ 0 := by
  constructor
  · rintro ⟨sign, i, f, d, hs, hsign, hne, hi, -⟩ rfl
    rcases hsign with rfl | ⟨-, hz⟩
    · obtain ⟨x, i, rfl⟩ := List.exists_cons_of_ne_nil hne
      obtain rfl : 45 = x := (List.cons.inj hs).1
      exact absurd (hi 45 List.mem_cons_self).1 (by decide)
    · exact hz (by rw [denoted_minus]; simp)
  · intro hn
    obtain ⟨sign, i, f, d, hs, hsign, hrest⟩ := canonical_fixedNat p n
    obtain rfl : sign = [] := hsign.resolve_right (fun h => minus_not_mem_fixedNat p n (by rw [hs, h.1]; simp))
    refine ⟨[45], i, f, d, by rw [hs]; rfl, Or.inr ⟨rfl, ?_⟩, hrest⟩
    rw [denoted_minus]
    simpa using hn

theorem not_canonical_fixedNat {p k : Nat} (hp : p ≠ 0) (hk : k ≠ p) (n : Nat) : ¬ Canonical k (fixedNat p n) := by
  rintro ⟨sign, i, f, d, hs, hsign, hne, hi, -, hd, hlen, rfl⟩
  obtain rfl : sign = [] := hsign.resolve_right (fun h => minus_not_mem_fixedNat p n (by rw [hs, h.1]; simp))
  have hpoint : (46 : UInt8) ∉ i := fun hm => absurd (hi 46 hm).1 (by decide)
  simp only [fixedNat, if_neg hp, List.nil_append] at hs
  by_cases hk0 : k = 0
  · rw [if_pos hk0, List.append_nil] at hs
    exact hpoint (hs ▸ by simp)
  · rw [if_neg hk0] at hs
    obtain ⟨-, rfl⟩ := append_sep_inj (point_not_mem_dec _) hpoint hs
    rw [length_pad (Nat.mod_lt _ (by positivity))] at hlen
    exact hk hlen.symm

/-! ## Big-endian numbers -/

/-- The number some bytes write, the most significant first. -/
def be (s : List UInt8) : Nat := s.foldl (fun n b => 256 * n + b.toNat) 0

theorem be_append_singleton (s : List UInt8) (b : UInt8) : be (s ++ [b]) = 256 * be s + b.toNat := by
  simp [be]

theorem be_lt : ∀ (s : List UInt8), be s < 256 ^ s.length := by
  intro s
  induction s using List.reverseRecOn with
  | nil => simp [be]
  | append_singleton s b ih =>
    have hb := b.toNat_lt
    rw [be_append_singleton, List.length_append, List.length_singleton, pow_succ]
    omega

def be16 (n : Nat) : List UInt8 := [(n / 256).toUInt8, n.toUInt8]

theorem be_be16 {n : Nat} (h : n < 65536) : be (be16 n) = n := by
  simp only [be16, be, List.foldl_cons, List.foldl_nil, Nat.toUInt8, UInt8.toNat_ofNat']
  omega

def beBytes : Nat → Nat → List UInt8
  | 0, _ => []
  | k + 1, n => beBytes k (n / 256) ++ [n.toUInt8]

theorem length_beBytes : ∀ (k n : Nat), (beBytes k n).length = k
  | 0, _ => rfl
  | k + 1, n => by rw [beBytes, List.length_append, length_beBytes k, List.length_singleton]

theorem be_beBytes : ∀ {k n : Nat}, n < 256 ^ k → be (beBytes k n) = n
  | 0, n, h => by
    rw [pow_zero, Nat.lt_one_iff] at h
    rw [h]
    rfl
  | k + 1, n, h => by
    rw [pow_succ] at h
    rw [beBytes, be_append_singleton, be_beBytes (by omega), Nat.toUInt8, UInt8.toNat_ofNat']
    omega

/-! ## Words -/

/-- White space, as a stream of words skips it. -/
def isspace (b : UInt8) : Bool := b == 32 || (9 ≤ b && b ≤ 13)

/-- The next word and what is left after it; the empty word when only white space is left. -/
def word (s : List UInt8) : List UInt8 × List UInt8 :=
  let t := s.dropWhile isspace
  (t.takeWhile (fun b => !isspace b), t.dropWhile (fun b => !isspace b))

theorem word_of_nonspace {w : List UInt8} (hw : ∀ b ∈ w, isspace b = false) (hne : w ≠ []) {rest : List UInt8}
    (hrest : ∀ b ∈ rest.head?, isspace b = true) : word (w ++ rest) = (w, rest) := by
  obtain ⟨x, w, rfl⟩ := List.exists_cons_of_ne_nil hne
  have hx : isspace x = false := hw x List.mem_cons_self
  have hdrop : (x :: w ++ rest).dropWhile isspace = x :: w ++ rest := by
    rw [List.cons_append, List.dropWhile_cons_of_neg (by simp [hx])]
  have hall : ∀ b ∈ x :: w, (!isspace b) = true := fun b hb => by simp [hw b hb]
  unfold word
  simp only [hdrop]
  rw [List.takeWhile_append_of_pos hall, List.dropWhile_append_of_pos hall]
  cases rest with
  | nil => simp
  | cons y rest =>
    have hy : isspace y = true := hrest y rfl
    simp [hy]

theorem word_self {w : List UInt8} (hw : ∀ b ∈ w, isspace b = false) (hne : w ≠ []) : word w = (w, []) := by
  have h : word (w ++ []) = (w, []) := word_of_nonspace hw hne (fun b hb => by cases hb)
  rwa [List.append_nil] at h

theorem word_cons_of_space {b : UInt8} (hb : isspace b = true) (s : List UInt8) : word (b :: s) = word s := by
  unfold word
  rw [List.dropWhile_cons_of_pos hb]

theorem word_fst_piece (s : List UInt8) : (word s).1 <:+: s :=
  (List.IsPrefix.isInfix ( List.takeWhile_prefix _)).trans (List.dropWhile_suffix _).isInfix

theorem not_isspace_of_mem_word {s : List UInt8} {b : UInt8} (h : b ∈ (word s).1) : isspace b = false := by
  simpa using List.mem_takeWhile_imp h

end Text
