import Mathlib.Data.List.DropRight
import Mathlib.Algebra.Field.Rat
import Mathlib.Algebra.Order.Ring.Rat
import Mathlib.Tactic.FieldSimp
import Mathlib.Tactic.Positivity
import Mathlib.Tactic.Ring

set_option autoImplicit false

/-!
# Decimal numerals

A numeral is an optional sign, digits, an optional fraction and an optional
exponent. `value` reads a text as one and says which rational number it
denotes, if it is one at all; `Numeral` is a numeral in its parts, and
`value_text` ties the two together.

The other direction starts from a number. `fixedText k n` is the text of
`n / 10 ^ k` with all `k` decimals, `trimmedText k n` the one without the
zeros at the end, and both denote it.
-/

namespace Decimal

/-! ## Digits -/

/-- One or more digits. -/
def IsDigits (ds : List Char) : Prop := ds ≠ [] ∧ ∀ c ∈ ds, c.isDigit = true

instance : DecidablePred IsDigits := fun ds =>
  decidable_of_iff (ds ≠ [] ∧ ds.all Char.isDigit = true) (and_congr_right' List.all_eq_true)

/-- The number that digits denote. -/
abbrev digitsValue (ds : List Char) : ℕ := Nat.ofDigitChars 10 ds 0

theorem digitsValue_append (ds ds' : List Char) :
    digitsValue (ds ++ ds') = 10 ^ ds'.length * digitsValue ds + digitsValue ds' := by
  rw [digitsValue, Nat.ofDigitChars_append, Nat.ofDigitChars_eq_ofDigitChars_zero]

/-- Digits without the zeros at their end. -/
def dropZeros (ds : List Char) : List Char := ds.rdropWhile (· = '0')

/-- The zeros dropped. -/
theorem exists_dropZeros_append (ds : List Char) :
    ∃ k, ds = dropZeros ds ++ List.replicate k '0' := by
  refine ⟨(ds.rtakeWhile (· = '0')).length, ?_⟩
  have hzeros : ds.rtakeWhile (· = '0') = List.replicate (ds.rtakeWhile (· = '0')).length '0' :=
    List.eq_replicate_iff.mpr ⟨rfl, fun c hc => by simpa using List.mem_rtakeWhile_imp hc⟩
  rw [← hzeros, dropZeros, List.rdropWhile_append_rtakeWhile]

/-- What is dropped from the end may be appended there. -/
theorem rdropWhile_append_replicate {α : Type} {p : α → Bool} {a : α} (ha : p a = true)
    (l : List α) (k : ℕ) : (l ++ List.replicate k a).rdropWhile p = l.rdropWhile p := by
  induction k with
  | zero => rw [List.replicate_zero, List.append_nil]
  | succ k ih =>
    rw [List.replicate_succ', ← List.append_assoc, List.rdropWhile_concat_pos _ _ _ ha, ih]

theorem dropZeros_append_replicate (ds : List Char) (k : ℕ) :
    dropZeros (ds ++ List.replicate k '0') = dropZeros ds :=
  rdropWhile_append_replicate rfl ds k

/-- There are no more zeros to drop. -/
theorem dropZeros_dropZeros (ds : List Char) : dropZeros (dropZeros ds) = dropZeros ds :=
  List.rdropWhile_idempotent _ _

theorem mem_of_mem_dropZeros {ds : List Char} {c : Char} (h : c ∈ dropZeros ds) : c ∈ ds :=
  (List.rdropWhile_prefix _ _).subset h

theorem digitsValue_of_append_zeros {ds ds' : List Char} {k : ℕ}
    (h : ds = ds' ++ List.replicate k '0') : digitsValue ds = 10 ^ k * digitsValue ds' := by
  rw [h, digitsValue_append, List.length_replicate]
  show _ + Nat.ofDigitChars 10 (List.replicate k '0') 0 = _
  rw [Nat.ofDigitChars_replicate_zero, Nat.mul_zero, Nat.add_zero]

/-- What precedes a character other than zero stays. -/
theorem dropZeros_append_cons {c : Char} (hc : c ≠ '0') (ds ds' : List Char) :
    dropZeros (ds ++ c :: ds') = ds ++ c :: dropZeros ds' := by
  induction ds' using List.reverseRecOn with
  | nil =>
    rw [dropZeros, List.rdropWhile_concat_neg _ _ _ (by simpa using hc)]
    rfl
  | append_singleton ds' c' ih =>
    have hassoc : ds ++ c :: (ds' ++ [c']) = (ds ++ c :: ds') ++ [c'] := by simp
    by_cases hc' : c' = '0'
    · rw [hassoc, dropZeros, List.rdropWhile_concat_pos _ _ _ (by simpa using hc'), dropZeros,
        List.rdropWhile_concat_pos _ _ _ (by simpa using hc')]
      exact ih
    · rw [hassoc, dropZeros, List.rdropWhile_concat_neg _ _ _ (by simpa using hc'), dropZeros,
        List.rdropWhile_concat_neg _ _ _ (by simpa using hc')]
      simp

/-- A fraction, with its point unless it is empty. -/
def dotted : List Char → List Char
  | [] => []
  | ds => '.' :: ds

@[simp] theorem dotted_nil : dotted [] = [] := rfl

theorem dotted_of_ne_nil {ds : List Char} (h : ds ≠ []) : dotted ds = '.' :: ds := by
  cases ds with
  | nil => exact absurd rfl h
  | cons c ds => rfl

theorem isDigits_dropZeros_iff {ds : List Char} (hds : ∀ c ∈ ds, c.isDigit = true) :
    IsDigits (dropZeros ds) ↔ ∃ c ∈ ds, c ≠ '0' := by
  have hne : dropZeros ds ≠ [] ↔ ∃ c ∈ ds, c ≠ '0' := by
    rw [dropZeros, ne_eq, List.rdropWhile_eq_nil_iff]
    simp
  rw [← hne]
  exact ⟨fun h => h.1, fun h => ⟨h, fun c hc => hds c (mem_of_mem_dropZeros hc)⟩⟩

theorem getLast_dropZeros_ne {ds : List Char} (h : dropZeros ds ≠ []) :
    (dropZeros ds).getLast h ≠ '0' :=
  fun heq => List.rdropWhile_last_not _ ds h (decide_eq_true heq)

/-- Digits that do not end in a zero do not denote zero. -/
theorem digitsValue_dropZeros_pos {ds : List Char} (h : IsDigits (dropZeros ds)) :
    0 < digitsValue (dropZeros ds) := by
  obtain ⟨hne, hdigit⟩ := h
  have hc : ∀ c : Char, c.isDigit = true → c ≠ '0' → 0 < digitsValue [c] := by
    intro c hc hc0
    have hval : c.val ≠ 48 := fun h => hc0 (Char.ext h)
    simp only [Char.isDigit, Bool.and_eq_true, decide_eq_true_eq] at hc
    have hlo : 48 ≤ c.val.toNat := UInt32.le_iff_toNat_le.mp hc.1
    have hne' : c.val.toNat ≠ 48 := fun h => hval (UInt32.toNat.inj h)
    rw [digitsValue, Nat.ofDigitChars_cons, Nat.ofDigitChars_nil]
    show 0 < 10 * 0 + (c.val.toNat - 48)
    omega
  rw [← List.dropLast_append_getLast hne, digitsValue_append]
  exact Nat.add_pos_right _ (hc _ (hdigit _ (List.getLast_mem hne)) (getLast_dropZeros_ne hne))

/-- **Zeros at the end of digits count**: without them the digits denote
another number. -/
theorem digitsValue_dropZeros_eq_iff {ds : List Char} (h : IsDigits (dropZeros ds)) :
    digitsValue (dropZeros ds) = digitsValue ds ↔ ds.getLast? ≠ some '0' := by
  obtain ⟨k, hk⟩ := exists_dropZeros_append ds
  have hpos := digitsValue_dropZeros_pos h
  have hvalue : digitsValue ds = 10 ^ k * digitsValue (dropZeros ds) :=
    digitsValue_of_append_zeros hk
  cases k with
  | zero =>
    rw [List.replicate_zero, List.append_nil] at hk
    refine iff_of_true (congrArg digitsValue hk.symm) (fun hzero => getLast_dropZeros_ne h.1 ?_)
    rw [hk, List.getLast?_eq_some_getLast h.1] at hzero
    exact Option.some.inj hzero
  | succ k =>
    refine iff_of_false ?_ (fun hlast => hlast ?_)
    · have hle : digitsValue (dropZeros ds) ≤ 10 ^ k * digitsValue (dropZeros ds) :=
        Nat.le_mul_of_pos_left _ (by positivity)
      rw [hvalue, pow_succ', Nat.mul_assoc]
      omega
    · rw [hk, List.replicate_succ', ← List.append_assoc, List.getLast?_append]
      rfl

theorem mem_of_mem_dotted {ds : List Char} {c : Char} (h : c ∈ dotted ds) : c = '.' ∨ c ∈ ds := by
  cases ds with
  | nil => cases h
  | cons d ds => exact List.mem_cons.mp h

/-! ## What a text denotes -/

/-- The exponent that the end of a text denotes. -/
def exponentValue : List Char → Option ℤ
  | [] => some 0
  | 'e' :: '+' :: ds => if IsDigits ds then some (digitsValue ds) else none
  | 'e' :: '-' :: ds => if IsDigits ds then some (-(digitsValue ds)) else none
  | _ => none

/-- The number that digits before and after a point denote. -/
def significand (int frac : List Char) : ℚ :=
  digitsValue int + digitsValue frac / 10 ^ frac.length

/-- The number that a text without a sign denotes. -/
def magnitude (t : List Char) : Option ℚ :=
  let int := t.takeWhile Char.isDigit
  if int = [] then none
  else
    match t.dropWhile Char.isDigit with
    | '.' :: rest =>
      let frac := rest.takeWhile Char.isDigit
      if frac = [] then none
      else
        (exponentValue (rest.dropWhile Char.isDigit)).map (fun e => significand int frac * 10 ^ e)
    | rest => (exponentValue rest).map (fun e => significand int [] * 10 ^ e)

/-- **The rational number a text denotes**, if it is a numeral. -/
def value : List Char → Option ℚ
  | '-' :: t => (magnitude t).map (fun q => -q)
  | t => magnitude t

/-- A sign. -/
def signText (neg : Bool) : List Char := if neg then ['-'] else []

/-- A number with a sign. -/
def withSign (neg : Bool) (q : ℚ) : ℚ := if neg then -q else q

/-- Zeros at the end of a fraction do not count. -/
theorem significand_dropZeros (int frac : List Char) :
    significand int (dropZeros frac) = significand int frac := by
  obtain ⟨k, hk⟩ := exists_dropZeros_append frac
  have hvalue : digitsValue frac = 10 ^ k * digitsValue (dropZeros frac) :=
    digitsValue_of_append_zeros hk
  have hlen : frac.length = (dropZeros frac).length + k := by
    rw [congrArg List.length hk, List.length_append, List.length_replicate]
  unfold significand
  rw [hvalue, hlen, pow_add]
  push_cast
  field_simp

/-- Digits are read up to the first character that is none. -/
theorem takeWhile_digits {ds rest : List Char} (hds : ∀ c ∈ ds, c.isDigit = true)
    (hrest : ∀ c ∈ rest.head?, c.isDigit = false) :
    (ds ++ rest).takeWhile Char.isDigit = ds ∧ (ds ++ rest).dropWhile Char.isDigit = rest := by
  rw [List.takeWhile_append_of_pos hds, List.dropWhile_append_of_pos hds]
  cases rest with
  | nil => simp
  | cons c rest =>
    have hc : c.isDigit = false := hrest c rfl
    simp [hc]

section Parts

variable {int frac rest : List Char} (hint : IsDigits int) (hfrac : ∀ c ∈ frac, c.isDigit = true)
  (hrest : ∀ c ∈ rest.head?, c = 'e')

include hrest in
theorem isDigit_head_rest : ∀ c ∈ rest.head?, c.isDigit = false := by
  intro c hc
  rw [hrest c hc]
  decide

include hint hfrac hrest in
theorem magnitude_parts :
    magnitude (int ++ (dotted frac ++ rest))
      = (exponentValue rest).map (fun e => significand int frac * 10 ^ e) := by
  have hhead : ∀ c ∈ (dotted frac ++ rest).head?, c.isDigit = false := by
    cases frac with
    | nil => exact isDigit_head_rest hrest
    | cons c frac =>
      intro c' hc'
      obtain rfl : '.' = c' := Option.some.inj hc'
      decide
  obtain ⟨htake, hdrop⟩ := takeWhile_digits hint.2 hhead
  unfold magnitude
  rw [htake, hdrop, if_neg hint.1]
  cases frac with
  | nil =>
    rw [dotted_nil, List.nil_append]
    split
    · exact absurd (hrest '.' rfl) (by decide)
    · rfl
  | cons c frac =>
    obtain ⟨htake', hdrop'⟩ := takeWhile_digits hfrac (isDigit_head_rest hrest)
    simp only [dotted, List.cons_append] at htake' hdrop' ⊢
    rw [htake', hdrop', if_neg (List.cons_ne_nil c frac)]

include hint hfrac hrest in
/-- **A numeral is read in its parts.** -/
theorem value_parts (neg : Bool) :
    value (signText neg ++ (int ++ (dotted frac ++ rest)))
      = (exponentValue rest).map (fun e => withSign neg (significand int frac * 10 ^ e)) := by
  have hmag := magnitude_parts hint hfrac hrest
  cases neg with
  | true =>
    show (magnitude (int ++ (dotted frac ++ rest))).map (fun q => -q) = _
    rw [hmag, Option.map_map]
    rfl
  | false =>
    obtain ⟨c, int, rfl⟩ := List.exists_cons_of_ne_nil hint.1
    have hc : c.isDigit = true := hint.2 c List.mem_cons_self
    show value (c :: (int ++ (dotted frac ++ rest))) = _
    unfold value
    split
    · next heq =>
      obtain ⟨rfl, -⟩ := List.cons.inj heq
      cases hc
    · exact hmag

end Parts

/-! ## Numerals -/

/-- **A numeral in its parts**: a sign, digits, a fraction that may be empty,
and an exponent of at least two digits that may be missing. -/
structure Numeral where
  neg : Bool
  int : List Char
  frac : List Char
  exp : Option (Bool × List Char)
  int_digits : IsDigits int
  frac_digits : ∀ c ∈ frac, c.isDigit = true
  exp_digits : ∀ e ∈ exp, IsDigits e.2 ∧ 2 ≤ e.2.length

namespace Numeral

/-- The text of an exponent. -/
def expText : Option (Bool × List Char) → List Char
  | none => []
  | some (neg, ds) => 'e' :: (if neg then '-' else '+') :: ds

/-- The number an exponent denotes. -/
def expValue : Option (Bool × List Char) → ℤ
  | none => 0
  | some (neg, ds) => if neg then -(digitsValue ds) else digitsValue ds

/-- The text of a numeral. -/
def text (n : Numeral) : List Char :=
  signText n.neg ++ (n.int ++ (dotted n.frac ++ expText n.exp))

/-- The number a numeral denotes. -/
def toRat (n : Numeral) : ℚ :=
  withSign n.neg (significand n.int n.frac * 10 ^ expValue n.exp)

theorem head?_expText (exp : Option (Bool × List Char)) : ∀ c ∈ (expText exp).head?, c = 'e' := by
  intro c hc
  match exp with
  | none => cases hc
  | some (neg, ds) => exact (Option.some.inj hc).symm

/-- An exponent is read as its number, if it has digits. -/
theorem exponentValue_expText_some (e : Bool × List Char) :
    exponentValue (expText (some e)) = if IsDigits e.2 then some (expValue (some e)) else none := by
  match e with
  | (true, ds) => rfl
  | (false, ds) => rfl

theorem exponentValue_expText {exp : Option (Bool × List Char)}
    (h : ∀ e ∈ exp, IsDigits e.2) : exponentValue (expText exp) = some (expValue exp) := by
  match exp with
  | none => rfl
  | some e => rw [exponentValue_expText_some, if_pos (h e rfl)]

/-- What a text is made of. -/
theorem mem_expText {n : Numeral} {c : Char} (h : c ∈ expText n.exp) :
    c.isDigit = true ∨ c ∈ ['e', '+', '-'] := by
  match hexp : n.exp with
  | none =>
    rw [hexp] at h
    cases h
  | some (neg, ds) =>
    rw [hexp] at h
    have hds := (n.exp_digits (neg, ds) hexp).1.2
    cases neg <;> simp only [expText, List.mem_cons] at h ⊢ <;> grind

theorem mem_signText {neg : Bool} {c : Char} (h : c ∈ signText neg) : c = '-' := by
  cases neg with
  | true => exact List.mem_singleton.mp h
  | false => cases h

/-- **The text of a numeral denotes its number.** -/
theorem value_text (n : Numeral) : value n.text = some n.toRat := by
  rw [text, value_parts n.int_digits n.frac_digits (head?_expText n.exp),
    exponentValue_expText (fun e he => (n.exp_digits e he).1)]
  rfl

/-- A numeral without the zeros at the end of its fraction. -/
def trimmed (n : Numeral) : Numeral :=
  { n with
    frac := dropZeros n.frac
    frac_digits := fun c hc => n.frac_digits c (mem_of_mem_dropZeros hc) }

theorem toRat_trimmed (n : Numeral) : n.trimmed.toRat = n.toRat := by
  show withSign n.neg (significand n.int (dropZeros n.frac) * _) = _
  rw [significand_dropZeros]
  rfl

end Numeral

/-! ## Texts of numbers -/

/-- The last `k` digits of a number. -/
def lowDigits : ℕ → ℕ → List Char
  | 0, _ => []
  | k + 1, n => lowDigits k (n / 10) ++ [Nat.digitChar (n % 10)]

/-- `n / 10 ^ k` with `k` decimals. -/
def fixedText (k n : ℕ) : List Char := Nat.toDigits 10 (n / 10 ^ k) ++ dotted (lowDigits k n)

/-- `n / 10 ^ k` with as many decimals as it needs. -/
def trimmedText (k n : ℕ) : List Char :=
  Nat.toDigits 10 (n / 10 ^ k) ++ dotted (dropZeros (lowDigits k n))

@[simp] theorem length_lowDigits (k n : ℕ) : (lowDigits k n).length = k := by
  induction k generalizing n with
  | zero => rfl
  | succ k ih => rw [lowDigits, List.length_append, ih, List.length_singleton]

theorem isDigit_of_mem_lowDigits {k n : ℕ} {c : Char} (h : c ∈ lowDigits k n) :
    c.isDigit = true := by
  induction k generalizing n with
  | zero => cases h
  | succ k ih =>
    rcases List.mem_append.mp h with h | h
    · exact ih h
    · rw [List.mem_singleton.mp h]
      rw [Nat.isDigit_digitChar]
      exact decide_eq_true (Nat.mod_lt n (by decide))

theorem digitsValue_lowDigits (k n : ℕ) : digitsValue (lowDigits k n) = n % 10 ^ k := by
  induction k generalizing n with
  | zero => rw [pow_zero, Nat.mod_one]; rfl
  | succ k ih =>
    have hlast : digitsValue [Nat.digitChar (n % 10)] = n % 10 := by
      show Nat.ofDigitChars 10 [Nat.digitChar (n % 10)] 0 = _
      rw [Nat.ofDigitChars_cons_digitChar_of_lt_ten (Nat.mod_lt n (by decide)),
        Nat.ofDigitChars_nil, Nat.mul_zero, Nat.zero_add]
    rw [lowDigits, digitsValue_append, ih, hlast, List.length_singleton, pow_one, pow_succ',
      Nat.mod_mul, Nat.add_comm]

/-- The first decimals of a number are those of the number cut there. -/
theorem take_lowDigits (j k n : ℕ) : (lowDigits (j + k) n).take j = lowDigits j (n / 10 ^ k) := by
  induction k generalizing n with
  | zero => rw [Nat.add_zero, pow_zero, Nat.div_one, List.take_of_length_le (by simp)]
  | succ k ih =>
    rw [← Nat.add_assoc, lowDigits, List.take_append_of_le_length (by simp), ih, pow_succ',
      Nat.div_div_eq_div_mul]

/-- A power of ten is zeros at the end. -/
theorem lowDigits_mul_pow (k j n : ℕ) :
    lowDigits (k + j) (n * 10 ^ j) = lowDigits k n ++ List.replicate j '0' := by
  induction j with
  | zero => simp
  | succ j ih =>
    have hdiv : n * 10 ^ (j + 1) / 10 = n * 10 ^ j := by
      rw [pow_succ, ← Nat.mul_assoc, Nat.mul_div_cancel _ (by decide)]
    have hmod : n * 10 ^ (j + 1) % 10 = 0 := by
      rw [pow_succ, ← Nat.mul_assoc, Nat.mul_mod_left]
    rw [← Nat.add_assoc, lowDigits, hdiv, hmod, ih, List.append_assoc, List.replicate_succ']
    rfl

theorem isDigits_toDigits (n : ℕ) : IsDigits (Nat.toDigits 10 n) :=
  ⟨Nat.toDigits_ne_nil, fun _ hc => Nat.isDigit_of_mem_toDigits (by decide) (by decide) hc⟩

/-- A number is its integer part and its decimals. -/
theorem significand_lowDigits (k n : ℕ) :
    significand (Nat.toDigits 10 (n / 10 ^ k)) (lowDigits k n) = n / 10 ^ k := by
  have hdiv : (n : ℚ) = 10 ^ k * (n / 10 ^ k : ℕ) + (n % 10 ^ k : ℕ) := by
    exact_mod_cast (Nat.div_add_mod n (10 ^ k)).symm
  rw [significand, digitsValue_lowDigits, length_lowDigits, digitsValue,
    Nat.ofDigitChars_ten_toDigits, hdiv]
  field_simp

/-- **A text of a number denotes it** if its decimals are those of the number. -/
theorem value_decimals {k n : ℕ} {ds : List Char} (hds : ∀ c ∈ ds, c.isDigit = true)
    (h : significand (Nat.toDigits 10 (n / 10 ^ k)) ds = n / 10 ^ k) :
    value (Nat.toDigits 10 (n / 10 ^ k) ++ dotted ds) = some ((n : ℚ) / 10 ^ k) := by
  have hrest : ∀ c ∈ ([] : List Char).head?, c = 'e' := fun c hc => nomatch hc
  have hparts := value_parts (isDigits_toDigits (n / 10 ^ k)) hds hrest false
  rw [List.append_nil] at hparts
  show value (signText false ++ (Nat.toDigits 10 (n / 10 ^ k) ++ dotted ds)) = _
  rw [hparts, h]
  show some ((n : ℚ) / 10 ^ k * 10 ^ (0 : ℤ)) = _
  rw [zpow_zero, mul_one]

theorem value_fixedText (k n : ℕ) : value (fixedText k n) = some ((n : ℚ) / 10 ^ k) :=
  value_decimals (fun _ hc => isDigit_of_mem_lowDigits hc) (significand_lowDigits k n)

theorem value_trimmedText (k n : ℕ) : value (trimmedText k n) = some ((n : ℚ) / 10 ^ k) :=
  value_decimals (fun _ hc => isDigit_of_mem_lowDigits (mem_of_mem_dropZeros hc))
    ((significand_dropZeros _ _).trans (significand_lowDigits k n))

/-- A text of a number is digits and a point. -/
theorem mem_trimmedText {k n : ℕ} {c : Char} (h : c ∈ trimmedText k n) :
    c.isDigit = true ∨ c = '.' := by
  rcases List.mem_append.mp h with h | h
  · exact Or.inl ((isDigits_toDigits _).2 c h)
  · rcases mem_of_mem_dotted h with h | h
    · exact Or.inr h
    · exact Or.inl (isDigit_of_mem_lowDigits (mem_of_mem_dropZeros h))

/-! ## Decimals that are shown -/

/-- **How many decimals a number needs.** -/
theorem length_dropZeros_lowDigits_le_iff (k j n : ℕ) :
    (dropZeros (lowDigits (k + j) n)).length ≤ k ↔ 10 ^ j ∣ n := by
  constructor
  · intro hle
    obtain ⟨i, hi⟩ := exists_dropZeros_append (lowDigits (k + j) n)
    have hlen := congrArg List.length hi
    rw [length_lowDigits, List.length_append, List.length_replicate] at hlen
    have hvalue := digitsValue_of_append_zeros hi
    rw [digitsValue_lowDigits] at hvalue
    refine (Nat.dvd_mod_iff (pow_dvd_pow 10 (Nat.le_add_left j k))).mp ?_
    rw [hvalue]
    exact Dvd.dvd.mul_right (pow_dvd_pow 10 (by omega)) _
  · rintro ⟨q, rfl⟩
    rw [Nat.mul_comm, lowDigits_mul_pow, dropZeros_append_replicate]
    exact (List.rdropWhile_prefix _ _).length_le.trans (length_lowDigits k q).le

/-- Zeros at the end are not shown. -/
theorem trimmedText_mul_pow (k j n : ℕ) : trimmedText (k + j) (n * 10 ^ j) = trimmedText k n := by
  rw [trimmedText, lowDigits_mul_pow, dropZeros_append_replicate, pow_add, Nat.mul_comm (10 ^ k),
    ← Nat.div_div_eq_div_mul, Nat.mul_div_cancel _ (by positivity)]
  rfl

/-- **A text cut after `k` decimals**, where there are more. -/
theorem take_trimmedText {k j n : ℕ} (hk : 0 < k) (h : ¬ 10 ^ j ∣ n) :
    (trimmedText (k + j) n).take ((Nat.toDigits 10 (n / 10 ^ (k + j))).length + (k + 1))
      = fixedText k (n / 10 ^ j) := by
  have hlong : k < (dropZeros (lowDigits (k + j) n)).length :=
    not_le.mp (mt (length_dropZeros_lowDigits_le_iff k j n).mp h)
  have hne : dropZeros (lowDigits (k + j) n) ≠ [] :=
    List.length_pos_iff.mp (Nat.zero_lt_of_lt hlong)
  have hcut : (dropZeros (lowDigits (k + j) n)).take k = lowDigits k (n / 10 ^ j) := by
    rw [← take_lowDigits]
    obtain ⟨zeros, hzeros⟩ := exists_dropZeros_append (lowDigits (k + j) n)
    conv_rhs => rw [hzeros]
    rw [List.take_append_of_le_length hlong.le]
  have hint : n / 10 ^ (k + j) = n / 10 ^ j / 10 ^ k := by
    rw [Nat.div_div_eq_div_mul, ← pow_add, Nat.add_comm]
  have hne' : lowDigits k (n / 10 ^ j) ≠ [] :=
    List.length_pos_iff.mp (by rw [length_lowDigits]; exact hk)
  rw [trimmedText, dotted_of_ne_nil hne, List.take_length_add_append, List.take_succ_cons, hcut,
    fixedText, dotted_of_ne_nil hne', hint]

end Decimal
