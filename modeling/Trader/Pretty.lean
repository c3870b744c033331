import Trader.ToChars
import Trader.Double
import Trader.Fix

set_option autoImplicit false

/-!
# Numbers as they are shown

The two texts of a double that the tables show, translated from
`utils::Double::pretty` and `utils::Double::trim`. Both start from the text
`std::to_chars` writes, and both cut zeros off its end once a point has been
found in it; `pretty` then inserts commas, from the right and by position.

The cut looks at the end of the whole text, so on a text with an exponent it
cuts zeros off the exponent. `prettyText_value_iff` says when that changes the
number. Without an exponent, what is shown is the number in groups of three
digits (`prettyText_grouped`).

There is no negative zero among the doubles here, which both would show with
its sign.
-/

open Decimal

/-! ## `std::string` -/

/-- `std::string::find`. -/
def Text.find (s : Text) (c : Char) : Option ℕ := s.idxOf? c

/-- `std::string::erase`, which throws `std::out_of_range` for a position past
the end. -/
def Text.erase (s : Text) (pos : ℕ) : Option Text :=
  if pos ≤ s.length then some (s.take pos) else none

/-- `std::string::insert`, which throws `std::out_of_range` for a position past
the end. -/
def Text.insert (s : Text) (pos : ℕ) (t : Text) : Option Text :=
  if pos ≤ s.length then some (s.take pos ++ t ++ s.drop pos) else none

theorem Text.find_append_cons {A : Text} {c : Char} (hA : c ∉ A) (B : Text) :
    Text.find (A ++ c :: B) c = some A.length := by
  induction A with
  | nil => simp [Text.find, List.idxOf?_cons]
  | cons a A ih =>
    have hne : a ≠ c := fun h => hA (h ▸ List.mem_cons_self)
    have hfind : List.idxOf? c (A ++ c :: B) = some A.length :=
      ih (fun h => hA (List.mem_cons_of_mem a h))
    simp [Text.find, List.idxOf?_cons, hne, hfind]

theorem Text.find_eq_none {s : Text} {c : Char} (hs : c ∉ s) : Text.find s c = none :=
  List.idxOf?_eq_none_iff.mpr hs

theorem Text.insert_append (A t B : Text) :
    Text.insert (A ++ B) A.length t = some (A ++ t ++ B) := by
  rw [Text.insert, if_pos (by simp), List.take_left, List.drop_left]

namespace Utils.Double

/-! ## The code -/

/-- `std::chars_format`, as far as it is used. -/
inductive CharsFormat where
  | fixed
  | general

/-- `std::to_chars` into a buffer of 64 characters. No text is its error, a
text that does not fit. -/
def toChars (value : Binary64) (fmt : CharsFormat) (precision : ℕ) : Option Text :=
  let text :=
    match fmt with
    | .fixed => (Decimal.fixed precision value.val).text
    | .general => (Decimal.general precision value.val).text
  if text.length ≤ 64 then some text else none

/-- `while (end > dot_pos && s[end] == '0') --end`. No position is a read past
the end of `s`. -/
def trimEnd (s : Text) (dotPos : ℕ) : ℕ → Option ℕ
  | 0 => some 0
  | e + 1 =>
    if dotPos < e + 1 then
      match s[e + 1]? with
      | none => none
      | some c => if c = '0' then trimEnd s dotPos e else some (e + 1)
    else some (e + 1)

/-- The zeros at the end and the point, which `pretty` and `trim` cut off by
the same lines. -/
def trimTrailingZeros (s : Text) : Option Text :=
  match Text.find s '.' with
  | none => some s
  | some dotPos =>
    match trimEnd s dotPos (s.length - 1) with
    | none => none
    -- `--end` and `end + 1` cancel, at position zero too, where the first wraps
    | some e => if e = dotPos then Text.erase s dotPos else Text.erase s (e + 1)

/-- The loop of `pretty` from position `i = intEnd - 3` on, an `int`, on what
the positions to the right of it have made of the text. -/
def insertCommas (start : ℕ) : ℕ → Text → Option Text
  | i + 3, s =>
    if start < i then
      match Text.insert s i [','] with
      | none => none
      | some s => insertCommas start i s
    else some s
  | _, s => some s  -- `i` is negative

/-- What `pretty` makes of the text of the number. -/
def prettyText (s : Text) : Option Text :=
  match trimTrailingZeros s with
  | none => none
  | some s =>
    let intEnd := (Text.find s '.').getD s.length
    let start := if s.head? = some '-' then 1 else 0
    insertCommas start intEnd s

/-- `Double::pretty`. -/
def pretty (val : Binary64) : Option Text :=
  match toChars val .general 15 with
  | none => some []
  | some s => prettyText s

/-- `Double::trim`. -/
def trim (val : Binary64) : Option Text :=
  match toChars val .fixed 15 with
  | none => some []
  | some s => trimTrailingZeros s

/-- A text that fits is what `pretty` starts from, -/
theorem pretty_of_fits {val : Binary64} (h : (general 15 val.val).text.length ≤ 64) :
    pretty val = prettyText (general 15 val.val).text := by
  have hchars : toChars val .general 15 = some (general 15 val.val).text := if_pos h
  show (match toChars val .general 15 with
    | none => some []
    | some s => prettyText s) = _
  rw [hchars]

/-- and `trim`. -/
theorem trim_of_fits {val : Binary64} (h : (Decimal.fixed 15 val.val).text.length ≤ 64) :
    trim val = trimTrailingZeros (Decimal.fixed 15 val.val).text := by
  have hchars : toChars val .fixed 15 = some (Decimal.fixed 15 val.val).text := if_pos h
  show (match toChars val .fixed 15 with
    | none => some []
    | some s => trimTrailingZeros s) = _
  rw [hchars]

/-! ## Zeros at the end -/

theorem trimEnd_of_le {s : Text} {dotPos e : ℕ} (h : e ≤ dotPos) :
    trimEnd s dotPos e = some e := by
  cases e with
  | zero => rfl
  | succ e => rw [trimEnd, if_neg (not_lt.mpr h)]

/-- The loop stops at the last character after the point that is no zero. -/
theorem trimEnd_eq (A B : Text) {j : ℕ} (hj : j ≤ B.length) :
    trimEnd (A ++ '.' :: B) A.length (A.length + j)
      = some (A.length + (dropZeros (B.take j)).length) := by
  induction j with
  | zero => exact trimEnd_of_le (Nat.le_refl _)
  | succ j ih =>
    have hget : (A ++ '.' :: B)[A.length + j + 1]? = some B[j] := by
      rw [List.getElem?_append_right (by omega)]
      simp [Nat.add_assoc]
    have htake : B.take (j + 1) = B.take j ++ [B[j]] := List.take_succ_eq_append_getElem hj
    rw [← Nat.add_assoc, trimEnd, if_pos (by omega), hget, htake]
    show (if B[j] = '0' then _ else _) = _
    split_ifs with hzero
    · rw [ih (Nat.le_of_succ_le hj), dropZeros, dropZeros,
        List.rdropWhile_concat_pos _ _ _ (by simpa using hzero)]
    · rw [dropZeros, List.rdropWhile_concat_neg _ _ _ (by simpa using hzero), ← htake,
        List.length_take_of_le hj, Nat.add_assoc]

/-- **What the cut leaves** of a text with a point. -/
theorem trimTrailingZeros_dot {A : Text} (hA : '.' ∉ A) (B : Text) :
    trimTrailingZeros (A ++ '.' :: B) = some (A ++ dotted (dropZeros B)) := by
  have hend : (A ++ '.' :: B).length - 1 = A.length + B.length := by simp
  have htrim := trimEnd_eq A B (Nat.le_refl B.length)
  rw [List.take_length] at htrim
  rw [trimTrailingZeros, Text.find_append_cons hA]
  simp only [hend, htrim]
  split_ifs with hdot
  · have hnil : dropZeros B = [] := List.length_eq_zero_iff.mp (by omega)
    rw [Text.erase, if_pos (by simp), List.take_left, hnil, dotted_nil, List.append_nil]
  · have hne : dropZeros B ≠ [] := fun h => hdot (by rw [h]; rfl)
    have hprefix : B.take (dropZeros B).length = dropZeros B :=
      (List.prefix_iff_eq_take.mp (List.rdropWhile_prefix _ _)).symm
    have hlen : (dropZeros B).length ≤ B.length := (List.rdropWhile_prefix _ _).length_le
    have htake : (A ++ '.' :: B).take (A.length + (dropZeros B).length + 1)
        = A ++ '.' :: dropZeros B := by
      rw [Nat.add_assoc, List.take_length_add_append, List.take_succ_cons, hprefix]
    rw [Text.erase, if_pos (by simp; omega), htake, dotted_of_ne_nil hne]

/-- A text without a point is left as it is. -/
theorem trimTrailingZeros_of_notMem {s : Text} (hs : '.' ∉ s) : trimTrailingZeros s = some s := by
  rw [trimTrailingZeros, Text.find_eq_none hs]

/-- **The cut stays in the text**, and leaves its first character unless that
is the point. -/
theorem exists_trimTrailingZeros (s : Text) :
    ∃ t, trimTrailingZeros s = some t ∧ (s.head? ≠ some '.' → t.head? = s.head?) := by
  by_cases hdot : '.' ∈ s
  · obtain ⟨A, B, rfl, hA⟩ := List.eq_append_cons_of_mem hdot
    refine ⟨_, trimTrailingZeros_dot hA B, fun hhead => ?_⟩
    cases A with
    | nil => exact absurd rfl hhead
    | cons a A => rfl
  · exact ⟨s, trimTrailingZeros_of_notMem hdot, fun _ => rfl⟩

/-! ## Commas -/

theorem insertCommas_add {start i : ℕ} (h : start < i) (A B : Text) (hA : A.length = i) :
    insertCommas start (i + 3) (A ++ B) = insertCommas start i (A ++ ',' :: B) := by
  subst hA
  rw [insertCommas, if_pos h, Text.insert_append]
  simp

theorem insertCommas_of_le {start k : ℕ} (h : k ≤ start + 3) (s : Text) :
    insertCommas start k s = some s := by
  match k with
  | 0 | 1 | 2 => rfl
  | i + 3 => rw [insertCommas, if_neg (by omega)]

/-- **The loop stays in the text**, and puts nothing but commas into it, none of
them in front. -/
theorem insertCommas_filter (start : ℕ) {k : ℕ} {s : Text} (hk : k ≤ s.length) :
    ∃ out, insertCommas start k s = some out
      ∧ out.filter (· ≠ ',') = s.filter (· ≠ ',') ∧ out.head? = s.head? := by
  fun_induction insertCommas start k s with
  | case1 i s hlt hnone =>
    rw [Text.insert, if_pos (by omega)] at hnone
    cases hnone
  | case2 i s hlt s' hsome ih =>
    have hi : i ≤ s.length := by omega
    rw [Text.insert, if_pos hi] at hsome
    obtain rfl := Option.some.inj hsome
    obtain ⟨out, hout, hfilter, hhead⟩ := ih (by simp; omega)
    refine ⟨out, hout, ?_, ?_⟩
    · rw [hfilter]
      simp only [List.filter_append]
      rw [show [','].filter (· ≠ ',') = [] from rfl, List.append_nil, ← List.filter_append,
        List.take_append_drop]
    · rw [hhead, List.append_assoc, List.head?_append, List.head?_take, if_neg (by omega)]
      cases s with
      | nil => simp at hi; omega
      | cons c s => rfl
  | case3 i s hle => exact ⟨s, rfl, rfl, rfl⟩
  | case4 k s hk' => exact ⟨s, rfl, rfl, rfl⟩

/-- **`pretty` only cuts off zeros and inserts commas.** -/
theorem prettyText_filter {s t : Text} (h : trimTrailingZeros s = some t) :
    ∃ out, prettyText s = some out ∧ out.filter (· ≠ ',') = t.filter (· ≠ ',')
      ∧ out.head? = t.head? := by
  have hend : (Text.find t '.').getD t.length ≤ t.length := by
    cases hfind : Text.find t '.' with
    | none => exact Nat.le_refl _
    | some dotPos => exact (List.idxOf?_eq_some_iff.mp hfind).1.le
  rw [prettyText, h]
  exact insertCommas_filter _ hend

/-- **A number is always shown**, and where its text starts with a digit, so
does what is shown. -/
theorem exists_prettyText (s : Text) :
    ∃ out, prettyText s = some out ∧ (s.head? ≠ some '.' → out.head? = s.head?) := by
  obtain ⟨t, htrim, hhead⟩ := exists_trimTrailingZeros s
  obtain ⟨out, hout, -, hhead'⟩ := prettyText_filter htrim
  exact ⟨out, hout, fun h => hhead'.trans (hhead h)⟩

/-- Three more digits are one more group. -/
theorem intercalate_concat (first g : Text) (groups : List Text) :
    [','].intercalate (first :: (groups ++ [g]))
      = [','].intercalate (first :: groups) ++ ',' :: g := by
  induction groups generalizing first with
  | nil => simp
  | cons g' groups ih =>
    rw [List.cons_append, List.intercalate_cons_cons, ih, List.intercalate_cons_cons]
    simp

/-- **The groups the loop makes** of digits that stand between `pre` and `post`. -/
theorem insertCommas_groups (pre : Text) (ds post : Text) (hds : ds ≠ []) :
    ∃ first groups, ds = first ++ groups.flatten ∧ (1 ≤ first.length ∧ first.length ≤ 3)
      ∧ (∀ g ∈ groups, g.length = 3)
      ∧ insertCommas pre.length (pre.length + ds.length) (pre ++ ds ++ post)
        = some (pre ++ [','].intercalate (first :: groups) ++ post) := by
  induction hn : ds.length using Nat.strong_induction_on generalizing ds post with
  | h n ih =>
    have hpos : 0 < ds.length := List.length_pos_iff.mpr hds
    rcases Nat.lt_or_ge 3 n with hlong | hshort
    · -- the last three digits, which the first comma goes in front of
      obtain ⟨i, rfl⟩ : ∃ i, n = i + 3 := ⟨n - 3, by omega⟩
      have hlen : (ds.take i).length = i := List.length_take_of_le (by omega)
      have hne : ds.take i ≠ [] := List.length_pos_iff.mp (by omega)
      obtain ⟨first, groups, hflat, hfirst, hgroups, hloop⟩ :=
        ih i (by omega) (ds.take i) (',' :: (ds.drop i ++ post)) hne hlen
      refine ⟨first, groups ++ [ds.drop i], ?_, hfirst, ?_, ?_⟩
      · rw [List.flatten_append, ← List.append_assoc, ← hflat]
        simp
      · intro g hg
        rcases List.mem_append.mp hg with hg | hg
        · exact hgroups g hg
        · rw [List.mem_singleton.mp hg, List.length_drop]
          omega
      · have hsplit : pre ++ ds ++ post = (pre ++ ds.take i) ++ (ds.drop i ++ post) := by
          simp only [List.append_assoc, List.append_cancel_left_eq]
          rw [← List.append_assoc, List.take_append_drop]
        rw [hsplit, ← Nat.add_assoc,
          insertCommas_add (by omega) _ _ (by rw [List.length_append, hlen]), hloop,
          intercalate_concat]
        simp
    · refine ⟨ds, [], by simp, ⟨hpos, by omega⟩, by simp, ?_⟩
      rw [insertCommas_of_le (by omega), List.intercalate_singleton]

/-! ## Numerals -/

section Numeral

variable (n : Numeral)

theorem dot_notMem_int : '.' ∉ signText n.neg ++ n.int := by
  intro h
  rcases List.mem_append.mp h with h | h
  · exact absurd (Numeral.mem_signText h) (by decide)
  · exact absurd (n.int_digits.2 '.' h) (by decide)

theorem dot_notMem_expText : '.' ∉ Numeral.expText n.exp := by
  intro h
  rcases Numeral.mem_expText h with h | h
  · cases h
  · exact absurd h (by decide)

/-- No text of a number has a comma. -/
theorem comma_notMem_text : ',' ∉ n.text := by
  have hdot : ',' ∉ dotted n.frac := by
    intro h
    rcases mem_of_mem_dotted h with h | h
    · exact absurd h (by decide)
    · exact absurd (n.frac_digits ',' h) (by decide)
  intro h
  simp only [Numeral.text, List.mem_append] at h
  rcases h with h | h | h | h
  · exact absurd (Numeral.mem_signText h) (by decide)
  · exact absurd (n.int_digits.2 ',' h) (by decide)
  · exact hdot h
  · rcases Numeral.mem_expText h with h | h
    · cases h
    · exact absurd h (by decide)

/-- Without a fraction, nothing is cut off. -/
theorem trimTrailingZeros_text_of_nil (h : n.frac = []) :
    trimTrailingZeros n.text = some n.text := by
  refine trimTrailingZeros_of_notMem ?_
  rw [Numeral.text, h, dotted_nil, List.nil_append, ← List.append_assoc, List.mem_append, not_or]
  exact ⟨dot_notMem_int n, dot_notMem_expText n⟩

/-- With one, the zeros at the end of the fraction and the exponent are. -/
theorem trimTrailingZeros_text (h : n.frac ≠ []) :
    trimTrailingZeros n.text
      = some (signText n.neg ++ n.int ++ dotted (dropZeros (n.frac ++ Numeral.expText n.exp))) := by
  have htext : n.text = (signText n.neg ++ n.int) ++ '.' :: (n.frac ++ Numeral.expText n.exp) := by
    rw [Numeral.text, dotted_of_ne_nil h]
    simp
  rw [htext, trimTrailingZeros_dot (dot_notMem_int n)]

/-- Without an exponent, the zeros at the end of the fraction are. -/
theorem trimTrailingZeros_text_of_exp_none (h : n.exp = none) :
    trimTrailingZeros n.text = some n.trimmed.text := by
  by_cases hfrac : n.frac = []
  · rw [trimTrailingZeros_text_of_nil n hfrac]
    simp [Numeral.text, Numeral.trimmed, hfrac, dropZeros]
  · rw [trimTrailingZeros_text n hfrac]
    simp [Numeral.text, Numeral.trimmed, Numeral.expText, h]

/-- The text that is left. -/
theorem text_trimmed_of_exp_none (h : n.exp = none) :
    n.trimmed.text = signText n.neg ++ n.int ++ dotted (dropZeros n.frac) := by
  simp [Numeral.text, Numeral.trimmed, Numeral.expText, h]

/-- **What the cut leaves of an exponent.** -/
theorem trimTrailingZeros_text_of_exp {e : Bool × List Char} (h : n.frac ≠ [])
    (he : n.exp = some e) :
    trimTrailingZeros n.text
      = some (signText n.neg ++ (n.int ++ (dotted n.frac
          ++ Numeral.expText (some (e.1, dropZeros e.2))))) := by
  have hsign : (if e.1 then '-' else '+') ≠ '0' := by
    cases e.1 <;> decide
  have hexp : n.frac ++ Numeral.expText (some e)
      = (n.frac ++ ['e']) ++ (if e.1 then '-' else '+') :: e.2 := by
    simp [Numeral.expText]
  rw [trimTrailingZeros_text n h, he, hexp, dropZeros_append_cons hsign,
    dotted_of_ne_nil (by simp), dotted_of_ne_nil h]
  simp [Numeral.expText]

end Numeral

/-! ## What is shown is the number -/

/-- **The exponent survives the cut** that a fraction makes: its last digit is
no zero, or the number is zero and the exponent has some other digit. -/
def ExponentKept (n : Numeral) : Prop :=
  n.frac = [] ∨ ∀ e ∈ n.exp, e.2.getLast? ≠ some '0'
    ∨ significand n.int n.frac = 0 ∧ ∃ c ∈ e.2, c ≠ '0'

/-- A text without commas keeps what it has. -/
theorem filter_comma_of_notMem {t : Text} (ht : ',' ∉ t) : t.filter (· ≠ ',') = t :=
  List.filter_eq_self.mpr (fun _ hc => decide_eq_true (fun h => ht (h ▸ hc)))

/-- What `pretty` shows denotes, without the commas, what is left of the text
after the cut. -/
theorem prettyText_value_eq {s t : Text} (h : trimTrailingZeros s = some t) (ht : ',' ∉ t)
    (q : Option ℚ) :
    (∃ out, prettyText s = some out ∧ value (out.filter (· ≠ ',')) = q) ↔ value t = q := by
  obtain ⟨out, hout, hfilter, -⟩ := prettyText_filter h
  rw [filter_comma_of_notMem ht] at hfilter
  constructor
  · rintro ⟨out', hout', hvalue⟩
    rw [hout, Option.some.injEq] at hout'
    rwa [← hout', hfilter] at hvalue
  · exact fun hvalue => ⟨out, hout, by rw [hfilter, hvalue]⟩

theorem withSign_inj {neg : Bool} {q q' : ℚ} : withSign neg q = withSign neg q' ↔ q = q' := by
  cases neg with
  | true => exact neg_inj
  | false => exact Iff.rfl

/-- Another exponent is another number, unless the number is zero. -/
theorem mul_zpow_eq_iff {q : ℚ} {e e' : ℤ} : q * 10 ^ e = q * 10 ^ e' ↔ q = 0 ∨ e = e' := by
  rw [mul_eq_mul_left_iff, zpow_right_inj₀ (by norm_num) (by norm_num), or_comm]

theorem expValue_eq_iff {neg : Bool} {ds ds' : List Char} :
    Numeral.expValue (some (neg, ds)) = Numeral.expValue (some (neg, ds'))
      ↔ digitsValue ds = digitsValue ds' := by
  cases neg with
  | true =>
    show -(digitsValue ds : ℤ) = -(digitsValue ds' : ℤ) ↔ _
    rw [neg_inj, Nat.cast_inj]
  | false => exact Nat.cast_inj

/-- **The number after the cut** of an exponent is the one before it if the
exponent survives. -/
theorem value_cut_exponent_iff (n : Numeral) {e : Bool × List Char} (he : n.exp = some e) :
    value (signText n.neg ++ (n.int ++ (dotted n.frac
        ++ Numeral.expText (some (e.1, dropZeros e.2))))) = some n.toRat
      ↔ e.2.getLast? ≠ some '0' ∨ significand n.int n.frac = 0 ∧ ∃ c ∈ e.2, c ≠ '0' := by
  have hdigits := (n.exp_digits e he).1
  rw [value_parts n.int_digits n.frac_digits (by simp [Numeral.expText]),
    Numeral.exponentValue_expText_some, Numeral.toRat, he]
  split_ifs with hcut
  · have hsome : ∃ c ∈ e.2, c ≠ '0' := (isDigits_dropZeros_iff hdigits.2).mp hcut
    rw [Option.map_some, Option.some.injEq, withSign_inj, mul_zpow_eq_iff, expValue_eq_iff,
      digitsValue_dropZeros_eq_iff hcut, or_comm, and_iff_left hsome]
  -- nothing but zeros, so no digit of the exponent is left
  · have hzeros : ∀ c ∈ e.2, c = '0' := by
      simpa [isDigits_dropZeros_iff hdigits.2] using hcut
    have hlast : e.2.getLast? = some '0' := by
      rw [List.getLast?_eq_some_getLast hdigits.1, hzeros _ (List.getLast_mem hdigits.1)]
    refine iff_of_false (by simp) ?_
    rintro (hne | ⟨-, c, hc, hne⟩)
    · exact hne hlast
    · exact hne (hzeros c hc)

/-- **When `pretty` shows the number.** -/
theorem prettyText_value_iff (n : Numeral) :
    (∃ out, prettyText n.text = some out ∧ value (out.filter (· ≠ ',')) = some n.toRat)
      ↔ ExponentKept n := by
  by_cases hfrac : n.frac = []
  · rw [prettyText_value_eq (trimTrailingZeros_text_of_nil n hfrac) (comma_notMem_text n)]
    exact iff_of_true n.value_text (Or.inl hfrac)
  match hexp : n.exp with
  | none =>
    rw [prettyText_value_eq (trimTrailingZeros_text_of_exp_none n hexp)
      (comma_notMem_text n.trimmed)]
    refine iff_of_true (n.toRat_trimmed ▸ n.trimmed.value_text) (Or.inr ?_)
    rw [hexp]
    simp
  | some e =>
    have hcomma : ',' ∉ signText n.neg ++ (n.int ++ (dotted n.frac
        ++ Numeral.expText (some (e.1, dropZeros e.2)))) := by
      have htext := comma_notMem_text n
      simp only [Numeral.text, Numeral.expText, hexp, List.mem_append, List.mem_cons,
        not_or] at htext ⊢
      obtain ⟨hsign, hint, hdot, he, hexpsign, hds⟩ := htext
      exact ⟨hsign, hint, hdot, he, hexpsign, fun h => hds (mem_of_mem_dropZeros h)⟩
    rw [prettyText_value_eq (trimTrailingZeros_text_of_exp n hfrac hexp) hcomma,
      value_cut_exponent_iff n hexp, ExponentKept, or_iff_right hfrac, hexp]
    simp

/-- The text of `1.5e20` loses the zero of its exponent. -/
theorem prettyText_cuts_exponent :
    pretty (.nearest 150000000000000000000) = some ['1', '.', '5', 'e', '+', '2']
    ∧ ¬ ∀ n : Numeral, ∃ out, prettyText n.text = some out
        ∧ value (out.filter (· ≠ ',')) = some n.toRat := by
  refine ⟨by decide +kernel, fun h => ?_⟩
  obtain ⟨out, hout, hvalue⟩ := h (general 15 150000000000000000000)
  have hshown : prettyText (general 15 150000000000000000000).text
      = some ['1', '.', '5', 'e', '+', '2'] := by decide +kernel
  rw [hshown] at hout
  obtain rfl := Option.some.inj hout
  have hne : value (['1', '.', '5', 'e', '+', '2'].filter (· ≠ ','))
      ≠ some (general 15 150000000000000000000).toRat := by decide +kernel
  exact hne hvalue

/-! ## Groups of three digits -/

theorem head?_intercalate {first : Text} (hfirst : first ≠ []) (groups : List Text) :
    ([','].intercalate (first :: groups)).head? = first.head? := by
  cases groups with
  | nil => rw [List.intercalate_singleton]
  | cons g groups =>
    rw [List.intercalate_cons_cons, List.append_assoc, List.head?_append_of_ne_nil _ hfirst]

/-- **Where a comma stands**: digits directly before and after it, and no point
before. -/
def CommaPlaced (A B : Text) : Prop :=
  (∃ c ∈ A.getLast?, c.isDigit = true) ∧ (∃ c ∈ B.head?, c.isDigit = true) ∧ '.' ∉ A

theorem notMem_of_isDigits {ds : Text} (h : IsDigits ds) {c : Char} (hc : c.isDigit = false) :
    c ∉ ds := by
  intro hmem
  rw [h.2 c hmem] at hc
  cases hc

/-- A comma is not in a part of the text that has none. -/
theorem exists_append_left {pre s A B : Text} (hpre : ',' ∉ pre)
    (h : pre ++ s = A ++ ',' :: B) : ∃ A', A = pre ++ A' ∧ s = A' ++ ',' :: B := by
  rcases List.append_eq_append_iff.mp h with ⟨A', hA, hs⟩ | ⟨B', rfl, hB⟩
  · exact ⟨A', hA, hs⟩
  · cases B' with
    | nil => exact ⟨[], by simp, by simpa using hB.symm⟩
    | cons b B' =>
      obtain ⟨rfl, -⟩ := List.cons.inj hB
      exact absurd (by simp) hpre

theorem exists_append_right {s post A B : Text} (hpost : ',' ∉ post)
    (h : s ++ post = A ++ ',' :: B) : ∃ B', B = B' ++ post ∧ s = A ++ ',' :: B' := by
  rcases List.append_eq_append_iff.mp h with ⟨A', rfl, hpost'⟩ | ⟨B', rfl, hB⟩
  · exact absurd (hpost' ▸ by simp) hpost
  · cases B' with
    | nil =>
      obtain rfl : ',' :: B = post := hB
      exact absurd List.mem_cons_self hpost
    | cons b B' =>
      obtain ⟨rfl, rfl⟩ := List.cons.inj hB
      exact ⟨B', rfl, rfl⟩

/-- Between groups of digits every comma is in its place. -/
theorem commaPlaced_intercalate {first : Text} {groups : List Text} (hfirst : IsDigits first)
    (hgroups : ∀ g ∈ groups, IsDigits g) {A B : Text}
    (h : [','].intercalate (first :: groups) = A ++ ',' :: B) : CommaPlaced A B := by
  have hcomma : ',' ∉ first := notMem_of_isDigits hfirst rfl
  have hdot : '.' ∉ first := notMem_of_isDigits hfirst rfl
  induction groups generalizing first A with
  | nil =>
    rw [List.intercalate_singleton] at h
    exact absurd (h ▸ by simp) hcomma
  | cons g groups ih =>
    have hg := hgroups g List.mem_cons_self
    rw [List.intercalate_cons_cons, List.append_assoc, List.singleton_append] at h
    obtain ⟨A', rfl, hA'⟩ := exists_append_left hcomma h
    cases A' with
    -- the comma right after the first group
    | nil =>
      obtain ⟨-, rfl⟩ := List.cons.inj hA'
      rw [List.append_nil]
      refine ⟨⟨first.getLast hfirst.1, List.getLast?_eq_some_getLast hfirst.1,
        hfirst.2 _ (List.getLast_mem hfirst.1)⟩, ?_, hdot⟩
      rw [head?_intercalate hg.1]
      exact ⟨g.head hg.1, List.head?_eq_some_head hg.1, hg.2 _ (List.head_mem hg.1)⟩
    -- a later one
    | cons a A' =>
      obtain ⟨rfl, hrest⟩ := List.cons.inj hA'
      obtain ⟨⟨c, hc, hdigit⟩, hB, hdot'⟩ :=
        ih hg (fun g' hg' => hgroups g' (List.mem_cons_of_mem g hg')) hrest
          (notMem_of_isDigits hg rfl) (notMem_of_isDigits hg rfl)
      refine ⟨⟨c, ?_, hdigit⟩, hB, by simp [hdot, hdot']⟩
      rw [List.getLast?_append, List.getLast?_cons, Option.mem_def.mp hc]
      rfl

/-- So it is with a sign in front and a fraction behind. -/
theorem CommaPlaced.of_append {pre mid post A B : Text} (hpre : ',' ∉ pre) (hdot : '.' ∉ pre)
    (hpost : ',' ∉ post) (hmid : ∀ A B, mid = A ++ ',' :: B → CommaPlaced A B)
    (h : pre ++ (mid ++ post) = A ++ ',' :: B) : CommaPlaced A B := by
  obtain ⟨A', rfl, h'⟩ := exists_append_left hpre h
  obtain ⟨B', rfl, hmid'⟩ := exists_append_right hpost h'
  obtain ⟨⟨c, hc, hdigit⟩, ⟨c', hc', hdigit'⟩, hdot'⟩ := hmid A' B' hmid'
  refine ⟨⟨c, ?_, hdigit⟩, ⟨c', ?_, hdigit'⟩, by simp [hdot, hdot']⟩
  · rw [List.getLast?_append, Option.mem_def.mp hc]
    rfl
  · rw [List.head?_append, Option.mem_def.mp hc']
    rfl

/-- The position the loop starts from, where the integer part ends. -/
theorem find_dot_text (n : Numeral) (h : n.exp = none) :
    (Text.find n.text '.').getD n.text.length = (signText n.neg).length + n.int.length := by
  have hdot := dot_notMem_int n
  have hlen : (signText n.neg).length + n.int.length = (signText n.neg ++ n.int).length := by simp
  rw [hlen]
  by_cases hfrac : n.frac = []
  · have htext : n.text = signText n.neg ++ n.int := by
      simp [Numeral.text, Numeral.expText, hfrac, h]
    rw [htext, Text.find_eq_none hdot]
    rfl
  · have htext : n.text = (signText n.neg ++ n.int) ++ '.' :: n.frac := by
      simp [Numeral.text, Numeral.expText, dotted_of_ne_nil hfrac, h]
    rw [htext, Text.find_append_cons hdot]
    rfl

/-- The position the loop stops at. -/
theorem start_text (n : Numeral) :
    (if n.text.head? = some '-' then 1 else 0) = (signText n.neg).length := by
  cases hneg : n.neg with
  | true =>
    rw [Numeral.text, hneg]
    rfl
  | false =>
    obtain ⟨c, t, htext, hdigit⟩ := Numeral.exists_digit_cons hneg
    have hc : c ≠ '-' := by
      rintro rfl
      cases hdigit
    rw [htext, List.head?_cons, if_neg (by simpa using hc)]
    rfl

/-- **What the commas are inserted into**, and between which positions. -/
theorem prettyText_of_exp_none (n : Numeral) (h : n.exp = none) :
    prettyText n.text
      = insertCommas (signText n.neg).length ((signText n.neg).length + n.int.length)
        (signText n.neg ++ n.int ++ dotted (dropZeros n.frac)) := by
  have htrim := trimTrailingZeros_text_of_exp_none n h
  simp only [prettyText, htrim]
  rw [find_dot_text n.trimmed h, start_text, text_trimmed_of_exp_none n h]
  rfl

/-- **Canonical groups.** -/
theorem prettyText_grouped (n : Numeral) (h : n.exp = none) :
    (∃ first groups, n.int = first ++ groups.flatten
      ∧ (1 ≤ first.length ∧ first.length ≤ 3) ∧ (∀ g ∈ groups, g.length = 3)
      ∧ prettyText n.text = some (signText n.neg
          ++ ([','].intercalate (first :: groups) ++ dotted (dropZeros n.frac))))
    ∧ ∀ A B, prettyText n.text = some (A ++ ',' :: B) → CommaPlaced A B := by
  obtain ⟨first, groups, hflat, hlen, hgroups, hloop⟩ :=
    insertCommas_groups (signText n.neg) n.int (dotted (dropZeros n.frac)) n.int_digits.1
  have hshown : prettyText n.text = some (signText n.neg
      ++ ([','].intercalate (first :: groups) ++ dotted (dropZeros n.frac))) := by
    rw [prettyText_of_exp_none n h, hloop, List.append_assoc]
  refine ⟨⟨first, groups, hflat, hlen, hgroups, hshown⟩, fun A B hout => ?_⟩
  rw [hshown] at hout
  have hint := n.int_digits.2
  rw [hflat] at hint
  have hfirst : IsDigits first :=
    ⟨List.length_pos_iff.mp hlen.1, fun c hc => hint c (List.mem_append_left _ hc)⟩
  have hdigits : ∀ g ∈ groups, IsDigits g := fun g hg =>
    ⟨List.length_pos_iff.mp (by rw [hgroups g hg]; decide),
      fun c hc => hint c (List.mem_append_right _ (List.mem_flatten_of_mem hg hc))⟩
  have hcomma := comma_notMem_text n.trimmed
  rw [text_trimmed_of_exp_none n h, List.mem_append, List.mem_append, not_or, not_or] at hcomma
  refine CommaPlaced.of_append hcomma.1.1 (fun hdot => dot_notMem_int n ?_) hcomma.2
    (fun A B => commaPlaced_intercalate hfirst hdigits) (Option.some.inj hout)
  exact List.mem_append_left _ hdot

/-- Two commas and a sign. -/
theorem prettyText_grouped_millions :
    (∃ first groups, ['1', '2', '3', '4', '5', '6', '7'] = first ++ groups.flatten
      ∧ (1 ≤ first.length ∧ first.length ≤ 3) ∧ (∀ g ∈ groups, g.length = 3)
      ∧ prettyText ['-', '1', '2', '3', '4', '5', '6', '7', '.', '8', '0']
        = some ('-' :: ([','].intercalate (first :: groups) ++ dotted (dropZeros ['8', '0']))))
    ∧ ∀ A B, prettyText ['-', '1', '2', '3', '4', '5', '6', '7', '.', '8', '0']
        = some (A ++ ',' :: B) → CommaPlaced A B :=
  prettyText_grouped
    { neg := true, int := ['1', '2', '3', '4', '5', '6', '7'], frac := ['8', '0'], exp := none
      int_digits := by decide, frac_digits := by simp, exp_digits := by simp } rfl

example : pretty (.nearest (-123456789 / 100)) = some "-1,234,567.89".toList := by decide +kernel

end Utils.Double
