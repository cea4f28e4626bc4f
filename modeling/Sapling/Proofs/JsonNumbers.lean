import Sapling.Json.Basic
import Sapling.Proofs.LexerTokens

/-!
# Numbers as JSON

The text of a finite number as JSON is the text of no other finite number (`finite_eq_of_text`). A
decimal is written in full or with an exponent. In full its text is a numeral, which has the value
that the decimal reads as; with an exponent the text shows the digits and where the first of them
stands.
-/
namespace Sapling

namespace Number

theorem roundHalfEven_mul_right (numerator denominator : ℕ) {factor : ℕ} (h : 0 < factor) :
    roundHalfEven (numerator * factor) (denominator * factor) =
      roundHalfEven numerator denominator := by
  have htwice : 2 * (numerator * factor % (denominator * factor)) =
      2 * (numerator % denominator) * factor := by
    rw [Nat.mul_mod_mul_right, mul_assoc]
  simp only [roundHalfEven, htwice, Nat.mul_div_mul_right _ _ h, Nat.mul_lt_mul_right h]

theorem nearest_mul_right (numerator denominator : ℕ) {factor : ℕ} (h : 0 < factor) :
    nearest (numerator * factor) (denominator * factor) = nearest numerator denominator := by
  simp only [nearest, mul_right_comm numerator factor, mul_right_comm denominator factor,
    Nat.mul_div_mul_right _ _ h, roundHalfEven_mul_right _ _ h]

theorem ofRank_injective {rank rank' : Fin magnitudeCount}
    (h : ofRank false rank.val = ofRank false rank'.val) : rank = rank' := by
  rw [ofRank_val, ofRank_val] at h
  exact (Number.finite.inj h).2

end Number

namespace Json

open Decimal Numeral

/-- The exponent of the first digit. -/
def firstPlace (d : Decimal) : Int :=
  d.exponent + d.digitChars.length - 1

/-- The digits of a decimal with an exponent, with a point behind the first of several. -/
def mantissa (d : Decimal) : List Char :=
  d.digitChars.take 1 ++ if d.digitChars.length ≤ 1 then [] else '.' :: d.digitChars.drop 1

theorem digitChars_ne_nil (d : Decimal) : d.digitChars ≠ [] := Nat.toDigits_ne_nil

theorem filter_mantissa (d : Decimal) : (mantissa d).filter (· != '.') = d.digitChars := by
  have hdigits := List.filter_eq_self.mpr (ne_point_of_isDigit d.isDigit_digitChars)
  rw [mantissa]
  split
  · next hshort => rwa [List.append_nil, List.take_of_length_le hshort]
  · have hpoint : ('.' :: d.digitChars.drop 1).filter (· != '.') =
        (d.digitChars.drop 1).filter (· != '.') := rfl
    rw [List.filter_append, hpoint, ← List.filter_append, List.take_append_drop, hdigits]

theorem isPart_mantissa (d : Decimal) : ∀ c ∈ mantissa d, isPart c = true := by
  intro c hc
  by_cases hpoint : c = '.'
  · rw [hpoint]
    rfl
  · have hfilter : c ∈ (mantissa d).filter (· != '.') :=
      List.mem_filter.mpr ⟨hc, bne_iff_ne.mpr hpoint⟩
    rw [filter_mantissa] at hfilter
    simp [isPart, d.isDigit_digitChars c hfilter]

/-- The shape of a decimal as JSON: a numeral with the value that the decimal reads as, or a
mantissa and an exponent. -/
theorem decimalText_cases (d : Decimal) :
    ((decimalText d).toList ≠ [] ∧ (∀ c ∈ (decimalText d).toList, isPart c = true) ∧
      Numeral.value (decimalText d).toList = d.toNumber) ∨
    (decimalText d).toList = mantissa d ++ 'e' :: (if firstPlace d < 0 then '-' else '+') ::
      Nat.toDigits 10 (firstPlace d).natAbs := by
  obtain ⟨hne, hpart⟩ := d.isPart_positional
  simp only [decimalText]
  split
  · left
    split
    · next hwhole =>
      have htext : (d.positional ++ ".0").toList = d.positional.toList ++ '.' :: ['0'] :=
        String.toList_append
      have hdigits : ∀ c ∈ d.positional.toList, c.isDigit := by
        rcases d.positional_cases with ⟨-, hpositional⟩ | ⟨hneg, -⟩
        · rw [hpositional, List.forall_mem_append]
          exact ⟨d.isDigit_digitChars, isDigit_zeros _⟩
        · omega
      have hshift : digitsValue (d.positional.toList ++ ['0']) =
          digitsValue d.positional.toList * 10 := by
        simp [digitsValue]
        omega
      have hzero : ∀ c ∈ ['0'], c.isDigit := by simp
      have hbehind : ∀ c ∈ '.' :: ['0'], isPart c = true := by simp [isPart]
      rw [htext]
      refine ⟨by simp, List.forall_mem_append.mpr ⟨hpart, hbehind⟩, ?_⟩
      rw [value_of_point hdigits hzero, hshift, ← value_positional, value_of_whole hdigits]
      exact Number.nearest_mul_right _ 1 (by decide)
    · exact ⟨hne, hpart, d.value_positional⟩
  · right
    have hsign : (if firstPlace d < 0 then "e-" else "e+").toList =
        ['e', if firstPlace d < 0 then '-' else '+'] := by
      split <;> rfl
    rw [String.toList_append, String.toList_append, String.toList_ofList, Nat.toString_eq_repr,
      Nat.toList_repr]
    change mantissa d ++ (if firstPlace d < 0 then "e-" else "e+").toList ++ _ = _
    rw [hsign, List.append_assoc]
    rfl

theorem takeWhile_mantissa (d : Decimal) (rest : List Char) :
    (mantissa d ++ 'e' :: rest).takeWhile isPart = mantissa d :=
  Lexer.takeWhile_append_eq (isPart_mantissa d) (by simp [isPart])

theorem eq_of_mantissa {d d' : Decimal} {rest rest' : List Char}
    (h : mantissa d ++ 'e' :: rest = mantissa d' ++ 'e' :: rest')
    (hfirst : firstPlace d = firstPlace d') : d = d' := by
  have hmantissa : mantissa d = mantissa d' := by
    rw [← takeWhile_mantissa d rest, h, takeWhile_mantissa]
  have hchars : d.digitChars = d'.digitChars := by
    rw [← filter_mantissa, hmantissa, filter_mantissa]
  have hdigits : d.digits = d'.digits := by
    rw [← digitsValue_digitChars, hchars, digitsValue_digitChars]
  have hexponent : d.exponent = d'.exponent := by
    rw [firstPlace, firstPlace, hchars] at hfirst
    omega
  cases d
  cases d'
  simp_all

/-- What a decimal reads as is known by its text. -/
theorem toNumber_eq_of_decimalText {d d' : Decimal} (h : decimalText d = decimalText d') :
    d.toNumber = d'.toNumber := by
  have he : ∀ (m rest : List Char), ¬ ∀ c ∈ m ++ 'e' :: rest, isPart c = true :=
    fun m rest hall => Bool.false_ne_true (hall 'e' (by simp))
  rcases decimalText_cases d with ⟨-, hpart, hvalue⟩ | htext
  · rcases decimalText_cases d' with ⟨-, -, hvalue'⟩ | htext'
    · rw [← hvalue, h, hvalue']
    · rw [h, htext'] at hpart
      exact absurd hpart (he _ _)
  · rcases decimalText_cases d' with ⟨-, hpart', -⟩ | htext'
    · rw [← h, htext] at hpart'
      exact absurd hpart' (he _ _)
    · have hsame := htext.symm.trans ((congrArg String.toList h).trans htext')
      have hbehind := congrArg (List.dropWhile isPart) hsame
      rw [Lexer.dropWhile_append_eq (isPart_mantissa d) (by simp [isPart]),
        Lexer.dropWhile_append_eq (isPart_mantissa d') (by simp [isPart])] at hbehind
      obtain ⟨hsign, hplace⟩ := List.cons.inj (List.cons.inj hbehind).2
      have habs := congrArg (Nat.ofDigitChars 10 · 0) hplace
      simp only [Nat.ofDigitChars_ten_toDigits] at habs
      have hfirst : firstPlace d = firstPlace d' := by
        split at hsign <;> split at hsign <;> first | omega | simp at hsign
      rw [eq_of_mantissa hsame hfirst]

def isNumeric (c : Char) : Bool :=
  isPart c || c == 'e' || c == '-' || c == '+'

theorem isNumeric_of_isPart {c : Char} (h : isPart c = true) : isNumeric c = true := by
  simp [isNumeric, h]

theorem isNumeric_digits (n : ℕ) : ∀ c ∈ Nat.toDigits 10 n, isNumeric c = true := by
  intro c hc
  have hdigit : c.isDigit = true := Nat.isDigit_of_mem_toDigits (by decide) (by decide) hc
  exact isNumeric_of_isPart (by simp [isPart, hdigit])

theorem exists_mantissa (d : Decimal) : ∃ c cs, mantissa d = c :: cs := by
  obtain ⟨c, cs, hchars⟩ := List.exists_cons_of_ne_nil (digitChars_ne_nil d)
  exact ⟨c, _, by rw [mantissa, hchars]; rfl⟩

theorem decimalText_shape (d : Decimal) : ∃ c cs, (decimalText d).toList = c :: cs ∧
    isPart c = true ∧ ∀ c' ∈ c :: cs, isNumeric c' = true := by
  rcases decimalText_cases d with ⟨hne, hpart, -⟩ | htext
  · obtain ⟨c, cs, hchars⟩ := List.exists_cons_of_ne_nil hne
    rw [hchars] at hpart
    refine ⟨c, cs, hchars, hpart c List.mem_cons_self, fun c' hc' => ?_⟩
    exact isNumeric_of_isPart (hpart c' hc')
  · obtain ⟨c, cs, hmantissa⟩ := exists_mantissa d
    have hpart := isPart_mantissa d
    rw [hmantissa] at htext hpart
    refine ⟨c, _, htext, hpart c List.mem_cons_self, ?_⟩
    change ∀ c' ∈ (c :: cs) ++ _, _
    have hsign : isNumeric (if firstPlace d < 0 then '-' else '+') = true := by
      split <;> rfl
    rw [List.forall_mem_append]
    refine ⟨fun c' hc' => isNumeric_of_isPart (hpart c' hc'), ?_⟩
    exact List.forall_mem_cons.mpr ⟨rfl, List.forall_mem_cons.mpr ⟨hsign, isNumeric_digits _⟩⟩

/-- The text of a finite number is that of its decimal behind its sign. -/
theorem numberText_finite (negative : Bool) (rank : Fin magnitudeCount) :
    numberText (.finite negative rank) =
      (if negative then "-" else "") ++ decimalText (Decimal.shortest .even rank.val) := by
  by_cases hzero : rank.val = 0
  · rw [numberText, if_pos hzero, hzero]
    rfl
  · rw [numberText, if_neg hzero]

theorem numberText_shape (negative : Bool) (rank : Fin magnitudeCount) :
    ∃ c cs, (numberText (.finite negative rank)).toList = c :: cs ∧
      (c = '-' ∨ isPart c = true) ∧ ∀ c' ∈ c :: cs, isNumeric c' = true := by
  obtain ⟨c, cs, hchars, hpart, hall⟩ := decimalText_shape (Decimal.shortest .even rank.val)
  rw [numberText_finite, String.toList_append, hchars]
  cases negative with
  | false => exact ⟨c, cs, rfl, .inr hpart, hall⟩
  | true => exact ⟨'-', c :: cs, rfl, .inl rfl, List.forall_mem_cons.mpr ⟨rfl, hall⟩⟩

/-- A finite number is known by its text. -/
theorem finite_eq_of_text {negative negative' : Bool} {rank rank' : Fin magnitudeCount}
    (h : numberText (.finite negative rank) = numberText (.finite negative' rank')) :
    negative = negative' ∧ rank = rank' := by
  obtain ⟨c, cs, hchars, hpart, -⟩ := decimalText_shape (Decimal.shortest .even rank.val)
  obtain ⟨c', cs', hchars', hpart', -⟩ := decimalText_shape (Decimal.shortest .even rank'.val)
  have hne : '-' ≠ c := by
    rintro rfl
    simp [isPart] at hpart
  have hne' : '-' ≠ c' := by
    rintro rfl
    simp [isPart] at hpart'
  rw [numberText_finite, numberText_finite, ← String.toList_inj, String.toList_append,
    String.toList_append] at h
  have hdecimal : negative = negative' ∧
      decimalText (Decimal.shortest .even rank.val) =
        decimalText (Decimal.shortest .even rank'.val) := by
    rw [← String.toList_inj]
    cases negative <;> cases negative' <;> simp_all
  have hnumber := toNumber_eq_of_decimalText hdecimal.2
  rw [toNumber_shortest, toNumber_shortest] at hnumber
  exact ⟨hdecimal.1, Number.ofRank_injective hnumber⟩

end Json
end Sapling
