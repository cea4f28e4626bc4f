import Mathlib.Data.List.TakeWhile
import Mathlib.Tactic.Positivity
import Mathlib.Tactic.Ring
import Sapling.Number.Decimal
import Sapling.Tree

/-!
# Numbers read back

The text of a number without a sign is a numeral, and its value is the number: rounding gives
back a magnitude that a fraction meets exactly, the decimal that is chosen for a magnitude reads
as it, and the digits in the text are those of the decimal.
-/
namespace Sapling

namespace Number

theorem roundHalfEven_mul (quotient : ℕ) {denominator : ℕ} (h : 0 < denominator) :
    roundHalfEven (quotient * denominator) denominator = quotient := by
  simp [roundHalfEven, Nat.mul_div_cancel _ h, h]

theorem units_of_lt {rank : ℕ} (h : rank < 2 ^ 52) : units rank = rank := if_pos h

theorem units_of_le {rank : ℕ} (h : 2 ^ 52 ≤ rank) :
    units rank = (2 ^ 52 + rank % 2 ^ 52) * 2 ^ (rank / 2 ^ 52 - 1) :=
  if_neg (Nat.not_lt.mpr h)

theorem log2_units {rank : ℕ} (h : 2 ^ 52 ≤ rank) :
    Nat.log2 (units rank) = 52 + (rank / 2 ^ 52 - 1) := by
  rw [units_of_le h]
  generalize rank / 2 ^ 52 - 1 = shift
  have hlower : 2 ^ 52 ≤ 2 ^ 52 + rank % 2 ^ 52 := Nat.le_add_right _ _
  have hupper : 2 ^ 52 + rank % 2 ^ 52 < 2 ^ 53 := by
    have := Nat.mod_lt rank (Nat.two_pow_pos 52)
    omega
  generalize 2 ^ 52 + rank % 2 ^ 52 = significand at hlower hupper
  have hl := Nat.mul_le_mul_right (2 ^ shift) hlower
  have hu := Nat.mul_lt_mul_of_pos_right hupper (Nat.two_pow_pos shift)
  have hpos : significand * 2 ^ shift ≠ 0 := (Nat.mul_pos (by omega) (Nat.two_pow_pos shift)).ne'
  rw [Nat.log2_eq_iff hpos, pow_add, show 52 + shift + 1 = 53 + shift by omega, pow_add 2 53]
  exact ⟨hl, hu⟩

/-- A fraction that meets a magnitude is rounded to it. -/
theorem nearest_eq_ofRank {numerator denominator rank : ℕ} (hd : 0 < denominator)
    (h : numerator * 2 ^ 1074 = units rank * denominator) :
    nearest numerator denominator = ofRank false rank := by
  unfold nearest
  simp only [Nat.pow_eq, h, Nat.mul_div_cancel _ hd]
  rcases Nat.lt_or_ge rank (2 ^ 52) with hlt | hle
  · have hlog : Nat.log2 rank - 52 = 0 := by
      rcases Nat.eq_zero_or_pos rank with rfl | hpos
      · simp
      · have := (Nat.log2_lt hpos.ne').mpr hlt
        omega
    rw [units_of_lt hlt, hlog, pow_zero, mul_one, roundHalfEven_mul rank hd, zero_mul, zero_add]
  · have hround : roundHalfEven (units rank * denominator)
        (denominator * 2 ^ (rank / 2 ^ 52 - 1)) = 2 ^ 52 + rank % 2 ^ 52 := by
      rw [units_of_le hle, mul_assoc, mul_comm (2 ^ _) denominator]
      exact roundHalfEven_mul _ (by positivity)
    have hrank : (rank / 2 ^ 52 - 1) * 2 ^ 52 + (2 ^ 52 + rank % 2 ^ 52) = rank := by omega
    rw [log2_units hle, Nat.add_sub_cancel_left, hround, hrank]

theorem ofRank_val (rank : Fin magnitudeCount) : ofRank false rank.val = .finite false rank :=
  dif_pos rank.isLt

end Number

namespace Decimal

open Number

theorem dropZeros_spec (count digits : ℕ) (exponent : ℤ) :
    ∃ zeros : ℕ, digits = (dropZeros count digits exponent).digits * 10 ^ zeros ∧
      (dropZeros count digits exponent).exponent = exponent + zeros := by
  induction count generalizing digits exponent with
  | zero => exact ⟨0, by simp [dropZeros]⟩
  | succ count ih =>
    rw [dropZeros]
    split
    · next hzero =>
      obtain ⟨zeros, hdigits, hexponent⟩ := ih (digits / 10) (exponent + 1)
      refine ⟨zeros + 1, ?_, ?_⟩
      · rw [pow_succ, ← mul_assoc, ← hdigits]
        omega
      · rw [hexponent]
        push_cast
        ring
    · exact ⟨0, by simp⟩

theorem exact_spec (rank : ℕ) :
    ∃ zeros : ℕ, units rank * 5 ^ 1074 = (exact rank).digits * 10 ^ zeros ∧
      (exact rank).exponent = -1074 + zeros :=
  dropZeros_spec _ _ _

theorem mul_pow_of_whole {count places more digits : ℕ}
    (h : count * 5 ^ places = digits * 10 ^ (places + more)) :
    digits * 10 ^ more * 2 ^ places = count := by
  apply Nat.eq_of_mul_eq_mul_right (show 0 < 5 ^ places by positivity)
  calc digits * 10 ^ more * 2 ^ places * 5 ^ places
      = digits * (10 ^ more * (2 * 5) ^ places) := by rw [mul_pow]; ring
    _ = digits * 10 ^ (places + more) := by rw [pow_add]; ring
    _ = count * 5 ^ places := h.symm

theorem mul_pow_of_fraction {count zeros places digits : ℕ}
    (h : count * 5 ^ (zeros + places) = digits * 10 ^ zeros) :
    digits * 2 ^ (zeros + places) = count * 10 ^ places := by
  apply Nat.eq_of_mul_eq_mul_right (show 0 < 5 ^ (zeros + places) by positivity)
  calc digits * 2 ^ (zeros + places) * 5 ^ (zeros + places)
      = digits * (2 * 5) ^ (zeros + places) := by rw [mul_pow]; ring
    _ = digits * 10 ^ zeros * 10 ^ places := by rw [pow_add]; ring
    _ = count * 10 ^ places * 5 ^ (zeros + places) := by rw [← h]; ring

theorem toNumber_exact (rank : ℕ) : (exact rank).toNumber = ofRank false rank := by
  obtain ⟨zeros, hdigits, hexponent⟩ := exact_spec rank
  generalize exact rank = d at hdigits hexponent ⊢
  simp only [toNumber, Nat.pow_eq]
  split
  · next hsign =>
    obtain ⟨more, rfl⟩ : ∃ more, zeros = 1074 + more := ⟨zeros - 1074, by omega⟩
    rw [show d.exponent.toNat = more by omega]
    exact nearest_eq_ofRank Nat.one_pos (by rw [mul_pow_of_whole hdigits, mul_one])
  · next hsign =>
    obtain ⟨places, hplaces⟩ : ∃ places, 1074 = zeros + places := ⟨1074 - zeros, by omega⟩
    rw [show (-d.exponent).toNat = places by omega]
    apply nearest_eq_ofRank (by positivity)
    rw [hplaces] at hdigits ⊢
    exact mul_pow_of_fraction hdigits

theorem toNumber_zero : (⟨0, 0⟩ : Decimal).toNumber = ofRank false 0 := by decide +kernel

/-- The decimal that is chosen for a magnitude reads as it. -/
theorem toNumber_shortest (tie : Tie) (rank : ℕ) :
    (shortest tie rank).toNumber = ofRank false rank := by
  have hgetD : ∀ found : Option Decimal, (∀ d, found = some d → d.toNumber = ofRank false rank) →
      (found.getD (exact rank)).toNumber = ofRank false rank := by
    intro found hfound
    cases found with
    | none =>
      rw [Option.getD_none]
      exact toNumber_exact rank
    | some d => exact hfound d rfl
  unfold shortest
  split
  · next hzero =>
    rw [hzero]
    exact toNumber_zero
  · apply hgetD
    intro d hfound
    obtain ⟨count, -, hcount⟩ := List.exists_of_findSome?_eq_some hfound
    simpa only [beq_iff_eq] using List.find?_some hcount

end Decimal

namespace Numeral

theorem digitsValue_eq (digits : List Char) : digitsValue digits = Nat.ofDigitChars 10 digits 0 :=
  Nat.ofDigitChars_eq_foldl.symm

theorem ne_point_of_isDigit {digits : List Char} (h : ∀ c ∈ digits, c.isDigit) :
    ∀ c ∈ digits, (c != '.') = true := by
  intro c hc
  have := h c hc
  rw [bne_iff_ne]
  rintro rfl
  simp at this

theorem value_of_whole {digits : List Char} (h : ∀ c ∈ digits, c.isDigit) :
    value digits = Number.nearest (digitsValue digits) 1 := by
  have htake := List.takeWhile_eq_self_iff.mpr (ne_point_of_isDigit h)
  have hdrop := List.dropWhile_eq_nil_iff.mpr (ne_point_of_isDigit h)
  simp [value, htake, hdrop]

theorem value_of_point {whole fraction : List Char} (hw : ∀ c ∈ whole, c.isDigit)
    (hf : ∀ c ∈ fraction, c.isDigit) :
    value (whole ++ '.' :: fraction) =
      Number.nearest (digitsValue (whole ++ fraction)) (10 ^ fraction.length) := by
  have hfraction := List.takeWhile_eq_self_iff.mpr (ne_point_of_isDigit hf)
  simp [value, List.takeWhile_append_of_pos (ne_point_of_isDigit hw),
    List.dropWhile_append_of_pos (ne_point_of_isDigit hw), hfraction]

end Numeral

namespace Decimal

open Numeral

theorem isDigit_digitChars (d : Decimal) : ∀ c ∈ d.digitChars, c.isDigit :=
  fun _ hc => Nat.isDigit_of_mem_toDigits (by decide) (by decide) hc

theorem isDigit_zeros (count : ℕ) : ∀ c ∈ List.replicate count '0', c.isDigit := by
  intro c hc
  rw [List.eq_of_mem_replicate hc]
  rfl

theorem digitsValue_digitChars (d : Decimal) : digitsValue d.digitChars = d.digits := by
  rw [digitsValue_eq, digitChars, Nat.ofDigitChars_ten_toDigits]

theorem positional_cases (d : Decimal) :
    (0 ≤ d.exponent ∧
      d.positional.toList = d.digitChars ++ List.replicate d.exponent.toNat '0') ∨
    (d.exponent < 0 ∧ ∃ whole fraction, d.positional.toList = whole ++ '.' :: fraction ∧
      whole ≠ [] ∧ fraction.length = (-d.exponent).toNat ∧
      digitsValue (whole ++ fraction) = d.digits ∧
      (∀ c ∈ whole, c.isDigit) ∧ ∀ c ∈ fraction, c.isDigit) := by
  have hdigits := d.isDigit_digitChars
  by_cases hplaces : (-d.exponent).toNat = 0
  · refine .inl ⟨by omega, ?_⟩
    simp [positional, hplaces]
  · refine .inr ⟨by omega, ?_⟩
    by_cases hlength : d.digitChars.length ≤ (-d.exponent).toNat
    · refine ⟨['0'], List.replicate ((-d.exponent).toNat - d.digitChars.length) '0' ++ d.digitChars,
        by simp [positional, hplaces, hlength], by simp, by simp; omega, ?_, by simp, ?_⟩
      · rw [digitsValue_eq, Nat.ofDigitChars_append, Nat.ofDigitChars_append,
          Nat.ofDigitChars_replicate_zero, ← digitsValue_digitChars, digitsValue_eq]
        simp [Nat.ofDigitChars_cons]
      · intro c hc
        rcases List.mem_append.mp hc with hzero | hdigit
        · exact isDigit_zeros _ c hzero
        · exact hdigits c hdigit
    · refine ⟨d.digitChars.take (d.digitChars.length - (-d.exponent).toNat),
        d.digitChars.drop (d.digitChars.length - (-d.exponent).toNat),
        by simp [positional, hplaces, hlength], ?_, by simp; omega, ?_,
        fun c hc => hdigits c (List.mem_of_mem_take hc),
        fun c hc => hdigits c (List.mem_of_mem_drop hc)⟩
      · rw [Ne, List.take_eq_nil_iff]
        rintro (hzero | hnil)
        · omega
        · simp [hnil] at hlength
      · rw [List.take_append_drop, digitsValue_digitChars]

/-- The text of a decimal has the value that the decimal reads as. -/
theorem value_positional (d : Decimal) : Numeral.value d.positional.toList = d.toNumber := by
  rcases d.positional_cases with ⟨hexponent, htext⟩ | ⟨hexponent, whole, fraction, htext, -,
    hlength, hdigits, hwhole, hfraction⟩
  · have hall : ∀ c ∈ d.digitChars ++ List.replicate d.exponent.toNat '0', c.isDigit := by
      intro c hc
      rcases List.mem_append.mp hc with hdigit | hzero
      · exact d.isDigit_digitChars c hdigit
      · exact isDigit_zeros _ c hzero
    rw [htext, value_of_whole hall, toNumber, if_pos hexponent, Nat.pow_eq, digitsValue_eq,
      Nat.ofDigitChars_append, Nat.ofDigitChars_replicate_zero, ← digitsValue_eq,
      digitsValue_digitChars, mul_comm]
  · rw [htext, value_of_point hwhole hfraction, hdigits, hlength, toNumber,
      if_neg (by omega), Nat.pow_eq]

/-- The text of a decimal is a numeral. -/
theorem isPart_positional (d : Decimal) :
    d.positional.toList ≠ [] ∧ ∀ c ∈ d.positional.toList, Numeral.isPart c = true := by
  have hpart : ∀ c : Char, c.isDigit → Numeral.isPart c = true := by
    intro c hc
    simp [Numeral.isPart, hc]
  rcases d.positional_cases with ⟨-, htext⟩ | ⟨-, whole, fraction, htext, hne, -, -, hwhole,
    hfraction⟩
  · rw [htext]
    refine ⟨by simp [digitChars, Nat.toDigits_ne_nil], fun c hc => hpart c ?_⟩
    rcases List.mem_append.mp hc with hdigit | hzero
    · exact d.isDigit_digitChars c hdigit
    · exact isDigit_zeros _ c hzero
  · rw [htext]
    refine ⟨by simp, fun c hc => ?_⟩
    rcases List.mem_append.mp hc with hc | hc
    · exact hpart c (hwhole c hc)
    · rcases List.mem_cons.mp hc with rfl | hc
      · rfl
      · exact hpart c (hfraction c hc)

end Decimal

namespace Number

theorem text_finite (rank : Fin magnitudeCount) :
    (text (.finite false rank)) = (Decimal.shortest .upper rank.val).positional := by
  simp [text]

/-- A number without a sign reads back from its text. -/
theorem value_text (rank : Fin magnitudeCount) :
    Numeral.value (text (.finite false rank)).toList = .finite false rank := by
  rw [text_finite, Decimal.value_positional, Decimal.toNumber_shortest, ofRank_val]

theorem isPart_text (rank : Fin magnitudeCount) :
    (text (.finite false rank)).toList ≠ [] ∧
      ∀ c ∈ (text (.finite false rank)).toList, Numeral.isPart c = true := by
  rw [text_finite]
  exact Decimal.isPart_positional _

/-- The digits that an infinite literal is written with are more than any finite number has. -/
theorem value_infinite : Numeral.value ('1' :: List.replicate 309 '0') = .infinite false := by
  decide +kernel

theorem value_cases (run : List Char) :
    Numeral.value run = .infinite false ∨ ∃ rank, Numeral.value run = .finite false rank := by
  simp only [Numeral.value, nearest, ofRank]
  split
  · exact .inr ⟨_, rfl⟩
  · exact .inl rfl

end Number
end Sapling
