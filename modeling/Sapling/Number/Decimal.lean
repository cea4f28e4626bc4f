import Sapling.Number.Basic

/-!
# Decimals

A decimal is a whole number times a power of ten. `Decimal.shortest` finds, for a magnitude, the
decimal with the fewest digits among those that read back as it, and of these the nearest. In the
other direction, a numeral is a run of digits and points in source text: its value is that of the
text before the second point, and a run without digits there has the value zero.
-/
namespace Sapling

structure Decimal where
  digits : Nat
  exponent : Int
  deriving DecidableEq, Repr

/-- Which of two decimals is chosen when the number lies halfway between them. -/
inductive Tie where
  | upper
  | even
  deriving DecidableEq, Repr

namespace Decimal

def toNumber (d : Decimal) : Number :=
  if 0 ≤ d.exponent then Number.nearest (d.digits * Nat.pow 10 d.exponent.toNat) 1
  else Number.nearest d.digits (Nat.pow 10 (-d.exponent).toNat)

/-- Move at most `count` trailing zeros of the digits into the exponent. -/
def dropZeros : (count digits : Nat) → (exponent : Int) → Decimal
  | 0, digits, exponent => ⟨digits, exponent⟩
  | count + 1, digits, exponent =>
    if digits % 10 = 0 then dropZeros count (digits / 10) (exponent + 1) else ⟨digits, exponent⟩

/-- A decimal without trailing zeros. A number ends in fewer zeros than its value. -/
def trim (digits : Nat) (exponent : Int) : Decimal :=
  dropZeros digits digits exponent

def neighbours (tie : Tie) (numerator denominator : Nat) : List Nat :=
  let below := numerator / denominator
  let twice := 2 * (numerator % denominator)
  let upperFirst : Bool := denominator < twice ||
    (denominator == twice && (tie == .upper || below % 2 == 1))
  if upperFirst then [below + 1, below] else [below, below + 1]

/-- Magnitudes are scaled by this power of ten, which leaves the least one 27 whole digits. -/
def scaleExponent : Nat := 350

def exact (rank : Nat) : Decimal :=
  trim (Number.units rank * Nat.pow 5 1074) (-1074)

/-- The decimals next to a scaled magnitude after the given count of its low digits is dropped,
the nearer first. -/
def candidates (tie : Tie) (scaled dropped : Nat) : List Decimal :=
  (neighbours tie scaled (Nat.pow 2 1074 * Nat.pow 10 dropped)).map
    fun digits => trim digits (dropped - scaleExponent)

/-- The decimal that a number with this rank is written as. Seventeen digits always suffice. -/
def shortest (tie : Tie) (rank : Nat) : Decimal :=
  if rank = 0 then ⟨0, 0⟩
  else
    let scaled := Number.units rank * Nat.pow 10 scaleExponent
    let width := (Nat.toDigits 10 (scaled / Nat.pow 2 1074)).length
    ((List.range' 1 17).findSome? fun count =>
      (candidates tie scaled (width - count)).find? (·.toNumber == Number.ofRank false rank)).getD
        (exact rank)

def digitChars (d : Decimal) : List Char :=
  Nat.toDigits 10 d.digits

/-- Written in full with no exponent and with a point only where there is a fraction. -/
def positional (d : Decimal) : String :=
  let digits := d.digitChars
  let places := (-d.exponent).toNat
  if places = 0 then String.ofList (digits ++ List.replicate d.exponent.toNat '0')
  else if digits.length ≤ places then
    String.ofList ('0' :: '.' :: (List.replicate (places - digits.length) '0' ++ digits))
  else
    String.ofList (digits.take (digits.length - places) ++
      '.' :: digits.drop (digits.length - places))

end Decimal

namespace Number

def text : Number → String
  | .nan => "NaN"
  | .infinite negative => if negative then "-inf" else "inf"
  | .finite negative rank =>
    (if negative then "-" else "") ++ (Decimal.shortest .upper rank.val).positional

end Number

namespace Numeral

def isPart (c : Char) : Bool :=
  c.isDigit || c == '.'

def digitsValue (digits : List Char) : Nat :=
  digits.foldl (fun value c => 10 * value + (c.toNat - '0'.toNat)) 0

def value (run : List Char) : Number :=
  let whole := run.takeWhile (· != '.')
  let fraction := ((run.dropWhile (· != '.')).drop 1).takeWhile (· != '.')
  Number.nearest (digitsValue (whole ++ fraction)) (Nat.pow 10 fraction.length)

end Numeral

end Sapling
