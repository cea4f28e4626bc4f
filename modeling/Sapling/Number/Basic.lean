/-!
# Numbers

The values of number literals: binary floating point of 64 bits. A finite magnitude is a whole
number of units of 2^-1074 and is named by its rank among all magnitudes, so that zero has rank 0
and a larger magnitude has a larger rank. `nearest` rounds a fraction to a number.
-/
namespace Sapling

/-- How many finite magnitudes there are, zero included. -/
def magnitudeCount : Nat := 2047 * Nat.pow 2 52

inductive Number where
  | nan
  | infinite (negative : Bool)
  | finite (negative : Bool) (rank : Fin magnitudeCount)
  deriving DecidableEq, Repr

namespace Number

def zero : Number := .finite false ⟨0, by decide⟩

/-- The magnitude of a rank in units of 2^-1074. The first 2^52 ranks are evenly spaced; from
there on each run of 2^52 ranks doubles the spacing of the run before. -/
def units (rank : Nat) : Nat :=
  if rank < Nat.pow 2 52 then rank
  else (Nat.pow 2 52 + rank % Nat.pow 2 52) * Nat.pow 2 (rank / Nat.pow 2 52 - 1)

/-- A rank past the last magnitude stands for an infinity. -/
def ofRank (negative : Bool) (rank : Nat) : Number :=
  if h : rank < magnitudeCount then .finite negative ⟨rank, h⟩ else .infinite negative

/-- Numbers are equal by value: `nan` equals nothing, and the two zeros are equal. -/
def equals : Number → Number → Bool
  | .infinite a, .infinite b => a == b
  | .finite a r, .finite b s => r == s && (a == b || r.val == 0)
  | _, _ => false

/-- The number with the given interchange format: a sign bit above 63 bits that hold the rank. -/
def ofBits (bits : Nat) : Number :=
  let rank := bits % Nat.pow 2 63
  if rank ≤ magnitudeCount then ofRank (Nat.pow 2 63 ≤ bits) rank else .nan

def toBits : Number → Nat
  | .nan => magnitudeCount + Nat.pow 2 51
  | .infinite negative => (if negative then Nat.pow 2 63 else 0) + magnitudeCount
  | .finite negative rank => (if negative then Nat.pow 2 63 else 0) + rank.val

def roundHalfEven (numerator denominator : Nat) : Nat :=
  let quotient := numerator / denominator
  let twice := 2 * (numerator % denominator)
  if twice < denominator then quotient
  else if denominator < twice then quotient + 1
  else quotient + quotient % 2

/-- The number nearest to a fraction. A quotient of more than 53 bits is rounded at its 53rd bit,
and each bit dropped moves the result 2^52 ranks up. -/
def nearest (numerator denominator : Nat) : Number :=
  let scaled := numerator * Nat.pow 2 1074
  let excess := Nat.log2 (scaled / denominator) - 52
  ofRank false (excess * Nat.pow 2 52 + roundHalfEven scaled (denominator * Nat.pow 2 excess))

end Number
end Sapling
