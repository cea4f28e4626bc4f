import Sapling.Number.Decimal

/-!
# JSON

Values of the JSON format and their texts: `compact` without any blanks, `pretty` with a line for
every item and field.
-/
namespace Sapling

inductive Json where
  | null
  | number (value : Number)
  | str (text : String)
  | array (items : List Json)
  | object (fields : List (String × Json))
  deriving Repr

namespace Json

/-- How a decimal other than zero is written: in full and with a point while its first digit lies
between the sixth place behind the point and the sixteenth before it, else with an exponent. -/
def decimalText (d : Decimal) : String :=
  let digits := d.digitChars
  let first : Int := d.exponent + digits.length - 1
  if -5 ≤ first ∧ first ≤ 15 then
    if 0 ≤ d.exponent then d.positional ++ ".0" else d.positional
  else
    let fraction := if digits.length ≤ 1 then [] else '.' :: digits.drop 1
    String.ofList (digits.take 1 ++ fraction) ++ (if first < 0 then "e-" else "e+") ++
      toString first.natAbs

/-- Numbers that are not finite have no JSON text and are written as `null`. -/
def numberText : Number → String
  | .finite negative rank =>
    (if negative then "-" else "") ++
      (if rank.val = 0 then "0.0" else decimalText (Decimal.shortest .even rank.val))
  | _ => "null"

def escape (c : Char) : List Char :=
  if c = '"' then ['\\', '"']
  else if c = '\\' then ['\\', '\\']
  else if c = '\x08' then ['\\', 'b']
  else if c = '\x0c' then ['\\', 'f']
  else if c = '\n' then ['\\', 'n']
  else if c = '\r' then ['\\', 'r']
  else if c = '\t' then ['\\', 't']
  else if c.toNat < 32 then
    ['\\', 'u', '0', '0', Nat.digitChar (c.toNat / 16), Nat.digitChar (c.toNat % 16)]
  else [c]

def quote (s : String) : String :=
  String.ofList ('"' :: (s.toList.flatMap escape ++ ['"']))

mutual

def compact : Json → String
  | .null => "null"
  | .number value => numberText value
  | .str text => quote text
  | .array items => "[" ++ ",".intercalate (compactItems items) ++ "]"
  | .object fields => "\x7b" ++ ",".intercalate (compactFields fields) ++ "\x7d"

def compactItems : List Json → List String
  | [] => []
  | item :: items => compact item :: compactItems items

def compactFields : List (String × Json) → List String
  | [] => []
  | field :: fields => compactField field :: compactFields fields

def compactField : String × Json → String
  | (key, value) => quote key ++ ":" ++ compact value

end

/-- Lines at the given depth between brackets on the lines of their own; nothing stands between
the brackets of an empty value. -/
def bracketed (opening closing : String) (depth : Nat) (lines : List String) : String :=
  let margin (depth : Nat) := "\n" ++ String.ofList (List.replicate (2 * depth) ' ')
  if lines.isEmpty then opening ++ closing
  else opening ++ margin (depth + 1) ++ ("," ++ margin (depth + 1)).intercalate lines ++
    margin depth ++ closing

mutual

def prettyAt (depth : Nat) : Json → String
  | .null => "null"
  | .number value => numberText value
  | .str text => quote text
  | .array items => bracketed "[" "]" depth (prettyItems (depth + 1) items)
  | .object fields => bracketed "\x7b" "\x7d" depth (prettyFields (depth + 1) fields)

def prettyItems (depth : Nat) : List Json → List String
  | [] => []
  | item :: items => prettyAt depth item :: prettyItems depth items

def prettyFields (depth : Nat) : List (String × Json) → List String
  | [] => []
  | field :: fields => prettyField depth field :: prettyFields depth fields

def prettyField (depth : Nat) : String × Json → String
  | (key, value) => quote key ++ ": " ++ prettyAt depth value

end

def pretty (value : Json) : String :=
  prettyAt 0 value

end Json
end Sapling
