import Sapling.Number.Decimal
import Sapling.Operator

/-!
# Tokens

The words of the language. `Token.text` is the way a token is named in messages, and
`Token.sameKind` compares tokens without their names, numbers and strings.
-/
namespace Sapling

inductive Keyword where
  | defWord
  | ifWord
  | elseWord
  | whileWord
  | returnWord
  deriving DecidableEq, Repr

namespace Keyword

def all : List Keyword :=
  [.defWord, .ifWord, .elseWord, .whileWord, .returnWord]

def text : Keyword → String
  | .defWord => "def"
  | .ifWord => "if"
  | .elseWord => "else"
  | .whileWord => "while"
  | .returnWord => "return"

def ofText? (word : String) : Option Keyword :=
  all.find? (·.text == word)

end Keyword

inductive Mark where
  | leftParen
  | rightParen
  | leftBrace
  | rightBrace
  | semicolon
  | comma
  | assign
  deriving DecidableEq, Repr

namespace Mark

def all : List Mark :=
  [.leftParen, .rightParen, .leftBrace, .rightBrace, .semicolon, .comma, .assign]

def text : Mark → String
  | .leftParen => "("
  | .rightParen => ")"
  | .leftBrace => "\x7b"
  | .rightBrace => "\x7d"
  | .semicolon => ";"
  | .comma => ","
  | .assign => "="

end Mark

inductive Token where
  | ident (name : String)
  | number (value : Number)
  | str (text : String)
  | operator (op : Operator)
  | mark (mark : Mark)
  | keyword (word : Keyword)
  deriving DecidableEq, Repr

namespace Token

def text : Token → String
  | .ident name => "identifier '" ++ name ++ "'"
  | .number value => "number " ++ value.text
  | .str text => "string \"" ++ text ++ "\""
  | .operator op => "'" ++ op.symbol ++ "'"
  | .mark m => "'" ++ m.text ++ "'"
  | .keyword word => "'" ++ word.text ++ "'"

/-- The token of a word: a keyword if the word is reserved, else an identifier. -/
def ofWord (word : String) : Token :=
  match Keyword.ofText? word with
  | some k => .keyword k
  | none => .ident word

def operator? : Token → Option Operator
  | .operator op => some op
  | _ => none

def sameKind : Token → Token → Bool
  | .ident _, .ident _ => true
  | .number _, .number _ => true
  | .str _, .str _ => true
  | .operator a, .operator b => a == b
  | .mark a, .mark b => a == b
  | .keyword a, .keyword b => a == b
  | _, _ => false

/-- Tokens are equal if their kinds and what they hold are; numbers compare by value. -/
def equals : Token → Token → Bool
  | .number a, .number b => a.equals b
  | .ident a, .ident b => a == b
  | .str a, .str b => a == b
  | a, b => a.sameKind b

end Token
end Sapling
