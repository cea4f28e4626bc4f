import Sapling.Token

/-!
# Syntax errors

A syntax error is a cause and the line on which it was noticed. The wording of every cause is in
`Cause.text`.
-/
namespace Sapling

/-- The grammar rules that can meet a token they have no use for. -/
inductive Rule where
  | statement
  | primary
  deriving DecidableEq, Repr

def Rule.name : Rule → String
  | .statement => "parse_statement"
  | .primary => "parse_primary"

inductive Violation where
  | functionName
  | functionParen
  | parameterName
  | repeatedParameter (name : String)
  | nesting
  | other (text : String)
  deriving DecidableEq, Repr

def Violation.text : Violation → String
  | .functionName => "expected identifier in function definition"
  | .functionParen => "expected parenthesis in function definition"
  | .parameterName => "parameters must be identifiers in function definitions"
  | .repeatedParameter name => "duplicate parameter '" ++ name ++ "' in function definition"
  | .nesting => "nesting too deep"
  | .other text => text

/-- Why a text is not a program. Tokens that were found or wanted are given as they are named. -/
inductive Cause where
  | unexpectedCharacter (c : Char)
  | unterminatedString
  | unexpectedToken (rule : Rule) (found : String)
  | expectedToken (expected found : String)
  | grammar (violation : Violation)
  deriving DecidableEq, Repr

def Cause.text : Cause → String
  | .unexpectedCharacter c => "unexpected character: '" ++ c.toString ++ "'"
  | .unterminatedString => "unterminated string; expecting '\"'"
  | .unexpectedToken rule found => "unexpected token in " ++ rule.name ++ "(): " ++ found
  | .expectedToken expected found => "expected " ++ expected ++ " but got " ++ found
  | .grammar violation => violation.text

structure SyntaxError where
  line : Nat
  cause : Cause
  deriving DecidableEq, Repr

def SyntaxError.message (e : SyntaxError) : String :=
  "line " ++ toString e.line ++ ": " ++ e.cause.text

end Sapling
