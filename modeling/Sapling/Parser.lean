import Sapling.Parse.Basic
import Sapling.Tree

/-!
# Parsers

A parser reads tokens from any stream. It holds the stream, whether the stream has ended, and in how
many blocks and expressions it is. Its calls follow the grammar and the loops of its lists and
operators without a bound: a call that does not end has no outcome. Calls that recurse are functions
of the parser that makes them, and stand in other calls as `(· |>.expression)`. A block or an
expression counts as one level more while it is read, whether it ends well or not.
-/
namespace Sapling

/-- What a parser asks of a stream. -/
class TokenStream (σ : Type) where
  /-- Move to the next token, or answer `false` at the end. -/
  fetch : EStateM SyntaxError σ Bool
  current : σ → Option Token
  line : σ → Nat

instance {σ : Type} [TokenSource σ] : TokenStream σ where
  fetch := TokenSource.fetch
  current := TokenSource.current
  line := TokenSource.line

structure Parser (σ : Type) where
  stream : σ
  atEnd : Bool
  /-- In how many blocks and expressions the parser is. -/
  depth : Nat
  options : ParseOptions

namespace Parser

/-- An answer or an error, and the parser as it is left. -/
abbrev Outcome (σ α : Type) : Type := Except SyntaxError α × Parser σ

abbrev Call (σ : Type) : Type → Type := ExceptT SyntaxError (StateT (Parser σ) Option)

variable {σ α : Type}

def deeper (p : Parser σ) : Parser σ :=
  { p with depth := p.depth + 1 }

def shallower (p : Parser σ) : Parser σ :=
  { p with depth := p.depth - 1 }

def isFull (p : Parser σ) : Bool :=
  p.options.maxDepth ≤ p.depth

/-- Whether a chain of so many operators does not fit into the levels that are left. -/
def isExceededBy (operators : Nat) (p : Parser σ) : Bool :=
  p.options.maxDepth < p.depth + operators

variable [TokenStream σ]

def token? (p : Parser σ) : Option Token :=
  if p.atEnd then none else TokenStream.current p.stream

def isAt (kind : Token) (p : Parser σ) : Bool :=
  p.token?.any (·.sameKind kind)

def found (p : Parser σ) : String :=
  (p.token?.map Token.text).getD "end of input"

def peek : Call σ (Option Token) := do
  return (← get).token?

def isNext (kind : Token) : Call σ Bool := do
  return (← get).isAt kind

def fail (cause : Parser σ → Cause) : Call σ α := do
  let p ← get
  throw ⟨TokenStream.line p.stream, cause p⟩

def violation (v : Violation) : Call σ α :=
  fail fun _ => .grammar v

def unexpected (rule : Rule) : Call σ α :=
  fail fun p => .unexpectedToken rule p.found

/-- A fetch that fails leaves the parser as it is, but for its stream. -/
def advance : Call σ Unit := fun p =>
  match TokenStream.fetch p.stream with
  | .ok more stream => some (.ok (), { p with stream, atEnd := !more })
  | .error e stream => some (.error e, { p with stream })

def eat (kind : Token) : Call σ Unit := do
  if ← isNext kind then advance
  else fail fun p => .expectedToken kind.text p.found

def nextOperator (least : Nat) : Call σ (Option Operator) := do
  return ((← peek).bind Token.operator?).filter (least ≤ ·.precedence)

mutual

def expression (p : Parser σ) : Option (Outcome σ Expr) :=
  if p.isFull then (violation .nesting : Call σ Expr).run.run p
  else do
    let (result, p) ← p.deeper |>.expressionBody
    return (result, p.shallower)
partial_fixpoint

/-- An assignment ends the expression that it begins. -/
def expressionBody (p : Parser σ) : Option (Outcome σ Expr) :=
  (do
    let first ← (· |>.primary)
    if first.isAssign then return first
    else (· |>.binary 0 0 first) : Call σ Expr).run.run p
partial_fixpoint

/-- Extend `left`, which a number of operators have extended so far, by operators that bind at least
as tightly as `least`. -/
def binary (least operators : Nat) (left : Expr) (p : Parser σ) : Option (Outcome σ Expr) :=
  (do
    match ← nextOperator least with
    | none => return left
    | some op =>
      if (← get).isExceededBy (operators + 1) then violation .nesting
      else
        advance
        let operand ← (· |>.primary)
        let right ← (· |>.absorb op operand)
        (· |>.binary least (operators + 1) (.binary op left right)) : Call σ Expr).run.run p
partial_fixpoint

/-- Let operators that bind more tightly than `op` take its right operand. -/
def absorb (op : Operator) (right : Expr) (p : Parser σ) : Option (Outcome σ Expr) :=
  (do
    match ← nextOperator (op.precedence + 1) with
    | none => return right
    | some next =>
      let right ← (· |>.binary next.precedence 0 right)
      (· |>.absorb op right) : Call σ Expr).run.run p
partial_fixpoint

def primary (p : Parser σ) : Option (Outcome σ Expr) :=
  (do
    match ← peek with
    | some (.ident name) =>
      advance
      (· |>.afterName name)
    | some (.number value) =>
      advance
      return .literal (.number value)
    | some (.str text) =>
      advance
      return .literal (.str text)
    | some (.mark .leftParen) => (· |>.parenthesized)
    | _ => unexpected .primary : Call σ Expr).run.run p
partial_fixpoint

def afterName (name : String) (p : Parser σ) : Option (Outcome σ Expr) :=
  (do
    match ← peek with
    | some (.mark .assign) =>
      advance
      return .assign name (← (· |>.expression))
    | some (.mark .leftParen) =>
      advance
      let args ← (· |>.arguments)
      eat (.mark .rightParen)
      return .call name args
    | _ => return .variable name : Call σ Expr).run.run p
partial_fixpoint

def arguments (p : Parser σ) : Option (Outcome σ (List Expr)) :=
  (do
    if ← isNext (.mark .rightParen) then return []
    else (· |>.argumentsFrom []) : Call σ (List Expr)).run.run p
partial_fixpoint

def argumentsFrom (read : List Expr) (p : Parser σ) : Option (Outcome σ (List Expr)) :=
  (do
    let read := (← (· |>.expression)) :: read
    if ← isNext (.mark .comma) then
      advance
      (· |>.argumentsFrom read)
    else return read.reverse : Call σ (List Expr)).run.run p
partial_fixpoint

def parenthesized (p : Parser σ) : Option (Outcome σ Expr) :=
  (do
    eat (.mark .leftParen)
    let e ← (· |>.expression)
    eat (.mark .rightParen)
    return e : Call σ Expr).run.run p
partial_fixpoint

end

def parameter (before : List String) : Call σ String := do
  match ← peek with
  | some (.ident name) =>
    if (← get).options.strictParams && before.contains name then
      violation (.repeatedParameter name)
    else
      advance
      return name
  | _ => violation .parameterName

def parametersFrom (read : List String) (p : Parser σ) : Option (Outcome σ (List String)) :=
  (do
    let read := (← parameter read) :: read
    if ← isNext (.mark .comma) then
      advance
      (· |>.parametersFrom read)
    else return read.reverse : Call σ (List String)).run.run p
partial_fixpoint

def parameters : Call σ (List String) := do
  if ← isNext (.mark .rightParen) then return []
  else parametersFrom []

def functionName : Call σ String := do
  match ← peek with
  | some (.ident name) =>
    advance
    return name
  | _ => violation .functionName

mutual

def statement (p : Parser σ) : Option (Outcome σ Stmt) :=
  (do
    match ← peek with
    | some (.keyword .whileWord) => (· |>.whileLoop)
    | some (.keyword .ifWord) => (· |>.conditional)
    | some (.keyword .returnWord) =>
      eat (.keyword .returnWord)
      let value ← expression
      eat (.mark .semicolon)
      return .ret value
    | some (.keyword .defWord) => (· |>.definition)
    | some _ =>
      let e ← expression
      eat (.mark .semicolon)
      return .expression e
    | none => unexpected .statement : Call σ Stmt).run.run p
partial_fixpoint

def whileLoop (p : Parser σ) : Option (Outcome σ Stmt) :=
  (do
    eat (.keyword .whileWord)
    let condition ← parenthesized
    return .loop condition (← (· |>.block)) : Call σ Stmt).run.run p
partial_fixpoint

def conditional (p : Parser σ) : Option (Outcome σ Stmt) :=
  (do
    eat (.keyword .ifWord)
    let condition ← parenthesized
    let yes ← (· |>.block)
    return .conditional condition yes (← (· |>.elseBlock)) : Call σ Stmt).run.run p
partial_fixpoint

def elseBlock (p : Parser σ) : Option (Outcome σ (Option Block)) :=
  (do
    if ← isNext (.keyword .elseWord) then
      advance
      return some (← (· |>.block))
    else return none : Call σ (Option Block)).run.run p
partial_fixpoint

def definition (p : Parser σ) : Option (Outcome σ Stmt) :=
  (do
    eat (.keyword .defWord)
    let name ← functionName
    if ← isNext (.mark .leftParen) then advance else violation .functionParen
    let params ← parameters
    eat (.mark .rightParen)
    return .define name params (← (· |>.block)) : Call σ Stmt).run.run p
partial_fixpoint

def block (p : Parser σ) : Option (Outcome σ Block) :=
  if p.isFull then (violation .nesting : Call σ Block).run.run p
  else do
    let (result, p) ← p.deeper |>.blockBody
    return (result, p.shallower)
partial_fixpoint

def blockBody (p : Parser σ) : Option (Outcome σ Block) :=
  (do
    if ← isNext (.mark .leftBrace) then
      eat (.mark .leftBrace)
      let body ← (· |>.braced [])
      eat (.mark .rightBrace)
      return body
    else return [← (· |>.statement)] : Call σ Block).run.run p
partial_fixpoint

/-- Statements up to the closing brace, behind those that have been read. -/
def braced (read : Block) (p : Parser σ) : Option (Outcome σ Block) :=
  (do
    let p ← get
    if !p.atEnd && !p.isAt (.mark .rightBrace) then
      let next ← (· |>.statement)
      (· |>.braced (next :: read))
    else return read.reverse : Call σ Block).run.run p
partial_fixpoint

end

def programFrom (read : Block) (p : Parser σ) : Option (Outcome σ Block) :=
  (do
    if !(← get).atEnd then
      let next ← statement
      (· |>.programFrom (next :: read))
    else return read.reverse : Call σ Block).run.run p
partial_fixpoint

def program (p : Parser σ) : Option (Outcome σ Block) :=
  programFrom [] p

def start (options : ParseOptions) (stream : σ) (atEnd : Bool) : Parser σ :=
  ⟨stream, atEnd, 0, options⟩

/-- Fetch the first token. A stream that fails there is given back. -/
def create (options : ParseOptions) (stream : σ) : Except (SyntaxError × σ) (Parser σ) :=
  match TokenStream.fetch stream with
  | .ok more stream => .ok (start options stream !more)
  | .error e stream => .error (e, stream)

/-- The program that a stream holds, and the stream as it is left. -/
def run (options : ParseOptions) (stream : σ) : Option (Except SyntaxError Block × σ) :=
  match create options stream with
  | .ok p => do
    let (result, p) ← p.program
    return (result, p.stream)
  | .error (e, stream) => some (.error e, stream)

/-- Programs read one after another by one parser, each where the last one stopped. -/
def programs : (times : Nat) → Parser σ → Option (List (Except SyntaxError Block) × Parser σ)
  | 0, p => some ([], p)
  | times + 1, p => do
    let (result, p) ← p.program
    let (results, p) ← programs times p
    return (result :: results, p)

end Parser
end Sapling
