import Sapling.Lexer
import Sapling.Parse.Expression

/-!
# Statements and programs

    program   := statement*
    block     := '{' statement* '}' | statement
    statement := 'while' '(' expression ')' block
               | 'if' '(' expression ')' block ['else' block]
               | 'return' expression ';'
               | 'def' name '(' [name (',' name)*] ')' block
               | expression ';'

A block takes one of the levels that may still nest. The first error ends a parse.
-/
namespace Sapling.Parse

variable {σ : Type} [TokenSource σ]

/-- The name of a parameter. A name that has been read before is refused when parsing strictly. -/
def parameter (strict : Bool) (before : List String) : Parse σ String := do
  match ← peek with
  | some (.ident name) =>
    if strict && before.contains name then violation (.repeatedParameter name)
    else
      advance
      pure name
  | _ => violation .parameterName

def parameters (rounds : Nat) (strict : Bool) : Parse σ (List String) := do
  if ← isNext (.mark .rightParen) then pure []
  else separated (parameter strict) rounds []

def functionName : Parse σ String := do
  match ← peek with
  | some (.ident name) =>
    advance
    pure name
  | _ => violation .functionName

def definition (rounds : Nat) (strict : Bool) (block : Parse σ Block) : Parse σ Stmt := do
  eat (.keyword .defWord)
  let name ← functionName
  if ← isNext (.mark .leftParen) then advance else violation .functionParen
  let params ← parameters rounds strict
  eat (.mark .rightParen)
  return .define name params (← block)

def whileLoop (expr : Parse σ Expr) (block : Parse σ Block) : Parse σ Stmt := do
  eat (.keyword .whileWord)
  let condition ← parenthesized expr
  return .loop condition (← block)

def elseBlock (block : Parse σ Block) : Parse σ (Option Block) := do
  if ← isNext (.keyword .elseWord) then
    advance
    return some (← block)
  else return none

def conditional (expr : Parse σ Expr) (block : Parse σ Block) : Parse σ Stmt := do
  eat (.keyword .ifWord)
  let condition ← parenthesized expr
  let yes ← block
  return .conditional condition yes (← elseBlock block)

def returnStatement (expr : Parse σ Expr) : Parse σ Stmt := do
  eat (.keyword .returnWord)
  let value ← expr
  eat (.mark .semicolon)
  return .ret value

def expressionStatement (expr : Parse σ Expr) : Parse σ Stmt := do
  let e ← expr
  eat (.mark .semicolon)
  return .expression e

def statement (rounds : Nat) (strict : Bool) (expr : Parse σ Expr) (block : Parse σ Block) :
    Parse σ Stmt := do
  match ← peek with
  | some (.keyword .whileWord) => whileLoop expr block
  | some (.keyword .ifWord) => conditional expr block
  | some (.keyword .returnWord) => returnStatement expr
  | some (.keyword .defWord) => definition rounds strict block
  | some _ => expressionStatement expr
  | none => unexpected .statement

/-- Statements in braces, or one statement in their place. -/
def blockOf (rounds : Nat) (stmt : Parse σ Stmt) : Parse σ Block := do
  if ← isNext (.mark .leftBrace) then
    advance
    let body ← repeatWhile (fun s => !s.atEnd && !s.isAt (.mark .rightBrace)) stmt rounds []
    eat (.mark .rightBrace)
    return body
  else return [← stmt]

def block (rounds : Nat) (strict : Bool) : (levels : Nat) → Parse σ Block
  | 0 => violation .nesting
  | levels + 1 =>
    blockOf rounds (statement rounds strict (expression rounds levels) (block rounds strict levels))

def program (options : ParseOptions) : Parse σ Block := do
  let rounds := TokenSource.bound (← get).source + 1
  let levels := options.maxDepth
  repeatWhile (fun s => !s.atEnd)
    (statement rounds options.strictParams (expression rounds levels)
      (block rounds options.strictParams levels)) rounds []

end Sapling.Parse

namespace Sapling

/-- The program that a source of tokens holds. -/
def parseFrom {σ : Type} [TokenSource σ] (options : ParseOptions) (source : σ) :
    Except SyntaxError Block :=
  match Lookahead.ofSource source with
  | .ok s =>
    match Parse.program options s with
    | .ok b _ => .ok b
    | .error e _ => .error e
  | .error e => .error e

def parse (options : ParseOptions) (source : String) : Except SyntaxError Block :=
  parseFrom options (Lexer.ofString source)

end Sapling
