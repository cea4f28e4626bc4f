import Sapling.Parse.Basic
import Sapling.Tree

/-!
# Expressions

    expression := assignment | primary (operator primary)*
    primary    := name | assignment | name '(' [expression (',' expression)*] ')'
                | number | string | '(' expression ')'
    assignment := name '=' expression

Operators are grouped by precedence climbing, to the left among equals. An assignment ends the
expression that it begins: it never becomes a left operand. An expression takes one of the levels
that may still nest, and each operator of a chain must fit into the levels left inside.
-/
namespace Sapling.Parse

variable {σ : Type} [TokenSource σ]

def arguments (rounds : Nat) (expr : Parse σ Expr) : Parse σ (List Expr) := do
  if ← isNext (.mark .rightParen) then pure []
  else separated (fun _ => expr) rounds []

def parenthesized (expr : Parse σ Expr) : Parse σ Expr := do
  eat (.mark .leftParen)
  let e ← expr
  eat (.mark .rightParen)
  pure e

/-- What a name begins is decided by the token behind it. -/
def afterName (rounds : Nat) (expr : Parse σ Expr) (name : String) : Parse σ Expr := do
  match ← peek with
  | some (.mark .assign) =>
    advance
    return .assign name (← expr)
  | some (.mark .leftParen) =>
    advance
    let args ← arguments rounds expr
    eat (.mark .rightParen)
    return .call name args
  | _ => return .variable name

def primary (rounds : Nat) (expr : Parse σ Expr) : Parse σ Expr := do
  match ← peek with
  | some (.ident name) =>
    advance
    afterName rounds expr name
  | some (.number value) =>
    advance
    return .literal (.number value)
  | some (.str text) =>
    advance
    return .literal (.str text)
  | some (.mark .leftParen) => parenthesized expr
  | _ => unexpected .primary

/-- The next token if it is an operator that binds at least as tightly as `least`. -/
def nextOperator (least : Nat) : Parse σ (Option Operator) := do
  return ((← peek).bind Token.operator?).filter (least ≤ ·.precedence)

/-- Let operators that bind at least as tightly as `least` take the expression read so far as
their left operand. Each climb ends before an operator that binds less tightly than the one it
began with, so that there are at most as many climbs as precedences. -/
def absorb (climb : Nat → Expr → Parse σ Expr) (least : Nat) : Nat → Expr → Parse σ Expr
  | 0, right => pure right
  | tiers + 1, right => do
    match ← nextOperator least with
    | none => pure right
    | some op => absorb climb least tiers (← climb op.precedence right)

/-- Extend `left` by operators that bind at least as tightly as `least`, with room for a given
number of them. -/
def chain (operand : Parse σ Expr) (climb : Nat → Expr → Parse σ Expr) (least : Nat) :
    (room : Nat) → (left : Expr) → Parse σ Expr
  | 0, left => do
    match ← nextOperator least with
    | none => pure left
    | some _ => violation .nesting
  | room + 1, left => do
    match ← nextOperator least with
    | none => pure left
    | some op =>
      advance
      let right ← absorb climb (op.precedence + 1) 5 (← operand)
      chain operand climb least room (.binary op left right)

/-- A chain whose right operands absorb tighter operators by climbs of their own. Those bind
strictly tighter, so that there are as many tiers of climbs as precedences. -/
def climb (operand : Parse σ Expr) (room : Nat) : (tiers least : Nat) → Expr → Parse σ Expr
  | 0, _, left => pure left
  | tiers + 1, least, left => chain operand (climb operand room tiers) least room left

def expression (rounds : Nat) : (levels : Nat) → Parse σ Expr
  | 0 => violation .nesting
  | levels + 1 => do
    let operand := primary rounds (expression rounds levels)
    let first ← operand
    if first.isAssign then pure first
    else climb operand levels 5 0 first

end Sapling.Parse
