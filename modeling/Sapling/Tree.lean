import Sapling.Number.Decimal
import Sapling.Operator

/-!
# Program trees

Expressions, statements and blocks. A program is a block.
-/
namespace Sapling

inductive Literal where
  | number (value : Number)
  | str (text : String)
  deriving DecidableEq, Repr

namespace Literal

/-- The source text of a literal. An infinite number is written with more digits than any finite
number has, so that it reads back as infinity. -/
def text : Literal → String
  | .number (.infinite _) => String.ofList ('1' :: List.replicate 309 '0')
  | .number value => value.text
  | .str text => "\"" ++ text ++ "\""

def equals : Literal → Literal → Bool
  | .number a, .number b => a.equals b
  | .str a, .str b => a == b
  | _, _ => false

end Literal

inductive Expr where
  | literal (value : Literal)
  | variable (name : String)
  | binary (op : Operator) (left right : Expr)
  | assign (target : String) (value : Expr)
  | call (callee : String) (args : List Expr)
  deriving Repr

/-- In a conditional a missing `else` differs from an empty one. -/
inductive Stmt where
  | expression (expr : Expr)
  | conditional (condition : Expr) (yes : List Stmt) (no : Option (List Stmt))
  | loop (condition : Expr) (body : List Stmt)
  | ret (value : Expr)
  | define (name : String) (params : List String) (body : List Stmt)
  deriving Repr

abbrev Block := List Stmt

namespace Expr

def isAssign : Expr → Bool
  | .assign .. => true
  | _ => false

mutual

/-- Expressions are equal by value: the same shape and names, and equal literals. -/
def equals : Expr → Expr → Bool
  | .literal a, .literal b => a.equals b
  | .variable a, .variable b => a == b
  | .binary op a b, .binary op' a' b' => op == op' && a.equals a' && b.equals b'
  | .assign x a, .assign y b => x == y && a.equals b
  | .call f as, .call g bs => f == g && equalsAll as bs
  | _, _ => false

def equalsAll : List Expr → List Expr → Bool
  | [], [] => true
  | a :: as, b :: bs => a.equals b && equalsAll as bs
  | _, _ => false

end

end Expr

namespace Stmt

def expr? : Stmt → Option Expr
  | .expression e => some e
  | .conditional c _ _ => some c
  | .loop c _ => some c
  | .ret e => some e
  | .define .. => none

mutual

def equals : Stmt → Stmt → Bool
  | .expression a, .expression b => a.equals b
  | .conditional c xs none, .conditional d ys none => c.equals d && equalsAll xs ys
  | .conditional c xs (some zs), .conditional d ys (some ws) =>
    c.equals d && equalsAll xs ys && equalsAll zs ws
  | .loop c xs, .loop d ys => c.equals d && equalsAll xs ys
  | .ret a, .ret b => a.equals b
  | .define f ps xs, .define g qs ys => f == g && ps == qs && equalsAll xs ys
  | _, _ => false

def equalsAll : List Stmt → List Stmt → Bool
  | [], [] => true
  | a :: as, b :: bs => a.equals b && equalsAll as bs
  | _, _ => false

end

end Stmt

def Block.equals (a b : Block) : Bool :=
  Stmt.equalsAll a b

end Sapling
