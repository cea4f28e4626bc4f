import Sapling.Node.Basic
import Sapling.Proofs.LexerTokens

/-!
# Trees that can be printed

A test of nodes is asked of all nodes of a tree by `Expr.all` and `Stmt.all`. A tree is printable
if its names, strings and numbers can be written down and no assignment is the left operand of a
binary expression. `Block.depth` counts the levels of nesting that its printed text takes.
-/
namespace Sapling

mutual

/-- Whether a test holds of an expression and of every expression inside it. -/
def Expr.all (p : Node → Bool) : Expr → Bool
  | .literal value => p (.expr (.literal value))
  | .variable name => p (.expr (.variable name))
  | .binary op left right => p (.expr (.binary op left right)) && left.all p && right.all p
  | .assign target value => p (.expr (.assign target value)) && value.all p
  | .call callee args => p (.expr (.call callee args)) && Expr.allArgs p args

def Expr.allArgs (p : Node → Bool) : List Expr → Bool
  | [] => true
  | arg :: args => arg.all p && Expr.allArgs p args

end

mutual

def Stmt.all (p : Node → Bool) : Stmt → Bool
  | .expression e => p (.stmt (.expression e)) && e.all p
  | .conditional condition yes none =>
    p (.stmt (.conditional condition yes none)) && condition.all p && Stmt.allIn p yes
  | .conditional condition yes (some no) =>
    p (.stmt (.conditional condition yes (some no))) && condition.all p && Stmt.allIn p yes &&
      Stmt.allIn p no
  | .loop condition body =>
    p (.stmt (.loop condition body)) && condition.all p && Stmt.allIn p body
  | .ret value => p (.stmt (.ret value)) && value.all p
  | .define name params body => p (.stmt (.define name params body)) && Stmt.allIn p body

def Stmt.allIn (p : Node → Bool) : List Stmt → Bool
  | [] => true
  | stmt :: stmts => stmt.all p && Stmt.allIn p stmts

end

theorem Expr.allArgs_eq_all (p : Node → Bool) (args : List Expr) :
    Expr.allArgs p args = args.all fun arg => arg.all p := by
  induction args with
  | nil => rfl
  | cons arg args ih => rw [Expr.allArgs, ih, List.all_cons]

theorem Stmt.allIn_eq_all (p : Node → Bool) (stmts : List Stmt) :
    Stmt.allIn p stmts = stmts.all fun stmt => stmt.all p := by
  induction stmts with
  | nil => rfl
  | cons stmt stmts ih => rw [Stmt.allIn, ih, List.all_cons]

namespace Node

/-- The names and the string that a node itself holds can be written down. -/
def isSpelled : Node → Bool
  | .expr (.literal (.str text)) => !text.toList.contains '"'
  | .expr (.variable name) => Lexer.isName name
  | .expr (.assign target _) => Lexer.isName target
  | .expr (.call callee _) => Lexer.isName callee
  | .stmt (.define name params _) => Lexer.isName name && params.all Lexer.isName
  | _ => true

/-- The number that a node itself holds can be written down. -/
def isUnsigned : Node → Bool
  | .expr (.literal (.number value)) => value.isUnsigned
  | _ => true

/-- The number that a node itself holds is written with its own value, be it with a sign. -/
def isFaithful : Node → Bool
  | .expr (.literal (.number .nan)) => false
  | .expr (.literal (.number (.infinite negative))) => !negative
  | _ => true

/-- All that a node itself holds can be written down. -/
def isWritable (n : Node) : Bool :=
  n.isSpelled && n.isUnsigned

/-- No assignment is the left operand of the node. -/
def isPlain : Node → Bool
  | .expr (.binary _ left _) => !left.isAssign
  | _ => true

/-- The parameters of a definition are all different, where that is asked for. -/
def isStrict (strict : Bool) : Node → Bool
  | .stmt (.define _ params _) => !strict || decide params.Nodup
  | _ => true

end Node

/-- Nowhere is an assignment the left operand of a binary expression. -/
def Block.noAssignOnLeft (program : Block) : Bool :=
  Stmt.allIn Node.isPlain program

def Block.isPrintable (program : Block) : Bool :=
  Stmt.allIn Node.isWritable program && program.noAssignOnLeft

section
variable (p q : Node → Bool)

mutual

theorem Expr.all_and (e : Expr) : e.all (fun n => p n && q n) = (e.all p && e.all q) := by
  cases e with
  | literal | «variable» => rfl
  | binary op left right =>
    simp only [Expr.all, Expr.all_and left, Expr.all_and right]
    ac_rfl
  | assign target value =>
    simp only [Expr.all, Expr.all_and value]
    ac_rfl
  | call callee args =>
    simp only [Expr.all, Expr.allArgs_and args]
    ac_rfl

theorem Expr.allArgs_and (args : List Expr) :
    Expr.allArgs (fun n => p n && q n) args = (Expr.allArgs p args && Expr.allArgs q args) := by
  cases args with
  | nil => rfl
  | cons arg args =>
    simp only [Expr.allArgs, Expr.all_and arg, Expr.allArgs_and args]
    ac_rfl

end

mutual

theorem Stmt.all_and (stmt : Stmt) :
    stmt.all (fun n => p n && q n) = (stmt.all p && stmt.all q) := by
  cases stmt with
  | expression | ret =>
    simp only [Stmt.all, Expr.all_and]
    ac_rfl
  | loop condition body =>
    simp only [Stmt.all, Expr.all_and, Stmt.allIn_and body]
    ac_rfl
  | conditional condition yes no =>
    cases no with
    | none =>
      simp only [Stmt.all, Expr.all_and, Stmt.allIn_and yes]
      ac_rfl
    | some no =>
      simp only [Stmt.all, Expr.all_and, Stmt.allIn_and yes, Stmt.allIn_and no]
      ac_rfl
  | define name params body =>
    simp only [Stmt.all, Stmt.allIn_and body]
    ac_rfl

theorem Stmt.allIn_and (stmts : List Stmt) :
    Stmt.allIn (fun n => p n && q n) stmts = (Stmt.allIn p stmts && Stmt.allIn q stmts) := by
  cases stmts with
  | nil => rfl
  | cons stmt stmts =>
    simp only [Stmt.allIn, Stmt.all_and stmt, Stmt.allIn_and stmts]
    ac_rfl

end

end

theorem Stmt.allIn_mono {p q : Node → Bool} (hpq : ∀ n, p n = true → q n = true)
    {stmts : List Stmt} (h : Stmt.allIn p stmts = true) : Stmt.allIn q stmts = true := by
  have hand : p = fun n => p n && q n := by
    funext n
    cases hn : p n with
    | false => rfl
    | true => simp [hpq n hn]
  rw [hand, Stmt.allIn_and, Bool.and_eq_true] at h
  exact h.2

mutual

theorem Expr.all_of_forall {p : Node → Bool} (hp : ∀ e, p (.expr e) = true) (e : Expr) :
    e.all p = true := by
  cases e with
  | literal | «variable» => exact hp _
  | binary op left right =>
    simp [Expr.all, hp, Expr.all_of_forall hp left, Expr.all_of_forall hp right]
  | assign target value => simp [Expr.all, hp, Expr.all_of_forall hp value]
  | call callee args => simp [Expr.all, hp, Expr.allArgs_of_forall hp args]

theorem Expr.allArgs_of_forall {p : Node → Bool} (hp : ∀ e, p (.expr e) = true)
    (args : List Expr) : Expr.allArgs p args = true := by
  cases args with
  | nil => rfl
  | cons arg args =>
    simp [Expr.allArgs, Expr.all_of_forall hp arg, Expr.allArgs_of_forall hp args]

end

/-- Names, strings and numbers can be written down. -/
theorem Block.isWritable_iff {program : Block} :
    Stmt.allIn Node.isWritable program = true ↔
      Stmt.allIn Node.isSpelled program = true ∧ Stmt.allIn Node.isUnsigned program = true := by
  have hand := Stmt.allIn_and Node.isSpelled Node.isUnsigned program
  rw [← Bool.and_eq_true, ← hand]
  rfl

theorem Node.isWritable_iff {n : Node} :
    n.isWritable = true ↔ n.isSpelled = true ∧ n.isUnsigned = true := by
  simp [isWritable]

namespace Expr

mutual

/-- The levels that the printed text of an expression takes, alone or as an operand. -/
def depth : Expr → (alone : Bool) → Nat
  | .literal _, alone => if alone then 1 else 0
  | .variable _, alone => if alone then 1 else 0
  | .binary _ left right, _ => 1 + max 1 (max (left.depth false) (right.depth false))
  | .assign _ value, _ => 1 + value.depth true
  | .call _ args, alone => if alone then 1 + argsDepth args else argsDepth args

def argsDepth : List Expr → Nat
  | [] => 0
  | arg :: args => max (arg.depth true) (argsDepth args)

end

end Expr

namespace Stmt

mutual

def depth : Stmt → Nat
  | .expression e => e.depth true
  | .conditional condition yes none => max (condition.depth true) (1 + depthIn yes)
  | .conditional condition yes (some no) =>
    max (condition.depth true) (max (1 + depthIn yes) (1 + depthIn no))
  | .loop condition body => max (condition.depth true) (1 + depthIn body)
  | .ret value => value.depth true
  | .define _ _ body => 1 + depthIn body

def depthIn : List Stmt → Nat
  | [] => 0
  | stmt :: stmts => max stmt.depth (depthIn stmts)

end

end Stmt

/-- The levels that the printed text of a program takes. -/
def Block.depth (program : Block) : Nat :=
  Stmt.depthIn program

end Sapling
