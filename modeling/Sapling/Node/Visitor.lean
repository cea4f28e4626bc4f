import Sapling.Node.Walk

/-!
# Visitors

A visitor has a handler for every kind of node. A handler that is not given does nothing. A node
accepts a visitor under a strategy: its own handler runs, and its children accept the visitor one
after another, in the order of the source, if and when the strategy says so. A handler is told at
which path its node is.
-/
namespace Sapling

structure Visitor (ω : Type) where
  onBlock : List Nat → Block → ω → ω := fun _ _ seen => seen
  onLiteral : List Nat → Literal → ω → ω := fun _ _ seen => seen
  onVariable : List Nat → (name : String) → ω → ω := fun _ _ seen => seen
  onBinary : List Nat → Operator → (left right : Expr) → ω → ω := fun _ _ _ _ seen => seen
  onAssign : List Nat → (target : String) → Expr → ω → ω := fun _ _ _ seen => seen
  onCall : List Nat → (callee : String) → List Expr → ω → ω := fun _ _ _ seen => seen
  onExpression : List Nat → Expr → ω → ω := fun _ _ seen => seen
  onConditional : List Nat → Expr → (yes : Block) → (no : Option Block) → ω → ω :=
    fun _ _ _ _ seen => seen
  onLoop : List Nat → Expr → (body : Block) → ω → ω := fun _ _ _ seen => seen
  onReturn : List Nat → Expr → ω → ω := fun _ _ seen => seen
  onDefine : List Nat → (name : String) → (params : List String) → (body : Block) → ω → ω :=
    fun _ _ _ _ seen => seen

variable {ω : Type}

namespace Visitor

/-- A short mark for every node, the latest first. -/
def marks : Visitor (List String) where
  onBlock _ stmts seen := ("block/" ++ toString stmts.length) :: seen
  onLiteral _ value seen := ("lit " ++ value.text) :: seen
  onVariable _ name seen := ("var " ++ name) :: seen
  onBinary _ op _ _ seen := ("bin " ++ op.symbol) :: seen
  onAssign _ target _ seen := ("assign " ++ target) :: seen
  onCall _ callee _ seen := ("call " ++ callee) :: seen
  onExpression _ _ seen := "expr;" :: seen
  onConditional _ _ _ _ seen := "if" :: seen
  onLoop _ _ _ seen := "while" :: seen
  onReturn _ _ seen := "return" :: seen
  onDefine _ name _ _ seen := ("def " ++ name) :: seen

/-- Marks for variables, loops, returns and definitions only. -/
def landmarks : Visitor (List String) where
  onVariable _ name seen := name :: seen
  onLoop _ _ _ seen := "while" :: seen
  onReturn _ _ seen := "return" :: seen
  onDefine _ name _ _ seen := ("def " ++ name) :: seen

end Visitor

namespace Strategy

/-- Run a node's handler and, if the node is entered, what its children do. -/
def around (strategy : Strategy) (node : Node) (handler below : ω → ω) (seen : ω) : ω :=
  if strategy.enters node then
    match strategy.order with
    | .before => below (handler seen)
    | .after => handler (below seen)
  else handler seen

end Strategy

namespace Expr

mutual

def accept (strategy : Strategy) (v : Visitor ω) (path : List Nat) : Expr → ω → ω
  | .literal value => strategy.around (.expr (.literal value)) (v.onLiteral path value) id
  | .variable name => strategy.around (.expr (.variable name)) (v.onVariable path name) id
  | .binary op left right =>
    strategy.around (.expr (.binary op left right)) (v.onBinary path op left right) fun seen =>
      accept strategy v (1 :: path) right (accept strategy v (0 :: path) left seen)
  | .assign target value =>
    strategy.around (.expr (.assign target value)) (v.onAssign path target value)
      (accept strategy v (0 :: path) value)
  | .call callee args =>
    strategy.around (.expr (.call callee args)) (v.onCall path callee args)
      (acceptAll strategy v path 0 args)

/-- Siblings accept a visitor, the first of which is the child at the given position. -/
def acceptAll (strategy : Strategy) (v : Visitor ω) (path : List Nat) : Nat → List Expr → ω → ω
  | _, [], seen => seen
  | i, e :: es, seen =>
    acceptAll strategy v path (i + 1) es (accept strategy v (i :: path) e seen)

end

end Expr

namespace Stmt

mutual

def accept (strategy : Strategy) (v : Visitor ω) (path : List Nat) : Stmt → ω → ω
  | .expression e =>
    strategy.around (.stmt (.expression e)) (v.onExpression path e)
      (e.accept strategy v (0 :: path))
  | .conditional condition yes none =>
    strategy.around (.stmt (.conditional condition yes none))
      (v.onConditional path condition yes none) fun seen =>
        strategy.around (.block yes) (v.onBlock (1 :: path) yes)
          (acceptAll strategy v (1 :: path) 0 yes)
          (condition.accept strategy v (0 :: path) seen)
  | .conditional condition yes (some no) =>
    strategy.around (.stmt (.conditional condition yes (some no)))
      (v.onConditional path condition yes (some no)) fun seen =>
        strategy.around (.block no) (v.onBlock (2 :: path) no)
          (acceptAll strategy v (2 :: path) 0 no)
          (strategy.around (.block yes) (v.onBlock (1 :: path) yes)
            (acceptAll strategy v (1 :: path) 0 yes)
            (condition.accept strategy v (0 :: path) seen))
  | .loop condition body =>
    strategy.around (.stmt (.loop condition body)) (v.onLoop path condition body) fun seen =>
      strategy.around (.block body) (v.onBlock (1 :: path) body)
        (acceptAll strategy v (1 :: path) 0 body)
        (condition.accept strategy v (0 :: path) seen)
  | .ret value =>
    strategy.around (.stmt (.ret value)) (v.onReturn path value)
      (value.accept strategy v (0 :: path))
  | .define name params body =>
    strategy.around (.stmt (.define name params body)) (v.onDefine path name params body)
      (strategy.around (.block body) (v.onBlock (0 :: path) body)
        (acceptAll strategy v (0 :: path) 0 body))

def acceptAll (strategy : Strategy) (v : Visitor ω) (path : List Nat) : Nat → List Stmt → ω → ω
  | _, [], seen => seen
  | i, s :: ss, seen =>
    acceptAll strategy v path (i + 1) ss (accept strategy v (i :: path) s seen)

end

end Stmt

namespace Node

def accept (strategy : Strategy) (v : Visitor ω) (path : List Nat) : Node → ω → ω
  | .block stmts =>
    strategy.around (.block stmts) (v.onBlock path stmts) (Stmt.acceptAll strategy v path 0 stmts)
  | .stmt s => s.accept strategy v path
  | .expr e => e.accept strategy v path

def acceptAll (strategy : Strategy) (v : Visitor ω) (path : List Nat) : Nat → List Node → ω → ω
  | _, [], seen => seen
  | i, node :: nodes, seen =>
    acceptAll strategy v path (i + 1) nodes (accept strategy v (i :: path) node seen)

/-- The children of a node accept a visitor, whatever the strategy does with the node. -/
def acceptChildren (strategy : Strategy) (v : Visitor ω) (path : List Nat) (node : Node) : ω → ω :=
  acceptAll strategy v path 0 node.children

end Node
end Sapling
