import Sapling.Node.Basic

/-!
# Walks

A walk lists the nodes of a tree that a strategy visits, each with its path from the node that
the walk began at. A strategy says which nodes are entered, and whether a node comes before or
after the nodes below it; children are always taken in the order of the source.
-/
namespace Sapling

inductive Order where
  | before
  | after
  deriving DecidableEq, Repr

structure Strategy where
  order : Order
  enters : Node → Bool

/-- A node on a walk. Its path is the list of child positions that leads to it, the last first. -/
structure Visit where
  path : List Nat
  node : Node
  deriving Repr

namespace Strategy

def depthFirst : Strategy := ⟨.before, fun _ => true⟩

def postOrder : Strategy := ⟨.after, fun _ => true⟩

/-- Only the node at which the walk begins. -/
def shallow : Strategy := ⟨.before, fun _ => false⟩

def skipFunctionBodies : Strategy where
  order := .before
  enters
    | .stmt (.define ..) => false
    | _ => true

def arrange (strategy : Strategy) (visit : Visit) (below : List Visit) : List Visit :=
  if strategy.enters visit.node then
    match strategy.order with
    | .before => visit :: below
    | .after => below ++ [visit]
  else [visit]

end Strategy

namespace Expr

mutual

def visits (strategy : Strategy) (path : List Nat) : Expr → List Visit
  | .literal value => strategy.arrange ⟨path, .expr (.literal value)⟩ []
  | .variable name => strategy.arrange ⟨path, .expr (.variable name)⟩ []
  | .binary op left right =>
    strategy.arrange ⟨path, .expr (.binary op left right)⟩
      (visits strategy (0 :: path) left ++ visits strategy (1 :: path) right)
  | .assign target value =>
    strategy.arrange ⟨path, .expr (.assign target value)⟩ (visits strategy (0 :: path) value)
  | .call callee args =>
    strategy.arrange ⟨path, .expr (.call callee args)⟩ (visitsAll strategy path 0 args)

/-- The visits of siblings, the first of which is the child at the given position. -/
def visitsAll (strategy : Strategy) (path : List Nat) : Nat → List Expr → List Visit
  | _, [] => []
  | i, e :: es => visits strategy (i :: path) e ++ visitsAll strategy path (i + 1) es

end

end Expr

namespace Stmt

mutual

def visits (strategy : Strategy) (path : List Nat) : Stmt → List Visit
  | .expression e =>
    strategy.arrange ⟨path, .stmt (.expression e)⟩ (e.visits strategy (0 :: path))
  | .conditional condition yes none =>
    strategy.arrange ⟨path, .stmt (.conditional condition yes none)⟩
      (condition.visits strategy (0 :: path) ++
        strategy.arrange ⟨1 :: path, .block yes⟩ (visitsAll strategy (1 :: path) 0 yes))
  | .conditional condition yes (some no) =>
    strategy.arrange ⟨path, .stmt (.conditional condition yes (some no))⟩
      (condition.visits strategy (0 :: path) ++
        strategy.arrange ⟨1 :: path, .block yes⟩ (visitsAll strategy (1 :: path) 0 yes) ++
        strategy.arrange ⟨2 :: path, .block no⟩ (visitsAll strategy (2 :: path) 0 no))
  | .loop condition body =>
    strategy.arrange ⟨path, .stmt (.loop condition body)⟩
      (condition.visits strategy (0 :: path) ++
        strategy.arrange ⟨1 :: path, .block body⟩ (visitsAll strategy (1 :: path) 0 body))
  | .ret value => strategy.arrange ⟨path, .stmt (.ret value)⟩ (value.visits strategy (0 :: path))
  | .define name params body =>
    strategy.arrange ⟨path, .stmt (.define name params body)⟩
      (strategy.arrange ⟨0 :: path, .block body⟩ (visitsAll strategy (0 :: path) 0 body))

def visitsAll (strategy : Strategy) (path : List Nat) : Nat → List Stmt → List Visit
  | _, [] => []
  | i, s :: ss => visits strategy (i :: path) s ++ visitsAll strategy path (i + 1) ss

end

end Stmt

namespace Node

def visits (strategy : Strategy) (path : List Nat) : Node → List Visit
  | .block stmts => strategy.arrange ⟨path, .block stmts⟩ (Stmt.visitsAll strategy path 0 stmts)
  | .stmt s => s.visits strategy path
  | .expr e => e.visits strategy path

/-- The nodes that a strategy visits from this node on. -/
def walk (strategy : Strategy) (node : Node) : List Node :=
  (node.visits strategy []).map (·.node)

end Node
end Sapling
