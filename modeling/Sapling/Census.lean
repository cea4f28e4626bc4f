import Sapling.Node.Visitor

/-!
# Censuses

A census counts the nodes of a program by kind and the binary expressions by operator, and lists
the functions in the order of their definitions. A visitor takes it on a full walk. Counts are kept
in tallies, which have no order of their own: the report sorts them.
-/
namespace Sapling

abbrev Tally (α : Type) := List (α × Nat)

namespace Tally

variable {α : Type} [BEq α]

def add (key : α) : Tally α → Tally α
  | [] => [(key, 1)]
  | (k, n) :: rest => if k == key then (k, n + 1) :: rest else (k, n) :: add key rest

def count (key : α) (tally : Tally α) : Nat :=
  (tally.lookup key).getD 0

def total (tally : Tally α) : Nat :=
  tally.foldl (fun n entry => n + entry.2) 0

def sorted (name : α → String) (tally : Tally α) : Tally α :=
  tally.mergeSort fun a b => name a.1 ≤ name b.1

def lines (name : α → String) (tally : Tally α) : List String :=
  tally.map fun (key, n) => "  " ++ name key ++ ": " ++ toString n

end Tally

structure Census where
  kinds : Tally String := []
  operators : Tally Operator := []
  functions : List String := []
  deriving Repr

namespace Census

def bump (kind : String) (census : Census) : Census :=
  { census with kinds := census.kinds.add kind }

def counter : Visitor Census where
  onBlock _ _ := bump "Block"
  onLiteral _ _ := bump "Literal"
  onVariable _ _ := bump "Variable"
  onBinary _ op _ _ census :=
    let census := census.bump "BinaryOp"
    { census with operators := census.operators.add op }
  onAssign _ _ _ := bump "Assign"
  onCall _ _ _ := bump "Call"
  onExpression _ _ := bump "ExpressionStatement"
  onConditional _ _ _ _ := bump "If"
  onLoop _ _ _ := bump "While"
  onReturn _ _ := bump "Return"
  onDefine _ name _ _ census :=
    let census := census.bump "FunctionDef"
    { census with functions := census.functions ++ [name] }

def ofProgram (program : Block) : Census :=
  (Node.block program).accept .depthFirst counter [] {}

def total (census : Census) : Nat :=
  census.kinds.total

def sortedKinds (census : Census) : Tally String :=
  census.kinds.sorted id

/-- The census as text. A part about operators or functions appears only if there are any. -/
def report (census : Census) : String :=
  let operators :=
    if census.operators.isEmpty then []
    else "operators:" :: (census.operators.sorted Operator.symbol).lines Operator.symbol
  let functions :=
    if census.functions.isEmpty then []
    else ["functions: " ++ ", ".intercalate census.functions]
  "\n".intercalate (("nodes: " ++ toString census.total) ::
    (census.sortedKinds.lines id ++ operators ++ functions)) ++ "\n"

end Census
end Sapling
