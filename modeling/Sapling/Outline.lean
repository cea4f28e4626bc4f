import Sapling.Node.Visitor

/-!
# Outlines

The outline of a program has one entry per node, parents before children, each with its depth. The
visitor that writes it finds its own way through the tree: it is accepted by one node at a time, and
its handlers have the children of the node accept it one level deeper.
-/
namespace Sapling

structure Outline.Entry where
  depth : Nat
  label : String
  deriving DecidableEq, Repr

abbrev Outline := List Outline.Entry

namespace Outline

/-- An outline that is being written: the depth of the next entry, and the entries so far, the
latest first. -/
structure Draft where
  depth : Nat := 0
  reversed : Outline := []

namespace Draft

def push (node : Node) (draft : Draft) : Draft :=
  { draft with reversed := ⟨draft.depth, node.label⟩ :: draft.reversed }

def nested (write : Draft → Draft) (draft : Draft) : Draft :=
  let draft := write { draft with depth := draft.depth + 1 }
  { draft with depth := draft.depth - 1 }

/-- Write the entry of a node and, one level deeper, those below it. -/
def describe (node : Node) (below : Draft → Draft) (draft : Draft) : Draft :=
  (draft.push node).nested below

end Draft
end Outline

open Outline (Draft)

namespace Expr

mutual

def describe : Expr → Draft → Draft
  | .literal value => .push (.expr (.literal value))
  | .variable name => .push (.expr (.variable name))
  | .binary op left right => .describe (.expr (.binary op left right)) fun draft =>
      describe right (describe left draft)
  | .assign target value => .describe (.expr (.assign target value)) (describe value)
  | .call callee args => .describe (.expr (.call callee args)) (describeAll args)

def describeAll : List Expr → Draft → Draft
  | [], draft => draft
  | e :: es, draft => describeAll es (describe e draft)

end

end Expr

namespace Stmt

mutual

def describe : Stmt → Draft → Draft
  | .expression e => .describe (.stmt (.expression e)) e.describe
  | .conditional condition yes none =>
    .describe (.stmt (.conditional condition yes none)) fun draft =>
      Draft.describe (.block yes) (describeAll yes) (condition.describe draft)
  | .conditional condition yes (some no) =>
    .describe (.stmt (.conditional condition yes (some no))) fun draft =>
      Draft.describe (.block no) (describeAll no)
        (Draft.describe (.block yes) (describeAll yes) (condition.describe draft))
  | .loop condition body =>
    .describe (.stmt (.loop condition body)) fun draft =>
      Draft.describe (.block body) (describeAll body) (condition.describe draft)
  | .ret value => .describe (.stmt (.ret value)) value.describe
  | .define name params body =>
    .describe (.stmt (.define name params body)) (.describe (.block body) (describeAll body))

def describeAll : List Stmt → Draft → Draft
  | [], draft => draft
  | s :: ss, draft => describeAll ss (describe s draft)

end

end Stmt

def Node.describe : Node → Draft → Draft
  | .block stmts => .describe (.block stmts) (Stmt.describeAll stmts)
  | .stmt s => s.describe
  | .expr e => e.describe

namespace Outline

def writer : Visitor Draft where
  onBlock _ stmts := (Node.block stmts).describe
  onLiteral _ value := (Node.expr (.literal value)).describe
  onVariable _ name := (Node.expr (.variable name)).describe
  onBinary _ op left right := (Node.expr (.binary op left right)).describe
  onAssign _ target value := (Node.expr (.assign target value)).describe
  onCall _ callee args := (Node.expr (.call callee args)).describe
  onExpression _ e := (Node.stmt (.expression e)).describe
  onConditional _ condition yes no := (Node.stmt (.conditional condition yes no)).describe
  onLoop _ condition body := (Node.stmt (.loop condition body)).describe
  onReturn _ value := (Node.stmt (.ret value)).describe
  onDefine _ name params body := (Node.stmt (.define name params body)).describe

theorem accept_writer (path : List Nat) (node : Node) :
    node.accept .shallow writer path = node.describe := by
  cases node with
  | block stmts => rfl
  | stmt s =>
    cases s with
    | conditional condition yes no => cases no <;> rfl
    | _ => rfl
  | expr e => cases e <;> rfl

def ofProgram (program : Block) : Outline :=
  ((Node.block program).accept .shallow writer [] {}).reversed.reverse

/-- One line per entry, with `indent` spaces for each level of depth. -/
def text (indent : Nat) (entries : Outline) : String :=
  String.join <| entries.map fun entry =>
    String.ofList (List.replicate (entry.depth * indent) ' ') ++ entry.label ++ "\n"

end Outline
end Sapling
