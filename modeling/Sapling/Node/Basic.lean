import Sapling.Tree

/-!
# Nodes

Blocks, statements and expressions under one type, each with its kind and its children in the
order of the source.
-/
namespace Sapling

def Expr.kind : Expr → String
  | .literal _ => "Literal"
  | .variable _ => "Variable"
  | .binary .. => "BinaryOp"
  | .assign .. => "Assign"
  | .call .. => "Call"

def Stmt.kind : Stmt → String
  | .expression _ => "ExpressionStatement"
  | .conditional .. => "If"
  | .loop .. => "While"
  | .ret _ => "Return"
  | .define .. => "FunctionDef"

inductive Node where
  | block (block : Block)
  | stmt (stmt : Stmt)
  | expr (expr : Expr)
  deriving Repr

namespace Node

def kind : Node → String
  | .block _ => "Block"
  | .stmt s => s.kind
  | .expr e => e.kind

def children : Node → List Node
  | .block stmts => stmts.map .stmt
  | .stmt (.expression e) => [.expr e]
  | .stmt (.conditional condition yes no) =>
    .expr condition :: .block yes :: no.toList.map .block
  | .stmt (.loop condition body) => [.expr condition, .block body]
  | .stmt (.ret value) => [.expr value]
  | .stmt (.define _ _ body) => [.block body]
  | .expr (.literal _) => []
  | .expr (.variable _) => []
  | .expr (.binary _ left right) => [.expr left, .expr right]
  | .expr (.assign _ value) => [.expr value]
  | .expr (.call _ args) => args.map .expr

/-- What a node is, in one line: its kind, and what it holds itself. -/
def label : Node → String
  | .block stmts => "Block (" ++ toString stmts.length ++ ")"
  | .stmt (.expression _) => "ExpressionStatement"
  | .stmt (.conditional _ _ none) => "If"
  | .stmt (.conditional _ _ (some _)) => "If/else"
  | .stmt (.loop ..) => "While"
  | .stmt (.ret _) => "Return"
  | .stmt (.define name params _) =>
    "FunctionDef " ++ name ++ "(" ++ ", ".intercalate params ++ ")"
  | .expr (.literal value) => "Literal " ++ value.text
  | .expr (.variable name) => "Variable " ++ name
  | .expr (.binary op _ _) => "BinaryOp " ++ op.symbol
  | .expr (.assign target _) => "Assign " ++ target
  | .expr (.call callee _) => "Call " ++ callee

end Node
end Sapling
