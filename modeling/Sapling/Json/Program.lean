import Sapling.Json.Basic
import Sapling.Tree

/-!
# Programs as JSON

A node is an object with one field, named for the node's kind, that holds its parts in the order
of their declaration.
-/
namespace Sapling

def Json.tagged (tag : String) (value : Json) : Json :=
  .object [(tag, value)]

def Literal.toJson : Literal → Json
  | .number value => .tagged "Number" (.number value)
  | .str text => .tagged "Str" (.str text)

namespace Expr

mutual

def toJson : Expr → Json
  | .literal value => .tagged "Literal" value.toJson
  | .variable name => .tagged "Variable" (.object [("name", .str name)])
  | .binary op left right =>
    .tagged "Binary"
      (.object [("op", .str op.name), ("left", toJson left), ("right", toJson right)])
  | .assign target value =>
    .tagged "Assign" (.object [("target", .str target), ("value", toJson value)])
  | .call callee args =>
    .tagged "Call" (.object [("callee", .str callee), ("args", .array (toJsonAll args))])

def toJsonAll : List Expr → List Json
  | [] => []
  | e :: es => toJson e :: toJsonAll es

end

end Expr

def Json.block (statements : List Json) : Json :=
  .object [("statements", .array statements)]

namespace Stmt

mutual

def toJson : Stmt → Json
  | .expression e => .tagged "Expression" (.object [("expr", e.toJson)])
  | .conditional condition yes none =>
    .tagged "If" (.object [("condition", condition.toJson),
      ("then_block", .block (toJsonAll yes)), ("else_block", .null)])
  | .conditional condition yes (some no) =>
    .tagged "If" (.object [("condition", condition.toJson),
      ("then_block", .block (toJsonAll yes)), ("else_block", .block (toJsonAll no))])
  | .loop condition body =>
    .tagged "While" (.object [("condition", condition.toJson),
      ("body", .block (toJsonAll body))])
  | .ret value => .tagged "Return" (.object [("value", value.toJson)])
  | .define name params body =>
    .tagged "FunctionDef" (.object [("name", .str name), ("params", .array (params.map .str)),
      ("body", .block (toJsonAll body))])

def toJsonAll : List Stmt → List Json
  | [] => []
  | s :: ss => toJson s :: toJsonAll ss

end

end Stmt

def Block.toJson (program : Block) : Json :=
  .block (Stmt.toJsonAll program)

end Sapling
