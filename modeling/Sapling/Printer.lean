import Sapling.Node.Visitor

/-!
# Printing programs

A printer writes trees as source text: each statement on lines of its own, blocks in braces, and
every binary expression or assignment in parentheses where it is an operand. It is accepted by one
node at a time and writes what is below the node itself, since there is text before and behind the
children. A printer can be used for one tree after another.
-/
namespace Sapling

structure Layout where
  /-- Spaces for each block around a line. -/
  indentWidth : Nat := 4
  deriving DecidableEq, Repr

/-- A layout as asked for, with the indentation held to a sensible width. -/
def Layout.ofWidth (width : Nat) : Layout :=
  ⟨min width 16⟩

structure Printer where
  layout : Layout := {}
  level : Nat := 0
  /-- The next binary expression stands alone and needs no parentheses. -/
  bare : Bool := false
  text : String := ""

namespace Printer

def put (s : String) (p : Printer) : Printer :=
  { p with text := p.text ++ s }

def indent (p : Printer) : Printer :=
  p.put (String.ofList (List.replicate (p.level * p.layout.indentWidth) ' '))

/-- Write what stands alone by `write`. -/
def alone (write : Printer → Printer) (p : Printer) : Printer :=
  write { p with bare := true }

/-- Write an operand by `write`; an assignment is put in parentheses here. -/
def operand (assignment : Bool) (write : Printer → Printer) (p : Printer) : Printer :=
  let p := { p with bare := false }
  if assignment then (write (p.put "(")).put ")" else write p

/-- Write a binary expression by `write`, in parentheses unless it stands alone. -/
def grouped (write : Printer → Printer) (p : Printer) : Printer :=
  if p.bare then write { p with bare := false } else (write (p.put "(")).put ")"

def braced (write : Printer → Printer) (p : Printer) : Printer :=
  let inner := write { p.put "\x7b\n" with level := p.level + 1 }
  ({ inner with level := inner.level - 1 }.indent).put "\x7d"

end Printer

namespace Expr

mutual

def write : Expr → Printer → Printer
  | .literal value, p => p.put value.text
  | .variable name, p => p.put name
  | .binary op left right, p =>
    p.grouped fun p =>
      ((p.operand left.isAssign (write left)).put (" " ++ op.symbol ++ " ")).operand
        right.isAssign (write right)
  | .assign target value, p => (p.put (target ++ " = ")).alone (write value)
  | .call callee [], p => p.put (callee ++ "()")
  | .call callee (arg :: args), p =>
    (writeRest args ((p.put (callee ++ "(")).alone (write arg))).put ")"

def writeRest : List Expr → Printer → Printer
  | [], p => p
  | arg :: args, p => writeRest args ((p.put ", ").alone (write arg))

end

end Expr

namespace Stmt

mutual

def write : Stmt → Printer → Printer
  | .expression e, p => (p.indent.alone e.write).put ";\n"
  | .conditional condition yes none, p =>
    ((((p.indent.put "if (").alone condition.write).put ") ").braced (writeAll yes)).put "\n"
  | .conditional condition yes (some no), p =>
    ((((((p.indent.put "if (").alone condition.write).put ") ").braced (writeAll yes)).put
      " else ").braced (writeAll no)).put "\n"
  | .loop condition body, p =>
    ((((p.indent.put "while (").alone condition.write).put ") ").braced (writeAll body)).put "\n"
  | .ret value, p => ((p.indent.put "return ").alone value.write).put ";\n"
  | .define name params body, p =>
    ((p.indent.put ("def " ++ name ++ "(" ++ ", ".intercalate params ++ ") ")).braced
      (writeAll body)).put "\n"

def writeAll : List Stmt → Printer → Printer
  | [], p => p
  | stmt :: stmts, p => writeAll stmts (write stmt p)

end

end Stmt

def Node.write : Node → Printer → Printer
  | .block stmts => Stmt.writeAll stmts
  | .stmt s => s.write
  | .expr e => e.write

def Printer.writer : Visitor Printer where
  onBlock _ stmts := (Node.block stmts).write
  onLiteral _ value := (Node.expr (.literal value)).write
  onVariable _ name := (Node.expr (.variable name)).write
  onBinary _ op left right := (Node.expr (.binary op left right)).write
  onAssign _ target value := (Node.expr (.assign target value)).write
  onCall _ callee args := (Node.expr (.call callee args)).write
  onExpression _ e := (Node.stmt (.expression e)).write
  onConditional _ condition yes no := (Node.stmt (.conditional condition yes no)).write
  onLoop _ condition body := (Node.stmt (.loop condition body)).write
  onReturn _ value := (Node.stmt (.ret value)).write
  onDefine _ name params body := (Node.stmt (.define name params body)).write

theorem Printer.accept_writer (path : List Nat) (node : Node) :
    node.accept .shallow writer path = node.write := by
  cases node with
  | block stmts => rfl
  | stmt s =>
    cases s with
    | conditional condition yes no => cases no <;> rfl
    | _ => rfl
  | expr e => cases e <;> rfl

/-- The source text of a program. -/
def Block.print (layout : Layout) (program : Block) : String :=
  ((Node.block program).accept .shallow Printer.writer [] { layout }).text

end Sapling
