import Sapling.Proofs.ExchangedNodes
import Sapling.Proofs.RenderedText

/-!
# Expressions in printed statements

The text around an expression stays the same if another expression is put in its place, and an
expression is in parentheses if it is compound and is an operand (`Node.surrounded_replace`). So the
text that the printer adds for a statement is put together from the texts of its parts, whatever the
printer has written before (`print_compositional`).
-/
namespace Sapling

theorem exists_intercalate (separator : String) (ss ss' : List String) :
    ∃ before behind, ∀ s, separator.intercalate (ss ++ s :: ss') = before ++ s ++ behind := by
  induction ss with
  | nil =>
    cases ss' with
    | nil => exact ⟨"", "", fun s => by simp⟩
    | cons next ss' =>
      refine ⟨"", separator ++ separator.intercalate (next :: ss'), fun s => ?_⟩
      simp [String.intercalate_cons_cons, String.append_assoc]
  | cons first ss ih =>
    obtain ⟨before, behind, h⟩ := ih
    refine ⟨first ++ separator ++ before, behind, fun s => ?_⟩
    rw [List.cons_append, String.intercalate_cons_of_ne_nil (by simp), h]
    simp only [String.append_assoc]

namespace Node

variable {root parent child node : Node} {i : Nat} {path : List Nat}

def isBinary : Node → Bool
  | .expr e => e.isBinary
  | _ => false

/-- Whether the parent of the node at a path is a binary expression. -/
def isOperand (root : Node) : List Nat → Bool
  | [] => false
  | _ :: path => (root.at? path).any isBinary

/-- The text of a node, which for an expression depends on whether it is an operand. -/
def render (layout : Layout) (level : Nat) (operand : Bool) : Node → String
  | .block stmts => Stmt.renderIn layout level stmts
  | .stmt s => s.render layout level
  | .expr e => if operand then e.enclose e.render else e.render

/-- Between two texts that stay the same, `whole` has the text of a node, whichever node of its sort
this is. -/
def Surrounded (layout : Layout) (level : Nat) (operand : Bool) (node : Node)
    (whole : Node → String) : Prop :=
  ∃ before behind, ∀ node', Alike node node' →
    whole node' = before ++ node'.render layout level operand ++ behind

theorem render_expr (layout : Layout) (level : Nat) (operand : Bool) (e : Expr) :
    (expr e).render layout level operand =
      if operand && e.isCompound then "(" ++ e.render ++ ")" else e.render := by
  cases operand <;> simp [render, Expr.enclose]

theorem render_compound (layout : Layout) (level : Nat) (operand : Bool) {e : Expr}
    (h : e.isCompound = true) : (expr e).render layout level operand =
      (if operand then "(" else "") ++ e.render ++ (if operand then ")" else "") := by
  cases operand <;> simp [render, Expr.enclose, h]

theorem render_call (layout : Layout) (level : Nat) (operand : Bool) (callee : String)
    (args : List Expr) : (expr (.call callee args)).render layout level operand =
      (Expr.call callee args).render := by
  cases operand <;> rfl

theorem Child.surrounded_expr {e : Expr} (h : Child (.expr e) i child) (layout : Layout)
    (level : Nat) (operand : Bool) : Surrounded layout level e.isBinary child fun node =>
      ((expr e).setChild i node).render layout level operand := by
  let opening := if operand then "(" else ""
  let closing := if operand then ")" else ""
  cases h with
  | left op left right =>
    let symbol := " " ++ op.symbol ++ " "
    refine ⟨opening, symbol ++ right.enclose right.render ++ closing, ?_⟩
    rintro _ (_ | _ | ⟨_, e'⟩)
    show (expr (.binary op e' right)).render layout level operand = _
    rw [render_compound _ _ _ (by rfl), Expr.render]
    simp [render, Expr.isBinary, opening, closing, symbol, String.append_assoc]
  | right op left right =>
    let symbol := " " ++ op.symbol ++ " "
    refine ⟨opening ++ left.enclose left.render ++ symbol, closing, ?_⟩
    rintro _ (_ | _ | ⟨_, e'⟩)
    show (expr (.binary op left e')).render layout level operand = _
    rw [render_compound _ _ _ (by rfl), Expr.render]
    simp [render, Expr.isBinary, opening, closing, symbol, String.append_assoc]
  | value target e =>
    refine ⟨opening ++ (target ++ " = "), closing, ?_⟩
    rintro _ (_ | _ | ⟨_, e'⟩)
    show (expr (.assign target e')).render layout level operand = _
    rw [render_compound _ _ _ (by rfl), Expr.render]
    simp [render, Expr.isBinary, opening, closing, String.append_assoc]
  | @argument callee args i e h =>
    obtain ⟨hlt, -⟩ := List.getElem?_eq_some_iff.mp h
    obtain ⟨before, behind, hargs⟩ := exists_intercalate ", " ((args.take i).map Expr.render)
      ((args.drop (i + 1)).map Expr.render)
    refine ⟨callee ++ "(" ++ before, behind ++ ")", ?_⟩
    rintro _ (_ | _ | ⟨_, e'⟩)
    show (expr (.call callee (args.set i e'))).render layout level operand = _
    rw [render_call, Expr.render, Expr.renderAll_eq_map, List.set_eq_take_append_cons_drop,
      if_pos hlt, List.map_append, List.map_cons, hargs]
    simp [render, Expr.isBinary, String.append_assoc]

/-- Inside the blocks of a statement the level is one higher. -/
theorem Child.surrounded_stmt {s : Stmt} (h : Child (.stmt s) i child) (layout : Layout)
    (level : Nat) (operand : Bool) : ∃ level', Surrounded layout level' false child fun node =>
      ((stmt s).setChild i node).render layout level operand := by
  let line := layout.indentation level
  let braces (stmts : Block) := layout.inBraces level (Stmt.renderIn layout (level + 1) stmts)
  cases h with
  | expression e =>
    refine ⟨level, line, ";\n", ?_⟩
    rintro _ (_ | _ | ⟨_, e'⟩)
    rfl
  | ret e =>
    refine ⟨level, line ++ "return ", ";\n", ?_⟩
    rintro _ (_ | _ | ⟨_, e'⟩)
    rfl
  | condition e yes no =>
    let alternative := Stmt.renderElse layout level no
    refine ⟨level, line ++ "if (", ") " ++ braces yes ++ alternative ++ "\n", ?_⟩
    rintro _ (_ | _ | ⟨_, e'⟩)
    show (Stmt.conditional e' yes no).render layout level = _
    rw [Stmt.render_conditional]
    simp [render, braces, alternative, line, String.append_assoc]
  | yes e yes no =>
    let alternative := Stmt.renderElse layout level no
    refine ⟨level + 1, line ++ "if (" ++ e.render ++ ") " ++ "\x7b\n",
      line ++ "\x7d" ++ alternative ++ "\n", ?_⟩
    rintro _ ⟨_, yes'⟩
    show (Stmt.conditional e yes' no).render layout level = _
    rw [Stmt.render_conditional]
    simp [render, Layout.inBraces, alternative, line, String.append_assoc, -String.reduceAppend]
  | no e yes no =>
    refine ⟨level + 1, line ++ "if (" ++ e.render ++ ") " ++ braces yes ++ " else " ++ "\x7b\n",
      line ++ "\x7d" ++ "\n", ?_⟩
    rintro _ ⟨_, no'⟩
    show (Stmt.conditional e yes (some no')).render layout level = _
    simp [render, Stmt.render, Layout.inBraces, braces, line, String.append_assoc,
      -String.reduceAppend]
  | loopCondition e body =>
    refine ⟨level, line ++ "while (", ") " ++ braces body ++ "\n", ?_⟩
    rintro _ (_ | _ | ⟨_, e'⟩)
    show (Stmt.loop e' body).render layout level = _
    simp [render, Stmt.render, braces, line, String.append_assoc]
  | loopBody e body =>
    refine ⟨level + 1, line ++ "while (" ++ e.render ++ ") " ++ "\x7b\n",
      line ++ "\x7d" ++ "\n", ?_⟩
    rintro _ ⟨_, body'⟩
    show (Stmt.loop e body').render layout level = _
    simp [render, Stmt.render, Layout.inBraces, line, String.append_assoc, -String.reduceAppend]
  | define name params body =>
    refine ⟨level + 1, line ++ ("def " ++ name ++ "(" ++ ", ".intercalate params ++ ") ") ++
      "\x7b\n", line ++ "\x7d" ++ "\n", ?_⟩
    rintro _ ⟨_, body'⟩
    show (Stmt.define name params body').render layout level = _
    simp [render, Stmt.render, Layout.inBraces, line, String.append_assoc, -String.reduceAppend]

/-- What is around a child depends on its parent and on its position, but not on the child. -/
theorem Child.surrounded (h : Child parent i child) (layout : Layout) (level : Nat)
    (operand : Bool) : ∃ level', Surrounded layout level' parent.isBinary child fun node =>
      (parent.setChild i node).render layout level operand := by
  cases parent with
  | expr e => exact ⟨level, h.surrounded_expr layout level operand⟩
  | stmt s => exact h.surrounded_stmt layout level operand
  | block stmts =>
    obtain @⟨_, i, s, h⟩ := h
    obtain ⟨hlt, -⟩ := List.getElem?_eq_some_iff.mp h
    refine ⟨level, Stmt.renderIn layout level (stmts.take i),
      Stmt.renderIn layout level (stmts.drop (i + 1)), ?_⟩
    rintro _ (_ | ⟨_, s'⟩)
    show Stmt.renderIn layout level (stmts.set i s') = _
    rw [List.set_eq_take_append_cons_drop, if_pos hlt, Stmt.renderIn_append, Stmt.renderIn,
      render, String.append_assoc]

theorem surrounded_replace (h : root.at? path = some node) (layout : Layout) (level : Nat) :
    ∃ level', Surrounded layout level' (root.isOperand path) node fun node' =>
      (root.replace path node').render layout level false := by
  induction path generalizing node with
  | nil =>
    refine ⟨level, "", "", fun node' _ => ?_⟩
    rw [String.empty_append, String.append_empty]
    rfl
  | cons i path ih =>
    obtain ⟨parent, hparent, hnode⟩ := Option.bind_eq_some_iff.mp h
    have hchild := child_of_getElem? hnode
    obtain ⟨level', before, behind, hroot⟩ := ih hparent
    obtain ⟨level'', before', behind', hstep⟩ :=
      hchild.surrounded layout level' (root.isOperand path)
    have hoperand : root.isOperand (i :: path) = parent.isBinary := by
      rw [isOperand, hparent, Option.any_some]
    refine ⟨level'', before ++ before', behind' ++ behind, fun node' hnode' => ?_⟩
    calc (root.replace (i :: path) node').render layout level false
      _ = (root.replace path (parent.setChild i node')).render layout level false := by
        rw [replace_cons hparent]
      _ = before ++ (parent.setChild i node').render layout level' (root.isOperand path) ++
          behind := hroot _ (hchild.alike_setChild hnode')
      _ = before ++ (before' ++ node'.render layout level'' parent.isBinary ++ behind') ++
          behind := congrArg (before ++ · ++ behind) (hstep node' hnode')
      _ = before ++ before' ++ node'.render layout level'' (root.isOperand (i :: path)) ++
          (behind' ++ behind) := by
        rw [hoperand]
        simp only [String.append_assoc]

end Node

open Node

/-- The printer adds a text that depends on the statement, the layout and the level only, whatever
earlier visits have left. An expression stands in it in parentheses if it is a binary expression or
an assignment and its parent is a binary expression, and the text around it is the same for every
expression in its place. So programs are printed one statement after another. -/
theorem print_compositional :
    (∀ (s : Stmt) (path : List Nat) (p : Printer),
      let p' := (Node.stmt s).accept .shallow Printer.writer path p
      p'.text = p.text ++ s.render p.layout p.level ∧ p'.level = p.level ∧
        p'.layout = p.layout) ∧
    (∀ (s : Stmt) (path : List Nat) (e : Expr), (Node.stmt s).at? path = some (.expr e) →
      (Node.stmt s).replace path (.expr e) = .stmt s ∧
      ∀ layout level, ∃ before behind, ∀ e' : Expr, ∃ s' : Stmt,
        (Node.stmt s).replace path (.expr e') = .stmt s' ∧
        (Node.stmt s').at? path = some (.expr e') ∧
        s'.render layout level = before ++
          (if (Node.stmt s).isOperand path && (e'.isBinary || e'.isAssign)
            then "(" ++ e'.render ++ ")" else e'.render) ++ behind) ∧
    ∀ (layout : Layout) (xs ys : Block),
      Block.print layout (xs ++ ys) = Block.print layout xs ++ Block.print layout ys := by
  refine ⟨fun s path p => ?_, fun s path e h => ?_, fun layout xs ys => ?_⟩
  · have hadds := s.adds
    rw [Printer.accept_writer]
    exact ⟨hadds.text p, hadds.level p, hadds.layout p⟩
  · refine ⟨replace_self h, fun layout level => ?_⟩
    obtain ⟨level', before, behind, htext⟩ := surrounded_replace h layout level
    refine ⟨before, behind, fun e' => ?_⟩
    have hat := at?_replace h (.expr e e')
    have hrender : ((Node.stmt s).replace path (.expr e')).render layout level false = _ :=
      htext (.expr e') (.expr e e')
    have halike := alike_replace h (.expr e e')
    generalize (Node.stmt s).replace path (.expr e') = root at hat hrender halike ⊢
    obtain _ | ⟨_, s'⟩ := halike
    rw [render_expr] at hrender
    exact ⟨s', rfl, hat, hrender⟩
  · rw [Block.print_eq, Block.print_eq, Block.print_eq, Stmt.renderIn_append]

end Sapling
