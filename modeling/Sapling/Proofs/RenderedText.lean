import Sapling.Printer

/-!
# The text that a printer adds

`Expr.render` and `Stmt.render` give the source text of a tree as a function of the tree, of the
layout and of the number of blocks around it. The printer keeps a level and a flag from one node to
the next, and adds these texts (`Stmt.adds`): an expression in a statement is only written behind a
step that sets the flag anew, so that what an earlier visit has left there makes no difference.
-/
namespace Sapling

namespace Expr

def isBinary : Expr → Bool
  | .binary .. => true
  | _ => false

/-- Whether an expression needs parentheses as an operand. -/
def isCompound (e : Expr) : Bool :=
  e.isBinary || e.isAssign

/-- The text of an expression where it is an operand, given its text where it stands alone. -/
def enclose (e : Expr) (text : String) : String :=
  if e.isCompound then "(" ++ text ++ ")" else text

mutual

def render : Expr → String
  | .literal value => value.text
  | .variable name => name
  | .binary op left right =>
    left.enclose left.render ++ (" " ++ op.symbol ++ " ") ++ right.enclose right.render
  | .assign target value => target ++ " = " ++ value.render
  | .call callee args => callee ++ "(" ++ ", ".intercalate (renderAll args) ++ ")"

def renderAll : List Expr → List String
  | [] => []
  | arg :: args => arg.render :: renderAll args

end

theorem renderAll_eq_map (args : List Expr) : renderAll args = args.map render := by
  induction args with
  | nil => rfl
  | cons arg args ih => rw [renderAll, ih, List.map_cons]

/-- The text that is added for an expression. The flag counts for a binary expression only: it
tells that there is no need of parentheses. -/
def renderUnder (e : Expr) (bare : Bool) : String :=
  if e.isBinary && !bare then "(" ++ e.render ++ ")" else e.render

end Expr

/-- The blanks before a line that has as many blocks around it as the level says. -/
def Layout.indentation (layout : Layout) (level : Nat) : String :=
  String.ofList (List.replicate (level * layout.indentWidth) ' ')

def Layout.inBraces (layout : Layout) (level : Nat) (text : String) : String :=
  "\x7b\n" ++ text ++ layout.indentation level ++ "\x7d"

namespace Stmt

mutual

def render (layout : Layout) (level : Nat) : Stmt → String
  | .expression e => layout.indentation level ++ e.render ++ ";\n"
  | .conditional condition yes none =>
    layout.indentation level ++ "if (" ++ condition.render ++ ") " ++
      layout.inBraces level (renderIn layout (level + 1) yes) ++ "\n"
  | .conditional condition yes (some no) =>
    layout.indentation level ++ "if (" ++ condition.render ++ ") " ++
      layout.inBraces level (renderIn layout (level + 1) yes) ++ " else " ++
      layout.inBraces level (renderIn layout (level + 1) no) ++ "\n"
  | .loop condition body =>
    layout.indentation level ++ "while (" ++ condition.render ++ ") " ++
      layout.inBraces level (renderIn layout (level + 1) body) ++ "\n"
  | .ret value => layout.indentation level ++ "return " ++ value.render ++ ";\n"
  | .define name params body =>
    layout.indentation level ++ ("def " ++ name ++ "(" ++ ", ".intercalate params ++ ") ") ++
      layout.inBraces level (renderIn layout (level + 1) body) ++ "\n"

def renderIn (layout : Layout) (level : Nat) : List Stmt → String
  | [] => ""
  | stmt :: stmts => stmt.render layout level ++ renderIn layout level stmts

end

def renderElse (layout : Layout) (level : Nat) : Option Block → String
  | none => ""
  | some no => " else " ++ layout.inBraces level (renderIn layout (level + 1) no)

theorem render_conditional (layout : Layout) (level : Nat) (condition : Expr) (yes : Block)
    (no : Option Block) : (conditional condition yes no).render layout level =
      layout.indentation level ++ "if (" ++ condition.render ++ ") " ++
        layout.inBraces level (renderIn layout (level + 1) yes) ++ renderElse layout level no ++
        "\n" := by
  cases no <;> simp [render, renderElse, String.append_assoc]

theorem renderIn_append (layout : Layout) (level : Nat) (front back : List Stmt) :
    renderIn layout level (front ++ back) =
      renderIn layout level front ++ renderIn layout level back := by
  induction front with
  | nil => simp [renderIn]
  | cons stmt front ih => rw [List.cons_append, renderIn, ih, renderIn, String.append_assoc]

end Stmt

namespace Printer

/-- What `write` adds behind the text is settled by the layout, the level and the flag. The layout
and the level are left as they were; nothing is said about the flag. -/
structure Adds (write : Printer → Printer) (added : Layout → Nat → Bool → String) : Prop where
  text : ∀ p : Printer, (write p).text = p.text ++ added p.layout p.level p.bare
  level : ∀ p : Printer, (write p).level = p.level
  layout : ∀ p : Printer, (write p).layout = p.layout

variable {write write' : Printer → Printer} {f : Layout → Nat → Bool → String}
  {g : Layout → Nat → String}

theorem Adds.congr {f' : Layout → Nat → Bool → String} (h : Adds write f)
    (hf : ∀ layout level bare, f layout level bare = f' layout level bare) : Adds write f' where
  text p := by rw [h.text, hf]
  level := h.level
  layout := h.layout

theorem adds_put (s : String) : Adds (put s) fun _ _ _ => s :=
  ⟨fun _ => rfl, fun _ => rfl, fun _ => rfl⟩

theorem adds_indent : Adds indent fun layout level _ => layout.indentation level :=
  ⟨fun _ => rfl, fun _ => rfl, fun _ => rfl⟩

/-- The second step must not go by the flag, since the first may leave it either way. -/
theorem Adds.then (h : Adds write f) (h' : Adds write' fun layout level _ => g layout level) :
    Adds (fun p => write' (write p)) fun layout level bare =>
      f layout level bare ++ g layout level where
  text p := by rw [h'.text, h.text, h.level, h.layout, String.append_assoc]
  level p := by rw [h'.level, h.level]
  layout p := by rw [h'.layout, h.layout]

theorem Adds.put (h : Adds write f) (s : String) :
    Adds (fun p => (write p).put s) fun layout level bare => f layout level bare ++ s :=
  h.then (adds_put s)

theorem Adds.withFlag (h : Adds write f) (bare : Bool) :
    Adds (fun p => write { p with bare }) fun layout level _ => f layout level bare where
  text p := h.text { p with bare }
  level p := h.level { p with bare }
  layout p := h.layout { p with bare }

theorem Adds.alone (h : Adds write f) :
    Adds (Printer.alone write) fun layout level _ => f layout level true :=
  h.withFlag true

theorem Adds.inParens (h : Adds write f) :
    Adds (fun p => (write (p.put "(")).put ")") fun layout level bare =>
      "(" ++ f layout level bare ++ ")" where
  text p := by
    have htext := (h.put ")").text (p.put "(")
    rw [htext]
    simp [Printer.put, String.append_assoc]
  level p := h.level (p.put "(")
  layout p := h.layout (p.put "(")

theorem Adds.operand (assignment : Bool) (h : Adds write f) :
    Adds (Printer.operand assignment write) fun layout level _ =>
      if assignment then "(" ++ f layout level false ++ ")" else f layout level false := by
  cases assignment with
  | false => exact h.withFlag false
  | true => exact h.inParens.withFlag false

theorem Adds.grouped (h : Adds write f) :
    Adds (Printer.grouped write) fun layout level bare =>
      if bare then f layout level false else "(" ++ f layout level false ++ ")" := by
  -- In either case the flag is down when the expression itself is written.
  have hbare := h.withFlag false
  have hparens := h.inParens
  refine ⟨fun p => ?_, fun p => ?_, fun p => ?_⟩ <;> unfold Printer.grouped
  · cases hflag : p.bare with
    | true => exact hbare.text p
    | false => simpa [hflag] using hparens.text p
  · split
    · exact hbare.level p
    · exact hparens.level p
  · split
    · exact hbare.layout p
    · exact hparens.layout p

/-- The level is one higher inside, and comes back because what is inside leaves it alone. -/
theorem Adds.braced (h : Adds write fun layout level _ => g layout level) :
    Adds (Printer.braced write) fun layout level _ =>
      layout.inBraces level (g layout (level + 1)) := by
  let opened (p : Printer) : Printer := { p.put "\x7b\n" with level := p.level + 1 }
  have hback (p : Printer) : (write (opened p)).level - 1 = p.level := by
    rw [h.level]
    rfl
  have hcases (p : Printer) : p.braced write =
      (indent { write (opened p) with level := p.level }).put "\x7d" := by
    rw [← hback p]
    rfl
  refine ⟨fun p => ?_, fun p => ?_, fun p => ?_⟩
  · have htext : (write (opened p)).text = p.text ++ "\x7b\n" ++ g p.layout (p.level + 1) :=
      h.text (opened p)
    have hlayout : (write (opened p)).layout = p.layout := h.layout (opened p)
    rw [hcases]
    show (write (opened p)).text ++ (write (opened p)).layout.indentation p.level ++ "\x7d" = _
    rw [htext, hlayout, Layout.inBraces]
    simp only [String.append_assoc]
  · rw [hcases]
    rfl
  · rw [hcases]
    exact h.layout (opened p)

end Printer

open Printer

namespace Expr

theorem adds_operand {e : Expr} (h : Adds e.write fun _ _ bare => e.renderUnder bare) :
    Adds (operand e.isAssign e.write) fun _ _ _ => e.enclose e.render := by
  refine (h.operand e.isAssign).congr fun _ _ _ => ?_
  cases e <;> rfl

theorem adds_alone {e : Expr} (h : Adds e.write fun _ _ bare => e.renderUnder bare) :
    Adds (alone e.write) fun _ _ _ => e.render :=
  h.alone.congr fun _ _ _ => by simp [renderUnder]

mutual

theorem adds (e : Expr) : Adds e.write fun _ _ bare => e.renderUnder bare := by
  cases e with
  | literal value => exact adds_put value.text
  | «variable» name => exact adds_put name
  | binary op left right =>
    have hleft := adds_operand (adds left)
    have hright := adds_operand (adds right)
    have hinner := (hleft.put (" " ++ op.symbol ++ " ")).then hright
    refine hinner.grouped.congr fun _ _ bare => ?_
    cases bare <;> rfl
  | assign target value =>
    exact (adds_put (target ++ " = ")).then (adds_alone (adds value))
  | call callee args =>
    cases args with
    | nil =>
      refine (adds_put (callee ++ "()")).congr fun _ _ _ => ?_
      simp [renderUnder, render, renderAll, isBinary, String.append_assoc]
    | cons arg args =>
      have hopen := (adds_put (callee ++ "(")).then (adds_alone (adds arg))
      exact (adds_rest args hopen).put ")"

theorem adds_rest (args : List Expr) {write : Printer → Printer} {before arg : String}
    (h : Adds write fun _ _ _ => before ++ arg) : Adds (fun p => writeRest args (write p))
      fun _ _ _ => before ++ ", ".intercalate (arg :: renderAll args) := by
  cases args with
  | nil => exact h.congr fun _ _ _ => by rw [renderAll, String.intercalate_singleton]
  | cons next args =>
    have hnext := (h.put ", ").then (adds_alone (adds next))
    refine (adds_rest args hnext).congr fun _ _ _ => ?_
    rw [renderAll, String.intercalate_cons_cons]
    simp only [String.append_assoc]

end

end Expr

namespace Stmt

mutual

theorem adds (s : Stmt) : Adds s.write fun layout level _ => s.render layout level := by
  cases s with
  | expression e =>
    exact (adds_indent.then (Expr.adds_alone e.adds)).put ";\n"
  | ret value =>
    exact ((adds_indent.put "return ").then (Expr.adds_alone value.adds)).put ";\n"
  | loop condition body =>
    have hcondition := (adds_indent.put "while (").then (Expr.adds_alone condition.adds)
    exact ((hcondition.put ") ").then (adds_in body).braced).put "\n"
  | conditional condition yes no =>
    have hcondition := (adds_indent.put "if (").then (Expr.adds_alone condition.adds)
    have hyes := (hcondition.put ") ").then (adds_in yes).braced
    cases no with
    | none => exact hyes.put "\n"
    | some no => exact ((hyes.put " else ").then (adds_in no).braced).put "\n"
  | define name params body =>
    have hheader := adds_indent.then
      (adds_put ("def " ++ name ++ "(" ++ ", ".intercalate params ++ ") "))
    exact (hheader.then (adds_in body).braced).put "\n"

theorem adds_in (ss : List Stmt) :
    Adds (writeAll ss) fun layout level _ => renderIn layout level ss := by
  cases ss with
  | nil => exact ⟨fun p => String.append_empty.symm, fun _ => rfl, fun _ => rfl⟩
  | cons s ss => exact (adds s).then (adds_in ss)

end

end Stmt

theorem Block.print_eq (layout : Layout) (program : Block) :
    program.print layout = Stmt.renderIn layout 0 program := by
  rw [Block.print, accept_writer, Node.write, (Stmt.adds_in program).text, String.empty_append]

example : Block.print {} [.expression (.binary .add (.variable "a") (.assign "b"
    (.binary .mul (.variable "c") (.variable "d"))))] = "a + (b = c * d);\n" := by
  decide

end Sapling
