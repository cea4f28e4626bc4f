import Sapling.Proofs.NodePaths

/-!
# Exchanging nodes

A node in a tree can be exchanged for another of its sort: `Node.replace` gives the tree that has
the other node at the path of the first. What a node can be a child of is said once, in
`Node.Child`.
-/
namespace Sapling

namespace Expr

def setChild : Expr → Nat → Expr → Expr
  | .binary op left right, i, e => if i = 0 then .binary op e right else .binary op left e
  | .assign target _, _, e => .assign target e
  | .call callee args, i, e => .call callee (args.set i e)
  | parent, _, _ => parent

end Expr

namespace Stmt

def setExpr : Stmt → Expr → Stmt
  | .expression _, e => .expression e
  | .conditional _ yes no, e => .conditional e yes no
  | .loop _ body, e => .loop e body
  | .ret _, e => .ret e
  | parent, _ => parent

def setBlock : Stmt → Nat → Block → Stmt
  | .conditional condition yes no, i, b =>
    if i = 1 then .conditional condition b no else .conditional condition yes (no.map fun _ => b)
  | .loop condition _, _, b => .loop condition b
  | .define name params _, _, b => .define name params b
  | parent, _, _ => parent

end Stmt

namespace Node

def setChild : Node → Nat → Node → Node
  | .block stmts, i, .stmt s => .block (stmts.set i s)
  | .stmt s, _, .expr e => .stmt (s.setExpr e)
  | .stmt s, i, .block b => .stmt (s.setBlock i b)
  | .expr e, i, .expr e' => .expr (e.setChild i e')
  | parent, _, _ => parent

/-- The tree with another node at a path. -/
def replace (root : Node) : List Nat → Node → Node
  | [], node => node
  | i :: path, node =>
    match root.at? path with
    | some parent => root.replace path (parent.setChild i node)
    | none => root

/-- Nodes that can stand in the same places. -/
inductive Alike : Node → Node → Prop where
  | block (b b' : Block) : Alike (.block b) (.block b')
  | stmt (s s' : Stmt) : Alike (.stmt s) (.stmt s')
  | expr (e e' : Expr) : Alike (.expr e) (.expr e')

/-- A node with the position and the parent that it is a child of. -/
inductive Child : Node → Nat → Node → Prop where
  | statement {stmts : Block} {i : Nat} {s : Stmt} (h : stmts[i]? = some s) :
    Child (.block stmts) i (.stmt s)
  | expression (e : Expr) : Child (.stmt (.expression e)) 0 (.expr e)
  | condition (e : Expr) (yes : Block) (no : Option Block) :
    Child (.stmt (.conditional e yes no)) 0 (.expr e)
  | yes (e : Expr) (yes : Block) (no : Option Block) :
    Child (.stmt (.conditional e yes no)) 1 (.block yes)
  | no (e : Expr) (yes no : Block) : Child (.stmt (.conditional e yes (some no))) 2 (.block no)
  | loopCondition (e : Expr) (body : Block) : Child (.stmt (.loop e body)) 0 (.expr e)
  | loopBody (e : Expr) (body : Block) : Child (.stmt (.loop e body)) 1 (.block body)
  | ret (e : Expr) : Child (.stmt (.ret e)) 0 (.expr e)
  | define (name : String) (params : List String) (body : Block) :
    Child (.stmt (.define name params body)) 0 (.block body)
  | left (op : Operator) (e e' : Expr) : Child (.expr (.binary op e e')) 0 (.expr e)
  | right (op : Operator) (e e' : Expr) : Child (.expr (.binary op e e')) 1 (.expr e')
  | value (target : String) (e : Expr) : Child (.expr (.assign target e)) 0 (.expr e)
  | argument {callee : String} {args : List Expr} {i : Nat} {e : Expr} (h : args[i]? = some e) :
    Child (.expr (.call callee args)) i (.expr e)

variable {root parent child node : Node} {i : Nat} {path : List Nat}

theorem child_of_getElem? (h : parent.children[i]? = some child) : Child parent i child := by
  cases parent with
  | block stmts =>
    obtain ⟨s, hs, rfl⟩ : ∃ s, stmts[i]? = some s ∧ .stmt s = child := by simpa [children] using h
    exact .statement hs
  | stmt s =>
    cases s with
    | expression e =>
      match i, h with
      | 0, rfl => exact .expression e
    | conditional e yes no =>
      match i, no, h with
      | 0, no, rfl => exact .condition e yes no
      | 1, no, rfl => exact .yes e yes no
      | 2, some no, rfl => exact .no e yes no
    | loop e body =>
      match i, h with
      | 0, rfl => exact .loopCondition e body
      | 1, rfl => exact .loopBody e body
    | ret e =>
      match i, h with
      | 0, rfl => exact .ret e
    | define name params body =>
      match i, h with
      | 0, rfl => exact .define name params body
  | expr e =>
    cases e with
    | literal value => exact absurd h (by simp [children])
    | «variable» name => exact absurd h (by simp [children])
    | binary op left right =>
      match i, h with
      | 0, rfl => exact .left op left right
      | 1, rfl => exact .right op left right
    | assign target value =>
      match i, h with
      | 0, rfl => exact .value target value
    | call callee args =>
      obtain ⟨e, he, rfl⟩ : ∃ e, args[i]? = some e ∧ .expr e = child := by
        simpa [children] using h
      exact .argument he

theorem Child.setChild_self (h : Child parent i child) : parent.setChild i child = parent := by
  cases h with
  | statement h =>
    obtain ⟨hlt, rfl⟩ := List.getElem?_eq_some_iff.mp h
    exact congrArg block (List.set_getElem_self hlt)
  | argument h =>
    obtain ⟨hlt, rfl⟩ := List.getElem?_eq_some_iff.mp h
    exact congrArg (fun args => expr (.call _ args)) (List.set_getElem_self hlt)
  | _ => rfl

/-- A node of the same sort takes the place of a child. -/
theorem Child.getElem?_setChild (h : Child parent i child) (hnode : Alike child node) :
    (parent.setChild i node).children[i]? = some node := by
  cases h with
  | statement h =>
    obtain ⟨hlt, -⟩ := List.getElem?_eq_some_iff.mp h
    cases hnode
    simp [setChild, children, hlt]
  | argument h =>
    obtain ⟨hlt, -⟩ := List.getElem?_eq_some_iff.mp h
    cases hnode
    simp [setChild, Expr.setChild, children, hlt]
  | _ =>
    cases hnode
    rfl

theorem Child.alike_setChild (h : Child parent i child) (hnode : Alike child node) :
    Alike parent (parent.setChild i node) := by
  cases h <;> cases hnode <;> constructor

theorem replace_cons (h : root.at? path = some parent) (i : Nat) (node : Node) :
    root.replace (i :: path) node = root.replace path (parent.setChild i node) := by
  rw [replace, h]

theorem alike_replace {node' : Node} (h : root.at? path = some node) (hnode' : Alike node node') :
    Alike root (root.replace path node') := by
  induction path generalizing node node' with
  | nil =>
    obtain rfl := Option.some.inj h
    exact hnode'
  | cons i path ih =>
    obtain ⟨parent, hparent, hnode⟩ := Option.bind_eq_some_iff.mp h
    rw [replace_cons hparent]
    exact ih hparent ((child_of_getElem? hnode).alike_setChild hnode')

theorem replace_self (h : root.at? path = some node) : root.replace path node = root := by
  induction path generalizing node with
  | nil => exact (Option.some.inj h).symm
  | cons i path ih =>
    obtain ⟨parent, hparent, hnode⟩ := Option.bind_eq_some_iff.mp h
    rw [replace_cons hparent, (child_of_getElem? hnode).setChild_self, ih hparent]

theorem at?_replace {node' : Node} (h : root.at? path = some node) (hnode' : Alike node node') :
    (root.replace path node').at? path = some node' := by
  induction path generalizing node node' with
  | nil => rfl
  | cons i path ih =>
    obtain ⟨parent, hparent, hnode⟩ := Option.bind_eq_some_iff.mp h
    have hchild := child_of_getElem? hnode
    rw [replace_cons hparent, at?, ih hparent (hchild.alike_setChild hnode')]
    exact hchild.getElem?_setChild hnode'

end Node
end Sapling
