import Mathlib.Data.Nat.Choose.Basic
import Sapling.Node.Basic
import Sapling.Proofs.ProgramComplete

/-!
# How deep the tree of a program can be

The nodes that nest are blocks, operators, assignments and calls. What a program has of them on one
path from its root to a leaf is bounded by the levels it was read with, but not by their number
(`Grammar.program_within`): the operators of each precedence have room of their own.
-/
namespace Sapling

namespace Node

/-- A way from a node down to one without children. -/
inductive Path : Node → List Node → Prop
  | leaf {node : Node} (none : node.children = []) : Path node [node]
  | step {node child : Node} {path : List Node} (below : child ∈ node.children)
      (rest : Path child path) : Path node (node :: path)

theorem Path.left {left : Expr} {path : List Node} (h : (Node.expr left).Path path)
    (op : Operator) (right : Expr) :
    (Node.expr (.binary op left right)).Path (.expr (.binary op left right) :: path) :=
  .step List.mem_cons_self h

theorem Path.right {right : Expr} {path : List Node} (h : (Node.expr right).Path path)
    (op : Operator) (left : Expr) :
    (Node.expr (.binary op left right)).Path (.expr (.binary op left right) :: path) :=
  .step (List.mem_cons_of_mem _ (List.mem_singleton_self _)) h

theorem Path.statement {e : Expr} {path : List Node} (h : (Node.expr e).Path path) :
    (Node.block [.expression e]).Path (.block [.expression e] :: .stmt (.expression e) :: path) :=
  .step (List.mem_singleton_self _) (.step (List.mem_singleton_self _) h)

/-- Blocks, and the expressions that have others inside them. -/
def nests : Node → Bool
  | .block _ | .expr (.binary ..) | .expr (.assign ..) | .expr (.call ..) => true
  | _ => false

/-- No path from the node has more than `n` nodes that nest. -/
def Within (n : Nat) (node : Node) : Prop :=
  ∀ path, node.Path path → path.countP nests ≤ n

variable {n m : Nat} {node : Node}

theorem Within.mono (h : Within n node) (hnm : n ≤ m) : Within m node :=
  fun path hpath => Nat.le_trans (h path hpath) hnm

theorem within_succ (h : ∀ child ∈ node.children, Within n child) : Within (n + 1) node := by
  intro path hpath
  cases hpath with
  | leaf _ => exact Nat.le_trans List.countP_le_length (Nat.succ_le_succ (Nat.zero_le n))
  | step below rest =>
    have hrest := h _ below _ rest
    rw [List.countP_cons]
    split <;> omega

theorem within_of_not_nests (hnode : node.nests = false)
    (h : ∀ child ∈ node.children, Within n child) : Within n node := by
  intro path hpath
  cases hpath with
  | leaf _ => simp [hnode]
  | step below rest =>
    rw [List.countP_cons, hnode]
    exact h _ below _ rest

end Node

namespace Grammar

open Node

/-- How many nodes that nest a path can have in a tree that was read with `levels`. -/
def deepest (levels : Nat) : Nat :=
  levels + 5 * levels.choose 2

theorem deepest_succ (levels : Nat) : deepest (levels + 1) = deepest levels + 1 + 5 * levels := by
  have hchoose : (levels + 1).choose 2 = levels.choose 1 + levels.choose 2 :=
    Nat.choose_succ_succ levels 1
  rw [deepest, deepest, hchoose, Nat.choose_one_right]
  omega

theorem Separated.forall_mem {α : Type} {item : Phrase α} {p : α → Prop}
    (h : ∀ ts a rest, item ts a rest → p a) {before : List α} {ts rest : List Token}
    {as : List α} (hs : Separated (fun _ => item) before ts as rest) : ∀ a ∈ as, p a := by
  induction hs with
  | last only _ => simpa using h _ _ _ only
  | more first _ ih => simpa using ⟨h _ _ _ first, ih⟩

theorem Listed.forall_mem {α : Type} {item : Phrase α} {p : α → Prop}
    (h : ∀ ts a rest, item ts a rest → p a) {ts rest : List Token} {as : List α}
    (hl : Listed (fun _ => item) ts as rest) : ∀ a ∈ as, p a := by
  cases hl with
  | none => simp
  | some _ items => exact items.forall_mem h

theorem operand_within {expr : Phrase Expr} {n : Nat}
    (hexpr : ∀ ts e rest, expr ts e rest → Within n (.expr e)) {ts rest : List Token} {e : Expr}
    (h : Operand expr ts e rest) : Within (n + 1) (.expr e) := by
  cases h with
  | name _ _ => exact within_of_not_nests rfl nofun
  | number | str => exact within_of_not_nests rfl nofun
  | group inner => exact (hexpr _ _ _ inner).mono (Nat.le_succ n)
  | assign value =>
    apply within_succ
    simpa [children] using hexpr _ _ _ value
  | call items =>
    apply within_succ
    simpa [children] using items.forall_mem hexpr

/-- What may nest on a path through operators that bind at least as tightly as `tier`, down to an
operand with `n` nodes. -/
def stacked (n levels tier : Nat) : Nat :=
  n + (5 - tier) * levels

theorem stacked_le {n levels tier tier' : Nat} (h : tier' ≤ tier) :
    stacked n levels tier ≤ stacked n levels tier' :=
  Nat.add_le_add_left (Nat.mul_le_mul_right levels (by omega)) n

theorem stacked_precedence (n levels : Nat) (op : Operator) :
    stacked n levels op.precedence = stacked n levels (op.precedence + 1) + levels := by
  have hop := op.precedence_lt
  have htiers : 5 - op.precedence = 5 - (op.precedence + 1) + 1 := by omega
  rw [stacked, stacked, htiers, Nat.add_one_mul, Nat.add_assoc]

section
variable {operand : Phrase Expr} {levels n : Nat}

mutual

/-- A chain adds no more than there is room for to what its left end and its right operands have. -/
theorem Chain.within (hoperand : ∀ ts e rest, operand ts e rest → Within n (.expr e))
    {least room m : Nat} {left e : Expr} {ts rest : List Token}
    (hm : stacked n levels (least + 1) ≤ m) (hleft : Within m (.expr left)) :
    Chain operand levels least room left ts e rest → Within (m + room) (.expr e)
  | .stop _ => hleft.mono (Nat.le_add_right m _)
  | @Chain.step _ _ _ room _ _ right _ op _ _ _ _ tight begins absorbed others => by
    have hfirst := (hoperand _ _ _ begins).mono (Nat.le_add_right n ((5 - 5) * levels))
    have hright : Within m (.expr right) :=
      (absorbed.within hoperand op.precedence_lt (loose_five _) hfirst).mono
        (Nat.le_trans (stacked_le (Nat.succ_le_succ tight)) hm)
    have hbinary : Within (m + 1) (.expr (.binary op left right)) := by
      apply within_succ
      simpa [children] using ⟨hleft, hright⟩
    exact (others.within hoperand (by omega) hbinary).mono (by omega)

/-- The tiers of operators that an operand absorbs add up. What it has absorbed so far is of the
tiers from `tier` on. -/
theorem Absorb.within (hoperand : ∀ ts e rest, operand ts e rest → Within n (.expr e))
    {least tier : Nat} {right e : Expr} {ts rest : List Token} (hleast : least ≤ tier)
    (hloose : Loose tier ts) (hright : Within (stacked n levels tier) (.expr right)) :
    Absorb operand levels least right ts e rest → Within (stacked n levels least) (.expr e)
  | .stop _ => hright.mono (stacked_le hleast)
  | @Absorb.step _ _ _ _ middle _ op _ _ _ tight chain others => by
    have hop : op.precedence < tier := hloose _ _ rfl
    have hmiddle : Within (stacked n levels op.precedence) (.expr middle) := by
      rw [stacked_precedence]
      exact chain.within hoperand (Nat.le_refl _) (hright.mono (stacked_le hop))
    exact others.within hoperand tight chain.loose hmiddle

end

end

theorem expression_within {levels : Nat} {ts rest : List Token} {e : Expr}
    (h : ExpressionWithin levels ts e rest) : Within (deepest levels) (.expr e) := by
  induction levels generalizing ts e rest with
  | zero => exact h.elim
  | succ levels ih =>
    have hoperand (ts : List Token) (e : Expr) (rest : List Token)
        (h : Operand (ExpressionWithin levels) ts e rest) :
        Within (deepest levels + 1) (.expr e) :=
      operand_within (fun _ _ _ h => ih h) h
    rw [deepest_succ]
    cases h with
    | assignment only _ => exact (hoperand _ _ _ only).mono (Nat.le_add_right _ _)
    | chain begins _ others =>
      have hchain := others.within hoperand (Nat.le_refl _)
        ((hoperand _ _ _ begins).mono (Nat.le_add_right _ _))
      refine hchain.mono ?_
      simp only [stacked]
      omega

theorem statement_within {strict : Bool} {n : Nat} {expr : Phrase Expr} {block : Phrase Block}
    (hexpr : ∀ ts e rest, expr ts e rest → Within n (.expr e))
    (hblock : ∀ ts b rest, block ts b rest → Within n (.block b)) {ts rest : List Token} {s : Stmt}
    (h : Statement strict expr block ts s rest) : Within n (.stmt s) := by
  apply within_of_not_nests rfl
  cases h with
  | expression value => simpa [children] using hexpr _ _ _ value
  | ret value => simpa [children] using hexpr _ _ _ value
  | loop condition body => simpa [children] using ⟨hexpr _ _ _ condition, hblock _ _ _ body⟩
  | conditional condition taken _ =>
    simpa [children] using ⟨hexpr _ _ _ condition, hblock _ _ _ taken⟩
  | alternative condition taken otherwise =>
    simpa [children] using
      ⟨hexpr _ _ _ condition, hblock _ _ _ taken, hblock _ _ _ otherwise⟩
  | define _ body => simpa [children] using hblock _ _ _ body

theorem repeated_within {stmt : Phrase Stmt} {n : Nat}
    (hstmt : ∀ ts s rest, stmt ts s rest → Within n (.stmt s)) {ts rest : List Token} {b : Block}
    (h : Repeated stmt ts b rest) : ∀ s ∈ b, Within n (.stmt s) := by
  induction h with
  | nil => simp
  | cons first _ ih => simpa using ⟨hstmt _ _ _ first, ih⟩

theorem block_within {strict : Bool} {levels : Nat} {ts rest : List Token} {b : Block}
    (h : BlockWithin strict levels ts b rest) : Within (deepest levels) (.block b) := by
  induction levels generalizing ts b rest with
  | zero => exact h.elim
  | succ levels ih =>
    have hstmt (ts : List Token) (s : Stmt) (rest : List Token)
        (h : StatementWithin strict levels ts s rest) : Within (deepest levels) (.stmt s) :=
      statement_within (fun _ _ _ h => expression_within h) (fun _ _ _ h => ih h) h
    have hbody : ∀ s ∈ b, Within (deepest levels) (.stmt s) := by
      cases h with
      | braces items => exact repeated_within hstmt items
      | single _ only => simpa using hstmt _ _ _ only
    refine (within_succ (n := deepest levels) ?_).mono ?_
    · simpa [children] using hbody
    · rw [deepest_succ]
      exact Nat.le_add_right _ _

/-- Behind the root of a program, no path has more nodes that nest than the levels allow. -/
theorem program_within {options : ParseOptions} {ts : List Token} {program : Block}
    (h : Program options ts program) {path : List Node} (hpath : (Node.block program).Path path) :
    path.tail.countP nests ≤ deepest options.maxDepth := by
  have hstmts : ∀ s ∈ program, Within (deepest options.maxDepth) (.stmt s) :=
    repeated_within (fun _ _ _ h => statement_within (fun _ _ _ h => expression_within h)
      (fun _ _ _ h => block_within h) h) h
  cases hpath with
  | leaf _ => exact Nat.zero_le _
  | step below rest =>
    obtain ⟨s, hs, rfl⟩ := List.mem_map.mp below
    exact hstmts s hs _ rest

end Grammar
end Sapling
