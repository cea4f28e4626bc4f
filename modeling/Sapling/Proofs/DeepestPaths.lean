import Mathlib.Order.Bounds.Basic
import Sapling.Proofs.PathNesting
import Sapling.Proofs.PrintedParse
import Sapling.Proofs.Yield

/-!
# The deepest programs

The bound on what nests on a path of a program is attained for every number of levels
(`isGreatest_path_nesting`). The expression that attains it has as many operators of each
precedence as there is room for, each tier inside the first right operand of the next looser one,
and inside the innermost tier a call with the deepest expression of one level less.
-/
namespace Sapling

open Node Printer

namespace Grammar

/-- What may stand behind an operand: no tighter operator, and nothing that a name could take. -/
def Stops (least : Nat) (rest : List Token) : Prop :=
  Loose least rest ∧ Unapplied rest

theorem Stops.mono {least least' : Nat} {rest : List Token} (h : Stops least rest)
    (hle : least ≤ least') : Stops least' rest :=
  ⟨h.1.mono hle, h.2⟩

theorem stops_operator {least : Nat} {op : Operator} (h : op.precedence < least)
    (rest : List Token) : Stops least (.operator op :: rest) := by
  refine ⟨?_, unapplied_operator op rest⟩
  rintro op' us ⟨⟩
  exact h

theorem Ends.stops {rest : List Token} (h : Ends rest) (least : Nat) : Stops least rest :=
  ⟨h.loose least, h.unapplied⟩

/-- Some text is read as an expression that has a path with `n` nodes that nest. -/
def Reaches (n : Nat) (reads : List Token → Expr → Prop) : Prop :=
  ∃ text ts e path, Spells text ts ∧ reads ts e ∧ (Node.expr e).Path path ∧ path.countP nests = n

theorem Reaches.imp {n : Nat} {reads reads' : List Token → Expr → Prop} (h : Reaches n reads)
    (hreads : ∀ ts e, reads ts e → reads' ts e) : Reaches n reads' := by
  obtain ⟨text, ts, e, path, htext, he, hpath, hn⟩ := h
  exact ⟨text, ts, e, path, htext, hreads ts e he, hpath, hn⟩

/-- An expression with `levels`, wherever no operator comes behind it. -/
def ReadsExpression (levels : Nat) (ts : List Token) (e : Expr) : Prop :=
  ∀ rest, Stops 0 rest → ExpressionWithin levels (ts ++ rest) e rest

/-- An operand with the operators behind it that bind at least as tightly as `least`. -/
def ReadsOperand (levels least : Nat) (ts : List Token) (e : Expr) : Prop :=
  ∀ rest, Stops least rest → ∃ first us, Operand (ExpressionWithin levels) (ts ++ rest) first us ∧
    Absorb (Operand (ExpressionWithin levels)) levels least first us e rest

def ReadsChain (levels : Nat) (op : Operator) (ts : List Token) (e : Expr) : Prop :=
  ∃ us, ts = .ident "a" :: .operator op :: us ∧ ∀ rest, Stops op.precedence rest →
    Chain (Operand (ExpressionWithin levels)) levels op.precedence levels (.variable "a")
      (.operator op :: (us ++ rest)) e rest

theorem spells_a : Spells " a " [.ident "a"] :=
  ⟨fun _ => rfl, fun hrest =>
    (lexes_name (show Lexer.isName "a" = true from rfl) spells_blank hrest).layout (.inl rfl)⟩

theorem spells_call : Spells " f(" [.ident "f", .mark .leftParen] :=
  ⟨fun _ => rfl, fun hrest => (lexes_name (show Lexer.isName "f" = true from rfl)
    (spells_mark .leftParen nofun) hrest).layout (.inl rfl)⟩

section
variable {levels n : Nat} {op : Operator}

theorem operand_a {expr : Phrase Expr} {least : Nat} {rest : List Token} (h : Stops least rest) :
    Operand expr (.ident "a" :: rest) (.variable "a") rest :=
  .name h.2.1 h.2.2

/-- A call costs a level and nests once. -/
theorem Reaches.call (h : Reaches n (ReadsExpression levels)) (least : Nat) :
    Reaches (n + 1) (ReadsOperand levels least) := by
  obtain ⟨text, ts, e, path, htext, he, hpath, rfl⟩ := h
  refine ⟨_, _, .call "f" [e], .expr (.call "f" [e]) :: path, (spells_call.append htext).append
    (spells_mark .rightParen nofun), ?_, .step (List.mem_singleton_self _) hpath,
    List.countP_cons_of_pos rfl⟩
  intro rest hrest
  have harg := he (.mark .rightParen :: rest) (Ends.rightParen.stops 0)
  have hstart : (ts ++ .mark .rightParen :: rest).head? ≠ some (.mark .rightParen) := by
    obtain ⟨t, us, hts, ht, -⟩ := opens_expressionWithin levels harg
    rw [hts]
    rintro ⟨⟩
    simp [opensExpression] at ht
  refine ⟨.call "f" [e], rest, ?_, .stop hrest.1⟩
  simpa using Operand.call (.some hstart (.last harg nofun))

/-- Operators of one precedence behind `left`, as many as there is room for. -/
theorem reaches_chain {left : Expr} {path : List Node} (hpath : (Node.expr left).Path path)
    (op : Operator) (levels room : Nat) :
    Reaches (path.countP nests + room) fun ts e =>
      (∀ rest, Stops (op.precedence + 1) rest → Stops (op.precedence + 1) (ts ++ rest)) ∧
        ∀ rest, Stops op.precedence rest → Chain (Operand (ExpressionWithin levels)) levels
          op.precedence room left (ts ++ rest) e rest := by
  induction room generalizing left path with
  | zero =>
    exact ⟨" ", [], left, path, spells_blank, ⟨fun _ h => h, fun _ h => .stop h.1⟩, hpath, rfl⟩
  | succ room ih =>
    have hleft := hpath.left op (.variable "a")
    obtain ⟨text, ts, e, path', htext, ⟨hstops, hchain⟩, hpath', hn⟩ := ih hleft
    refine ⟨_, _, e, path', ((spells_operator op).append spells_a).append htext, ⟨?_, ?_⟩, hpath',
      ?_⟩
    · exact fun rest _ => stops_operator (Nat.lt_succ_self _) _
    · intro rest hrest
      have hbehind := hstops rest (hrest.mono (Nat.le_succ _))
      exact .step (Nat.le_refl _) (operand_a hbehind) (.stop hbehind.1) (hchain rest hrest)
    · rw [hn, List.countP_cons_of_pos rfl, Nat.add_right_comm, Nat.add_assoc]

/-- A tier of operators around an operand that has absorbed the tighter ones. -/
theorem Reaches.chain (op : Operator)
    (h : Reaches n (ReadsOperand (levels + 1) (op.precedence + 1))) :
    Reaches (n + (levels + 1)) (ReadsChain (levels + 1) op) := by
  obtain ⟨text, ts, e, path, htext, he, hpath, rfl⟩ := h
  have hleft := hpath.right op (.variable "a")
  obtain ⟨text', ts', e', path', htext', ⟨hstops, hchain⟩, hpath', hn⟩ :=
    reaches_chain hleft op (levels + 1) levels
  refine ⟨_, _, e', path', ((spells_a.append (spells_operator op)).append htext).append htext',
    ⟨ts ++ ts', by simp, fun rest hrest => ?_⟩, hpath', ?_⟩
  · obtain ⟨first, us, hfirst, habsorbed⟩ :=
      he (ts' ++ rest) (hstops rest (hrest.mono (Nat.le_succ _)))
    rw [List.append_assoc]
    exact .step (Nat.le_refl _) hfirst habsorbed (hchain rest hrest)
  · rw [hn, List.countP_cons_of_pos rfl, Nat.add_right_comm, Nat.add_assoc]

theorem Reaches.operand (h : Reaches n (ReadsChain levels op)) :
    Reaches n (ReadsOperand levels op.precedence) := by
  refine h.imp ?_
  rintro _ e ⟨us, rfl, hchain⟩ rest hrest
  exact ⟨_, _, operand_a (stops_operator (Nat.lt_succ_self _) _),
    .step (Nat.le_refl _) (hchain rest hrest) (.stop hrest.1)⟩

theorem Reaches.expression (hop : op.precedence = 0) (h : Reaches n (ReadsChain levels op)) :
    Reaches n (ReadsExpression (levels + 1)) := by
  refine h.imp ?_
  rintro _ e ⟨us, rfl, hchain⟩ rest hrest
  rw [hop] at hchain
  exact .chain (operand_a (stops_operator (Nat.lt_succ_self _) _)) rfl (hchain rest hrest)

end

theorem reaches_deepest (levels : Nat) :
    Reaches (deepest (levels + 1)) (ReadsExpression (levels + 1)) := by
  induction levels with
  | zero =>
    refine ⟨_, _, .call "f" [], [.expr (.call "f" [])],
      spells_call.append (spells_mark .rightParen nofun), ?_, .leaf rfl, rfl⟩
    exact fun rest hrest => .chain (.call .none) rfl (.stop hrest.1)
  | succ levels ih =>
    have heq := (ih.call 5).chain .eq
    have hlt := heq.operand.chain .lt
    have hmul := hlt.operand.chain .mul
    have hdiv := hmul.operand.chain .div
    have hadd := hdiv.operand.chain .add
    have hsum : deepest (levels + 1 + 1) = deepest (levels + 1) + 1 + (levels + 1) + (levels + 1) +
        (levels + 1) + (levels + 1) + (levels + 1) := by
      rw [deepest_succ (levels + 1)]
      omega
    rw [hsum]
    exact hadd.expression rfl

end Grammar

open Grammar

/-- With a limit of `levels`, at most `levels + 5 * levels.choose 2` nodes that nest are on a path
of a program that is accepted, and some program has as many. -/
theorem isGreatest_path_nesting (strict : Bool) (levels : Nat) :
    IsGreatest {n | ∃ source program path,
        parse { strictParams := strict, maxDepth := levels } source = .ok program ∧
          (Node.block program).Path path ∧ n = path.tail.countP nests}
      (levels + 5 * levels.choose 2) := by
  constructor
  · cases levels with
    | zero => exact ⟨"", [], [.block []], rfl, .leaf rfl, rfl⟩
    | succ levels =>
      obtain ⟨text, ts, e, path, htext, he, hpath, hn⟩ := reaches_deepest levels
      have hlexes := (htext.append (spells_mark .semicolon nofun)).lexes Lexer.Lexes.nil
      have hstmt : Grammar.Program { strictParams := strict, maxDepth := levels + 1 }
          (ts ++ [.mark .semicolon]) [.expression e] :=
        .cons (.expression (he [.mark .semicolon] (Ends.semicolon.stops 0))) .nil
      refine ⟨text ++ Mark.semicolon.text, [.expression e], _, ?_, .statement hpath, ?_⟩
      · rw [List.append_nil, List.append_nil] at hlexes
        exact parseFrom_eq_ok_iff.mpr ⟨_, hlexes _ _, hstmt⟩
      · rw [List.tail_cons, List.countP_cons_of_neg Bool.false_ne_true, hn]
        rfl
  · rintro n ⟨source, program, path, hparse, hpath, rfl⟩
    obtain ⟨ts, -, hprogram⟩ := parseFrom_eq_ok_iff.mp hparse
    exact program_within hprogram hpath

/-- Two levels let five operators of five precedences nest. -/
theorem path_nesting_five_operators :
    ∃ program path, parse { maxDepth := 2 } "a + b / c * d < e == f;" = .ok program ∧
      (Node.block program).Path path ∧ 2 < path.tail.countP nests := by
  have hread : parse { maxDepth := 2 } "a + b / c * d < e == f;" = .ok
      [.expression (.binary .add (.variable "a") (.binary .div (.variable "b")
        (.binary .mul (.variable "c") (.binary .lt (.variable "d") (.binary .eq (.variable "e")
          (.variable "f"))))))] :=
    parse_eq_ok_of_equals rfl (by decide +kernel)
  have hleaf : (Node.expr (.variable "f")).Path [.expr (.variable "f")] := .leaf rfl
  have hpath := ((((hleaf.right .eq (.variable "e")).right .lt (.variable "d")).right .mul
    (.variable "c")).right .div (.variable "b")).right .add (.variable "a")
  exact ⟨_, _, hread, .statement hpath, by decide⟩

end Sapling
