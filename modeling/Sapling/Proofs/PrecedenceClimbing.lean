import Sapling.Proofs.EndingCalls
import Sapling.Proofs.Grouping
import Sapling.Proofs.RestoredDepth

/-!
# Precedence climbing

A parser that can read some operators with their operands one after another, on any stream, reads
the expression that is grouped by splitting at the loosest operator
(`expression_grouped`). The climb is that of the grammar: its chain through the operators alone is
followed by the calls of the parser, where the operand behind an operator is told by its place.
-/
namespace Sapling.Parser

open Grammar

variable {σ : Type} [TokenStream σ]

/-- A parser reads operators with their right operands, one after another, each operand by a call
of its own. -/
inductive Alternates : Parser σ → List (Operator × Expr) → Parser σ → Prop
  | nil {p : Parser σ} : Alternates p [] p
  | cons {p q r last : Parser σ} {op : Operator} {operand : Expr} {ops : List (Operator × Expr)}
      (next : p.token? = some (.operator op)) (taken : advance p = some (.ok (), q))
      (begins : q.primary = some (.ok operand, r)) (others : Alternates r ops last) :
      Alternates p ((op, operand) :: ops) last

variable {p q r last : Parser σ} {op : Operator} {left right first e : Expr}
  {ops all : List (Operator × Expr)} {least levels room operators : Nat} {ts rest : List Token}

theorem Alternates.depth_eq (h : Alternates p ops last) :
    p.depth = last.depth ∧ p.options = last.options := by
  have hagree : Agree (primary (σ := σ)) (primary (σ := σ)) := agree_expressions.2.2
  induction h with
  | nil => exact ⟨rfl, rfl⟩
  | cons _ taken begins _ ih =>
    obtain ⟨-, hdepth, hoptions, -⟩ := advance_ok taken
    have hdepth' := hagree.depth_eq begins
    have hoptions' := hagree.options_eq begins
    exact ⟨hdepth.symm.trans (hdepth'.symm.trans ih.1),
      hoptions.symm.trans (hoptions'.symm.trans ih.2)⟩

theorem tightOperator_of_looser {next : Option Token} (h : Looser least next) :
    tightOperator least next = none := by
  rcases tightOperator_cases least next with ⟨hnone, -⟩ | ⟨t, op, -, rfl, hop, htight⟩
  · exact hnone
  · exact absurd (h op hop) (Nat.not_lt_of_le htight)

theorem tightOperator_operator (h : least ≤ op.precedence) :
    tightOperator least (some (.operator op)) = some op := by
  simp [tightOperator, Token.operator?, h]

theorem nextOperator_apply {α : Type} (k : Option Operator → Call σ α) (p : Parser σ) :
    (nextOperator least >>= k) p = k (tightOperator least p.token?) p :=
  rfl

omit [TokenStream σ] in
theorem bind_of_ok {α β : Type} {f : Call σ α} {k : α → Call σ β} {a : α}
    (h : f p = some (.ok a, q)) : (f >>= k) p = k a q := by
  rw [bind_apply, h]
  rfl

theorem binary_of_looser (h : Looser least p.token?) :
    p.binary least operators left = some (.ok left, p) := by
  refine (binary.eq_1 least operators left p).trans ?_
  refine (nextOperator_apply _ p).trans ?_
  rw [tightOperator_of_looser h]
  rfl

/-- A chain takes an operator, and what its operand absorbs, and goes on. -/
theorem binary_of_operator {s : Parser σ} (hnext : p.token? = some (.operator op))
    (htight : least ≤ op.precedence) (hroom : p.depth + (operators + 1) ≤ p.options.maxDepth)
    (htaken : advance p = some (.ok (), q)) (hbegins : q.primary = some (.ok first, r))
    (habsorbed : r.absorb op first = some (.ok right, s)) :
    p.binary least operators left = s.binary least (operators + 1) (.binary op left right) := by
  have hfits : p.isExceededBy (operators + 1) = false := decide_eq_false (Nat.not_lt_of_le hroom)
  refine (binary.eq_1 least operators left p).trans ?_
  refine (nextOperator_apply _ p).trans ?_
  rw [hnext, tightOperator_operator htight]
  refine (when_apply (isExceededBy (operators + 1)) (violation .nesting) _ p).trans ?_
  rw [hfits, if_neg Bool.false_ne_true, bind_of_ok htaken]
  exact (bind_of_ok (f := (· |>.primary)) hbegins).trans (bind_of_ok habsorbed)

theorem absorb_of_looser (h : Looser (op.precedence + 1) p.token?) :
    p.absorb op right = some (.ok right, p) := by
  refine (absorb.eq_1 op right p).trans ?_
  refine (nextOperator_apply _ p).trans ?_
  rw [tightOperator_of_looser h]
  rfl

/-- A right operand is taken by a chain of tighter operators, and then may be taken again. -/
theorem absorb_of_operator {next : Operator} (hnext : p.token? = some (.operator next))
    (htight : op.precedence < next.precedence)
    (hchain : p.binary next.precedence 0 right = some (.ok e, q)) :
    p.absorb op right = q.absorb op e := by
  refine (absorb.eq_1 op right p).trans ?_
  refine (nextOperator_apply _ p).trans ?_
  rw [hnext, tightOperator_operator htight]
  exact bind_of_ok hchain

/-- The operators of a chain, without their operands. -/
def signs (ops : List (Operator × Expr)) : List Token :=
  ops.map fun (op, _) => .operator op

/-- The operand behind an operator of a chain, which its place in the chain tells. It takes nothing
of what is left, as only operators are. -/
def OperandAt (all : List (Operator × Expr)) : Phrase Expr := fun ts e rest =>
  rest = ts ∧ ∃ op ops, (op, e) :: ops <:+ all ∧ ts = signs ops

/-- The parser is at one of the operators, or behind the last of them. -/
def StandsAt (all : List (Operator × Expr)) (last : Parser σ) (ts : List Token) (p : Parser σ) :
    Prop :=
  ∃ ops, ops <:+ all ∧ Alternates p ops last ∧ ts = signs ops

theorem operations_signs (h : ops <:+ all) :
    Operations (OperandAt all) (signs ops) ops [] := by
  induction ops with
  | nil => exact .nil
  | cons x ops ih =>
    obtain ⟨op, e⟩ := x
    exact .cons ⟨rfl, op, ops, h, rfl⟩ (ih ((List.suffix_cons _ _).trans h))

theorem length_signs (ops : List (Operator × Expr)) : (signs ops).length = ops.length :=
  List.length_map _

theorem eq_of_signs {ops ops' : List (Operator × Expr)} (h : ops <:+ all) (h' : ops' <:+ all)
    (hsigns : (signs ops).length = (signs ops').length) : ops = ops' := by
  rw [length_signs, length_signs] at hsigns
  exact (List.suffix_of_suffix_length_le h h' (Nat.le_of_eq hsigns)).eq_of_length hsigns

theorem StandsAt.looser (h : StandsAt all last ts p) (hloose : Loose least ts)
    (hlast : Looser 0 last.token?) : Looser least p.token? := by
  obtain ⟨ops, -, hops, rfl⟩ := h
  cases hops with
  | nil => exact fun op hop => absurd (hlast op hop) (Nat.not_lt_zero _)
  | @cons _ _ _ _ op operand ops hnext _ _ _ =>
    intro op' hop'
    rw [hnext] at hop'
    obtain rfl := Option.some.inj hop'
    exact hloose op (signs ops) rfl

theorem StandsAt.depth_eq (h : StandsAt all last ts p) :
    p.depth = last.depth ∧ p.options = last.options := by
  obtain ⟨ops, -, hops, -⟩ := h
  exact hops.depth_eq

theorem StandsAt.token?_eq (h : StandsAt all last (.operator op :: ts) p) :
    p.token? = some (.operator op) := by
  obtain ⟨ops, -, hops, hts⟩ := h
  cases hops with
  | nil => cases hts
  | cons next => exact (List.cons.inj hts).1 ▸ next

/-- The operand that the grammar takes behind an operator is the one that the parser reads there. -/
theorem StandsAt.takes (h : StandsAt all last (.operator op :: ts) p)
    (begins : OperandAt all ts first rest) :
    ∃ q r, advance p = some (.ok (), q) ∧ q.primary = some (.ok first, r) ∧
      StandsAt all last rest r := by
  obtain ⟨ops, hall, hops, hts⟩ := h
  obtain ⟨rfl, op', ops', hall', rfl⟩ := begins
  cases hops with
  | nil => cases hts
  | @cons _ q r _ op operand others _ taken begins hothers =>
    have hlength := congrArg List.length (List.cons.inj hts).2
    have hsame : (op', first) :: ops' = (op, operand) :: others := by
      refine eq_of_signs hall' hall ?_
      simpa [signs] using hlength
    obtain ⟨⟨-, rfl⟩, rfl⟩ : (op' = op ∧ first = operand) ∧ ops' = others := by simpa using hsame
    exact ⟨q, r, taken, begins, ops', (List.suffix_cons _ _).trans hall, hothers, rfl⟩

mutual

/-- The parser takes the operators that the chain of the grammar takes. -/
theorem binary_of_chain {least room operators : Nat} {left e : Expr} {ts rest : List Token}
    {p : Parser σ} (hlast : Looser 0 last.token?)
    (hlevels : last.depth + levels ≤ last.options.maxDepth) (hroom : operators + room = levels)
    (hp : StandsAt all last ts p) : Chain (OperandAt all) levels least room left ts e rest →
      ∃ q, p.binary least operators left = some (.ok e, q) ∧ StandsAt all last rest q
  | .stop loose => ⟨p, binary_of_looser (hp.looser loose hlast), hp⟩
  | .step tight begins absorbed others => by
    obtain ⟨hdepth, hoptions⟩ := hp.depth_eq
    have hfits : p.depth + (operators + 1) ≤ p.options.maxDepth := by
      rw [hdepth, hoptions]
      omega
    obtain ⟨q, r, htaken, hbegins, hr⟩ := hp.takes begins
    obtain ⟨s, habsorbed, hs⟩ := absorb_of_absorb hlast hlevels rfl hr absorbed
    have hroom' : operators + 1 + _ = levels := (Nat.add_right_comm _ _ _).trans hroom
    obtain ⟨t, hothers, ht⟩ := binary_of_chain hlast hlevels hroom' hs others
    exact ⟨t, (binary_of_operator hp.token?_eq tight hfits htaken hbegins habsorbed).trans hothers,
      ht⟩

theorem absorb_of_absorb {least : Nat} {op : Operator} {right e : Expr} {ts rest : List Token}
    {p : Parser σ} (hlast : Looser 0 last.token?)
    (hlevels : last.depth + levels ≤ last.options.maxDepth) (hleast : least = op.precedence + 1)
    (hp : StandsAt all last ts p) : Absorb (OperandAt all) levels least right ts e rest →
      ∃ q, p.absorb op right = some (.ok e, q) ∧ StandsAt all last rest q
  | .stop loose => ⟨p, absorb_of_looser (hp.looser (hleast ▸ loose) hlast), hp⟩
  | .step tight chain others => by
    obtain ⟨q, hchain, hq⟩ := binary_of_chain hlast hlevels (Nat.zero_add _) hp chain
    obtain ⟨r, hothers, hr⟩ := absorb_of_absorb hlast hlevels hleast hq others
    have htight : op.precedence < _ := Nat.lt_of_lt_of_le (Nat.lt_succ_self _) (hleast ▸ tight)
    exact ⟨r, (absorb_of_operator hp.token?_eq htight hchain).trans hothers, hr⟩

end

theorem binary_of_alternates (hops : Alternates p ops last) (hlast : Looser 0 last.token?)
    (hlevels : last.depth + ops.length ≤ last.options.maxDepth) (hgrouped : Grouped first ops e) :
    p.binary 0 0 first = some (.ok e, last) := by
  have hloose : Loose 0 [] := nofun
  have hchain := (operations_signs (List.suffix_refl ops)).chain hloose (Nat.le_refl _) hgrouped
  obtain ⟨q, hq, ops', -, hops', hnil⟩ :=
    binary_of_chain hlast hlevels (Nat.zero_add _) ⟨ops, List.suffix_refl _, hops, rfl⟩ hchain
  obtain rfl : ops' = [] := List.map_eq_nil_iff.mp hnil.symm
  cases hops'
  exact hq

theorem primary_variable {name : String} (named : p.token? = some (.ident name))
    (taken : advance p = some (.ok (), q)) (assign : q.token? ≠ some (.mark .assign))
    (call : q.token? ≠ some (.mark .leftParen)) :
    p.primary = some (.ok (.variable name), q) := by
  have hname : q.afterName name = some (.ok (.variable name), q) := by
    refine (afterName.eq_1 name q).trans ((bind_of_ok (f := peek) rfl).trans ?_)
    generalize q.token? = next at assign call ⊢
    split
    · exact absurd rfl assign
    · exact absurd rfl call
    · rfl
  refine (primary.eq_1 p).trans ((bind_of_ok (f := peek) rfl).trans ?_)
  rw [named]
  exact (bind_of_ok taken).trans hname

/-- Where a first operand that is no assignment and any operators with their operands can be read
one after another, and no operator follows, an expression with levels enough for them is read, and
it is their tree: the loosest operator, of several the last, is at the top, and those on either
side of it are grouped the same way. -/
theorem expression_grouped (hfits : p.depth + 1 + ops.length ≤ p.options.maxDepth)
    (begins : p.deeper.primary = some (.ok first, q)) (alone : first.isAssign = false)
    (others : Alternates q ops last) (ends : Looser 0 last.token?) :
    ∃ e, p.expression = some (.ok e, last.shallower) ∧ ∀ e', Grouped first ops e' ↔ e' = e := by
  obtain ⟨e, hgrouped⟩ := exists_grouped first ops
  refine ⟨e, ?_, fun e' => ⟨fun h => h.unique hgrouped, fun h => h ▸ hgrouped⟩⟩
  have hagree : Agree (primary (σ := σ)) (primary (σ := σ)) := agree_expressions.2.2
  have hlevels : last.depth + ops.length ≤ last.options.maxDepth := by
    rw [← others.depth_eq.1, ← others.depth_eq.2, hagree.depth_eq begins, hagree.options_eq begins]
    exact hfits
  have hbody : p.deeper.expressionBody = some (.ok e, last) := by
    refine (expressionBody.eq_1 _).trans ((bind_of_ok (f := (· |>.primary)) begins).trans ?_)
    rw [alone, if_neg Bool.false_ne_true]
    exact binary_of_alternates others ends hlevels hgrouped
  have hroom : p.isFull = false := decide_eq_false (by omega)
  rw [expression.eq_1, hroom, if_neg Bool.false_ne_true, hbody]
  rfl

/-- A parser inside an expression that is at the first of some tokens. -/
def atTokens (t : Token) (ts : List Token) : Parser Feed where
  stream := { rest := ts.map fun t => ⟨1, .ok t⟩, current := some t }
  atEnd := false
  depth := 1
  options := { maxDepth := 5 }

theorem expression_grouped_sum :
    (atTokens (.ident "a") [.operator .sub, .ident "b", .operator .mul, .ident "c",
      .operator .add, .ident "d", .mark .semicolon]).expression =
    some (.ok (.binary .add (.binary .sub (.variable "a")
      (.binary .mul (.variable "b") (.variable "c"))) (.variable "d")),
      atTokens (.mark .semicolon) []) := by
  have hops : Alternates
      (atTokens (.operator .sub) [.ident "b", .operator .mul, .ident "c", .operator .add,
        .ident "d", .mark .semicolon]).deeper
      [(.sub, .variable "b"), (.mul, .variable "c"), (.add, .variable "d")]
      (atTokens (.mark .semicolon) []).deeper :=
    .cons rfl rfl (primary_variable rfl rfl nofun nofun)
      (.cons rfl rfl (primary_variable rfl rfl nofun nofun)
        (.cons rfl rfl (primary_variable rfl rfl nofun nofun) .nil))
  have hfirst : (atTokens (.ident "a") [.operator .sub, .ident "b", .operator .mul, .ident "c",
      .operator .add, .ident "d", .mark .semicolon]).deeper.primary = _ :=
    primary_variable rfl rfl nofun nofun
  obtain ⟨e, hparsed, hgrouped⟩ := expression_grouped (by decide) hfirst rfl hops nofun
  have hproduct : Grouped (.variable "b") ([] ++ (.mul, .variable "c") :: []) _ :=
    .split nofun nofun .alone .alone
  have hdifference : Grouped (.variable "a") ([] ++ (.sub, .variable "b") :: _) _ :=
    .split nofun (by decide) .alone hproduct
  have hsum : Grouped (.variable "a") (_ ++ (.add, .variable "d") :: []) _ :=
    .split (by decide) nofun hdifference .alone
  exact (hgrouped _).mp hsum ▸ hparsed

end Sapling.Parser
