import Sapling.Proofs.Printable
import Sapling.Proofs.ProgramComplete
import Sapling.Proofs.Yield

/-!
# Assignments as left operands

An expression that begins with an assignment in parentheses ends behind them, so that no operator
of its own chain takes the assignment. Where the assignment stands behind an operator, a tighter
operator that follows takes it as its left operand. `noAssignmentTaken` looks for such places in
a list of tokens, and it finds one exactly if the program that is read from the tokens has an
assignment as a left operand.
-/
namespace Sapling

namespace Grammar

/-- The tokens behind the group that is open, with a number of groups open inside it. -/
def behindGroup : (inner : Nat) → List Token → List Token
  | _, [] => []
  | inner, .mark .leftParen :: ts => behindGroup (inner + 1) ts
  | 0, .mark .rightParen :: ts => ts
  | inner + 1, .mark .rightParen :: ts => behindGroup inner ts
  | inner, _ :: ts => behindGroup inner ts

/-- An assignment comes next, whatever parentheses open before it. -/
def beginsAssignment : List Token → Bool
  | .mark .leftParen :: ts => beginsAssignment ts
  | .ident _ :: .mark .assign :: _ => true
  | _ => false

/-- The tokens behind an assignment in parentheses that comes next, alone or as the value of
assignments. Only of such an assignment can an operator come next. -/
def behindAssignment? : List Token → Option (List Token)
  | .ident _ :: .mark .assign :: ts => behindAssignment? ts
  | .mark .leftParen :: ts => if beginsAssignment ts then some (behindGroup 0 ts) else none
  | _ => none

/-- An assignment in parentheses comes next, and behind it a tighter operator than the given one,
which comes before it. -/
def takesAssignment (op : Operator) (ts : List Token) : Bool :=
  match behindAssignment? ts with
  | some (.operator op' :: _) => op.precedence < op'.precedence
  | _ => false

def noAssignmentTaken : List Token → Bool
  | [] => true
  | .operator op :: ts => !takesAssignment op ts && noAssignmentTaken ts
  | _ :: ts => noAssignmentTaken ts

@[simp] theorem noAssignmentTaken_mark (m : Mark) (ts : List Token) :
    noAssignmentTaken (.mark m :: ts) = noAssignmentTaken ts := rfl

@[simp] theorem noAssignmentTaken_ident (name : String) (ts : List Token) :
    noAssignmentTaken (.ident name :: ts) = noAssignmentTaken ts := rfl

@[simp] theorem noAssignmentTaken_keyword (word : Keyword) (ts : List Token) :
    noAssignmentTaken (.keyword word :: ts) = noAssignmentTaken ts := rfl

variable {α : Type} {expr operand : Phrase Expr} {levels : Nat}

def Balanced (phrase : Phrase α) : Prop :=
  ∀ ⦃ts : List Token⦄ ⦃a : α⦄ ⦃rest : List Token⦄, phrase ts a rest →
    ∀ inner, behindGroup inner ts = behindGroup inner rest

theorem Separated.balanced {item : List α → Phrase α} (h : ∀ before, Balanced (item before))
    (before : List α) : Balanced (Separated item before) := by
  intro ts as rest hs inner
  induction hs with
  | last only _ => exact h _ only inner
  | more first _ ih => exact (h _ first inner).trans ih

theorem Listed.balanced {item : List α → Phrase α} (h : ∀ before, Balanced (item before)) :
    Balanced (Listed item) := by
  intro ts as rest hl inner
  cases hl with
  | none => rfl
  | some _ items => exact Separated.balanced h [] items inner

theorem Operand.balanced (h : Balanced expr) : Balanced (Operand expr) := by
  intro ts e rest ho inner
  cases ho with
  | name | number | str => rfl
  | group inside => exact h inside (inner + 1)
  | assign value => exact h value inner
  | call items => exact Listed.balanced (fun _ => h) items (inner + 1)

mutual

theorem Chain.balanced (h : Balanced operand) {least room : Nat} {left e : Expr}
    {ts rest : List Token} : Chain operand levels least room left ts e rest →
      ∀ inner, behindGroup inner ts = behindGroup inner rest
  | .stop _ => fun _ => rfl
  | .step _ begins absorbed others => fun inner =>
    (h begins inner).trans ((absorbed.balanced h inner).trans (others.balanced h inner))

theorem Absorb.balanced (h : Balanced operand) {least : Nat} {right e : Expr}
    {ts rest : List Token} : Absorb operand levels least right ts e rest →
      ∀ inner, behindGroup inner ts = behindGroup inner rest
  | .stop _ => fun _ => rfl
  | .step _ chain others => fun inner =>
    (chain.balanced h inner).trans (others.balanced h inner)

end

theorem expressionWithin_balanced (levels : Nat) : Balanced (ExpressionWithin levels) := by
  induction levels with
  | zero => exact fun _ _ _ hp => hp.elim
  | succ levels ih =>
    intro ts e rest hc inner
    cases hc with
    | assignment only _ => exact Operand.balanced ih only inner
    | chain begins _ others =>
      exact (Operand.balanced ih begins inner).trans (others.balanced (Operand.balanced ih) inner)

theorem Chain.isAssign {least room : Nat} {left e : Expr} {ts rest : List Token}
    (hleft : left.isAssign = false) :
    Chain operand levels least room left ts e rest → e.isAssign = false
  | .stop _ => hleft
  | .step _ _ _ others => others.isAssign rfl

/-- A phrase of expressions is an assignment if one comes next. -/
def BeginsAs (expr : Phrase Expr) : Prop :=
  ∀ ⦃ts : List Token⦄ ⦃e : Expr⦄ ⦃rest : List Token⦄, expr ts e rest →
    e.isAssign = beginsAssignment ts

theorem Operand.beginsAs (h : BeginsAs expr) : BeginsAs (Operand expr) := by
  intro ts e rest ho
  cases ho with
  | name notAssigned _ =>
    unfold beginsAssignment
    split
    · next heq => simp at heq
    · next heq =>
      obtain rfl := (List.cons.inj heq).2
      exact absurd rfl notAssigned
    · rfl
  | number | str | assign | call => rfl
  | group inside =>
    rw [beginsAssignment]
    exact h inside

theorem expressionWithin_beginsAs (levels : Nat) : BeginsAs (ExpressionWithin levels) := by
  induction levels with
  | zero => exact fun _ _ _ hp => hp.elim
  | succ levels ih =>
    intro ts e rest hc
    cases hc with
    | assignment only _ => exact Operand.beginsAs ih only
    | chain begins assigns others =>
      rw [others.isAssign assigns, ← assigns]
      exact Operand.beginsAs ih begins

/-- An operand ends behind the assignment in parentheses that comes next. Any other assignment
has taken all operators that come behind its value. -/
structure Locates (operand : Phrase Expr) : Prop where
  ends : ∀ {ts us rest : List Token} {e : Expr}, operand ts e rest →
    behindAssignment? ts = some us → e.isAssign = true ∧ us = rest
  begins : ∀ {ts rest : List Token} {e : Expr}, operand ts e rest → e.isAssign = true →
    Loose 0 rest ∨ behindAssignment? ts = some rest

theorem Operand.behindAssignment?_group (hbalanced : Balanced expr) (hbegins : BeginsAs expr)
    {ts rest : List Token} {e : Expr} (inside : expr ts e (.mark .rightParen :: rest)) :
    behindAssignment? (.mark .leftParen :: ts) = if e.isAssign then some rest else none := by
  have hrest := hbalanced inside 0
  rw [behindAssignment?, hbegins inside, hrest]
  rfl

theorem Operand.locates (hbalanced : Balanced expr) (hbegins : BeginsAs expr)
    (hends : ∀ {ts us rest : List Token} {e : Expr}, expr ts e rest →
      behindAssignment? ts = some us → us = rest)
    (hloose : ∀ {ts rest : List Token} {e : Expr}, expr ts e rest →
      Loose 0 rest ∨ behindAssignment? ts = some rest) : Locates (Operand expr) where
  ends {ts us rest e} ho hus := by
    cases ho with
    | name notAssigned _ =>
      unfold behindAssignment? at hus
      split at hus
      · next heq =>
        obtain rfl := (List.cons.inj heq).2
        exact absurd rfl notAssigned
      · next heq => simp at heq
      · simp at hus
    | number | str | call => simp [behindAssignment?] at hus
    | group inside =>
      rw [Operand.behindAssignment?_group hbalanced hbegins inside] at hus
      split at hus
      · next hassign => exact ⟨hassign, (Option.some.inj hus).symm⟩
      · simp at hus
    | assign value =>
      rw [behindAssignment?] at hus
      exact ⟨rfl, hends value hus⟩
  begins {ts rest e} ho hassign := by
    cases ho with
    | name | number | str | call => simp [Expr.isAssign] at hassign
    | group inside =>
      rw [Operand.behindAssignment?_group hbalanced hbegins inside, if_pos hassign]
      exact .inr rfl
    | assign value =>
      rw [behindAssignment?]
      exact hloose value

theorem operand_locates (levels : Nat) : Locates (Operand (ExpressionWithin levels)) := by
  induction levels with
  | zero =>
    exact Operand.locates (expressionWithin_balanced 0) (expressionWithin_beginsAs 0)
      (fun h => h.elim) (fun h => h.elim)
  | succ levels ih =>
    refine Operand.locates (expressionWithin_balanced _) (expressionWithin_beginsAs _) ?_ ?_
    · intro ts us rest e h hus
      cases h with
      | assignment only _ => exact (ih.ends only hus).2
      | chain begins assigns _ =>
        have hassign := (ih.ends begins hus).1
        simp [assigns] at hassign
    · intro ts rest e h
      cases h with
      | assignment only assigns => exact ih.begins only assigns
      | chain _ _ others => exact .inl others.loose

/-- An operator takes no operand that is not an assignment. -/
theorem takesAssignment_eq_false {op : Operator} (hlocates : Locates operand)
    {ts us : List Token} {first : Expr} (begins : operand ts first us)
    (h : first.isAssign = false ∨ Loose (op.precedence + 1) us) :
    takesAssignment op ts = false := by
  unfold takesAssignment
  split
  · next op' vs heq =>
    obtain ⟨hassign, rfl⟩ := hlocates.ends begins heq
    rcases h with hfirst | hloose
    · simp [hassign] at hfirst
    · have hlt := hloose op' vs rfl
      simp only [decide_eq_false_iff_not]
      omega
  · rfl

theorem takesAssignment_eq_true {op op' : Operator} (hlocates : Locates operand)
    {ts us : List Token} {first : Expr} (begins : operand ts first (.operator op' :: us))
    (hassign : first.isAssign = true) (h : op.precedence + 1 ≤ op'.precedence) :
    takesAssignment op ts = true := by
  rcases hlocates.begins begins hassign with hloose | heq
  · exact absurd (hloose op' us rfl) (Nat.not_lt_zero _)
  · rw [takesAssignment, heq]
    exact decide_eq_true h

mutual

theorem Chain.isPlain_left {least room : Nat} {left e : Expr} {ts rest : List Token}
    (h : e.all Node.isPlain = true) :
    Chain operand levels least room left ts e rest → left.all Node.isPlain = true
  | .stop _ => h
  | .step _ _ _ others => by
    have hbinary := others.isPlain_left h
    simp only [Expr.all, Bool.and_eq_true] at hbinary
    exact hbinary.1.2

theorem Absorb.isPlain_right {least : Nat} {right e : Expr} {ts rest : List Token}
    (h : e.all Node.isPlain = true) :
    Absorb operand levels least right ts e rest → right.all Node.isPlain = true
  | .stop _ => h
  | .step _ chain others => chain.isPlain_left (others.isPlain_right h)

end

/-- A chain that begins with an assignment and an operator makes it a left operand. -/
theorem Chain.not_isPlain {least room : Nat} {left e : Expr} {op : Operator}
    {ts rest : List Token} (hassign : left.isAssign = true) (htight : least ≤ op.precedence)
    (h : Chain operand levels least room left (.operator op :: ts) e rest) :
    e.all Node.isPlain = false := by
  cases h with
  | stop loose => exact absurd (loose op ts rfl) (Nat.not_lt.mpr htight)
  | step _ _ _ others =>
    rw [Bool.eq_false_iff]
    intro he
    have hbinary := others.isPlain_left he
    simp [Expr.all, Node.isPlain, hassign] at hbinary

/-- Between the two ends of a phrase an operator takes an assignment exactly if one is a left
operand in its tree. -/
def Shows (plain : α → Bool) (phrase : Phrase α) : Prop :=
  ∀ ⦃ts : List Token⦄ ⦃a : α⦄ ⦃rest : List Token⦄, phrase ts a rest →
    noAssignmentTaken ts = (plain a && noAssignmentTaken rest)

theorem Separated.shows {plain : α → Bool} {item : List α → Phrase α}
    (h : ∀ before, Shows plain (item before)) (before : List α) :
    Shows (fun as => as.all plain) (Separated item before) := by
  intro ts as rest hs
  induction hs with
  | last only _ => simpa using h _ only
  | more first _ ih =>
    have hfirst := h _ first
    simpa [ih, Bool.and_assoc] using hfirst

theorem Listed.shows {plain : α → Bool} {item : List α → Phrase α}
    (h : ∀ before, Shows plain (item before)) : Shows (fun as => as.all plain) (Listed item) := by
  intro ts as rest hl
  cases hl with
  | none => rfl
  | some _ items => exact Separated.shows h [] items

theorem Operand.shows (h : Shows (Expr.all Node.isPlain) expr) :
    Shows (Expr.all Node.isPlain) (Operand expr) := by
  intro ts e rest ho
  cases ho with
  | name | number | str => rfl
  | group inside =>
    have hinside := h inside
    simpa using hinside
  | assign value =>
    have hvalue := h value
    simpa [Expr.all, Node.isPlain] using hvalue
  | call items =>
    have hitems := Listed.shows (fun _ => h) items
    simpa [Expr.all, Node.isPlain, Expr.allArgs_eq_all] using hitems

/-- An operator with its right operand, which has taken tighter operators, in front of the rest of
a chain. -/
theorem Chain.shows_step {op : Operator} {ts us vs rest : List Token} {left first right e : Expr}
    {least room : Nat} (hlocates : Locates operand) (hleft : left.isAssign = false)
    (begins : operand ts first us)
    (absorbed : Absorb operand levels (op.precedence + 1) first us right vs)
    (others : Chain operand levels least room (.binary op left right) vs e rest)
    (hfirst : noAssignmentTaken ts = (first.all Node.isPlain && noAssignmentTaken us))
    (hright : first.isAssign = false → (first.all Node.isPlain && noAssignmentTaken us) =
      (right.all Node.isPlain && noAssignmentTaken vs))
    (hothers : ((Expr.binary op left right).all Node.isPlain && noAssignmentTaken vs) =
      (e.all Node.isPlain && noAssignmentTaken rest)) :
    (left.all Node.isPlain && noAssignmentTaken (.operator op :: ts)) =
      (e.all Node.isPlain && noAssignmentTaken rest) := by
  have hplain : (Expr.binary op left right).all Node.isPlain =
      (left.all Node.isPlain && right.all Node.isPlain) := by
    simp [Expr.all, Node.isPlain, hleft]
  rw [noAssignmentTaken]
  cases hassign : first.isAssign with
  | false =>
    rw [takesAssignment_eq_false hlocates begins (.inl hassign), hfirst, hright hassign,
      ← hothers, hplain, Bool.and_assoc]
    rfl
  | true =>
    cases absorbed with
    | stop loose =>
      rw [takesAssignment_eq_false hlocates begins (.inr loose), hfirst, ← hothers, hplain,
        Bool.and_assoc]
      rfl
    | step tight chain others' =>
      -- The operator takes the assignment, which no later operator puts right.
      have hmiddle := chain.not_isPlain hassign (Nat.le_refl _)
      have he : e.all Node.isPlain = false := by
        rw [Bool.eq_false_iff]
        intro he
        have hbinary := others.isPlain_left he
        rw [hplain, Bool.and_eq_true] at hbinary
        have hmiddle' := others'.isPlain_right hbinary.2
        simp [hmiddle] at hmiddle'
      rw [takesAssignment_eq_true hlocates begins hassign tight, he]
      simp

mutual

theorem Chain.shows (hlocates : Locates operand) (h : Shows (Expr.all Node.isPlain) operand)
    {least room : Nat} {left e : Expr} {ts rest : List Token} (hleft : left.isAssign = false) :
    Chain operand levels least room left ts e rest →
      (left.all Node.isPlain && noAssignmentTaken ts) =
        (e.all Node.isPlain && noAssignmentTaken rest)
  | .stop _ => rfl
  | .step _ begins absorbed others =>
    Chain.shows_step hlocates hleft begins absorbed others (h begins)
      (fun hfirst => absorbed.shows hlocates h hfirst) (others.shows hlocates h rfl)

theorem Absorb.shows (hlocates : Locates operand) (h : Shows (Expr.all Node.isPlain) operand)
    {least : Nat} {right e : Expr} {ts rest : List Token} (hright : right.isAssign = false) :
    Absorb operand levels least right ts e rest →
      (right.all Node.isPlain && noAssignmentTaken ts) =
        (e.all Node.isPlain && noAssignmentTaken rest)
  | .stop _ => rfl
  | .step _ chain others =>
    (chain.shows hlocates h hright).trans (others.shows hlocates h (chain.isAssign hright))

end

theorem expressionWithin_shows (levels : Nat) :
    Shows (Expr.all Node.isPlain) (ExpressionWithin levels) := by
  induction levels with
  | zero => exact fun _ _ _ hp => hp.elim
  | succ levels ih =>
    intro ts e rest hc
    cases hc with
    | assignment only _ => exact Operand.shows ih only
    | chain begins assigns others =>
      rw [Operand.shows ih begins]
      exact others.shows (operand_locates levels) (Operand.shows ih) assigns

theorem parameter_shows (strict : Bool) (before : List String) :
    Shows (fun _ => true) (Parameter strict before) := by
  rintro ts name rest ⟨rfl, -⟩
  simp

theorem Statement.shows {strict : Bool} {block : Phrase Block}
    (he : Shows (Expr.all Node.isPlain) expr) (hb : Shows Block.noAssignOnLeft block) :
    Shows (Stmt.all Node.isPlain) (Statement strict expr block) := by
  intro ts s rest hs
  cases hs with
  | expression value | ret value =>
    have hvalue := he value
    simpa [Stmt.all, Node.isPlain] using hvalue
  | loop condition body | conditional condition body _ =>
    have hcondition := he condition
    have hbody := hb body
    simp [Stmt.all, Node.isPlain, hcondition, hbody, Block.noAssignOnLeft, Bool.and_assoc]
  | alternative condition taken otherwise =>
    have hcondition := he condition
    have htaken := hb taken
    have hotherwise := hb otherwise
    simp [Stmt.all, Node.isPlain, hcondition, htaken, hotherwise, Block.noAssignOnLeft,
      Bool.and_assoc]
  | define items body =>
    have hitems := Listed.shows (parameter_shows strict) items
    have hbody := hb body
    simp [Stmt.all, Node.isPlain, hitems, hbody, Block.noAssignOnLeft]

theorem Repeated.shows {item : Phrase Stmt} (h : Shows (Stmt.all Node.isPlain) item) :
    Shows Block.noAssignOnLeft (Repeated item) := by
  intro ts b rest hr
  induction hr with
  | nil => rfl
  | cons first _ ih =>
    rw [h first, ih, Block.noAssignOnLeft, Block.noAssignOnLeft, Stmt.allIn, Bool.and_assoc]

theorem Body.shows {stmt : Phrase Stmt} (h : Shows (Stmt.all Node.isPlain) stmt) :
    Shows Block.noAssignOnLeft (Body stmt) := by
  intro ts b rest hb
  cases hb with
  | braces items =>
    have hitems := Repeated.shows h items
    simpa using hitems
  | single _ only =>
    have honly := h only
    simpa [Block.noAssignOnLeft, Stmt.allIn] using honly

theorem statementWithin_shows (strict : Bool) (levels : Nat) :
    Shows (Stmt.all Node.isPlain) (StatementWithin strict levels) := by
  induction levels with
  | zero => exact Statement.shows (expressionWithin_shows 0) fun _ _ _ hp => hp.elim
  | succ levels ih => exact Statement.shows (expressionWithin_shows _) (Body.shows ih)

theorem program_shows {options : ParseOptions} {ts : List Token} {program : Block}
    (h : Program options ts program) : program.noAssignOnLeft = noAssignmentTaken ts := by
  have hshows := Repeated.shows (statementWithin_shows _ _) h
  simpa [noAssignmentTaken] using hshows.symm

end Grammar

/-- An assignment is a left operand in a program that has been read exactly if, among the tokens
that it was read from, an operator is followed by an assignment in parentheses and that by a
tighter operator. -/
theorem noAssignOnLeft_of_parseFrom {σ : Type} [TokenSource σ] {options : ParseOptions}
    {source : σ} {program : Block} (h : parseFrom options source = .ok program) :
    ∃ ts, TokenSource.Supplies source ts ∧
      program.noAssignOnLeft = Grammar.noAssignmentTaken ts := by
  obtain ⟨ts, hts, hprogram⟩ := parseFrom_eq_ok_iff.mp h
  exact ⟨ts, hts, Grammar.program_shows hprogram⟩

/-- An operator that is not tighter leaves the assignment to the one before. -/
theorem noAssignOnLeft_looser_operator :
    ∃ program, parse {} "a * (x = b) + c;" = .ok program ∧ program.noAssignOnLeft = true ∧
      ∃ ts, TokenSource.Supplies (Lexer.ofString "a * (x = b) + c;") ts ∧
        program.noAssignOnLeft = Grammar.noAssignmentTaken ts := by
  have hread : parse {} "a * (x = b) + c;" = .ok [.expression (.binary .add
      (.binary .mul (.variable "a") (.assign "x" (.variable "b"))) (.variable "c"))] :=
    parse_eq_ok_of_equals rfl (by decide +kernel)
  exact ⟨_, hread, rfl, noAssignOnLeft_of_parseFrom hread⟩

/-- A tighter operator takes the assignment as its left operand. -/
theorem assign_on_left_tighter_operator :
    ∃ program, parse {} "a + (x = b) * c;" = .ok program ∧ program.noAssignOnLeft = false :=
  ⟨[.expression (.binary .add (.variable "a")
    (.binary .mul (.assign "x" (.variable "b")) (.variable "c")))],
    parse_eq_ok_of_equals rfl (by decide +kernel), rfl⟩

end Sapling
