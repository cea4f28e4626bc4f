import Sapling.Parse.Basic
import Sapling.Tree

/-!
# The grammar as a relation

A phrase relates the tokens before it, the tree that it stands for and the tokens behind it. The
relations below are the rules of the grammar, with the levels of nesting that they take and with
what must not follow where a rule ends. No parse is mentioned: the rules are about lists of
tokens only.
-/
namespace Sapling.Grammar

abbrev Phrase (α : Type) : Type := List Token → α → List Token → Prop

variable {α : Type}

inductive Repeated (item : Phrase α) : Phrase (List α)
  | nil {rest : List Token} : Repeated item rest [] rest
  | cons {ts us rest : List Token} {a : α} {as : List α} (first : item ts a us)
      (others : Repeated item us as rest) : Repeated item ts (a :: as) rest

/-- One or more items with commas between them. An item is told those before it, latest first. -/
inductive Separated (item : List α → Phrase α) : List α → Phrase (List α)
  | last {before : List α} {ts rest : List Token} {a : α} (only : item before ts a rest)
      (stop : rest.head? ≠ some (.mark .comma)) : Separated item before ts [a] rest
  | more {before : List α} {ts us rest : List Token} {a : α} {as : List α}
      (first : item before ts a (.mark .comma :: us))
      (others : Separated item (a :: before) us as rest) : Separated item before ts (a :: as) rest

inductive Listed (item : List α → Phrase α) : Phrase (List α)
  | none {rest : List Token} :
      Listed item (.mark .rightParen :: rest) [] (.mark .rightParen :: rest)
  | some {ts rest : List Token} {as : List α} (start : ts.head? ≠ .some (.mark .rightParen))
      (items : Separated item [] ts as rest) : Listed item ts as rest

/-- What can stand between operators, given the expressions inside it. -/
inductive Operand (expr : Phrase Expr) : Phrase Expr
  | name {name : String} {rest : List Token} (notAssigned : rest.head? ≠ some (.mark .assign))
      (notCalled : rest.head? ≠ some (.mark .leftParen)) :
      Operand expr (.ident name :: rest) (.variable name) rest
  | number {value : Number} {rest : List Token} :
      Operand expr (.number value :: rest) (.literal (.number value)) rest
  | str {text : String} {rest : List Token} :
      Operand expr (.str text :: rest) (.literal (.str text)) rest
  | group {ts rest : List Token} {e : Expr} (inner : expr ts e (.mark .rightParen :: rest)) :
      Operand expr (.mark .leftParen :: ts) e rest
  | assign {name : String} {ts rest : List Token} {e : Expr} (value : expr ts e rest) :
      Operand expr (.ident name :: .mark .assign :: ts) (.assign name e) rest
  | call {name : String} {ts rest : List Token} {args : List Expr}
      (items : Listed (fun _ => expr) ts args (.mark .rightParen :: rest)) :
      Operand expr (.ident name :: .mark .leftParen :: ts) (.call name args) rest

/-- No operator that binds at least as tightly as `least` comes next. -/
def Loose (least : Nat) (ts : List Token) : Prop :=
  ∀ op us, ts = .operator op :: us → op.precedence < least

section
variable (operand : Phrase Expr) (levels : Nat)

mutual

/-- Operators with their right operands extend `left`. There is room for a given number of
them, and every chain that a right operand absorbs begins with all of the levels as its room. -/
inductive Chain : (least room : Nat) → (left : Expr) → Phrase Expr
  | stop {least room : Nat} {left : Expr} {rest : List Token} (loose : Loose least rest) :
      Chain least room left rest left rest
  | step {least room : Nat} {left first right e : Expr} {op : Operator}
      {ts us vs rest : List Token} (tight : least ≤ op.precedence) (begins : operand ts first us)
      (absorbed : Absorb (op.precedence + 1) first us right vs)
      (others : Chain least room (.binary op left right) vs e rest) :
      Chain least (room + 1) left (.operator op :: ts) e rest

/-- Chains of tighter operators take the right operand read so far as their left end. -/
inductive Absorb : (least : Nat) → (right : Expr) → Phrase Expr
  | stop {least : Nat} {right : Expr} {rest : List Token} (loose : Loose least rest) :
      Absorb least right rest right rest
  | step {least : Nat} {right middle e : Expr} {op : Operator} {ts us rest : List Token}
      (tight : least ≤ op.precedence)
      (chain : Chain op.precedence levels right (.operator op :: ts) middle us)
      (others : Absorb least middle us e rest) : Absorb least right (.operator op :: ts) e rest

end

/-- An expression with a number of levels left inside it. An assignment stands alone. -/
inductive Compound : Phrase Expr
  | assignment {ts rest : List Token} {e : Expr} (only : operand ts e rest)
      (assigns : e.isAssign = true) : Compound ts e rest
  | chain {ts us rest : List Token} {first e : Expr} (begins : operand ts first us)
      (assigns : first.isAssign = false) (others : Chain operand levels 0 levels first us e rest) :
      Compound ts e rest

end

def ExpressionWithin : (levels : Nat) → Phrase Expr
  | 0 => fun _ _ _ => False
  | levels + 1 => Compound (Operand (ExpressionWithin levels)) levels

/-- A parameter, which must be new when a definition is read strictly. -/
def Parameter (strict : Bool) (before : List String) : Phrase String := fun ts name rest =>
  ts = .ident name :: rest ∧ (strict = true → name ∉ before)

inductive Statement (strict : Bool) (expr : Phrase Expr) (block : Phrase Block) : Phrase Stmt
  | expression {ts rest : List Token} {e : Expr} (value : expr ts e (.mark .semicolon :: rest)) :
      Statement strict expr block ts (.expression e) rest
  | ret {ts rest : List Token} {e : Expr} (value : expr ts e (.mark .semicolon :: rest)) :
      Statement strict expr block (.keyword .returnWord :: ts) (.ret e) rest
  | loop {ts us rest : List Token} {c : Expr} {b : Block}
      (condition : expr ts c (.mark .rightParen :: us)) (body : block us b rest) :
      Statement strict expr block (.keyword .whileWord :: .mark .leftParen :: ts) (.loop c b) rest
  | conditional {ts us rest : List Token} {c : Expr} {yes : Block}
      (condition : expr ts c (.mark .rightParen :: us)) (taken : block us yes rest)
      (stop : rest.head? ≠ some (.keyword .elseWord)) :
      Statement strict expr block (.keyword .ifWord :: .mark .leftParen :: ts)
        (.conditional c yes none) rest
  | alternative {ts us vs rest : List Token} {c : Expr} {yes no : Block}
      (condition : expr ts c (.mark .rightParen :: us))
      (taken : block us yes (.keyword .elseWord :: vs)) (otherwise : block vs no rest) :
      Statement strict expr block (.keyword .ifWord :: .mark .leftParen :: ts)
        (.conditional c yes (some no)) rest
  | define {name : String} {params : List String} {ts us rest : List Token} {b : Block}
      (items : Listed (Parameter strict) ts params (.mark .rightParen :: us))
      (body : block us b rest) :
      Statement strict expr block
        (.keyword .defWord :: .ident name :: .mark .leftParen :: ts) (.define name params b) rest

inductive Body (stmt : Phrase Stmt) : Phrase Block
  | braces {ts rest : List Token} {b : Block}
      (items : Repeated stmt ts b (.mark .rightBrace :: rest)) :
      Body stmt (.mark .leftBrace :: ts) b rest
  | single {ts rest : List Token} {s : Stmt} (start : ts.head? ≠ some (.mark .leftBrace))
      (only : stmt ts s rest) : Body stmt ts [s] rest

def BlockWithin (strict : Bool) : (levels : Nat) → Phrase Block
  | 0 => fun _ _ _ => False
  | levels + 1 =>
    Body (Statement strict (ExpressionWithin levels) (BlockWithin strict levels))

def StatementWithin (strict : Bool) (levels : Nat) : Phrase Stmt :=
  Statement strict (ExpressionWithin levels) (BlockWithin strict levels)

/-- The tokens are those of a program, from the first to the last. -/
def Program (options : ParseOptions) (ts : List Token) (program : Block) : Prop :=
  Repeated (StatementWithin options.strictParams options.maxDepth) ts program []

/-- A phrase opens with a token of some kind and takes at least that one. -/
def Opens (first : Token → Bool) (phrase : Phrase α) : Prop :=
  ∀ ⦃ts : List Token⦄ ⦃a : α⦄ ⦃rest : List Token⦄, phrase ts a rest →
    ∃ t us, ts = t :: us ∧ first t = true ∧ rest <:+ us

def opensExpression : Token → Bool
  | .ident _ | .number _ | .str _ | .mark .leftParen => true
  | _ => false

def opensStatement : Token → Bool
  | .keyword .elseWord => false
  | .keyword _ => true
  | t => opensExpression t

theorem Opens.suffix {first : Token → Bool} {phrase : Phrase α} (h : Opens first phrase)
    {ts rest : List Token} {a : α} (hp : phrase ts a rest) : rest <:+ ts := by
  obtain ⟨t, us, rfl, -, hrest⟩ := h hp
  exact hrest.trans (List.suffix_cons t us)

theorem Opens.length_lt {first : Token → Bool} {phrase : Phrase α} (h : Opens first phrase)
    {ts rest : List Token} {a : α} (hp : phrase ts a rest) : rest.length < ts.length := by
  obtain ⟨t, us, rfl, -, hrest⟩ := h hp
  exact Nat.lt_succ_of_le hrest.length_le

theorem Opens.mono {first first' : Token → Bool} {phrase : Phrase α} (h : Opens first phrase)
    (hf : ∀ t, first t = true → first' t = true) : Opens first' phrase := by
  intro ts a rest hp
  obtain ⟨t, us, rfl, ht, hrest⟩ := h hp
  exact ⟨t, us, rfl, hf t ht, hrest⟩

theorem Repeated.suffix {first : Token → Bool} {item : Phrase α} (h : Opens first item)
    {ts rest : List Token} {as : List α} (hr : Repeated item ts as rest) : rest <:+ ts := by
  induction hr with
  | nil => exact List.suffix_refl _
  | cons hfirst _ ih => exact ih.trans (h.suffix hfirst)

theorem Separated.suffix {first : Token → Bool} {item : List α → Phrase α}
    (h : ∀ before, Opens first (item before)) {before : List α} {ts rest : List Token}
    {as : List α} (hs : Separated item before ts as rest) : rest <:+ ts := by
  induction hs with
  | last only _ => exact (h _).suffix only
  | more hfirst _ ih =>
    exact ih.trans ((List.suffix_cons _ _).trans ((h _).suffix hfirst))

theorem Separated.opens {first : Token → Bool} {item : List α → Phrase α}
    (h : ∀ before, Opens first (item before)) (before : List α) :
    Opens first (Separated item before) := by
  intro ts as rest hs
  cases hs with
  | last only _ => exact h _ only
  | more hfirst others =>
    obtain ⟨t, us, rfl, ht, hus⟩ := h _ hfirst
    exact ⟨t, us, rfl, ht, (others.suffix h).trans ((List.suffix_cons _ _).trans hus)⟩

theorem Listed.suffix {first : Token → Bool} {item : List α → Phrase α}
    (h : ∀ before, Opens first (item before)) {ts rest : List Token} {as : List α}
    (hl : Listed item ts as rest) : rest <:+ ts := by
  cases hl with
  | none => exact List.suffix_refl _
  | some _ items => exact items.suffix h

theorem Operand.opens {expr : Phrase Expr} (h : Opens opensExpression expr) :
    Opens opensExpression (Operand expr) := by
  intro ts e rest ho
  cases ho with
  | name | number | str => exact ⟨_, _, rfl, rfl, List.suffix_refl _⟩
  | group inner => exact ⟨_, _, rfl, rfl, (List.suffix_cons _ _).trans (h.suffix inner)⟩
  | assign value => exact ⟨_, _, rfl, rfl, (h.suffix value).trans (List.suffix_cons _ _)⟩
  | call items =>
    have := items.suffix fun _ => h
    exact ⟨_, _, rfl, rfl, (List.suffix_cons _ _).trans (this.trans (List.suffix_cons _ _))⟩

section
variable {operand : Phrase Expr} {levels : Nat}

mutual

theorem Chain.suffix (h : Opens opensExpression operand) {least room : Nat} {left e : Expr}
    {ts rest : List Token} : Chain operand levels least room left ts e rest → rest <:+ ts
  | .stop _ => List.suffix_refl _
  | .step _ begins absorbed others =>
    (others.suffix h).trans ((absorbed.suffix h).trans
      ((h.suffix begins).trans (List.suffix_cons _ _)))

theorem Absorb.suffix (h : Opens opensExpression operand) {least : Nat} {right e : Expr}
    {ts rest : List Token} : Absorb operand levels least right ts e rest → rest <:+ ts
  | .stop _ => List.suffix_refl _
  | .step _ chain others => (others.suffix h).trans (chain.suffix h)

end

theorem Absorb.loose {least : Nat} {right e : Expr} {ts rest : List Token} :
    Absorb operand levels least right ts e rest → Loose least rest
  | .stop loose => loose
  | .step _ _ others => others.loose

theorem Chain.loose {least room : Nat} {left e : Expr} {ts rest : List Token} :
    Chain operand levels least room left ts e rest → Loose least rest
  | .stop loose => loose
  | .step _ _ _ others => others.loose

theorem Compound.opens (h : Opens opensExpression operand) :
    Opens opensExpression (Compound operand levels) := by
  intro ts e rest hc
  cases hc with
  | assignment only _ => exact h only
  | chain begins _ others =>
    obtain ⟨t, us, rfl, ht, hus⟩ := h begins
    exact ⟨t, us, rfl, ht, (others.suffix h).trans hus⟩

end

theorem opens_expressionWithin (levels : Nat) :
    Opens opensExpression (ExpressionWithin levels) := by
  induction levels with
  | zero => exact fun _ _ _ hp => hp.elim
  | succ levels ih => exact Compound.opens (Operand.opens ih)

theorem opens_parameter (strict : Bool) (before : List String) :
    Opens opensExpression (Parameter strict before) := by
  rintro ts name rest ⟨rfl, -⟩
  exact ⟨_, _, rfl, rfl, List.suffix_refl _⟩

theorem opensStatement_of_opensExpression (t : Token) (h : opensExpression t = true) :
    opensStatement t = true := by
  cases t <;> simp_all [opensExpression, opensStatement]

theorem Statement.opens {strict : Bool} {expr : Phrase Expr} {block : Phrase Block}
    {first : Token → Bool} (he : Opens opensExpression expr) (hb : Opens first block) :
    Opens opensStatement (Statement strict expr block) := by
  intro ts s rest hs
  cases hs with
  | expression value =>
    obtain ⟨t, us, rfl, ht, hrest⟩ := he value
    exact ⟨t, us, rfl, opensStatement_of_opensExpression t ht,
      (List.suffix_cons _ _).trans hrest⟩
  | ret value => exact ⟨_, _, rfl, rfl, (List.suffix_cons _ _).trans (he.suffix value)⟩
  | loop condition body | conditional condition body _ =>
    have := (List.suffix_cons _ _).trans (he.suffix condition)
    exact ⟨_, _, rfl, rfl, (hb.suffix body).trans (this.trans (List.suffix_cons _ _))⟩
  | alternative condition taken otherwise =>
    have hc := (List.suffix_cons _ _).trans (he.suffix condition)
    have ht := (List.suffix_cons _ _).trans (hb.suffix taken)
    exact ⟨_, _, rfl, rfl,
      (hb.suffix otherwise).trans (ht.trans (hc.trans (List.suffix_cons _ _)))⟩
  | define items body =>
    have hi := (List.suffix_cons _ _).trans (items.suffix (opens_parameter strict))
    refine ⟨_, _, rfl, rfl, (hb.suffix body).trans (hi.trans ?_)⟩
    exact (List.suffix_cons _ _).trans (List.suffix_cons _ _)

def opensBlock (t : Token) : Bool :=
  t == .mark .leftBrace || opensStatement t

theorem opens_blockWithin (strict : Bool) (levels : Nat) :
    Opens opensBlock (BlockWithin strict levels) := by
  induction levels with
  | zero => exact fun _ _ _ hp => hp.elim
  | succ levels ih =>
    have hstmt : Opens opensStatement (StatementWithin strict levels) :=
      Statement.opens (opens_expressionWithin levels) ih
    intro ts b rest hb
    cases hb with
    | braces items =>
      exact ⟨_, _, rfl, rfl, (List.suffix_cons _ _).trans (items.suffix hstmt)⟩
    | single _ only => exact hstmt.mono (by simp +contextual [opensBlock]) only

theorem opens_statementWithin (strict : Bool) (levels : Nat) :
    Opens opensStatement (StatementWithin strict levels) :=
  Statement.opens (opens_expressionWithin levels) (opens_blockWithin strict levels)

end Sapling.Grammar
