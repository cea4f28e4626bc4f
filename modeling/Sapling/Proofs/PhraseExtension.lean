import Sapling.Proofs.Grammar

/-!
# Phrases in front of more tokens

A phrase is settled by its own tokens and the next one: where it leaves some token, more tokens may
stand behind. A statement that leaves none goes on with `else` only.
-/
namespace Sapling.Grammar

variable {α : Type} {ext : List Token}

/-- A phrase that leaves some token does not depend on what is behind. -/
def Extends (ext : List Token) (phrase : Phrase α) : Prop :=
  ∀ ⦃ts : List Token⦄ ⦃a : α⦄ ⦃rest : List Token⦄, phrase ts a rest → rest ≠ [] →
    phrase (ts ++ ext) a (rest ++ ext)

/-- Behind a statement that leaves no token, `else` does not come next. -/
def EndsBefore (ext rest : List Token) : Prop :=
  rest = [] → ext.head? ≠ some (.keyword .elseWord)

def ExtendsEnd (ext : List Token) (phrase : Phrase α) : Prop :=
  ∀ ⦃ts : List Token⦄ ⦃a : α⦄ ⦃rest : List Token⦄, phrase ts a rest → EndsBefore ext rest →
    phrase (ts ++ ext) a (rest ++ ext)

theorem head?_append_of_ne_nil {rest : List Token} (h : rest ≠ []) :
    (rest ++ ext).head? = rest.head? := by
  cases rest with
  | nil => exact absurd rfl h
  | cons t rest => rfl

theorem ne_nil_of_suffix {ts rest : List Token} (h : rest <:+ ts) (hne : rest ≠ []) : ts ≠ [] := by
  rintro rfl
  exact hne (List.suffix_nil.mp h)

theorem EndsBefore.of_suffix {ts rest : List Token} (h : EndsBefore ext rest)
    (hsuffix : rest <:+ ts) : EndsBefore ext ts := by
  rintro rfl
  exact h (List.suffix_nil.mp hsuffix)

theorem endsBefore_cons {t : Token} {rest : List Token} : EndsBefore ext (t :: rest) := nofun

theorem Repeated.extends {item : Phrase α} {first : Token → Bool} (h : ExtendsEnd ext item)
    (hopens : Opens first item) : ExtendsEnd ext (Repeated item) := by
  intro ts as rest hr hends
  induction hr with
  | nil => exact .nil
  | cons begins others ih =>
    exact .cons (h begins (hends.of_suffix (others.suffix hopens))) (ih hends)

theorem Separated.extends {item : List α → Phrase α} (h : ∀ before, Extends ext (item before))
    (before : List α) : Extends ext (Separated item before) := by
  intro ts as rest hs hne
  induction hs with
  | last only stop =>
    exact .last (h _ only hne) (by rwa [head?_append_of_ne_nil hne])
  | more begins _ ih => exact .more (h _ begins (List.cons_ne_nil _ _)) (ih hne)

theorem Listed.extends {item : List α → Phrase α} {first : Token → Bool}
    (h : ∀ before, Extends ext (item before)) (hopens : ∀ before, Opens first (item before)) :
    Extends ext (Listed item) := by
  intro ts as rest hl hne
  cases hl with
  | none => exact .none
  | some start items =>
    have hts := ne_nil_of_suffix (items.suffix hopens) hne
    exact .some (by rwa [head?_append_of_ne_nil hts]) (Separated.extends h [] items hne)

theorem Operand.extends {expr : Phrase Expr} (h : Extends ext expr)
    (hopens : Opens opensExpression expr) : Extends ext (Operand expr) := by
  intro ts e rest ho hne
  cases ho with
  | name notAssigned notCalled =>
    rw [← @head?_append_of_ne_nil ext rest hne] at notAssigned notCalled
    exact .name notAssigned notCalled
  | number => exact .number
  | str => exact .str
  | group inner => exact .group (h inner (List.cons_ne_nil _ _))
  | assign value => exact .assign (h value hne)
  | call items =>
    exact .call (Listed.extends (fun _ => h) (fun _ => hopens) items (List.cons_ne_nil _ _))

theorem Loose.append {least : Nat} {rest : List Token} (h : Loose least rest) (hne : rest ≠ []) :
    Loose least (rest ++ ext) := by
  obtain ⟨t, rest, rfl⟩ := List.exists_cons_of_ne_nil hne
  intro op us heq
  obtain ⟨rfl, -⟩ := List.cons.inj heq
  exact h op rest rfl

section
variable {operand : Phrase Expr} {levels : Nat}

mutual

theorem Chain.extends (hoperand : Extends ext operand) (hopens : Opens opensExpression operand)
    {least room : Nat} {left e : Expr} {ts rest : List Token} (hne : rest ≠ []) :
    Chain operand levels least room left ts e rest →
      Chain operand levels least room left (ts ++ ext) e (rest ++ ext)
  | .stop loose => .stop (loose.append hne)
  | .step tight begins absorbed others =>
    have hvs := ne_nil_of_suffix (others.suffix hopens) hne
    have hus := ne_nil_of_suffix (absorbed.suffix hopens) hvs
    .step tight (hoperand begins hus) (absorbed.extends hoperand hopens hvs)
      (others.extends hoperand hopens hne)

theorem Absorb.extends (hoperand : Extends ext operand) (hopens : Opens opensExpression operand)
    {least : Nat} {right e : Expr} {ts rest : List Token} (hne : rest ≠ []) :
    Absorb operand levels least right ts e rest →
      Absorb operand levels least right (ts ++ ext) e (rest ++ ext)
  | .stop loose => .stop (loose.append hne)
  | .step tight chain others =>
    have hus := ne_nil_of_suffix (others.suffix hopens) hne
    .step tight (chain.extends hoperand hopens hus) (others.extends hoperand hopens hne)

end

theorem Compound.extends (hoperand : Extends ext operand)
    (hopens : Opens opensExpression operand) : Extends ext (Compound operand levels) := by
  intro ts e rest hc hne
  cases hc with
  | assignment only assigns => exact .assignment (hoperand only hne) assigns
  | chain begins assigns others =>
    have hus := ne_nil_of_suffix (others.suffix hopens) hne
    exact .chain (hoperand begins hus) assigns (others.extends hoperand hopens hne)

end

theorem extends_expressionWithin (levels : Nat) : Extends ext (ExpressionWithin levels) := by
  induction levels with
  | zero => exact fun _ _ _ hp _ => hp.elim
  | succ levels ih =>
    have hopens := opens_expressionWithin levels
    exact Compound.extends (Operand.extends ih hopens) (Operand.opens hopens)

theorem extends_parameter (strict : Bool) (before : List String) :
    Extends ext (Parameter strict before) := by
  rintro ts name rest ⟨rfl, hnew⟩ -
  exact ⟨rfl, hnew⟩

theorem Statement.extends {strict : Bool} {expr : Phrase Expr} {block : Phrase Block}
    (hexpr : Extends ext expr) (hblock : ExtendsEnd ext block) :
    ExtendsEnd ext (Statement strict expr block) := by
  intro ts s rest hs hends
  have hvalue {ts : List Token} {e : Expr} {t : Token} {us : List Token}
      (h : expr ts e (t :: us)) : expr (ts ++ ext) e (t :: (us ++ ext)) :=
    hexpr h (List.cons_ne_nil t us)
  cases hs with
  | expression value => exact .expression (hvalue value)
  | ret value => exact .ret (hvalue value)
  | loop condition body => exact .loop (hvalue condition) (hblock body hends)
  | conditional condition taken stop =>
    refine .conditional (hvalue condition) (hblock taken hends) ?_
    by_cases hne : rest = []
    · subst hne
      exact hends rfl
    · rwa [head?_append_of_ne_nil hne]
  | alternative condition taken otherwise =>
    exact .alternative (hvalue condition) (hblock taken endsBefore_cons) (hblock otherwise hends)
  | define items body =>
    exact .define (Listed.extends (extends_parameter strict) (opens_parameter strict) items
      (List.cons_ne_nil _ _)) (hblock body hends)

theorem Body.extends {stmt : Phrase Stmt} (h : ExtendsEnd ext stmt)
    (hopens : Opens opensStatement stmt) : ExtendsEnd ext (Body stmt) := by
  intro ts b rest hb hends
  cases hb with
  | braces items => exact .braces (Repeated.extends h hopens items endsBefore_cons)
  | single start only =>
    obtain ⟨t, us, rfl, -⟩ := hopens only
    exact .single start (h only hends)

theorem extends_blockWithin (strict : Bool) (levels : Nat) :
    ExtendsEnd ext (BlockWithin strict levels) := by
  induction levels with
  | zero => exact fun _ _ _ hp _ => hp.elim
  | succ levels ih =>
    exact Body.extends (Statement.extends (extends_expressionWithin levels) ih)
      (opens_statementWithin strict levels)

/-- A statement stays the same in front of more tokens, unless it leaves none and they begin with
`else`. -/
theorem extends_statementWithin (strict : Bool) (levels : Nat) :
    ExtendsEnd ext (StatementWithin strict levels) :=
  Statement.extends (extends_expressionWithin levels) (extends_blockWithin strict levels)

end Sapling.Grammar
