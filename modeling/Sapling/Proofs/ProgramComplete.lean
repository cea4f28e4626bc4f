import Sapling.Proofs.ExpressionComplete
import Sapling.Proofs.ProgramSound

/-!
# Statements and programs of the grammar are parsed

With the other direction this gives `parseFrom_eq_ok_iff`: a parse succeeds on exactly the
sources that supply the tokens of a program, and gives that program.
-/
namespace Sapling

open Grammar TokenSource

namespace Parse

variable {σ : Type} [TokenSource σ] {s : Lookahead σ} {ts : List Token} {n rounds levels : Nat}
  {strict : Bool}

theorem parameter_accepts (before : List String) :
    Accepts n (parameter strict before : Parse σ String) (Parameter strict before) := by
  rintro s _ name rest hs _ ⟨rfl, hnew⟩
  obtain ⟨s', hadvance, hs'⟩ := hs.exists_advance
  refine ⟨s', ?_, hs'⟩
  rw [parameter, peek_bind, hs.token?_eq, List.head?_cons]
  have hrefused : (strict && before.contains name) = false := by
    simpa using hnew
  simp only [hrefused, Bool.false_eq_true, if_false, bind_of_ok hadvance]
  rfl

section
variable {expr : Parse σ Expr} {block : Parse σ Block} {inner : Phrase Expr}
  {nested : Phrase Block} (hexpr : Accepts n expr inner) (hblock : Accepts n block nested)
  (hopens : Opens opensExpression inner)

include hblock in
theorem definition_complete {name : String} {params : List String} {us rest : List Token}
    {body : Block} (hrounds : n ≤ rounds)
    (hs : s.Holds (.keyword .defWord :: .ident name :: .mark .leftParen :: ts) none)
    (hn : ts.length + 3 ≤ n)
    (items : Listed (Parameter strict) ts params (.mark .rightParen :: us))
    (nest : nested us body rest) :
    ∃ s', definition rounds strict block s = .ok (.define name params body) s' ∧
      s'.Holds rest none := by
  obtain ⟨s₁, hdef, hs₁⟩ := exists_eat_keyword hs
  obtain ⟨s₂, hname, hs₂⟩ := hs₁.exists_advance
  obtain ⟨s₃, hparen, hs₃⟩ := hs₂.exists_advance
  have hlt : ts.length < rounds := by omega
  obtain ⟨s₄, hparams, hs₄⟩ := listed_accepts (fun before => parameter_accepts before)
    (opens_parameter strict) hlt hs₃ (Nat.le_refl _) items
  obtain ⟨s₅, hclose, hs₅⟩ := exists_eat_mark hs₄
  have hle := (items.suffix (opens_parameter strict)).length_le
  simp only [List.length_cons] at hle
  obtain ⟨s₆, hbody, hs₆⟩ := hblock hs₅ (by omega) nest
  refine ⟨s₆, ?_, hs₆⟩
  have hname' : functionName s₁ = .ok name s₂ := by
    rw [functionName, peek_bind, hs₁.token?_eq, List.head?_cons]
    simp only [bind_of_ok hname]
    rfl
  have hat : s₂.isAt (.mark .leftParen) = true := (isAt_mark hs₂ _).mpr rfl
  have hparams' : parameters rounds strict s₃ = .ok params s₄ := hparams
  simp only [definition, bind_of_ok hdef, bind_of_ok hname', isNext_bind, hat, if_true,
    bind_of_ok hparen, bind_of_ok hparams', bind_of_ok hclose, bind_of_ok hbody]
  rfl

include hexpr hblock hopens in
theorem whileLoop_complete {us rest : List Token} {c : Expr} {body : Block}
    (hs : s.Holds (.keyword .whileWord :: .mark .leftParen :: ts) none) (hn : ts.length + 2 ≤ n)
    (condition : inner ts c (.mark .rightParen :: us)) (nest : nested us body rest) :
    ∃ s', whileLoop expr block s = .ok (.loop c body) s' ∧ s'.Holds rest none := by
  obtain ⟨s₁, hwhile, hs₁⟩ := exists_eat_keyword hs
  obtain ⟨s₂, hc, hs₂⟩ := parenthesized_complete hexpr hs₁ (by omega) condition
  have hlt := hopens.length_lt condition
  simp only [List.length_cons] at hlt
  obtain ⟨s₃, hbody, hs₃⟩ := hblock hs₂ (by omega) nest
  refine ⟨s₃, ?_, hs₃⟩
  rw [whileLoop, bind_of_ok hwhile, bind_of_ok hc, bind_of_ok hbody]
  rfl

include hexpr hblock hopens in
theorem conditional_complete {us rest : List Token} {c : Expr} {yes : Block}
    (hs : s.Holds (.keyword .ifWord :: .mark .leftParen :: ts) none) (hn : ts.length + 2 ≤ n)
    (condition : inner ts c (.mark .rightParen :: us)) (nest : nested us yes rest)
    (stop : rest.head? ≠ some (.keyword .elseWord)) :
    ∃ s', conditional expr block s = .ok (.conditional c yes none) s' ∧ s'.Holds rest none := by
  obtain ⟨s₁, hif, hs₁⟩ := exists_eat_keyword hs
  obtain ⟨s₂, hc, hs₂⟩ := parenthesized_complete hexpr hs₁ (by omega) condition
  have hlt := hopens.length_lt condition
  simp only [List.length_cons] at hlt
  obtain ⟨s₃, hyes, hs₃⟩ := hblock hs₂ (by omega) nest
  have helse : s₃.isAt (.keyword .elseWord) = false := by
    rw [← Bool.not_eq_true, isAt_keyword hs₃]
    exact stop
  have hno : elseBlock block s₃ = .ok none s₃ := by
    rw [elseBlock, isNext_bind, helse]
    rfl
  refine ⟨s₃, ?_, hs₃⟩
  rw [conditional, bind_of_ok hif, bind_of_ok hc, bind_of_ok hyes, bind_of_ok hno]
  rfl

include hexpr hblock hopens in
theorem alternative_complete {first : Token → Bool} (hfirst : Opens first nested)
    {us vs rest : List Token} {c : Expr} {yes no : Block}
    (hs : s.Holds (.keyword .ifWord :: .mark .leftParen :: ts) none) (hn : ts.length + 2 ≤ n)
    (condition : inner ts c (.mark .rightParen :: us))
    (nest : nested us yes (.keyword .elseWord :: vs)) (nest' : nested vs no rest) :
    ∃ s', conditional expr block s = .ok (.conditional c yes (some no)) s' ∧
      s'.Holds rest none := by
  obtain ⟨s₁, hif, hs₁⟩ := exists_eat_keyword hs
  obtain ⟨s₂, hc, hs₂⟩ := parenthesized_complete hexpr hs₁ (by omega) condition
  have hus := hopens.length_lt condition
  simp only [List.length_cons] at hus
  obtain ⟨s₃, hyes, hs₃⟩ := hblock hs₂ (by omega) nest
  have hvs := hfirst.length_lt nest
  simp only [List.length_cons] at hvs
  obtain ⟨s₄, hadvance, hs₄⟩ := hs₃.exists_advance
  obtain ⟨s₅, hno, hs₅⟩ := hblock hs₄ (by omega) nest'
  have helse : s₃.isAt (.keyword .elseWord) = true := (isAt_keyword hs₃ _).mpr rfl
  have hno' : elseBlock block s₃ = .ok (some no) s₅ := by
    rw [elseBlock, isNext_bind, helse, if_pos rfl, bind_of_ok hadvance, bind_of_ok hno]
    rfl
  refine ⟨s₅, ?_, hs₅⟩
  rw [conditional, bind_of_ok hif, bind_of_ok hc, bind_of_ok hyes, bind_of_ok hno']
  rfl

include hexpr in
theorem returnStatement_complete {rest : List Token} {e : Expr}
    (hs : s.Holds (.keyword .returnWord :: ts) none) (hn : ts.length ≤ n)
    (value : inner ts e (.mark .semicolon :: rest)) :
    ∃ s', returnStatement expr s = .ok (.ret e) s' ∧ s'.Holds rest none := by
  obtain ⟨s₁, hreturn, hs₁⟩ := exists_eat_keyword hs
  obtain ⟨s₂, he, hs₂⟩ := hexpr hs₁ hn value
  obtain ⟨s₃, hsemicolon, hs₃⟩ := exists_eat_mark hs₂
  refine ⟨s₃, ?_, hs₃⟩
  rw [returnStatement, bind_of_ok hreturn, bind_of_ok he, bind_of_ok hsemicolon]
  rfl

include hexpr in
theorem expressionStatement_complete {rest : List Token} {e : Expr} (hs : s.Holds ts none)
    (hn : ts.length ≤ n) (value : inner ts e (.mark .semicolon :: rest)) :
    ∃ s', expressionStatement expr s = .ok (.expression e) s' ∧ s'.Holds rest none := by
  obtain ⟨s₁, he, hs₁⟩ := hexpr hs hn value
  obtain ⟨s₂, hsemicolon, hs₂⟩ := exists_eat_mark hs₁
  refine ⟨s₂, ?_, hs₂⟩
  rw [expressionStatement, bind_of_ok he, bind_of_ok hsemicolon]
  rfl

include hexpr hblock hopens in
theorem statement_accepts {first : Token → Bool} (hfirst : Opens first nested)
    (hrounds : n ≤ rounds) :
    Accepts n (statement rounds strict expr block) (Statement strict inner nested) := by
  intro s ts stmt rest hs hn h
  rw [statement, peek_bind, hs.token?_eq]
  cases h with
  | expression value =>
    obtain ⟨t, us, rfl, ht, -⟩ := hopens value
    obtain ⟨s', hvalue, hs'⟩ := expressionStatement_complete hexpr hs hn value
    refine ⟨s', ?_, hs'⟩
    -- The token that an expression begins with is none of the words of a statement.
    cases t with
    | keyword _ => simp [opensExpression] at ht
    | _ => exact hvalue
  | ret value => exact returnStatement_complete hexpr hs (by simp at hn; omega) value
  | loop condition body => exact whileLoop_complete hexpr hblock hopens hs hn condition body
  | conditional condition taken stop =>
    exact conditional_complete hexpr hblock hopens hs hn condition taken stop
  | alternative condition taken otherwise =>
    exact alternative_complete hexpr hblock hopens hfirst hs hn condition taken otherwise
  | define items body => exact definition_complete hblock hrounds hs hn items body

end

theorem blockOf_accepts {stmt : Parse σ Stmt} {phrase : Phrase Stmt}
    (hstmt : Accepts n stmt phrase) (hopens : Opens opensStatement phrase)
    (hrounds : n ≤ rounds) : Accepts n (blockOf rounds stmt) (Body phrase) := by
  intro s ts b rest hs hn h
  cases h with
  | @braces us _ _ items =>
    obtain ⟨s₁, hadvance, hs₁⟩ := hs.exists_advance
    have hmore : ∀ (s : Lookahead σ) (t : Token) (us : List Token), s.Holds (t :: us) none →
        opensStatement t = true → (!s.atEnd && !s.isAt (.mark .rightBrace)) = true := by
      intro s t us hs ht
      have hbrace : s.isAt (.mark .rightBrace) = false := by
        rw [← Bool.not_eq_true, isAt_mark hs]
        rintro heq
        obtain rfl := Option.some.inj heq
        simp [opensStatement, opensExpression] at ht
      simp [hs.atEnd_eq, hbrace]
    have hstop : ∀ s : Lookahead σ, s.Holds (.mark .rightBrace :: rest) none →
        (!s.atEnd && !s.isAt (.mark .rightBrace)) = false := by
      intro s hs
      simp [(isAt_mark hs .rightBrace).mpr rfl]
    simp only [List.length_cons] at hn
    have hle : us.length ≤ rounds := by omega
    obtain ⟨s₂, hbody, hs₂⟩ :=
      repeatWhile_accepts hstmt hopens hmore [] hstop hs₁ (by omega) hle items
    obtain ⟨s₃, hclose, hs₃⟩ := exists_eat_mark hs₂
    refine ⟨s₃, ?_, hs₃⟩
    have hat : s.isAt (.mark .leftBrace) = true := (isAt_mark hs _).mpr rfl
    rw [blockOf, isNext_bind, hat, if_pos rfl, bind_of_ok hadvance, bind_of_ok hbody,
      bind_of_ok hclose]
    rfl
  | single start only =>
    obtain ⟨s', hs'', hs'⟩ := hstmt hs hn only
    have hat : s.isAt (.mark .leftBrace) = false := by
      rw [← Bool.not_eq_true, isAt_mark hs]
      exact start
    refine ⟨s', ?_, hs'⟩
    simp only [blockOf, isNext_bind, hat, Bool.false_eq_true, if_false, bind_of_ok hs'']
    rfl

theorem block_accepts (hrounds : n ≤ rounds) (levels : Nat) :
    Accepts n (block rounds strict levels : Parse σ Block) (BlockWithin strict levels) := by
  induction levels with
  | zero => exact fun _ _ _ _ _ _ h => h.elim
  | succ levels ih =>
    exact blockOf_accepts
      (statement_accepts (expression_accepts hrounds levels) ih (opens_expressionWithin levels)
        (opens_blockWithin strict levels) hrounds)
      (opens_statementWithin strict levels) hrounds

theorem statementWithin_accepts (hrounds : n ≤ rounds) (strict : Bool) (levels : Nat) :
    Accepts n (statement rounds strict (expression rounds levels)
      (block rounds strict levels) : Parse σ Stmt) (StatementWithin strict levels) :=
  statement_accepts (expression_accepts hrounds levels) (block_accepts hrounds levels)
    (opens_expressionWithin levels) (opens_blockWithin strict levels) hrounds

theorem program_complete {options : ParseOptions} {program : Block} (hs : s.Holds ts none)
    (h : Grammar.Program options ts program) :
    ∃ s', Parse.program options s = .ok program s' := by
  have hlength := hs.length_le
  have hmore : ∀ (s : Lookahead σ) (t : Token) (us : List Token), s.Holds (t :: us) none →
      opensStatement t = true → (!s.atEnd) = true := by
    intro s t us hs _
    simp [hs.atEnd_eq]
  have hstop : ∀ s : Lookahead σ, s.Holds [] none → (!s.atEnd) = false := by
    intro s hs
    simp [hs.atEnd_eq]
  obtain ⟨s', hprogram, -⟩ := repeatWhile_accepts
    (statementWithin_accepts hlength options.strictParams options.maxDepth)
    (opens_statementWithin _ _) hmore [] hstop hs (Nat.le_refl _) hlength h
  exact ⟨s', by rw [Parse.program, get_bind]; simpa using hprogram⟩

end Parse

section
variable {σ : Type} [TokenSource σ] {options : ParseOptions} {source : σ} {s : Lookahead σ}

theorem parseFrom_eq_ok_iff_program (hs : Lookahead.ofSource source = .ok s) {program : Block} :
    parseFrom options source = .ok program ↔
      ∃ s', Parse.program options s = .ok program s' := by
  simp only [parseFrom, hs]
  cases Parse.program options s <;> simp

theorem parseFrom_eq_error_iff_program (hs : Lookahead.ofSource source = .ok s)
    {e : SyntaxError} :
    parseFrom options source = .error e ↔ ∃ s', Parse.program options s = .error e s' := by
  simp only [parseFrom, hs]
  cases Parse.program options s <;> simp

end

/-- A parse succeeds on exactly the sources that supply the tokens of a program. -/
theorem parseFrom_eq_ok_iff {σ : Type} [TokenSource σ] {options : ParseOptions} {source : σ}
    {program : Block} :
    parseFrom options source = .ok program ↔
      ∃ ts, Supplies source ts ∧ Grammar.Program options ts program := by
  constructor
  · exact parseFrom_sound
  · rintro ⟨ts, hsupplies, hphrase⟩
    obtain ⟨s, hs, hts⟩ := Lookahead.exists_ofSource hsupplies
    obtain ⟨s', hprogram⟩ := Parse.program_complete hts hphrase
    simp only [parseFrom, hs, hprogram]

end Sapling
