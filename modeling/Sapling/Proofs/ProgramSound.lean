import Sapling.Proofs.ExpressionSound

/-!
# Parsed statements and programs are phrases of the grammar
-/
namespace Sapling

open Grammar TokenSource

namespace Parse

variable {σ : Type} [TokenSource σ] {s s' : Lookahead σ} {ts : List Token}
  {failure : Option SyntaxError} {n rounds levels : Nat} {strict : Bool}

theorem parameter_reads (before : List String) :
    Reads n (parameter strict before : Parse σ String) (Parameter strict before) := by
  intro s ts failure name s' hs _ h
  rw [parameter, peek_bind, hs.token?_eq] at h
  generalize hnext : ts.head? = next at h
  split at h
  · obtain ⟨us, rfl⟩ := List.head?_eq_some_iff.mp hnext
    split at h
    · simp at h
    · next hnew =>
      obtain ⟨_, s₁, hadvance, h⟩ := bind_eq_ok.mp h
      obtain ⟨rfl, rfl⟩ := pure_eq_ok.mp h
      exact ⟨us, ⟨rfl, by simpa using hnew⟩, advance_sound hs hadvance⟩
  · simp at h

theorem functionName_sound (hs : s.Holds ts failure) {name : String}
    (h : functionName s = .ok name s') :
    ∃ rest, ts = .ident name :: rest ∧ s'.Holds rest failure := by
  rw [functionName, peek_bind, hs.token?_eq] at h
  generalize hnext : ts.head? = next at h
  split at h
  · obtain ⟨us, rfl⟩ := List.head?_eq_some_iff.mp hnext
    obtain ⟨_, s₁, hadvance, h⟩ := bind_eq_ok.mp h
    obtain ⟨rfl, rfl⟩ := pure_eq_ok.mp h
    exact ⟨us, rfl, advance_sound hs hadvance⟩
  · simp at h

section
variable {expr : Parse σ Expr} {block : Parse σ Block} {inner : Phrase Expr}
  {nested : Phrase Block} {stmt : Stmt} (hexpr : Reads n expr inner)
  (hblock : Reads n block nested) (hopens : Opens opensExpression inner)

include hblock in
theorem definition_sound (hs : s.Holds ts failure) (hn : ts.length ≤ n) (hrounds : n ≤ rounds)
    (h : definition rounds strict block s = .ok stmt s') :
    ∃ rest, Statement strict inner nested ts stmt rest ∧ s'.Holds rest failure := by
  obtain ⟨_, s₁, hdef, h⟩ := bind_eq_ok.mp h
  obtain ⟨us, rfl, hs₁⟩ := eat_keyword_sound hs hdef
  obtain ⟨name, s₂, hname, h⟩ := bind_eq_ok.mp h
  obtain ⟨vs, rfl, hs₂⟩ := functionName_sound hs₁ hname
  rw [isNext_bind] at h
  split at h
  · next hparen =>
    rw [isAt_mark hs₂] at hparen
    obtain ⟨ws, rfl⟩ := List.head?_eq_some_iff.mp hparen
    obtain ⟨_, s₃, hadvance, h⟩ := bind_eq_ok.mp h
    obtain ⟨params, s₄, hparams, h⟩ := bind_eq_ok.mp h
    obtain ⟨_, s₅, hclose, h⟩ := bind_eq_ok.mp h
    obtain ⟨body, s₆, hbody, h⟩ := bind_eq_ok.mp h
    obtain ⟨rfl, rfl⟩ := pure_eq_ok.mp h
    simp only [List.length_cons] at hn
    obtain ⟨xs, hlisted, hs₄⟩ := listed_reads (fun before => parameter_reads before)
      (opens_parameter strict) (by omega) (advance_sound hs₂ hadvance) (Nat.le_refl _) hparams
    have hxs := (hlisted.suffix (opens_parameter strict)).length_le
    obtain ⟨ys, rfl, hs₅⟩ := eat_mark_sound hs₄ hclose
    simp only [List.length_cons] at hxs
    obtain ⟨rest, hnested, hs₆⟩ := hblock hs₅ (by omega) hbody
    exact ⟨rest, .define hlisted hnested, hs₆⟩
  · obtain ⟨_, _, hfail, _⟩ := bind_eq_ok.mp h
    simp at hfail

include hexpr hblock hopens in
theorem whileLoop_sound (hs : s.Holds ts failure) (hn : ts.length ≤ n)
    (h : whileLoop expr block s = .ok stmt s') :
    ∃ rest, Statement strict inner nested ts stmt rest ∧ s'.Holds rest failure := by
  obtain ⟨_, s₁, hwhile, h⟩ := bind_eq_ok.mp h
  obtain ⟨us, rfl, hs₁⟩ := eat_keyword_sound hs hwhile
  obtain ⟨c, s₂, hc, h⟩ := bind_eq_ok.mp h
  obtain ⟨body, s₃, hbody, h⟩ := bind_eq_ok.mp h
  obtain ⟨rfl, rfl⟩ := pure_eq_ok.mp h
  simp only [List.length_cons] at hn
  obtain ⟨vs, ws, rfl, hinner, hs₂⟩ := parenthesized_sound hexpr hs₁ (by omega) hc
  have hlt := hopens.length_lt hinner
  simp only [List.length_cons] at hn hlt
  obtain ⟨rest, hnested, hs₃⟩ := hblock hs₂ (by omega) hbody
  exact ⟨rest, .loop hinner hnested, hs₃⟩

include hexpr hblock hopens in
theorem conditional_sound {first : Token → Bool} (hfirst : Opens first nested)
    (hs : s.Holds ts failure) (hn : ts.length ≤ n) (h : conditional expr block s = .ok stmt s') :
    ∃ rest, Statement strict inner nested ts stmt rest ∧ s'.Holds rest failure := by
  obtain ⟨_, s₁, hif, h⟩ := bind_eq_ok.mp h
  obtain ⟨us, rfl, hs₁⟩ := eat_keyword_sound hs hif
  obtain ⟨c, s₂, hc, h⟩ := bind_eq_ok.mp h
  obtain ⟨yes, s₃, hyes, h⟩ := bind_eq_ok.mp h
  obtain ⟨no, s₄, hno, h⟩ := bind_eq_ok.mp h
  obtain ⟨rfl, rfl⟩ := pure_eq_ok.mp h
  simp only [List.length_cons] at hn
  obtain ⟨vs, ws, rfl, hinner, hs₂⟩ := parenthesized_sound hexpr hs₁ (by omega) hc
  have hws := hopens.length_lt hinner
  simp only [List.length_cons] at hn hws
  obtain ⟨xs, hnested, hs₃⟩ := hblock hs₂ (by omega) hyes
  have hxs := hfirst.length_lt hnested
  rw [elseBlock, isNext_bind] at hno
  split at hno
  · next helse =>
    rw [isAt_keyword hs₃] at helse
    obtain ⟨ys, rfl⟩ := List.head?_eq_some_iff.mp helse
    obtain ⟨_, s₅, hadvance, hno⟩ := bind_eq_ok.mp hno
    obtain ⟨no', s₆, hno', hno⟩ := bind_eq_ok.mp hno
    obtain ⟨rfl, rfl⟩ := pure_eq_ok.mp hno
    simp only [List.length_cons] at hxs
    obtain ⟨rest, hnested', hs'⟩ := hblock (advance_sound hs₃ hadvance) (by omega) hno'
    exact ⟨rest, .alternative hinner hnested hnested', hs'⟩
  · next helse =>
    rw [isAt_keyword hs₃] at helse
    obtain ⟨rfl, rfl⟩ := pure_eq_ok.mp hno
    exact ⟨xs, .conditional hinner hnested helse, hs₃⟩

include hexpr in
theorem returnStatement_sound (hs : s.Holds ts failure) (hn : ts.length ≤ n)
    (h : returnStatement expr s = .ok stmt s') :
    ∃ rest, Statement strict inner nested ts stmt rest ∧ s'.Holds rest failure := by
  obtain ⟨_, s₁, hreturn, h⟩ := bind_eq_ok.mp h
  obtain ⟨us, rfl, hs₁⟩ := eat_keyword_sound hs hreturn
  obtain ⟨value, s₂, hvalue, h⟩ := bind_eq_ok.mp h
  obtain ⟨_, s₃, hsemicolon, h⟩ := bind_eq_ok.mp h
  obtain ⟨rfl, rfl⟩ := pure_eq_ok.mp h
  obtain ⟨vs, hinner, hs₂⟩ := hexpr hs₁ (by simp at hn; omega) hvalue
  obtain ⟨rest, rfl, hs₃⟩ := eat_mark_sound hs₂ hsemicolon
  exact ⟨rest, .ret hinner, hs₃⟩

include hexpr in
theorem expressionStatement_sound (hs : s.Holds ts failure) (hn : ts.length ≤ n)
    (h : expressionStatement expr s = .ok stmt s') :
    ∃ rest, Statement strict inner nested ts stmt rest ∧ s'.Holds rest failure := by
  obtain ⟨value, s₁, hvalue, h⟩ := bind_eq_ok.mp h
  obtain ⟨_, s₂, hsemicolon, h⟩ := bind_eq_ok.mp h
  obtain ⟨rfl, rfl⟩ := pure_eq_ok.mp h
  obtain ⟨us, hinner, hs₁⟩ := hexpr hs hn hvalue
  obtain ⟨rest, rfl, hs₂⟩ := eat_mark_sound hs₁ hsemicolon
  exact ⟨rest, .expression hinner, hs₂⟩

include hexpr hblock hopens in
theorem statement_reads {first : Token → Bool} (hfirst : Opens first nested)
    (hrounds : n ≤ rounds) :
    Reads n (statement rounds strict expr block) (Statement strict inner nested) := by
  intro s ts failure stmt s' hs hn h
  rw [statement, peek_bind] at h
  generalize s.token? = next at h
  split at h
  · exact whileLoop_sound hexpr hblock hopens hs hn h
  · exact conditional_sound hexpr hblock hopens hfirst hs hn h
  · exact returnStatement_sound hexpr hs hn h
  · exact definition_sound hblock hs hn hrounds h
  · exact expressionStatement_sound hexpr hs hn h
  · simp at h

end

theorem blockOf_reads {stmt : Parse σ Stmt} {phrase : Phrase Stmt} {first : Token → Bool}
    (hstmt : Reads n stmt phrase) (hopens : Opens first phrase) (hrounds : n ≤ rounds) :
    Reads n (blockOf rounds stmt) (Body phrase) := by
  intro s ts failure b s' hs hn h
  rw [blockOf, isNext_bind] at h
  split at h
  · next hbrace =>
    rw [isAt_mark hs] at hbrace
    obtain ⟨us, rfl⟩ := List.head?_eq_some_iff.mp hbrace
    obtain ⟨_, s₁, hadvance, h⟩ := bind_eq_ok.mp h
    obtain ⟨body, s₂, hbody, h⟩ := bind_eq_ok.mp h
    obtain ⟨_, s₃, hclose, h⟩ := bind_eq_ok.mp h
    obtain ⟨rfl, rfl⟩ := pure_eq_ok.mp h
    simp only [List.length_cons] at hn
    obtain ⟨as, vs, rfl, hitems, hs₂, -⟩ := repeatWhile_reads (by simp +contextual) hstmt hopens
      (advance_sound hs hadvance) (by omega) (by omega) hbody
    obtain ⟨rest, rfl, hs₃⟩ := eat_mark_sound hs₂ hclose
    exact ⟨rest, .braces hitems, hs₃⟩
  · next hbrace =>
    rw [isAt_mark hs] at hbrace
    obtain ⟨only, s₁, honly, h⟩ := bind_eq_ok.mp h
    obtain ⟨rfl, rfl⟩ := pure_eq_ok.mp h
    obtain ⟨rest, hphrase, hs₁⟩ := hstmt hs hn honly
    exact ⟨rest, .single hbrace hphrase, hs₁⟩

theorem block_reads (hrounds : n ≤ rounds) (levels : Nat) :
    Reads n (block rounds strict levels : Parse σ Block) (BlockWithin strict levels) := by
  induction levels with
  | zero =>
    intro s ts failure b s' _ _ h
    simp [block] at h
  | succ levels ih =>
    exact blockOf_reads
      (statement_reads (expression_reads hrounds levels) ih (opens_expressionWithin levels)
        (opens_blockWithin strict levels) hrounds)
      (opens_statementWithin strict levels) hrounds

theorem statementWithin_reads (hrounds : n ≤ rounds) (strict : Bool) (levels : Nat) :
    Reads n (statement rounds strict (expression rounds levels)
      (block rounds strict levels) : Parse σ Stmt) (StatementWithin strict levels) :=
  statement_reads (expression_reads hrounds levels) (block_reads hrounds levels)
    (opens_expressionWithin levels) (opens_blockWithin strict levels) hrounds

/-- A program that is read uses up the tokens, and they do not break off. -/
theorem program_sound {options : ParseOptions} {program : Block} (hs : s.Holds ts failure)
    (h : Parse.program options s = .ok program s') :
    failure = none ∧ Grammar.Program options ts program := by
  rw [Parse.program, get_bind] at h
  have hlength := hs.length_le
  obtain ⟨as, rest, rfl, hitems, hs', hstop⟩ := repeatWhile_reads (by simp +contextual)
    (statementWithin_reads hlength options.strictParams options.maxDepth)
    (opens_statementWithin _ _) hs (Nat.le_refl _) hlength h
  have hend := hs'.atEnd_eq
  obtain rfl : rest = [] := by simp_all
  rw [Grammar.Program]
  exact ⟨hs'.eq_none, by simpa using hitems⟩

end Parse

/-- What is parsed from a source is the program of the tokens that it supplies. -/
theorem parseFrom_sound {σ : Type} [TokenSource σ] {options : ParseOptions} {source : σ}
    {program : Block} (h : parseFrom options source = .ok program) :
    ∃ ts, Supplies source ts ∧ Grammar.Program options ts program := by
  unfold parseFrom at h
  split at h
  · next s hs =>
    split at h
    · next s' hprogram =>
      obtain rfl := Except.ok.inj h
      obtain ⟨ts, failure, hts⟩ := Lookahead.exists_holds hs
      obtain ⟨rfl, hphrase⟩ := Parse.program_sound hts hprogram
      exact ⟨ts, hts.supplies rfl hs, hphrase⟩
    · simp at h
  · simp at h

end Sapling
