import Sapling.Proofs.Derivation
import Sapling.Proofs.PrintedParse

/-!
# Phrases are settled derivations

The phrases of the grammar look one token ahead and count levels; derivations do neither. Every
phrase is derived, and a settled derivation is a phrase wherever what follows does not go on with
it, if there are as many levels as tokens. Hence a parse with levels enough succeeds on exactly the
tokens that can be derived, and gives the tree of their settled derivation
(`parseFrom_eq_ok_iff_derivation`).
-/
namespace Sapling.Derivation

open Grammar

variable {settled strict : Bool} {expr operand : Phrase Expr} {levels : Nat} {ts rest : List Token}
  {e : Expr} {ops : List (Operator × Expr)} {openly : Bool}

/-- What a phrase takes is derived by a rule, and no operator follows what ends openly. -/
def Derives (phrase : Phrase Expr) (rule : List Token → Expr → Bool → Prop) : Prop :=
  ∀ ⦃ts : List Token⦄ ⦃e : Expr⦄ ⦃rest : List Token⦄, phrase ts e rest →
    ∃ us openly, ts = us ++ rest ∧ rule us e openly ∧ (openly = true → Loose 0 rest)

theorem items_of_separated (h : Derives expr (Expression settled)) {before es : List Expr}
    (hs : Separated (fun _ => expr) before ts es rest) :
    ∃ us, ts = us ++ rest ∧ Items settled us es := by
  induction hs with
  | last only _ =>
    obtain ⟨us, openly, rfl, hus, -⟩ := h only
    exact ⟨us, rfl, .last hus⟩
  | more first _ ih =>
    obtain ⟨us, openly, rfl, hus, -⟩ := h first
    obtain ⟨vs, rfl, hvs⟩ := ih
    exact ⟨_, by simp, .more hus hvs⟩

theorem arguments_of_listed (h : Derives expr (Expression settled)) {args : List Expr}
    (hl : Listed (fun _ => expr) ts args rest) :
    ∃ us, ts = us ++ rest ∧ Arguments settled us args := by
  cases hl with
  | none => exact ⟨[], rfl, .none⟩
  | some _ items =>
    obtain ⟨us, rfl, hus⟩ := items_of_separated h items
    exact ⟨us, rfl, .some hus⟩

theorem derives_operand (h : Derives expr (Expression settled)) :
    Derives (Grammar.Operand expr) (Operand settled) := by
  intro ts e rest ho
  cases ho with
  | name => exact ⟨_, _, rfl, .name, nofun⟩
  | number => exact ⟨_, _, rfl, .number, nofun⟩
  | str => exact ⟨_, _, rfl, .str, nofun⟩
  | group inner =>
    obtain ⟨us, openly, rfl, hus, -⟩ := h inner
    exact ⟨_, _, by simp, .group hus, nofun⟩
  | assign value =>
    obtain ⟨us, openly, rfl, hus, hloose⟩ := h value
    exact ⟨_, _, rfl, .assign hus, hloose⟩
  | call items =>
    obtain ⟨us, heq, hus⟩ := arguments_of_listed h items
    exact ⟨_, _, by simp [heq], .call hus, nofun⟩

theorem Operators.eq_nil (h : Operators settled ts ops) (hloose : Loose 0 (ts ++ rest)) :
    ts = [] := by
  cases h with
  | nil => rfl
  | cons => exact absurd (hloose _ _ rfl) (Nat.not_lt_zero _)

theorem operators_of_operations (h : Derives operand (Operand settled))
    (hops : Operations operand ts ops rest) :
    ∃ us, ts = us ++ rest ∧ Operators settled us ops := by
  induction hops with
  | nil => exact ⟨[], rfl, .nil⟩
  | cons begins _ ih =>
    obtain ⟨us, openly, rfl, hus, hloose⟩ := h begins
    obtain ⟨vs, rfl, hvs⟩ := ih
    exact ⟨_, by simp, .cons hus hvs fun _ hopen => hvs.eq_nil (hloose hopen)⟩

theorem derives_compound (h : Derives operand (Operand settled)) :
    Derives (Compound operand levels) (Expression settled) := by
  intro ts e rest hc
  cases hc with
  | assignment only assigns =>
    obtain ⟨us, openly, rfl, hus, hloose⟩ := h only
    exact ⟨us, openly, rfl, .assignment hus assigns, hloose⟩
  | chain begins assigns others =>
    obtain ⟨us, openly, rfl, hus, -⟩ := h begins
    obtain ⟨ops, hops, hgrouped⟩ := others.exists_grouped
    obtain ⟨vs, rfl, hvs⟩ := operators_of_operations h hops
    exact ⟨us ++ vs, true, by simp, .operators hus assigns hvs hgrouped, fun _ => others.loose⟩

theorem derives_expressionWithin (settled : Bool) (levels : Nat) :
    Derives (ExpressionWithin levels) (Expression settled) := by
  induction levels with
  | zero => exact fun _ _ _ h => h.elim
  | succ levels ih => exact derives_compound (derives_operand ih)

theorem names_of_separated {before names : List String}
    (hs : Separated (Parameter strict) before ts names rest) :
    ∃ us, ts = us ++ rest ∧ Names us names := by
  induction hs with
  | last only _ =>
    obtain ⟨rfl, -⟩ := only
    exact ⟨_, rfl, .last⟩
  | more first _ ih =>
    obtain ⟨rfl, -⟩ := first
    obtain ⟨us, rfl, hus⟩ := ih
    exact ⟨_, rfl, .more hus⟩

theorem parameters_of_listed {names : List String}
    (hl : Listed (Parameter strict) ts names rest) :
    ∃ us, ts = us ++ rest ∧ Parameters us names := by
  cases hl with
  | none => exact ⟨[], rfl, .none⟩
  | some _ items =>
    obtain ⟨us, rfl, hus⟩ := names_of_separated items
    exact ⟨us, rfl, .some hus⟩

/-- What a phrase takes is derived by a rule, and no `else` follows what ends openly. -/
def DerivesNearest {α : Type} (phrase : Phrase α) (rule : List Token → α → Bool → Prop) : Prop :=
  ∀ ⦃ts : List Token⦄ ⦃a : α⦄ ⦃rest : List Token⦄, phrase ts a rest →
    ∃ us openly, ts = us ++ rest ∧ rule us a openly ∧
      (openly = true → rest.head? ≠ some (.keyword .elseWord))

theorem derives_statement {block : Phrase (List Stmt)} (he : Derives expr (Expression settled))
    (hb : DerivesNearest block (Block settled)) :
    DerivesNearest (Grammar.Statement strict expr block) (Statement settled) := by
  intro ts s rest hs
  cases hs with
  | expression value =>
    obtain ⟨us, openly, rfl, hus, -⟩ := he value
    exact ⟨_, _, by simp, .expression hus, nofun⟩
  | ret value =>
    obtain ⟨us, openly, rfl, hus, -⟩ := he value
    exact ⟨_, _, by simp, .ret hus, nofun⟩
  | loop condition body =>
    obtain ⟨us, openly, rfl, hus, -⟩ := he condition
    obtain ⟨vs, openly', rfl, hvs, hnearest⟩ := hb body
    exact ⟨_, _, by simp, .loop hus hvs, hnearest⟩
  | conditional condition taken stop =>
    obtain ⟨us, openly, rfl, hus, -⟩ := he condition
    obtain ⟨vs, openly', rfl, hvs, -⟩ := hb taken
    exact ⟨_, _, by simp, .conditional hus hvs, fun _ => stop⟩
  | alternative condition taken otherwise =>
    obtain ⟨us, openly, rfl, hus, -⟩ := he condition
    obtain ⟨vs, openly', rfl, hvs, hnearest⟩ := hb taken
    obtain ⟨ws, openly'', rfl, hws, hnearest'⟩ := hb otherwise
    have hclosed : settled = true → openly' = false := fun _ => by
      rw [← Bool.not_eq_true]
      exact fun hopen => hnearest hopen rfl
    exact ⟨_, _, by simp, .alternative hus hvs hclosed hws, hnearest'⟩
  | define items body =>
    obtain ⟨us, rfl, hus⟩ := parameters_of_listed items
    obtain ⟨vs, openly, rfl, hvs, hnearest⟩ := hb body
    exact ⟨_, _, by simp, .define hus hvs, hnearest⟩

theorem program_of_repeated {stmt : Phrase Stmt} (h : DerivesNearest stmt (Statement settled))
    {b : List Stmt} (hr : Repeated stmt ts b rest) :
    ∃ us, ts = us ++ rest ∧ Program settled us b := by
  induction hr with
  | nil => exact ⟨[], rfl, .nil⟩
  | cons first _ ih =>
    obtain ⟨us, openly, rfl, hus, -⟩ := h first
    obtain ⟨vs, rfl, hvs⟩ := ih
    exact ⟨_, by simp, .cons hus hvs⟩

theorem derives_body {stmt : Phrase Stmt} (h : DerivesNearest stmt (Statement settled)) :
    DerivesNearest (Body stmt) (Block settled) := by
  intro ts b rest hb
  cases hb with
  | braces items =>
    obtain ⟨us, rfl, hus⟩ := program_of_repeated h items
    exact ⟨_, _, by simp, .braces hus, nofun⟩
  | single _ only =>
    obtain ⟨us, openly, rfl, hus, hnearest⟩ := h only
    exact ⟨us, openly, rfl, .single hus, hnearest⟩

theorem derives_blockWithin (settled strict : Bool) (levels : Nat) :
    DerivesNearest (BlockWithin strict levels) (Block settled) := by
  induction levels with
  | zero => exact fun _ _ _ h => h.elim
  | succ levels ih =>
    exact derives_body (derives_statement (derives_expressionWithin settled levels) ih)

theorem derives_statementWithin (settled strict : Bool) (levels : Nat) :
    DerivesNearest (StatementWithin strict levels) (Statement settled) :=
  derives_statement (derives_expressionWithin settled levels)
    (derives_blockWithin settled strict levels)

/-- The tokens of a program are derived, without or with regard to what ends openly. -/
theorem Program.of_grammar {options : ParseOptions} {b : List Stmt} (settled : Bool)
    (h : Grammar.Program options ts b) : Program settled ts b := by
  obtain ⟨us, heq, hus⟩ := program_of_repeated (derives_statementWithin settled _ _) h
  rwa [heq, List.append_nil]

theorem Operand.length_pos (h : Operand settled ts e openly) : 0 < ts.length := by
  cases h <;> simp

theorem Expression.length_pos (h : Expression settled ts e openly) : 0 < ts.length := by
  cases h with
  | assignment only _ => exact only.length_pos
  | operators begins =>
    rw [List.length_append]
    exact Nat.add_pos_left begins.length_pos _

theorem Operators.length_le {ts : List Token} {ops : List (Operator × Expr)}
    (h : Operators settled ts ops) : ops.length ≤ ts.length := by
  cases h with
  | nil => exact Nat.le_refl _
  | cons _ others _ =>
    have := others.length_le
    simp only [List.length_cons, List.length_append]
    omega

theorem Operand.openly_eq_false (h : Operand settled ts e openly) (he : e.isAssign = false) :
    openly = false := by
  cases h with
  | assign => simp [Expr.isAssign] at he
  | _ => rfl

theorem Operators.unapplied (h : Operators settled ts ops) (hrest : Unapplied rest) :
    Unapplied (ts ++ rest) := by
  cases h with
  | nil => exact hrest
  | cons => exact unapplied_operator _ _

mutual

theorem Operand.phrase {ts : List Token} {e : Expr} {openly : Bool} :
    Operand true ts e openly → ∀ (levels : Nat) (rest : List Token), ts.length ≤ levels + 1 →
      Unapplied rest → (openly = true → Loose 0 rest) →
        Grammar.Operand (ExpressionWithin levels) (ts ++ rest) e rest
  | .name, _, _, _, hrest, _ => .name hrest.1 hrest.2
  | .number, _, _, _, _, _ => .number
  | .str, _, _, _, _, _ => .str
  | .group inner, levels, rest, hlevels, _, _ => by
    simp only [List.length_cons, List.length_append, List.length_nil] at hlevels
    have hinner := inner.phrase levels (.mark .rightParen :: rest) (by omega)
      Ends.rightParen.unapplied fun _ => Ends.rightParen.loose 0
    simpa using Grammar.Operand.group hinner
  | .assign value, levels, rest, hlevels, hrest, hloose => by
    simp only [List.length_cons] at hlevels
    exact .assign (value.phrase levels rest (by omega) hrest hloose)
  | .call items, levels, rest, hlevels, _, _ => by
    simp only [List.length_cons, List.length_append, List.length_nil] at hlevels
    have hitems := items.phrase levels rest (by omega)
    simpa using Grammar.Operand.call hitems

theorem Expression.phrase {ts : List Token} {e : Expr} {openly : Bool} :
    Expression true ts e openly → ∀ (levels : Nat) (rest : List Token), ts.length ≤ levels →
      Unapplied rest → (openly = true → Loose 0 rest) →
        ExpressionWithin levels (ts ++ rest) e rest
  | .assignment only assigns, levels, rest, hlevels, hrest, hloose => by
    have hpos := only.length_pos
    obtain ⟨levels, rfl⟩ := Nat.exists_eq_add_one_of_ne_zero (n := levels) (by omega)
    exact .assignment (only.phrase levels rest hlevels hrest hloose) assigns
  | @Expression.operators _ _ us _ _ _ _ begins assigns others grouped, levels, rest, hlevels, hrest, hloose => by
    have hpos := begins.length_pos
    have hcount := others.length_le
    simp only [List.length_append] at hlevels
    obtain ⟨levels, rfl⟩ := Nat.exists_eq_add_one_of_ne_zero (n := levels) (by omega)
    have hfirst := begins.phrase levels (us ++ rest) (by omega)
      (others.unapplied hrest) (by simp [begins.openly_eq_false assigns])
    have hothers := others.phrase levels rest (by omega) hrest (hloose rfl)
    rw [List.append_assoc]
    exact .chain hfirst assigns (hothers.chain (hloose rfl) (by omega) grouped)

theorem Operators.phrase {ts : List Token} {ops : List (Operator × Expr)} :
    Operators true ts ops → ∀ (levels : Nat) (rest : List Token), ts.length ≤ levels + 1 →
      Unapplied rest → Loose 0 rest →
        Operations (Grammar.Operand (ExpressionWithin levels)) (ts ++ rest) ops rest
  | .nil, _, _, _, _, _ => .nil
  | @Operators.cons _ _ _ us _ _ _ operand others furthest, levels, rest, hlevels, hrest, hloose => by
    simp only [List.length_cons, List.length_append] at hlevels
    have hoperand := operand.phrase levels (us ++ rest) (by omega)
      (others.unapplied hrest) fun hopen => by simpa [furthest rfl hopen] using hloose
    have hothers := others.phrase levels rest (by omega) hrest hloose
    simpa using Operations.cons hoperand hothers

theorem Arguments.phrase {ts : List Token} {args : List Expr} :
    Arguments true ts args → ∀ (levels : Nat) (rest : List Token), ts.length ≤ levels →
      Listed (fun _ => ExpressionWithin levels) (ts ++ .mark .rightParen :: rest) args
        (.mark .rightParen :: rest)
  | .none, _, _, _ => .none
  | .some items, levels, rest, hlevels => by
    have hitems := items.phrase levels rest hlevels []
    obtain ⟨t, us, heq, ht, -⟩ := Separated.opens (fun _ => opens_expressionWithin levels) _ hitems
    refine .some ?_ hitems
    rw [heq]
    rintro ⟨⟩
    simp [opensExpression] at ht

theorem Items.phrase {ts : List Token} {es : List Expr} :
    Items true ts es → ∀ (levels : Nat) (rest : List Token), ts.length ≤ levels →
      ∀ before : List Expr, Separated (fun _ => ExpressionWithin levels) before
        (ts ++ .mark .rightParen :: rest) es (.mark .rightParen :: rest)
  | .last only, _, _, hlevels, _ =>
    .last (only.phrase _ _ hlevels Ends.rightParen.unapplied fun _ => Ends.rightParen.loose 0)
      (by simp)
  | @Items.more _ _ us e _ _ first others, levels, rest, hlevels, before => by
    simp only [List.length_append, List.length_cons] at hlevels
    have hfirst := first.phrase levels (.mark .comma :: (us ++ .mark .rightParen :: rest)) (by omega)
      Ends.comma.unapplied fun _ => Ends.comma.loose 0
    have hothers := others.phrase levels rest (by omega) (e :: before)
    simpa using Separated.more hfirst hothers

end

theorem Names.phrase {names : List String} (h : Names ts names) (rest : List Token)
    (before : List String) :
    Separated (Parameter false) before (ts ++ .mark .rightParen :: rest) names
      (.mark .rightParen :: rest) := by
  induction h generalizing before with
  | last => exact .last ⟨rfl, nofun⟩ (by simp)
  | more _ ih => exact .more ⟨rfl, nofun⟩ (ih _)

theorem Parameters.phrase {names : List String} (h : Parameters ts names) (rest : List Token) :
    Listed (Parameter false) (ts ++ .mark .rightParen :: rest) names
      (.mark .rightParen :: rest) := by
  cases h with
  | none => exact .none
  | some items =>
    have hitems := items.phrase rest []
    refine .some ?_ hitems
    cases items <;> simp

theorem Statement.length_pos {s : Stmt} (h : Statement settled ts s openly) : 0 < ts.length := by
  cases h <;> simp

theorem Block.length_pos {b : List Stmt} (h : Block settled ts b openly) : 0 < ts.length := by
  cases h with
  | braces => simp
  | single only => exact only.length_pos

theorem head_ne_of_opensStatement {α : Type} {phrase : Phrase α} {a : α}
    (h : Opens opensStatement phrase) (hp : phrase ts a rest) {t : Token}
    (ht : opensStatement t = false) : ts.head? ≠ some t := by
  obtain ⟨t', us, rfl, ht', -⟩ := h hp
  rintro ⟨⟩
  simp [ht] at ht'

theorem head_ne_of_repeated {α : Type} {item : Phrase α} {as : List α}
    (h : Opens opensStatement item) (hr : Repeated item ts as rest) {t : Token}
    (hrest : rest.head? ≠ some t) (ht : opensStatement t = false) : ts.head? ≠ some t := by
  cases hr with
  | nil => exact hrest
  | cons first _ => exact head_ne_of_opensStatement h first ht

mutual

theorem Statement.phrase {ts : List Token} {s : Stmt} {openly : Bool} :
    Statement true ts s openly → ∀ (levels : Nat) (rest : List Token), ts.length ≤ levels + 1 →
      (openly = true → rest.head? ≠ some (.keyword .elseWord)) →
        StatementWithin false levels (ts ++ rest) s rest
  | .expression value, levels, rest, hlevels, _ => by
    simp only [List.length_append, List.length_cons, List.length_nil] at hlevels
    have hvalue := value.phrase levels (.mark .semicolon :: rest) (by omega)
      Ends.semicolon.unapplied fun _ => Ends.semicolon.loose 0
    rw [List.append_assoc]
    exact .expression hvalue
  | .ret value, levels, rest, hlevels, _ => by
    simp only [List.length_append, List.length_cons, List.length_nil] at hlevels
    have hvalue := value.phrase levels (.mark .semicolon :: rest) (by omega)
      Ends.semicolon.unapplied fun _ => Ends.semicolon.loose 0
    rw [List.cons_append, List.append_assoc]
    exact .ret hvalue
  | @Statement.loop _ _ us _ _ _ _ condition body, levels, rest, hlevels, hrest => by
    simp only [List.length_append, List.length_cons] at hlevels
    have hcondition := condition.phrase levels (.mark .rightParen :: (us ++ rest)) (by omega)
      Ends.rightParen.unapplied fun _ => Ends.rightParen.loose 0
    have hbody := body.phrase levels rest (by omega) hrest
    simpa [StatementWithin] using Grammar.Statement.loop hcondition hbody
  | @Statement.conditional _ _ us _ _ _ _ condition taken, levels, rest, hlevels, hrest => by
    simp only [List.length_append, List.length_cons] at hlevels
    have hcondition := condition.phrase levels (.mark .rightParen :: (us ++ rest)) (by omega)
      Ends.rightParen.unapplied fun _ => Ends.rightParen.loose 0
    have htaken := taken.phrase levels rest (by omega) fun _ => hrest rfl
    simpa [StatementWithin] using Grammar.Statement.conditional hcondition htaken (hrest rfl)
  | @Statement.alternative _ _ us vs _ _ _ _ _ _ condition taken nearest otherwise, levels, rest, hlevels,
      hrest => by
    simp only [List.length_append, List.length_cons] at hlevels
    have hcondition := condition.phrase levels
      (.mark .rightParen :: (us ++ .keyword .elseWord :: (vs ++ rest))) (by omega)
      Ends.rightParen.unapplied fun _ => Ends.rightParen.loose 0
    have htaken := taken.phrase levels (.keyword .elseWord :: (vs ++ rest))
      (by omega) fun hopen => by simp [nearest rfl] at hopen
    have hotherwise := otherwise.phrase levels rest (by omega) hrest
    simpa [StatementWithin] using Grammar.Statement.alternative hcondition htaken hotherwise
  | @Statement.define _ _ _ us _ _ _ items body, levels, rest, hlevels, hrest => by
    simp only [List.length_append, List.length_cons] at hlevels
    have hitems := items.phrase (us ++ rest)
    have hbody := body.phrase levels rest (by omega) hrest
    simpa [StatementWithin] using Grammar.Statement.define hitems hbody

theorem Block.phrase {ts : List Token} {b : List Stmt} {openly : Bool} :
    Block true ts b openly → ∀ (levels : Nat) (rest : List Token), ts.length ≤ levels →
      (openly = true → rest.head? ≠ some (.keyword .elseWord)) →
        BlockWithin false levels (ts ++ rest) b rest
  | .braces body, levels, rest, hlevels, _ => by
    simp only [List.length_append, List.length_cons, List.length_nil] at hlevels
    obtain ⟨levels, rfl⟩ := Nat.exists_eq_add_one_of_ne_zero (n := levels) (by omega)
    have hbody := body.phrase levels (.mark .rightBrace :: rest) (by omega)
      (by simp)
    rw [List.cons_append, List.append_assoc]
    exact .braces hbody
  | .single only, levels, rest, hlevels, hrest => by
    have hpos := only.length_pos
    obtain ⟨levels, rfl⟩ := Nat.exists_eq_add_one_of_ne_zero (n := levels) (by omega)
    have honly := only.phrase levels rest hlevels hrest
    exact .single (head_ne_of_opensStatement (opens_statementWithin _ _) honly rfl) honly

theorem Program.phrase {ts : List Token} {b : List Stmt} :
    Program true ts b → ∀ (levels : Nat) (rest : List Token), ts.length ≤ levels + 1 →
      rest.head? ≠ some (.keyword .elseWord) →
        Repeated (StatementWithin false levels) (ts ++ rest) b rest
  | .nil, _, _, _, _ => .nil
  | @Program.cons _ _ us _ _ _ first others, levels, rest, hlevels, hrest => by
    simp only [List.length_append] at hlevels
    have hothers := others.phrase levels rest (by omega) hrest
    have hhead := head_ne_of_repeated (opens_statementWithin _ _) hothers hrest rfl
    have hfirst := first.phrase levels (us ++ rest) (by omega) fun _ => hhead
    rw [List.append_assoc]
    exact .cons hfirst hothers

end

theorem Program.grammar {b : List Stmt} (h : Program true ts b) (hlevels : ts.length ≤ levels) :
    Grammar.Program { strictParams := false, maxDepth := levels } ts b := by
  have hphrase := h.phrase levels [] (Nat.le_succ_of_le hlevels) (by simp)
  rwa [List.append_nil] at hphrase

end Sapling.Derivation

namespace Sapling

open TokenSource

/-- With more levels than tokens, a parse succeeds exactly if the tokens can be derived as a
program. It gives the tree of the derivation in which each `else` belongs to the nearest open `if`
and each value of an assignment extends as far to the right as it can. -/
theorem parseFrom_eq_ok_iff_derivation {σ : Type} [TokenSource σ] {source : σ} {ts : List Token}
    (hts : Supplies source ts) {levels : Nat} (hlevels : ts.length < levels) :
    ((∃ program, parseFrom { strictParams := false, maxDepth := levels } source = .ok program) ↔
      ∃ program, Derivation.Program false ts program) ∧
    ∀ program, parseFrom { strictParams := false, maxDepth := levels } source = .ok program ↔
      Derivation.Program true ts program := by
  have hsettled (program : Block) :
      parseFrom { strictParams := false, maxDepth := levels } source = .ok program ↔
        Derivation.Program true ts program := by
    rw [parseFrom_eq_ok_iff]
    constructor
    · rintro ⟨us, hus, hprogram⟩
      obtain rfl := hts.unique hus
      exact .of_grammar true hprogram
    · exact fun h => ⟨ts, hts, h.grammar (Nat.le_of_lt hlevels)⟩
  refine ⟨⟨?_, ?_⟩, hsettled⟩
  · rintro ⟨program, h⟩
    obtain ⟨us, hus, hprogram⟩ := parseFrom_eq_ok_iff.mp h
    obtain rfl := hts.unique hus
    exact ⟨program, .of_grammar false hprogram⟩
  · rintro ⟨program, h⟩
    obtain ⟨program', h'⟩ := h.exists_settled
    exact ⟨program', (hsettled program').mpr h'⟩

/-- In `if (a) if (b) x = y + z; else f();` the `else` belongs to the second `if`, and the value is
the whole sum. -/
theorem parse_derivation_nearest_if :
    let ts : List Token := [.keyword .ifWord, .mark .leftParen, .ident "a", .mark .rightParen,
      .keyword .ifWord, .mark .leftParen, .ident "b", .mark .rightParen, .ident "x",
      .mark .assign, .ident "y", .operator .add, .ident "z", .mark .semicolon,
      .keyword .elseWord, .ident "f", .mark .leftParen, .mark .rightParen, .mark .semicolon]
    let program : Block := [.conditional (.variable "a") [.conditional (.variable "b")
      [.expression (.assign "x" (.binary .add (.variable "y") (.variable "z")))]
      (some [.expression (.call "f" [])])] none]
    Supplies (Feed.ofTokens ts) ts ∧ ts.length < 20 ∧
      parseFrom { strictParams := false, maxDepth := 20 } (Feed.ofTokens ts) = .ok program ∧
      Derivation.Program true ts program := by
  intro ts program
  have hlength : ts.length < 20 := by decide
  have hts := Feed.supplies_ofTokens ts
  have hparse : parseFrom { strictParams := false, maxDepth := 20 } (Feed.ofTokens ts) =
      .ok program := rfl
  exact ⟨hts, hlength, hparse, ((parseFrom_eq_ok_iff_derivation hts hlength).2 program).mp hparse⟩

end Sapling
