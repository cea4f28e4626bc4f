import Sapling.Proofs.InStep

/-!
# The rules of the grammar in step

Every rule of the grammar keeps two parses in step, and so do programs (`program_together`). The
comparison that is used most is that of two parses up to and including one token
(`abreast_upTo`).
-/
namespace Sapling.Parse

variable {σ τ α : Type} [TokenSource σ] [TokenSource τ] {d : Comparison σ τ} {n taken : Nat}
  {next : Option Token} {s : Lookahead σ} {s' : Lookahead τ}

section
variable {expr : Parse σ Expr} {expr' : Parse τ Expr} {rounds rounds' : Nat}
  (hexpr : ∀ next, InStep d n 1 next expr expr')
include hexpr

theorem inStep_parenthesized :
    InStep d n 1 next (parenthesized expr) (parenthesized expr') :=
  (inStep_eat _).then fun _ next => (hexpr next).weaken.then fun e _ =>
    ((inStep_eat _).then fun _ _ => inStep_pure e).weaken

section
variable (hrounds : n ≤ rounds + 1) (hrounds' : n ≤ rounds' + 1)
include hrounds hrounds'

theorem inStep_arguments :
    InStep d n 0 next (arguments (rounds + 1) expr) (arguments (rounds' + 1) expr') :=
  .isNext (fun _ _ => inStep_pure _)
    (InStep.separated (fun _ => hexpr) hrounds hrounds' [] next).weaken

theorem inStep_afterName (name : String) :
    InStep d n 0 next (afterName (rounds + 1) expr name) (afterName (rounds' + 1) expr' name) := by
  refine .peek ?_
  split
  · refine ((inStep_advance _).then fun _ next => ?_).weaken
    exact (hexpr next).weaken.then fun e _ => inStep_pure _
  · refine ((inStep_advance _).then fun _ next => ?_).weaken
    refine (inStep_arguments hexpr hrounds hrounds').then fun args next => ?_
    exact ((inStep_eat _).then fun _ _ => inStep_pure _).weaken
  · exact inStep_pure _

theorem inStep_primary :
    InStep d n 1 next (primary (rounds + 1) expr) (primary (rounds' + 1) expr') := by
  refine .peek ?_
  split
  · exact (inStep_advance _).then fun _ _ => inStep_afterName hexpr hrounds hrounds' _
  · exact (inStep_advance _).then fun _ _ => inStep_pure _
  · exact (inStep_advance _).then fun _ _ => inStep_pure _
  · exact inStep_parenthesized hexpr
  · exact inStep_unexpected _

end

end

theorem InStep.nextOperator {least : Nat} {f : Option Operator → Parse σ α}
    {g : Option Operator → Parse τ α} (hnone : InStep d n taken next (f none) (g none))
    (hsome : ∀ t op, next = some t → InStep d n taken next (f (some op)) (g (some op))) :
    InStep d n taken next (nextOperator least >>= f) (nextOperator least >>= g) := by
  have hpeek : InStep d n taken next
      (Parse.peek >>= fun next =>
        f ((next.bind Token.operator?).filter (least ≤ ·.precedence)))
      (Parse.peek >>= fun next =>
        g ((next.bind Token.operator?).filter (least ≤ ·.precedence))) := by
    refine .peek ?_
    cases hop : (next.bind Token.operator?).filter (least ≤ ·.precedence) with
    | none => exact hnone
    | some op =>
      cases next with
      | none => simp at hop
      | some t => exact hsome t op rfl
  exact hpeek

theorem inStep_absorb {climb : Nat → Expr → Parse σ Expr} {climb' : Nat → Expr → Parse τ Expr}
    (hclimb : ∀ least left next, InStep d n 0 next (climb least left) (climb' least left))
    (least tiers : Nat) (right : Expr) (next : Option Token) :
    InStep d n 0 next (absorb climb least tiers right) (absorb climb' least tiers right) := by
  induction tiers generalizing right next with
  | zero => exact inStep_pure right
  | succ tiers ih =>
    exact .nextOperator (inStep_pure right) fun _ op _ =>
      (hclimb op.precedence right next).then fun middle next => ih middle next

section
variable {operand : Parse σ Expr} {operand' : Parse τ Expr}
  (hoperand : ∀ next, InStep d n 0 next operand operand')
include hoperand

theorem inStep_chain {climb : Nat → Expr → Parse σ Expr} {climb' : Nat → Expr → Parse τ Expr}
    (hclimb : ∀ least left next, InStep d n 0 next (climb least left) (climb' least left))
    (least room : Nat) (left : Expr) (next : Option Token) :
    InStep d n 0 next (chain operand climb least room left)
      (chain operand' climb' least room left) := by
  induction room generalizing left next with
  | zero => exact .nextOperator (inStep_pure left) fun _ _ _ => inStep_violation _
  | succ room ih =>
    refine .nextOperator (inStep_pure left) ?_
    rintro t op rfl
    refine ((inStep_advance t).then fun _ next => ?_).weaken
    exact (hoperand next).then fun first next =>
      (inStep_absorb hclimb _ 5 first next).then fun right next => ih (.binary op left right) next

theorem inStep_climb (room tiers least : Nat) (left : Expr) (next : Option Token) :
    InStep d n 0 next (climb operand room tiers least left)
      (climb operand' room tiers least left) := by
  induction tiers generalizing least left next with
  | zero => exact inStep_pure left
  | succ tiers ih => exact inStep_chain hoperand ih least room left next

end

variable {rounds rounds' : Nat}

abbrev topStatement (rounds : Nat) (options : ParseOptions) : Parse σ Stmt :=
  statement rounds options.strictParams (expression rounds options.maxDepth)
    (block rounds options.strictParams options.maxDepth)

/-- The statements up to the end of the source, at most as many as there are turns. -/
def statements (rounds turns : Nat) (options : ParseOptions) (read : Block) : Parse σ Block :=
  repeatWhile (fun s => !s.atEnd) (topStatement rounds options) turns read

theorem program_eq_statements (options : ParseOptions) (s : Lookahead σ) :
    program options s = statements (TokenSource.bound s.source + 1) (TokenSource.bound s.source + 1)
      options [] s :=
  rfl

section
variable (hrounds : n ≤ rounds + 1) (hrounds' : n ≤ rounds' + 1)
include hrounds hrounds'

theorem inStep_expression (levels : Nat) (next : Option Token) :
    InStep d n 1 next (expression (rounds + 1) levels : Parse σ Expr)
      (expression (rounds' + 1) levels : Parse τ Expr) := by
  induction levels generalizing next with
  | zero => exact inStep_violation _
  | succ levels ih =>
    have hprimary (next : Option Token) :
        InStep d n 1 next (primary (rounds + 1) (expression (rounds + 1) levels) : Parse σ Expr)
          (primary (rounds' + 1) (expression (rounds' + 1) levels) : Parse τ Expr) :=
      inStep_primary ih hrounds hrounds'
    exact (hprimary next).then fun first next =>
      .ite (inStep_pure first)
        (inStep_climb (fun next => (hprimary next).weaken) levels 5 0 first next)

omit hrounds hrounds' in
theorem inStep_parameter (strict : Bool) (read : List String) (next : Option Token) :
    InStep d n 1 next (parameter strict read : Parse σ String)
      (parameter strict read : Parse τ String) := by
  refine .peek ?_
  split
  · exact .ite (inStep_violation _) ((inStep_advance _).then fun _ _ => inStep_pure _)
  · exact inStep_violation _

omit hrounds hrounds' in
theorem inStep_functionName :
    InStep d n 0 next (functionName : Parse σ String) (functionName : Parse τ String) := by
  refine .peek ?_
  split
  · exact ((inStep_advance _).then fun _ _ => inStep_pure _).weaken
  · exact inStep_violation _

section
variable {expr : Parse σ Expr} {expr' : Parse τ Expr} {block : Parse σ Block}
  {block' : Parse τ Block} {strict : Bool} (hexpr : ∀ next, InStep d n 1 next expr expr')
  (hblock : ∀ next, InStep d n 0 next block block')

include hblock

theorem inStep_definition :
    InStep d n 1 next (definition (rounds + 1) strict block)
      (definition (rounds' + 1) strict block') := by
  have hrest (name : String) (next : Option Token) : InStep d n 0 next (do
        let params ← parameters (rounds + 1) strict
        eat (.mark .rightParen)
        return Stmt.define name params (← block))
      (do
        let params ← parameters (rounds' + 1) strict
        eat (.mark .rightParen)
        return Stmt.define name params (← block')) := by
    have hparams : InStep d n 0 next (parameters (rounds + 1) strict : Parse σ (List String))
        (parameters (rounds' + 1) strict : Parse τ (List String)) :=
      .isNext (fun _ _ => inStep_pure _)
        (InStep.separated (inStep_parameter strict) hrounds hrounds' [] next).weaken
    refine hparams.then fun params _ => ?_
    exact ((inStep_eat _).then fun _ next => (hblock next).then fun b _ => inStep_pure _).weaken
  refine (inStep_eat _).then fun _ next => inStep_functionName.then fun name next => .isNext ?_ ?_
  · rintro t rfl
    exact ((inStep_advance t).then fun _ next => hrest name next).weaken
  · exact (inStep_violation _).then fun _ next => hrest name next

omit hrounds hrounds' in
theorem inStep_elseBlock : InStep d n 0 next (elseBlock block) (elseBlock block') := by
  refine .isNext ?_ (inStep_pure none)
  rintro t rfl
  exact ((inStep_advance t).then fun _ next =>
    (hblock next).then fun b _ => inStep_pure (some b)).weaken

include hexpr

theorem inStep_statement :
    InStep d n 1 next (statement (rounds + 1) strict expr block)
      (statement (rounds' + 1) strict expr' block') := by
  refine .peek ?_
  split
  · exact (inStep_eat _).then fun _ _ => (inStep_parenthesized hexpr).weaken.then fun c next =>
      (hblock next).then fun b _ => inStep_pure (Stmt.loop c b)
  · exact (inStep_eat _).then fun _ _ => (inStep_parenthesized hexpr).weaken.then fun c next =>
      (hblock next).then fun yes _ => (inStep_elseBlock hblock).then fun no _ =>
        inStep_pure (Stmt.conditional c yes no)
  · exact (inStep_eat _).then fun _ next => (hexpr next).weaken.then fun e _ =>
      ((inStep_eat _).then fun _ _ => inStep_pure (Stmt.ret e)).weaken
  · exact inStep_definition hrounds hrounds' hblock
  · exact (hexpr _).then fun e _ =>
      ((inStep_eat _).then fun _ _ => inStep_pure (Stmt.expression e)).weaken
  · exact inStep_unexpected _

end

theorem inStep_blockOf {stmt : Parse σ Stmt} {stmt' : Parse τ Stmt}
    (hstmt : ∀ next, InStep d n 1 next stmt stmt') :
    InStep d n 0 next (blockOf (rounds + 1) stmt) (blockOf (rounds' + 1) stmt') := by
  refine .isNext ?_ ((hstmt next).then fun s _ => inStep_pure [s]).weaken
  rintro t rfl
  refine ((inStep_advance t).then fun _ next => ?_).weaken
  have hmore (s : Lookahead σ) (s' : Lookahead τ) (hend : s.atEnd = s'.atEnd)
      (htoken : s.token? = s'.token?) : (!s.atEnd && !s.isAt (.mark .rightBrace)) =
        (!s'.atEnd && !s'.isAt (.mark .rightBrace)) := by
    rw [hend, Lookahead.isAt, Lookahead.isAt, htoken]
  refine (InStep.repeatWhile hmore (fun s hs => by simp [hs]) (fun s hs => by simp [hs]) hstmt
    hrounds hrounds' [] next).then fun body _ => ?_
  exact ((inStep_eat _).then fun _ _ => inStep_pure body).weaken

theorem inStep_block (strict : Bool) (levels : Nat) (next : Option Token) :
    InStep d n 0 next (block (rounds + 1) strict levels : Parse σ Block)
      (block (rounds' + 1) strict levels : Parse τ Block) := by
  induction levels generalizing next with
  | zero => exact inStep_violation _
  | succ levels ih =>
    exact inStep_blockOf hrounds hrounds' fun _ => inStep_statement hrounds hrounds'
      (inStep_expression hrounds hrounds' levels) ih

theorem inStep_topStatement (options : ParseOptions) (next : Option Token) :
    InStep d n 1 next (topStatement (rounds + 1) options : Parse σ Stmt)
      (topStatement (rounds' + 1) options : Parse τ Stmt) :=
  inStep_statement hrounds hrounds' (inStep_expression hrounds hrounds' _)
    (inStep_block hrounds hrounds' _ _)

theorem inStep_statements {turns turns' : Nat} (hturns : n ≤ turns) (hturns' : n ≤ turns')
    (options : ParseOptions) (read : Block) (next : Option Token) :
    InStep d n 0 next (statements (rounds + 1) turns options read : Parse σ Block)
      (statements (rounds' + 1) turns' options read : Parse τ Block) :=
  InStep.repeatWhile (fun s s' hend _ => by rw [hend]) (fun s hs => by simp [hs])
    (fun s hs => by simp [hs]) (inStep_topStatement hrounds hrounds' options) hturns hturns' read
    next

end

/-- Programs with the same tokens in common are parsed alike. -/
theorem program_together (h : Abreast d n s s') (hn : n ≤ TokenSource.bound s.source + 1)
    (hn' : n ≤ TokenSource.bound s'.source + 1) (options : ParseOptions) :
    Together d n 0 (program options s) (program options s') := by
  rw [program_eq_statements, program_eq_statements]
  exact (inStep_statements hn hn' hn hn' options [] _).together (Nat.le_refl n) h rfl

def final : EStateM.Result SyntaxError (Lookahead σ) α → Lookahead σ
  | .ok _ s => s
  | .error _ s => s

theorem Reached.holds {result : EStateM.Result SyntaxError (Lookahead σ) α} {ts : List Token}
    (h : Reached s result) (hs : s.Holds ts none) :
    ∃ rest, rest <:+ ts ∧ (final result).Holds rest none := by
  induction h generalizing ts with
  | ok | error => exact ⟨ts, List.suffix_refl ts, hs⟩
  | @broken s s' t e token fails =>
    rw [hs.token?_eq] at token
    obtain ⟨us, rfl⟩ := List.head?_eq_some_iff.mp token
    obtain ⟨s₁, hadvance, -⟩ := hs.exists_advance
    simp [fails] at hadvance
  | step step _ ih =>
    obtain ⟨us, rfl, hus⟩ := hs.of_step step
    obtain ⟨rest, hrest, hfinal⟩ := ih hus
    exact ⟨rest, hrest.trans (List.suffix_cons _ us), hfinal⟩

theorem Beyond.holds {result : EStateM.Result SyntaxError (Lookahead σ) α} {t : Token}
    {ts : List Token} (h : Beyond s result) (hs : s.Holds (t :: ts) none) :
    ∃ rest, rest <:+ ts ∧ (final result).Holds rest none := by
  cases h with
  | broken fails =>
    obtain ⟨s₁, hadvance, -⟩ := hs.exists_advance
    simp [fails] at hadvance
  | step step rest =>
    obtain ⟨us, heq, hus⟩ := hs.of_step step
    obtain ⟨-, rfl⟩ := List.cons.inj heq
    exact rest.holds hus

/-- Taking these tokens leads from one state to another. -/
inductive Leads : Lookahead τ → List Token → Lookahead τ → Prop
  | nil {s : Lookahead τ} : Leads s [] s
  | cons {s s' last : Lookahead τ} {t : Token} {ts : List Token} (step : s.Step t s')
      (rest : Leads s' ts last) : Leads s (t :: ts) last

theorem Leads.holds {s last : Lookahead τ} {ts us : List Token} {failure : Option SyntaxError}
    (h : Leads s ts last) (hlast : last.Holds us failure) : s.Holds (ts ++ us) failure := by
  induction h with
  | nil => exact hlast
  | cons step _ ih => exact .more step (ih hlast)

/-- A source gives up some of its bound for every token. -/
theorem Leads.bound_le {s last : Lookahead τ} {ts : List Token} (h : Leads s ts last)
    (hlast : last.atEnd = false) : s.atEnd = false ∧
      TokenSource.bound last.source + ts.length ≤ TokenSource.bound s.source := by
  induction h with
  | nil => exact ⟨hlast, Nat.le_refl _⟩
  | cons step _ ih =>
    obtain ⟨hend, hle⟩ := ih hlast
    refine ⟨Lookahead.atEnd_of_token? step.1, ?_⟩
    rcases Lookahead.current_of_ofSource (Lookahead.advance_eq_ok_iff.mp step.2) with
      hend' | ⟨-, -, hlt⟩
    · simp [hend] at hend'
    · rw [List.length_cons]
      omega

theorem exists_leads {ts us : List Token} (h : s.Holds (ts ++ us) none) :
    ∃ last, Leads s ts last ∧ last.Holds us none := by
  induction ts generalizing s with
  | nil => exact ⟨s, .nil, h⟩
  | cons t ts ih =>
    obtain ⟨s', hadvance, hs'⟩ := h.exists_advance
    obtain ⟨last, hlast, hus⟩ := ih hs'
    exact ⟨last, .cons ⟨h.token?_eq, hadvance⟩ hlast, hus⟩

/-- The comparison that ends where the tokens on the left are these, and the state on the right is
this one. -/
def upTo (ts : List Token) (last : Lookahead τ) : Comparison σ τ where
  lines _ _ := True
  left s := s.Holds ts none
  right s := s = last

theorem level_upTo {ts : List Token} {last : Lookahead τ} {t : Token} (h : s.token? = some t)
    (h' : s'.token? = some t) : Level (upTo ts last) s s' :=
  ⟨by rw [Lookahead.atEnd_of_token? h, Lookahead.atEnd_of_token? h'], by rw [h, h'], trivial⟩

theorem abreast_upTo {ts us : List Token} {t : Token} {last : Lookahead τ}
    (hs : s.Holds (ts ++ t :: us) none) (h : Leads s' ts last) (hlast : last.token? = some t) :
    Abreast (upTo (t :: us) last) (ts.length + 1) s s' := by
  induction h generalizing s with
  | nil => exact .parted (level_upTo hs.token?_eq hlast) hs.token?_eq hs rfl
  | cons step _ ih =>
    obtain ⟨s₁, hadvance, hs₁⟩ := hs.exists_advance
    have hbefore : ¬ s.Holds (t :: us) none := by
      intro hplace
      have hlength := congrArg List.length (hs.unique hplace)
      simp only [List.length_append, List.length_cons] at hlength
      omega
    exact .step (level_upTo hs.token?_eq step.1) hbefore ⟨hs.token?_eq, hadvance⟩ step.2
      (ih hs₁ hlast)

end Sapling.Parse
