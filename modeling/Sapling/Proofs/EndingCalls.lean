import Sapling.Proofs.ParseCalls
import Sapling.Proofs.ExpressionSound

/-!
# Parsers on sources of tokens

Every call of a parser on a source of tokens ends, as the parse does whose bounds are the number of
tokens and levels that are left (`program_eq`). So a parser and the bounded parse read the same
(`run_eq`). The climbs of an operand end because each begins with an operator that
binds less tightly than the one before, or, inside another climb, more tightly than that.
-/
namespace Sapling.Parser

variable {σ α : Type} [TokenSource σ] {options : ParseOptions} {depth n taken : Nat}
  {next : Option Token}

section
variable {expr : Parse σ Expr} {rounds : Nat}
  (hexpr : ∀ next, Follows options depth n 1 next expression expr)
include hexpr

theorem follows_parenthesized :
    Follows options depth n 1 next parenthesized (Parse.parenthesized expr) := by
  refine .unfold ?_ parenthesized.eq_1
  refine (follows_eat _).then fun _ next => (hexpr next).weaken.then fun e _ => ?_
  exact ((follows_eat _).then fun _ _ => follows_pure e).weaken

section
variable (hrounds : n ≤ rounds + 1)
include hrounds

theorem follows_arguments :
    Follows options depth n 0 next arguments (Parse.arguments (rounds + 1) expr) := by
  refine .unfold ?_ arguments.eq_1
  refine .isNext (fun _ _ _ => follows_pure []) ?_
  exact (Follows.separated argumentsFrom.eq_1 (fun _ => hexpr) hrounds [] next).weaken

theorem follows_afterName (name : String) :
    Follows options depth n 0 next (afterName name) (Parse.afterName (rounds + 1) expr name) := by
  refine .unfold ?_ (afterName.eq_1 name)
  refine .peek ?_
  cases next with
  | none => exact follows_pure _
  | some t =>
    cases t with
    | mark m =>
      cases m with
      | assign =>
        refine ((follows_advance _).then fun _ next => ?_).weaken
        exact (hexpr next).weaken.then fun e _ => follows_pure _
      | leftParen =>
        refine ((follows_advance _).then fun _ next => ?_).weaken
        refine (follows_arguments hexpr hrounds).then fun args _ => ?_
        exact ((follows_eat _).then fun _ _ => follows_pure _).weaken
      | _ => exact follows_pure _
    | _ => exact follows_pure _

theorem follows_primary :
    Follows options depth n 1 next primary (Parse.primary (rounds + 1) expr) := by
  refine .unfold ?_ primary.eq_1
  refine .peek ?_
  cases next with
  | none => exact follows_unexpected _
  | some t =>
    cases t with
    | ident name => exact (follows_advance _).then fun _ _ => follows_afterName hexpr hrounds _
    | number value => exact (follows_advance _).then fun _ _ => follows_pure _
    | str text => exact (follows_advance _).then fun _ _ => follows_pure _
    | mark m =>
      cases m with
      | leftParen => exact follows_parenthesized hexpr
      | _ => exact follows_unexpected _
    | _ => exact follows_unexpected _

end

end

/-- The token is no operator that binds as tightly as that. -/
def Looser (least : Nat) (next : Option Token) : Prop :=
  ∀ op, next.bind Token.operator? = some op → op.precedence < least

def tightOperator (least : Nat) (next : Option Token) : Option Operator :=
  (next.bind Token.operator?).filter (least ≤ ·.precedence)

theorem tightOperator_cases (least : Nat) (next : Option Token) :
    (tightOperator least next = none ∧ Looser least next) ∨
      ∃ t op, tightOperator least next = some op ∧ next = some t ∧ t.operator? = some op ∧
        least ≤ op.precedence := by
  unfold tightOperator Looser
  cases next with
  | none => exact .inl ⟨rfl, by simp⟩
  | some t =>
    cases hop : t.operator? with
    | none => exact .inl ⟨by simp [hop], by simp [hop]⟩
    | some op =>
      by_cases htight : least ≤ op.precedence
      · exact .inr ⟨t, op, by simp [hop, htight], rfl, hop, htight⟩
      · have hloose : op.precedence < least := Nat.lt_of_not_le htight
        exact .inl ⟨by simp [hop, hloose], by simpa [hop] using hloose⟩

theorem nextOperator_bind (least : Nat) (l : Option Operator → Parse σ α) (s : Lookahead σ) :
    (Parse.nextOperator least >>= l) s = l (tightOperator least s.token?) s :=
  rfl

theorem Follows.nextOperator {least : Nat} {k : Option Operator → Call σ α}
    {l : Option Operator → Parse σ α}
    (hnone : tightOperator least next = none → Looser least next →
      Follows options depth n taken next (k none) (l none))
    (hsome : ∀ t op, next = some t → t.operator? = some op → least ≤ op.precedence →
      Follows options depth n taken next (k (some op)) (l (some op))) :
    Follows options depth n taken next (nextOperator least >>= k)
      (Parse.nextOperator least >>= l) := by
  have hpeek : Follows options depth n taken next
      (Parser.peek >>= fun next => k (tightOperator least next))
      (Parse.peek >>= fun next => l (tightOperator least next)) := by
    refine .peek ?_
    rcases tightOperator_cases least next with ⟨hop, hloose⟩ | ⟨t, op, hop, ht, hop', htight⟩
    · rw [hop]
      exact hnone hop hloose
    · rw [hop]
      exact hsome t op ht hop' htight
  exact hpeek

theorem chain_ends {operand : Parse σ Expr} {climb : Nat → Expr → Parse σ Expr} {least : Nat}
    {s s' : Lookahead σ} {e : Expr} (room : Nat) (left : Expr)
    (h : Parse.chain operand climb least room left s = .ok e s') : Looser least s'.token? := by
  induction room generalizing left s with
  | zero =>
    rw [Parse.chain, nextOperator_bind] at h
    rcases tightOperator_cases least s.token? with ⟨hop, hloose⟩ | ⟨t, op, hop, -⟩
    · rw [hop] at h
      obtain ⟨-, rfl⟩ := Parse.pure_eq_ok.mp h
      exact hloose
    · rw [hop] at h
      exact absurd h (Parse.violation_ne_ok _ _)
  | succ room ih =>
    rw [Parse.chain, nextOperator_bind] at h
    rcases tightOperator_cases least s.token? with ⟨hop, hloose⟩ | ⟨t, op, hop, -⟩
    · rw [hop] at h
      obtain ⟨-, rfl⟩ := Parse.pure_eq_ok.mp h
      exact hloose
    · rw [hop] at h
      obtain ⟨_, _, -, h⟩ := Parse.bind_eq_ok.mp h
      obtain ⟨_, _, -, h⟩ := Parse.bind_eq_ok.mp h
      obtain ⟨_, _, -, h⟩ := Parse.bind_eq_ok.mp h
      exact ih _ h

/-- The climbs with operators that bind more tightly than `least` do what the parser does, and end
before an operator that they do not take. -/
structure Climbs (options : ParseOptions) (depth n least : Nat)
    (climb : Nat → Expr → Parse σ Expr) : Prop where
  follows : ∀ (op : Operator) left next, least < op.precedence →
    Follows options depth n 0 next (binary op.precedence 0 left) (climb op.precedence left)
  ends : ∀ (op : Operator) left {s s' : Lookahead σ} {e : Expr}, least < op.precedence →
    climb op.precedence left s = .ok e s' → Looser op.precedence s'.token?

/-- No more climbs are made than there are precedences below the next operator. -/
theorem follows_absorb {climb : Nat → Expr → Parse σ Expr} {op : Operator}
    (hclimb : Climbs options depth n op.precedence climb) {tiers : Nat}
    (hnext : Looser tiers next) (right : Expr) :
    Follows options depth n 0 next (absorb op right)
      (Parse.absorb climb (op.precedence + 1) tiers right) := by
  induction tiers generalizing next right with
  | zero =>
    refine .unfold ?_ (absorb.eq_1 op right)
    refine .nextOperator (l := fun _ => pure right) (fun _ _ => follows_pure right) ?_
    intro t inner ht hinner _
    exact absurd (hnext inner (by rw [ht]; exact hinner)) (Nat.not_lt_zero _)
  | succ tiers ih =>
    refine .unfold ?_ (absorb.eq_1 op right)
    refine .nextOperator (fun _ _ => follows_pure right) fun t inner ht hinner htight => ?_
    have hlt : inner.precedence < tiers + 1 := hnext inner (by rw [ht]; exact hinner)
    have hrest (more : Expr) (s s' : Lookahead σ)
        (hrun : climb inner.precedence right s = .ok more s') :
        Follows options depth n 0 s'.token? (absorb op more)
          (Parse.absorb climb (op.precedence + 1) tiers more) := by
      have hloose := hclimb.ends inner right htight hrun
      exact ih (fun op hop => Nat.lt_of_lt_of_le (hloose op hop) (Nat.le_of_lt_succ hlt)) more
    exact (hclimb.follows inner right next htight).bind_of_run (Nat.le_refl n) hrest

section
variable {operand : Parse σ Expr}
  (hoperand : ∀ next, Follows options depth n 0 next primary operand)
include hoperand

/-- A chain has room for as many operators as there are levels left, less those that it has. -/
theorem follows_chain {climb : Nat → Expr → Parse σ Expr} {least : Nat}
    (hclimb : Climbs options depth n least climb) {room operators : Nat}
    (hroom : depth + operators + room = options.maxDepth) (left : Expr) (next : Option Token) :
    Follows options depth n 0 next (binary least operators left)
      (Parse.chain operand climb least room left) := by
  induction room generalizing operators left next with
  | zero =>
    refine .unfold ?_ (binary.eq_1 least operators left)
    refine .nextOperator (fun _ _ => follows_pure left) fun t op _ _ _ => ?_
    have hfull (s : Lookahead σ) :
        (ofLookahead options depth s).isExceededBy (operators + 1) = true :=
      decide_eq_true (show options.maxDepth < depth + (operators + 1) by omega)
    exact .when_const hfull (follows_violation _)
  | succ room ih =>
    refine .unfold ?_ (binary.eq_1 least operators left)
    refine .nextOperator (fun _ _ => follows_pure left) ?_
    rintro t op rfl _ htight
    have hfits (s : Lookahead σ) :
        (ofLookahead options depth s).isExceededBy (operators + 1) = false :=
      decide_eq_false (show ¬options.maxDepth < depth + (operators + 1) by omega)
    refine .when_const hfits ?_
    refine ((follows_advance t).then fun _ next => ?_).weaken
    refine (hoperand next).then fun first next => ?_
    have habsorb : Climbs options depth n op.precedence climb :=
      ⟨fun inner left next hlt => hclimb.follows inner left next (Nat.lt_of_le_of_lt htight hlt),
        fun inner left _ _ _ hlt => hclimb.ends inner left (Nat.lt_of_le_of_lt htight hlt)⟩
    have hany : Looser 5 next := fun op _ => op.precedence_lt
    refine (follows_absorb habsorb hany first).then fun right next => ?_
    exact ih (by omega) (.binary op left right) next

/-- Climbs with more than `least` have fewer tiers left than there are precedences. -/
theorem climbs_climb {levels : Nat} (hlevels : depth + levels = options.maxDepth)
    {tiers least : Nat} (htiers : 4 ≤ tiers + least) :
    Climbs options depth n least (Parse.climb operand levels tiers) := by
  induction tiers generalizing least with
  | zero =>
    -- No operator binds that tightly.
    have hnone (op : Operator) : ¬least < op.precedence := by
      have hlt := op.precedence_lt
      omega
    exact ⟨fun op _ _ h => absurd h (hnone op), fun op _ _ _ _ h => absurd h (hnone op)⟩
  | succ tiers ih =>
    refine ⟨fun op left next hlt => ?_, fun op left _ _ _ hlt hrun => ?_⟩
    · have hinner : Climbs options depth n op.precedence (Parse.climb operand levels tiers) :=
        ih (by omega)
      exact follows_chain hoperand hinner hlevels left next
    · exact chain_ends levels left hrun

end

theorem follows_expression {rounds : Nat} (hrounds : n ≤ rounds + 1) {levels : Nat}
    (hdepth : depth + levels = options.maxDepth) (next : Option Token) :
    Follows options depth n 1 next (expression : Parser σ → Option (Outcome σ Expr))
      (Parse.expression (rounds + 1) levels) := by
  induction levels generalizing depth next with
  | zero => exact .unfold (.nested_zero (by omega)) expression.eq_1
  | succ levels ih =>
    have hinner : depth + 1 + levels = options.maxDepth := by omega
    have hprimary (next : Option Token) : Follows options (depth + 1) n 1 next
        (primary : Parser σ → Option (Outcome σ Expr))
        (Parse.primary (rounds + 1) (Parse.expression (rounds + 1) levels)) :=
      follows_primary (ih hinner) hrounds
    have hclimbs : Climbs options (depth + 1) n 0 (Parse.climb (Parse.primary (rounds + 1)
        (Parse.expression (rounds + 1) levels)) levels 4 : Nat → Expr → Parse σ Expr) :=
      climbs_climb (fun next => (hprimary next).weaken) hinner (by omega)
    have hbody : Follows options (depth + 1) n 1 next
        (expressionBody : Parser σ → Option (Outcome σ Expr))
        (Parse.expression (rounds + 1) (levels + 1)) := by
      refine .unfold ?_ expressionBody.eq_1
      refine (hprimary next).then fun first next => .ite (follows_pure first) ?_
      exact follows_chain (fun next => (hprimary next).weaken) hclimbs hinner first next
    exact .unfold (.nested_succ (by omega) hbody) expression.eq_1

theorem follows_parameter {strict : Bool} (hstrict : options.strictParams = strict)
    (before : List String) (next : Option Token) :
    Follows options depth n 1 next (parameter before : Call σ String)
      (Parse.parameter strict before) := by
  refine .peek ?_
  cases next with
  | none => exact follows_violation _
  | some t =>
    cases t with
    | ident name =>
      have hrepeated (s : Lookahead σ) : ((ofLookahead options depth s).options.strictParams &&
          before.contains name) = (strict && before.contains name) := by rw [← hstrict]; rfl
      refine .when_const hrepeated (.ite (follows_violation _) ?_)
      exact (follows_advance _).then fun _ _ => follows_pure _
    | _ => exact follows_violation _

theorem follows_functionName :
    Follows options depth n 0 next (functionName : Call σ String) Parse.functionName := by
  refine .peek ?_
  cases next with
  | none => exact follows_violation _
  | some t =>
    cases t with
    | ident name => exact ((follows_advance _).then fun _ _ => follows_pure _).weaken
    | _ => exact follows_violation _

section
variable {rounds : Nat} (hrounds : n ≤ rounds + 1) {expr : Parse σ Expr} {body : Parse σ Block}
  (hexpr : ∀ next, Follows options depth n 1 next expression expr)
  (hbody : ∀ next, Follows options depth n 0 next block body)

include hrounds in
theorem follows_parameters {strict : Bool} (hstrict : options.strictParams = strict) :
    Follows options depth n 0 next (parameters : Call σ (List String))
      (Parse.parameters (rounds + 1) strict) := by
  refine .isNext (fun _ _ _ => follows_pure []) ?_
  exact (Follows.separated parametersFrom.eq_1 (follows_parameter hstrict) hrounds [] next).weaken

include hrounds hbody

theorem follows_definition {strict : Bool} (hstrict : options.strictParams = strict) :
    Follows options depth n 1 next definition (Parse.definition (rounds + 1) strict body) := by
  refine .unfold ?_ definition.eq_1
  refine (follows_eat _).then fun _ next => follows_functionName.then fun name next => ?_
  have hrest (next : Option Token) : Follows options depth n 0 next
      (do
        let params ← parameters
        eat (.mark .rightParen)
        return .define name params (← block) : Call σ Stmt)
      (do
        let params ← Parse.parameters (rounds + 1) strict
        Parse.eat (.mark .rightParen)
        return .define name params (← body)) := by
    refine (follows_parameters hrounds hstrict).then fun params _ => ?_
    refine ((follows_eat _).then fun _ next => ?_).weaken
    exact (hbody next).then fun b _ => follows_pure _
  refine .isNext ?_ ((follows_violation _).then fun _ next => hrest next)
  rintro t rfl -
  exact ((follows_advance t).then fun _ next => hrest next).weaken

omit hrounds

theorem follows_elseBlock : Follows options depth n 0 next elseBlock (Parse.elseBlock body) := by
  refine .unfold ?_ elseBlock.eq_1
  refine .isNext ?_ (follows_pure none)
  rintro t rfl -
  refine ((follows_advance t).then fun _ next => ?_).weaken
  exact (hbody next).then fun b _ => follows_pure (some b)

include hexpr

theorem follows_whileLoop :
    Follows options depth n 1 next whileLoop (Parse.whileLoop expr body) := by
  refine .unfold ?_ whileLoop.eq_1
  refine (follows_eat _).then fun _ _ => (follows_parenthesized hexpr).weaken.then fun c next => ?_
  exact (hbody next).then fun b _ => follows_pure _

theorem follows_conditional :
    Follows options depth n 1 next conditional (Parse.conditional expr body) := by
  refine .unfold ?_ conditional.eq_1
  refine (follows_eat _).then fun _ _ => (follows_parenthesized hexpr).weaken.then fun c next => ?_
  refine (hbody next).then fun yes _ => ?_
  exact (follows_elseBlock hbody).then fun no _ => follows_pure _

include hrounds

theorem follows_statement {strict : Bool} (hstrict : options.strictParams = strict)
    (next : Option Token) : Follows options depth n 1 next statement
      (Parse.statement (rounds + 1) strict expr body) := by
  have hsimple (next : Option Token) : Follows options depth n 1 next
      (do
        let e ← expression
        eat (.mark .semicolon)
        return .expression e : Call σ Stmt)
      (Parse.expressionStatement expr) := by
    refine (hexpr next).then fun e _ => ?_
    exact ((follows_eat _).then fun _ _ => follows_pure _).weaken
  refine .unfold ?_ statement.eq_1
  refine .peek ?_
  cases next with
  | none => exact follows_unexpected _
  | some t =>
    cases t with
    | keyword k =>
      cases k with
      | whileWord => exact follows_whileLoop hexpr hbody
      | ifWord => exact follows_conditional hexpr hbody
      | returnWord =>
        refine (follows_eat _).then fun _ next => (hexpr next).weaken.then fun e _ => ?_
        exact ((follows_eat _).then fun _ _ => follows_pure _).weaken
      | defWord => exact follows_definition hrounds hbody hstrict
      | elseWord => exact hsimple _
    | _ => exact hsimple _

end

theorem follows_blockBody {rounds : Nat} (hrounds : n ≤ rounds + 1) {stmt : Parse σ Stmt}
    (hstmt : ∀ next, Follows options depth n 1 next statement stmt) :
    Follows options depth n 0 next blockBody (Parse.blockOf (rounds + 1) stmt) := by
  refine .unfold ?_ blockBody.eq_1
  refine .isNext ?_ ((hstmt next).then fun s _ => follows_pure [s]).weaken
  rintro t rfl hbrace
  refine ((follows_eat_advance hbrace).then fun _ next => ?_).weaken
  have hend (s : Lookahead σ) (hs : s.atEnd = true) :
      (!s.atEnd && !s.isAt (.mark .rightBrace)) = false := by simp [hs]
  have hbraced : Follows options depth n 0 next (braced [])
      (Parse.repeatWhile (fun s => !s.atEnd && !s.isAt (.mark .rightBrace)) stmt (rounds + 1) []) :=
    .repeatWhile braced.eq_1 (fun _ => rfl) hend hstmt hrounds [] next
  refine hbraced.then fun body _ => ?_
  exact ((follows_eat _).then fun _ _ => follows_pure body).weaken

theorem follows_block {rounds : Nat} (hrounds : n ≤ rounds + 1) {strict : Bool}
    (hstrict : options.strictParams = strict) {levels : Nat}
    (hdepth : depth + levels = options.maxDepth) (next : Option Token) :
    Follows options depth n 0 next (block : Parser σ → Option (Outcome σ Block))
      (Parse.block (rounds + 1) strict levels) := by
  induction levels generalizing depth next with
  | zero => exact .unfold (.nested_zero (by omega)) block.eq_1
  | succ levels ih =>
    have hinner : depth + 1 + levels = options.maxDepth := by omega
    have hbody : Follows options (depth + 1) n 0 next
        (blockBody : Parser σ → Option (Outcome σ Block))
        (Parse.block (rounds + 1) strict (levels + 1)) :=
      follows_blockBody hrounds
        (follows_statement hrounds (follows_expression hrounds hinner) (ih hinner) hstrict)
    exact .unfold (.nested_succ (by omega) hbody) block.eq_1

/-- Every call for a program ends, as the parse of the program does. -/
theorem program_eq (options : ParseOptions) (s : Lookahead σ) :
    (start options s.source s.atEnd).program =
      some (outcomeOf options 0 (Parse.program options s)) := by
  have hleft : s.left ≤ TokenSource.bound s.source + 1 := by
    unfold Lookahead.left
    split
    · exact Nat.zero_le _
    · exact Nat.le_refl _
  have hend (s : Lookahead σ) (hs : s.atEnd = true) : (!s.atEnd) = false := by simp [hs]
  have hprogram : Follows options 0 (TokenSource.bound s.source + 1) 0 s.token?
      (programFrom []) (Parse.repeatWhile (fun s => !s.atEnd)
        (Parse.statement (TokenSource.bound s.source + 1) options.strictParams
          (Parse.expression (TokenSource.bound s.source + 1) options.maxDepth)
          (Parse.block (TokenSource.bound s.source + 1) options.strictParams options.maxDepth))
        (TokenSource.bound s.source + 1) []) :=
    .repeatWhile programFrom.eq_1 (fun _ => rfl) hend
      (follows_statement (Nat.le_refl _)
        (follows_expression (Nat.le_refl _) (Nat.zero_add _))
        (follows_block (Nat.le_refl _) rfl (Nat.zero_add _)) rfl)
      (Nat.le_refl _) [] _
  exact hprogram.ends hleft rfl

theorem create_eq (options : ParseOptions) (source : σ) :
    (∃ e last, create options source = .error (e, last) ∧ Lookahead.ofSource source = .error e) ∨
      ∃ s, create options source = .ok (start options s.source s.atEnd) ∧
        Lookahead.ofSource source = .ok s := by
  have hfetch : TokenStream.fetch source = TokenSource.fetch source := rfl
  rw [create, hfetch, Lookahead.ofSource]
  cases TokenSource.fetch source with
  | ok more last => exact .inr ⟨⟨last, !more⟩, rfl, rfl⟩
  | error e last => exact .inl ⟨e, last, rfl, rfl⟩

/-- A parser reads from a source what the parse reads. -/
theorem run_eq (options : ParseOptions) (source : σ) :
    ∃ last, run options source = some (parseFrom options source, last) := by
  rw [run, parseFrom]
  rcases create_eq options source with ⟨e, last, hcreate, hsource⟩ | ⟨s, hcreate, hsource⟩
  · exact ⟨last, by rw [hcreate, hsource]⟩
  · rw [hcreate, hsource]
    simp only [program_eq]
    cases Parse.program options s with
    | ok b s' => exact ⟨s'.source, rfl⟩
    | error e s' => exact ⟨s'.source, rfl⟩

end Sapling.Parser
