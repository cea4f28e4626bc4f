import Sapling.Proofs.ParserFetches

/-!
# Parsers on streams that give the same

A call of a parser does nothing but fetch the tokens that it has looked at, and a parser that looks
the same, on any stream that gives the same entries, ends the same call in the same way
(`Mirrors`). Every rule of the grammar keeps this, and so does a call for a program
(`agree_program`). Nothing is supposed of the streams: a call that ends has fetched finitely many
entries.
-/
namespace Sapling.Parser

open TokenStream

variable {σ τ α β : Type} [TokenStream σ] [TokenStream τ]

/-- Two parsers that look the same. -/
structure Alike (p : Parser σ) (q : Parser τ) : Prop where
  atEnd : p.atEnd = q.atEnd
  token : p.token? = q.token?
  line : line p.stream = line q.stream
  depth : p.depth = q.depth
  options : p.options = q.options

/-- A call with this outcome reads some entries, and a parser that looks the same and whose stream
gives these entries ends the other call with the same result. -/
def Mirrored (p : Parser σ) (outcome : Outcome σ α) (g : Parser τ → Option (Outcome τ α)) : Prop :=
  ∃ entries, Reads p entries outcome ∧ ∀ (q : Parser τ) (last : τ), Alike p q →
    Yields q.stream entries last →
      ∃ q', g q = some (outcome.1, q') ∧ q'.stream = last ∧
        ∀ a, outcome.1 = .ok a → Alike outcome.2 q'

/-- Wherever the first call ends that begins at `next`, the second one ends in the same way. -/
def Mirrors (next : Option Token) (f : Parser σ → Option (Outcome σ α))
    (g : Parser τ → Option (Outcome τ α)) : Prop :=
  ∀ p outcome, p.token? = next → f p = some outcome → Mirrored p outcome g

variable {next : Option Token} {p : Parser σ} {q : Parser τ}

theorem Mirrored.of_eq {outcome : Outcome σ α} {g g' : Parser τ → Option (Outcome τ α)}
    (h : Mirrored p outcome g) (heq : ∀ q, Alike p q → g' q = g q) : Mirrored p outcome g' := by
  obtain ⟨entries, hreads, hother⟩ := h
  refine ⟨entries, hreads, fun q last halike hyields => ?_⟩
  rw [heq q halike]
  exact hother q last halike hyields

omit [TokenStream σ] in
theorem bind_apply (f : Call σ α) (k : α → Call σ β) (p : Parser σ) :
    (f >>= k) p = (f p).bind fun outcome =>
      match outcome with
      | (.ok a, p) => k a p
      | (.error e, p) => some (.error e, p) := by
  simp only [bind, ExceptT.bind, ExceptT.mk, StateT.bind]
  cases f p with
  | none => rfl
  | some outcome =>
    obtain ⟨result, p⟩ := outcome
    cases result with
    | ok a => rfl
    | error e => rfl

theorem Mirrors.bind {f : Call σ α} {g : Call τ α} {k : α → Call σ β} {l : α → Call τ β}
    (h : Mirrors next f g) (hk : ∀ a next, Mirrors next (k a) (l a)) :
    Mirrors next (f >>= k) (g >>= l) := by
  intro p outcome hp houtcome
  rw [bind_apply] at houtcome
  cases hf : f p with
  | none => simp [hf] at houtcome
  | some first =>
    obtain ⟨entries, hreads, hother⟩ := h p first hp hf
    obtain ⟨result, p₁⟩ := first
    cases result with
    | error e =>
      simp only [hf, Option.bind_some, Option.some.injEq] at houtcome
      obtain rfl := houtcome
      refine ⟨entries, hreads.of_error rfl, fun q last halike hyields => ?_⟩
      obtain ⟨q₁, hg, hlast, -⟩ := hother q last halike hyields
      refine ⟨q₁, ?_, hlast, by simp⟩
      rw [bind_apply, hg]
      rfl
    | ok a =>
      simp only [hf, Option.bind_some] at houtcome
      obtain ⟨more, hmore, hrest⟩ := hk a _ p₁ outcome rfl houtcome
      refine ⟨entries ++ more, hreads.append rfl hmore, fun q last halike hyields => ?_⟩
      obtain ⟨middle, hmiddle, hyields'⟩ := hyields.split
      obtain ⟨q₁, hg, rfl, halike₁⟩ := hother q middle halike hmiddle
      obtain ⟨q₂, hl, hlast, halike₂⟩ := hrest q₁ last (halike₁ a rfl) hyields'
      refine ⟨q₂, ?_, hlast, halike₂⟩
      rw [bind_apply, hg]
      exact hl

theorem mirrors_pure (a : α) : Mirrors next (pure a : Call σ α) (pure a : Call τ α) := by
  intro p outcome _ houtcome
  obtain rfl := Option.some.inj houtcome
  refine ⟨[], .ok, fun q last halike hyields => ?_⟩
  cases hyields
  exact ⟨q, rfl, rfl, fun _ _ => halike⟩

theorem mirrors_fail {cause : Parser σ → Cause} {cause' : Parser τ → Cause}
    (hcause : ∀ p q, p.token? = q.token? → cause p = cause' q)
    (hown : ∀ p, (cause p).isLexical = false) :
    Mirrors next (fail cause : Call σ α) (fail cause') := by
  intro p outcome _ houtcome
  obtain rfl := Option.some.inj houtcome
  refine ⟨[], .error (hown p) rfl, fun q last halike hyields => ?_⟩
  cases hyields
  refine ⟨q, ?_, rfl, by simp⟩
  have heq : fail cause' q = some ((.error ⟨line q.stream, cause' q⟩, q) : Outcome τ α) := rfl
  rw [heq, ← halike.line, ← hcause p q halike.token]

theorem mirrors_violation (v : Violation) :
    Mirrors next (violation v : Call σ α) (violation v : Call τ α) :=
  mirrors_fail (fun _ _ _ => rfl) fun _ => rfl

theorem found_congr (h : p.token? = q.token?) : p.found = q.found := by
  unfold found
  rw [h]

theorem mirrors_unexpected (rule : Rule) :
    Mirrors next (unexpected rule : Call σ α) (unexpected rule : Call τ α) :=
  mirrors_fail (fun p q h => by rw [found_congr h]) fun _ => rfl

theorem advance_alike (hdepth : p.depth = q.depth) (hoptions : p.options = q.options)
    (hfetched : fetched q.stream = fetched p.stream) :
    (∃ e p' q', advance p = some (.error e, p') ∧ advance q = some (.error e, q') ∧
      q'.stream = behind q.stream) ∨
    ∃ p' q', advance p = some (.ok (), p') ∧ advance q = some (.ok (), q') ∧
      q'.stream = behind q.stream ∧ Alike p' q' := by
  rcases advance_of_fetched p with ⟨l, t, hf, ha, ht, hl⟩ | ⟨l, hf, ha, hl⟩ | ⟨e, hf, ha⟩
  · rcases advance_of_fetched q with ⟨l', t', hf', ha', ht', hl'⟩ | ⟨_, hf', -⟩ | ⟨_, hf', -⟩
    · rw [hfetched, hf] at hf'
      obtain ⟨rfl, rfl⟩ := Fetched.token.inj hf'
      refine .inr ⟨_, _, ha, ha', rfl, rfl, ?_, hl.trans hl'.symm, hdepth, hoptions⟩
      simp only [token?, ht, ht']
    · simp [hfetched, hf] at hf'
    · simp [hfetched, hf] at hf'
  · rcases advance_of_fetched q with ⟨_, _, hf', -⟩ | ⟨l', hf', ha', hl'⟩ | ⟨_, hf', -⟩
    · simp [hfetched, hf] at hf'
    · rw [hfetched, hf] at hf'
      obtain rfl := Fetched.ended.inj hf'
      exact .inr ⟨_, _, ha, ha', rfl, rfl, rfl, hl.trans hl'.symm, hdepth, hoptions⟩
    · simp [hfetched, hf] at hf'
  · rcases advance_of_fetched q with ⟨_, _, hf', -⟩ | ⟨_, hf', -⟩ | ⟨e', hf', ha'⟩
    · simp [hfetched, hf] at hf'
    · simp [hfetched, hf] at hf'
    · rw [hfetched, hf] at hf'
      obtain rfl := Fetched.failed.inj hf'
      exact .inl ⟨e, _, _, ha, ha', rfl⟩

theorem mirrors_advance (t : Token) :
    Mirrors (some t) (advance : Call σ Unit) (advance : Call τ Unit) := by
  intro p outcome hp houtcome
  have hreads : Reads p [fetched p.stream] outcome := by
    obtain ⟨result, p₁⟩ := outcome
    cases result with
    | error e => exact .broken hp houtcome
    | ok u => exact .step hp houtcome .ok
  refine ⟨[fetched p.stream], hreads, fun q last halike hyields => ?_⟩
  obtain ⟨hfetched, hnil⟩ := yields_cons_iff.mp hyields
  cases hnil
  rcases advance_alike halike.depth halike.options hfetched with
    ⟨e, p', q', hp', hq', hlast⟩ | ⟨p', q', hp', hq', hlast, hnext⟩
  · rw [houtcome] at hp'
    obtain rfl := Option.some.inj hp'
    exact ⟨q', hq', hlast, by simp⟩
  · rw [houtcome] at hp'
    obtain rfl := Option.some.inj hp'
    exact ⟨q', hq', hlast, fun _ _ => hnext⟩

theorem Mirrors.peek {k : Option Token → Call σ β} {l : Option Token → Call τ β}
    (h : Mirrors next (k next) (l next)) : Mirrors next (peek >>= k) (peek >>= l) := by
  intro p outcome hp houtcome
  have hk : k next p = some outcome := hp ▸ houtcome
  refine (h p outcome hp hk).of_eq fun q halike => ?_
  have hq : q.token? = next := halike.token.symm.trans hp
  exact hq ▸ rfl

omit [TokenStream σ] in
theorem when_apply (more : Parser σ → Bool) (f f' : Call σ α) (p : Parser σ) :
    (do if more (← get) then f else f' : Call σ α) p = (if more p then f else f') p :=
  rfl

theorem Mirrors.when {more : Parser σ → Bool} {more' : Parser τ → Bool}
    (hmore : ∀ p q, Alike p q → more p = more' q) {f f' : Call σ α} {g g' : Call τ α}
    (h : Mirrors next f g) (h' : Mirrors next f' g') :
    Mirrors next (do if more (← get) then f else f' : Call σ α)
      (do if more' (← get) then g else g' : Call τ α) := by
  intro p outcome hp houtcome
  rw [when_apply] at houtcome
  by_cases hcondition : more p = true
  · rw [if_pos hcondition] at houtcome
    refine (h p outcome hp houtcome).of_eq fun q halike => ?_
    rw [when_apply, if_pos (hmore p q halike ▸ hcondition)]
  · rw [if_neg hcondition] at houtcome
    refine (h' p outcome hp houtcome).of_eq fun q halike => ?_
    rw [when_apply, if_neg (hmore p q halike ▸ hcondition)]

theorem Mirrors.ite {c : Prop} [Decidable c] {f f' : Call σ α} {g g' : Call τ α}
    (h : Mirrors next f g) (h' : Mirrors next f' g') :
    Mirrors next (if c then f else f') (if c then g else g') := by
  split
  · exact h
  · exact h'

theorem Mirrors.isNext {kind : Token} {k : Bool → Call σ β} {l : Bool → Call τ β}
    (htrue : ∀ t, next = some t → Mirrors next (k true) (l true))
    (hfalse : Mirrors next (k false) (l false)) :
    Mirrors next (isNext kind >>= k) (isNext kind >>= l) := by
  have hpeek : Mirrors next
      (Parser.peek >>= fun next => k (next.any (·.sameKind kind)))
      (Parser.peek >>= fun next => l (next.any (·.sameKind kind))) := by
    refine .peek ?_
    cases hany : next.any (·.sameKind kind) with
    | false => exact hfalse
    | true =>
      obtain ⟨t, ht, -⟩ := (Option.any_eq_true _ _).mp hany
      exact htrue t ht
  exact hpeek

theorem mirrors_eat (kind : Token) :
    Mirrors next (eat kind : Call σ Unit) (eat kind : Call τ Unit) := by
  refine .isNext ?_ (mirrors_fail (fun p q h => by rw [found_congr h]) fun _ => rfl)
  rintro t rfl
  exact mirrors_advance t

theorem Mirrors.nextOperator {least : Nat} {k : Option Operator → Call σ β}
    {l : Option Operator → Call τ β} (hnone : Mirrors next (k none) (l none))
    (hsome : ∀ t op, next = some t → Mirrors next (k (some op)) (l (some op))) :
    Mirrors next (nextOperator least >>= k) (nextOperator least >>= l) := by
  have hpeek : Mirrors next
      (Parser.peek >>= fun next =>
        k ((next.bind Token.operator?).filter (least ≤ ·.precedence)))
      (Parser.peek >>= fun next =>
        l ((next.bind Token.operator?).filter (least ≤ ·.precedence))) := by
    refine .peek ?_
    cases hop : (next.bind Token.operator?).filter (least ≤ ·.precedence) with
    | none => exact hnone
    | some op =>
      cases next with
      | none => simp at hop
      | some t => exact hsome t op rfl
  exact hpeek

def nested (f : Parser σ → Option (Outcome σ α)) (p : Parser σ) : Option (Outcome σ α) :=
  if p.isFull then (violation .nesting : Call σ α).run.run p
  else do
    let (result, p) ← f p.deeper
    return (result, p.shallower)

theorem Mirrors.nested {f : Parser σ → Option (Outcome σ α)} {g : Parser τ → Option (Outcome τ α)}
    (h : ∀ next, Mirrors next f g) : Mirrors next (nested f) (nested g) := by
  intro p outcome hp houtcome
  have hfull {q : Parser τ} (halike : Alike p q) : q.isFull = p.isFull := by
    rw [isFull, isFull, halike.depth, halike.options]
  unfold Parser.nested at houtcome
  by_cases hcondition : p.isFull = true
  · rw [if_pos hcondition] at houtcome
    have hviolation : Mirrors next (violation .nesting : Call σ α)
        (violation .nesting : Call τ α) := mirrors_violation _
    refine (hviolation p outcome hp houtcome).of_eq fun q halike => ?_
    rw [Parser.nested, if_pos (hfull halike ▸ hcondition)]
    rfl
  · rw [if_neg hcondition] at houtcome
    obtain ⟨⟨result, p₁⟩, hf, heq⟩ := Option.bind_eq_some_iff.mp houtcome
    obtain rfl := Option.some.inj heq
    obtain ⟨entries, hreads, hother⟩ := h _ p.deeper (result, p₁) rfl hf
    -- The level that is given back is the one that was taken.
    have hdepth : p₁.depth = p.depth + 1 := hreads.depth_eq
    have hback : p₁.shallower = { p₁ with depth := p.depth } := by
      rw [shallower, hdepth, Nat.add_sub_cancel]
    refine ⟨entries, ?_, fun q last halike hyields => ?_⟩
    · rw [hback]
      exact hreads.at_depth p.depth
    · have halike' : Alike p.deeper q.deeper :=
        ⟨halike.atEnd, halike.token, halike.line, congrArg (· + 1) halike.depth, halike.options⟩
      obtain ⟨q₁, hg, hlast, hnext⟩ := hother q.deeper last halike' hyields
      refine ⟨q₁.shallower, ?_, hlast, fun a ha => ?_⟩
      · rw [Parser.nested, if_neg (hfull halike ▸ hcondition), hg]
        rfl
      · have hnext' := hnext a ha
        exact ⟨hnext'.atEnd, hnext'.token, hnext'.line, congrArg (· - 1) hnext'.depth,
          hnext'.options⟩

/-- The two calls do the same, whatever comes next. -/
abbrev Agree (f : Parser σ → Option (Outcome σ α)) (g : Parser τ → Option (Outcome τ α)) : Prop :=
  ∀ next, Mirrors next f g

theorem agree_iff {f : Parser σ → Option (Outcome σ α)} {g : Parser τ → Option (Outcome τ α)} :
    Agree f g ↔ ∀ p outcome, f p = some outcome → Mirrored p outcome g :=
  ⟨fun h p outcome => h _ p outcome rfl, fun h _ p outcome _ => h p outcome⟩

/-- One more round of a rule, whose body is known to agree with that of the other parser. -/
theorem Agree.unfold {f : Parser σ → Option (Outcome σ α)} {g g' : Parser τ → Option (Outcome τ α)}
    (h : Agree f g) (heq : ∀ q, g' q = g q) :
    ∀ p outcome, f p = some outcome → Mirrored p outcome g' :=
  fun p outcome houtcome => (h _ p outcome rfl houtcome).of_eq fun q _ => heq q

theorem isExceededBy_congr (operators : Nat) (h : Alike p q) :
    p.isExceededBy operators = q.isExceededBy operators := by
  rw [isExceededBy, isExceededBy, h.depth, h.options]

theorem agree_expressions :
    Agree (expression (σ := σ)) (expression (σ := τ)) ∧
      Agree (parenthesized (σ := σ)) (parenthesized (σ := τ)) ∧
      Agree (primary (σ := σ)) (primary (σ := τ)) := by
  have hall := expression.mutual_partial_correctness (σ := σ)
    (fun p outcome => Mirrored p outcome (expression (σ := τ)))
    (fun p outcome => Mirrored p outcome (expressionBody (σ := τ)))
    (fun least operators left p outcome =>
      Mirrored p outcome (binary (σ := τ) least operators left))
    (fun op right p outcome => Mirrored p outcome (absorb (σ := τ) op right))
    (fun p outcome => Mirrored p outcome (primary (σ := τ)))
    (fun p outcome => Mirrored p outcome (parenthesized (σ := τ)))
    (fun name p outcome => Mirrored p outcome (afterName (σ := τ) name))
    (fun p outcome => Mirrored p outcome (arguments (σ := τ)))
    (fun read p outcome => Mirrored p outcome (argumentsFrom (σ := τ) read))
    ?expression ?expressionBody ?binary ?absorb ?primary ?parenthesized ?afterName ?arguments
    ?argumentsFrom
  case expression =>
    intro body hbody
    refine Agree.unfold (fun next => ?_) expression.eq_1
    exact .nested (agree_iff.mpr hbody)
  case expressionBody =>
    intro chain operand hchain hoperand
    refine Agree.unfold (fun next => ?_) expressionBody.eq_1
    refine (agree_iff.mpr hoperand next).bind fun first next => ?_
    exact .ite (mirrors_pure first) (agree_iff.mpr (hchain 0 0 first) next)
  case binary =>
    intro chain tighter operand hchain htighter hoperand least operators left
    refine Agree.unfold (fun next => ?_) (binary.eq_1 least operators left)
    refine .nextOperator (mirrors_pure left) fun t op hnext => ?_
    refine .when (fun p q => isExceededBy_congr _) (mirrors_violation _) ?_
    subst hnext
    refine (mirrors_advance t).bind fun _ next => ?_
    refine (agree_iff.mpr hoperand next).bind fun first next => ?_
    refine (agree_iff.mpr (htighter op first) next).bind fun right next => ?_
    exact agree_iff.mpr (hchain least (operators + 1) (.binary op left right)) next
  case absorb =>
    intro chain tighter hchain htighter op right
    refine Agree.unfold (fun next => ?_) (absorb.eq_1 op right)
    refine .nextOperator (mirrors_pure right) fun t first hnext => ?_
    refine (agree_iff.mpr (hchain first.precedence 0 right) next).bind fun more next => ?_
    exact agree_iff.mpr (htighter op more) next
  case primary =>
    intro inner behindName hinner hbehindName
    refine Agree.unfold (fun next => ?_) primary.eq_1
    refine .peek ?_
    split
    · exact (mirrors_advance _).bind fun _ next => agree_iff.mpr (hbehindName _) next
    · exact (mirrors_advance _).bind fun _ _ => mirrors_pure _
    · exact (mirrors_advance _).bind fun _ _ => mirrors_pure _
    · exact agree_iff.mpr hinner _
    · exact mirrors_unexpected _
  case parenthesized =>
    intro inner hinner
    refine Agree.unfold (fun next => ?_) parenthesized.eq_1
    refine (mirrors_eat _).bind fun _ next => ?_
    refine (agree_iff.mpr hinner next).bind fun e _ => ?_
    exact (mirrors_eat _).bind fun _ _ => mirrors_pure e
  case afterName =>
    intro inner args hinner hargs name
    refine Agree.unfold (fun next => ?_) (afterName.eq_1 name)
    refine .peek ?_
    split
    · refine (mirrors_advance _).bind fun _ next => ?_
      exact (agree_iff.mpr hinner next).bind fun _ _ => mirrors_pure _
    · refine (mirrors_advance _).bind fun _ next => ?_
      refine (agree_iff.mpr hargs next).bind fun _ _ => ?_
      exact (mirrors_eat _).bind fun _ _ => mirrors_pure _
    · exact mirrors_pure _
  case arguments =>
    intro more hmore
    refine Agree.unfold (fun next => ?_) arguments.eq_1
    exact .isNext (fun _ _ => mirrors_pure _) (agree_iff.mpr (hmore []) _)
  case argumentsFrom =>
    intro inner more hinner hmore read
    refine Agree.unfold (fun next => ?_) (argumentsFrom.eq_1 read)
    refine (agree_iff.mpr hinner next).bind fun e next => ?_
    refine .isNext ?_ (mirrors_pure _)
    rintro t rfl
    exact (mirrors_advance t).bind fun _ next => agree_iff.mpr (hmore (e :: read)) next
  obtain ⟨hexpression, -, -, -, hprimary, hparenthesized, -⟩ := hall
  exact ⟨agree_iff.mpr hexpression, agree_iff.mpr hparenthesized, agree_iff.mpr hprimary⟩

theorem agree_parameter (before : List String) :
    Agree (parameter before : Call σ String) (parameter before : Call τ String) := by
  intro next
  refine .peek ?_
  split
  · refine .when (fun p q h => by rw [h.options]) (mirrors_violation _) ?_
    exact (mirrors_advance _).bind fun _ _ => mirrors_pure _
  · exact mirrors_violation _

theorem agree_parameters :
    Agree (parameters : Call σ (List String)) (parameters : Call τ (List String)) := by
  have hfrom := parametersFrom.partial_correctness (σ := σ)
    (fun read p outcome => Mirrored p outcome (parametersFrom (σ := τ) read)) (by
      intro more hmore read
      refine Agree.unfold (fun next => ?_) (parametersFrom.eq_1 read)
      refine (agree_parameter read next).bind fun name next => ?_
      refine .isNext ?_ (mirrors_pure _)
      rintro t rfl
      exact (mirrors_advance t).bind fun _ next => agree_iff.mpr (hmore (name :: read)) next)
  intro next
  exact .isNext (fun _ _ => mirrors_pure _) (agree_iff.mpr (hfrom []) _)

theorem agree_functionName :
    Agree (functionName : Call σ String) (functionName : Call τ String) := by
  intro next
  refine .peek ?_
  split
  · exact (mirrors_advance _).bind fun _ _ => mirrors_pure _
  · exact mirrors_violation _

theorem agree_statement : Agree (statement (σ := σ)) (statement (σ := τ)) := by
  obtain ⟨hexpression, hparenthesized, -⟩ := agree_expressions (σ := σ) (τ := τ)
  have hall := statement.mutual_partial_correctness (σ := σ)
    (fun p outcome => Mirrored p outcome (statement (σ := τ)))
    (fun p outcome => Mirrored p outcome (definition (σ := τ)))
    (fun p outcome => Mirrored p outcome (block (σ := τ)))
    (fun p outcome => Mirrored p outcome (blockBody (σ := τ)))
    (fun read p outcome => Mirrored p outcome (braced (σ := τ) read))
    (fun p outcome => Mirrored p outcome (conditional (σ := τ)))
    (fun p outcome => Mirrored p outcome (elseBlock (σ := τ)))
    (fun p outcome => Mirrored p outcome (whileLoop (σ := τ)))
    ?statement ?definition ?block ?blockBody ?braced ?conditional ?elseBlock ?whileLoop
  case statement =>
    intro define choose loop hdefine hchoose hloop
    refine Agree.unfold (fun next => ?_) statement.eq_1
    refine .peek ?_
    split
    · exact agree_iff.mpr hloop _
    · exact agree_iff.mpr hchoose _
    · refine (mirrors_eat _).bind fun _ next => ?_
      refine (hexpression next).bind fun _ _ => ?_
      exact (mirrors_eat _).bind fun _ _ => mirrors_pure _
    · exact agree_iff.mpr hdefine _
    · refine (hexpression _).bind fun _ _ => ?_
      exact (mirrors_eat _).bind fun _ _ => mirrors_pure _
    · exact mirrors_unexpected _
  case definition =>
    intro body hbody
    refine Agree.unfold (fun next => ?_) definition.eq_1
    refine (mirrors_eat _).bind fun _ next => ?_
    refine (agree_functionName next).bind fun name next => ?_
    have hrest (next : Option Token) : Mirrors next
        (do
          let params ← parameters
          eat (.mark .rightParen)
          return .define name params (← body) : Call σ Stmt)
        (do
          let params ← parameters
          eat (.mark .rightParen)
          return .define name params (← block) : Call τ Stmt) := by
      refine (agree_parameters next).bind fun _ _ => ?_
      refine (mirrors_eat _).bind fun _ next => ?_
      exact (agree_iff.mpr hbody next).bind fun _ _ => mirrors_pure _
    refine .isNext ?_ ((mirrors_violation _).bind fun _ next => hrest next)
    rintro t rfl
    exact (mirrors_advance t).bind fun _ next => hrest next
  case block =>
    intro body hbody
    refine Agree.unfold (fun next => ?_) block.eq_1
    exact .nested (agree_iff.mpr hbody)
  case blockBody =>
    intro one many hone hmany
    refine Agree.unfold (fun next => ?_) blockBody.eq_1
    refine .isNext (fun _ _ => ?_) ((agree_iff.mpr hone _).bind fun _ _ => mirrors_pure _)
    refine (mirrors_eat _).bind fun _ next => ?_
    refine (agree_iff.mpr (hmany []) next).bind fun _ _ => ?_
    exact (mirrors_eat _).bind fun _ _ => mirrors_pure _
  case braced =>
    intro one more hone hmore read
    refine Agree.unfold (fun next => ?_) (braced.eq_1 read)
    refine .when (fun p q h => by rw [isAt, isAt, h.atEnd, h.token]) ?_ (mirrors_pure _)
    exact (agree_iff.mpr hone _).bind fun stmt next => agree_iff.mpr (hmore (stmt :: read)) next
  case conditional =>
    intro inner other hinner hother
    refine Agree.unfold (fun next => ?_) conditional.eq_1
    refine (mirrors_eat _).bind fun _ next => ?_
    refine (hparenthesized next).bind fun _ next => ?_
    refine (agree_iff.mpr hinner next).bind fun _ next => ?_
    exact (agree_iff.mpr hother next).bind fun _ _ => mirrors_pure _
  case elseBlock =>
    intro inner hinner
    refine Agree.unfold (fun next => ?_) elseBlock.eq_1
    refine .isNext ?_ (mirrors_pure _)
    rintro t rfl
    refine (mirrors_advance t).bind fun _ next => ?_
    exact (agree_iff.mpr hinner next).bind fun _ _ => mirrors_pure _
  case whileLoop =>
    intro inner hinner
    refine Agree.unfold (fun next => ?_) whileLoop.eq_1
    refine (mirrors_eat _).bind fun _ next => ?_
    refine (hparenthesized next).bind fun _ next => ?_
    exact (agree_iff.mpr hinner next).bind fun _ _ => mirrors_pure _
  exact agree_iff.mpr hall.1

/-- A call for a program fetches only tokens that it has looked at, and ends in the same way on any
stream that gives the same entries. -/
theorem agree_program : Agree (program (σ := σ)) (program (σ := τ)) := by
  have hfrom := programFrom.partial_correctness (σ := σ)
    (fun read p outcome => Mirrored p outcome (programFrom (σ := τ) read)) (by
      intro more hmore read
      refine Agree.unfold (fun next => ?_) (programFrom.eq_1 read)
      refine .when (fun p q h => by rw [h.atEnd]) ?_ (mirrors_pure _)
      exact (agree_statement next).bind fun stmt next => agree_iff.mpr (hmore (stmt :: read)) next)
  exact agree_iff.mpr (hfrom [])

end Sapling.Parser
