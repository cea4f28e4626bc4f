import Sapling.Proofs.DerivedPhrases

/-!
# Errors leave tokens that can be completed

A parse that fails has taken tokens that some further ones would make a phrase of its rule, and its
error is about the token that comes next. `Viable` says so of a parse, together with what it takes
if it succeeds, and is kept by the ways in which parses are put together. A parse of fewer tokens
than there are levels never finds that nesting is too deep.
-/
open Sapling.Derivation

namespace Sapling

def nextText (ts : List Token) : String :=
  (ts.head?.map Token.text).getD "end of input"

/-- The cause of an error is found at the next token, whose text it gives. -/
def Cause.Meets (ts : List Token) : Cause → Prop
  | .unexpectedToken _ found => found = nextText ts
  | .expectedToken _ found => found = nextText ts
  | .grammar violation => violation ≠ .nesting
  | _ => False

namespace Parse

variable {σ α β : Type} {n : Nat} {next : Option Token}

/-- The tokens that stand for each value. -/
abbrev Language (α : Type) : Type := α → List Token → Prop

/-- The tokens of one language and behind them those of another, which may go by the first value. -/
def Language.then (first : Language α) (second : α → Language β) : Language β := fun b ts =>
  ∃ a us vs, ts = us ++ vs ∧ first a us ∧ second a b vs

/-- A parse that has been given `ts` takes tokens of a language, or ends with the failure of its
source, or ends before the next token where it has taken the beginning of tokens of the language. -/
def Outcome [TokenSource σ] (language : Language α) (ts : List Token)
    (failure : Option SyntaxError) : EStateM.Result SyntaxError (Lookahead σ) α → Prop
  | .ok a s => ∃ taken rest, ts = taken ++ rest ∧ s.Holds rest failure ∧ language a taken
  | .error e s => failure = some e ∨ ∃ taken rest, ts = taken ++ rest ∧ s.Holds rest failure ∧
      e.cause.Meets rest ∧ ∃ a others, language a (taken ++ others)

/-- What a parse does on fewer than `n` tokens of which `next` is the first. -/
structure Viable [TokenSource σ] (n : Nat) (next : Option Token) (p : Parse σ α)
    (language : Language α) : Prop where
  inhabited : ∃ a ts, language a ts
  outcome : ∀ {s : Lookahead σ} {ts : List Token} {failure : Option SyntaxError},
    s.Holds ts failure → ts.length < n → ts.head? = next → Outcome language ts failure (p s)

variable [TokenSource σ] {first language : Language α} {second : α → Language β}

theorem Viable.mono {p : Parse σ α} {m : Nat} (h : Viable n next p first) (hmn : m ≤ n)
    (hl : ∀ a ts, first a ts → language a ts) : Viable m next p language where
  inhabited := by
    obtain ⟨a, ts, ha⟩ := h.inhabited
    exact ⟨a, ts, hl a ts ha⟩
  outcome {s ts failure} hs hm hnext := by
    have hp := h.outcome hs (Nat.lt_of_lt_of_le hm hmn) hnext
    cases hresult : p s with
    | ok a s' =>
      rw [hresult] at hp
      obtain ⟨taken, rest, hts, hs', ha⟩ := hp
      exact ⟨taken, rest, hts, hs', hl a taken ha⟩
    | error e s' =>
      rw [hresult] at hp
      refine hp.imp id ?_
      rintro ⟨taken, rest, hts, hs', hmeets, a, others, ha⟩
      exact ⟨taken, rest, hts, hs', hmeets, a, others, hl a _ ha⟩

theorem Viable.imp {p : Parse σ α} (h : Viable n next p first)
    (hl : ∀ a ts, first a ts → language a ts) : Viable n next p language :=
  h.mono (Nat.le_refl n) hl

theorem viable_pure (a : α) :
    Viable n next (pure a : Parse σ α) fun b ts => b = a ∧ ts = [] where
  inhabited := ⟨a, [], rfl, rfl⟩
  outcome hs _ _ := ⟨[], _, rfl, hs, rfl, rfl⟩

theorem Viable.bind {m : Nat} {p : Parse σ α} {f : α → Parse σ β} (hp : Viable n next p first)
    (hlength : ∀ a ts, first a ts → n ≤ m + ts.length)
    (hf : ∀ a next, Viable m next (f a) (second a)) :
    Viable n next (p >>= f) (first.then second) where
  inhabited := by
    obtain ⟨a, us, ha⟩ := hp.inhabited
    obtain ⟨b, vs, hb⟩ := (hf a none).inhabited
    exact ⟨b, us ++ vs, a, us, vs, rfl, ha, hb⟩
  outcome {s ts failure} hs hn hnext := by
    have hresult := hp.outcome hs hn hnext
    simp only [Bind.bind, EStateM.bind]
    cases hps : p s with
    | error e s' =>
      rw [hps] at hresult
      refine hresult.imp id ?_
      rintro ⟨taken, rest, hts, hs', hmeets, a, others, ha⟩
      obtain ⟨b, us, hb⟩ := (hf a none).inhabited
      exact ⟨taken, rest, hts, hs', hmeets, b, others ++ us, a, taken ++ others, us, by simp, ha,
        hb⟩
    | ok a s' =>
      rw [hps] at hresult
      obtain ⟨taken, rest, rfl, hs', ha⟩ := hresult
      have hm := hlength a taken ha
      rw [List.length_append] at hn
      have hsecond := (hf a rest.head?).outcome hs' (by omega) rfl
      simp only
      cases hfs : f a s' with
      | ok b s'' =>
        rw [hfs] at hsecond
        obtain ⟨taken', rest', rfl, hs'', hb⟩ := hsecond
        exact ⟨taken ++ taken', rest', by simp, hs'', a, taken, taken', rfl, ha, hb⟩
      | error e s'' =>
        rw [hfs] at hsecond
        refine hsecond.imp id ?_
        rintro ⟨taken', rest', rfl, hs'', hmeets, b, others, hb⟩
        exact ⟨taken ++ taken', rest', by simp, hs'', hmeets, b, others, a, taken,
          taken' ++ others, by simp, ha, hb⟩

theorem Viable.then {p : Parse σ α} {f : α → Parse σ β} (hp : Viable n next p first)
    (hf : ∀ a next, Viable n next (f a) (second a)) :
    Viable n next (p >>= f) (first.then second) :=
  hp.bind (fun _ _ _ => Nat.le_add_right n _) hf

theorem Viable.peek {f : Option Token → Parse σ α} (h : Viable n next (f next) language) :
    Viable n next (peek >>= f) language where
  inhabited := h.inhabited
  outcome hs hn hnext := by
    rw [peek_bind, hs.token?_eq, hnext]
    exact h.outcome hs hn hnext

def IsPlainKind (kind : Token) : Prop :=
  ∀ t : Token, t.sameKind kind = true → t = kind

theorem isPlainKind_mark (m : Mark) : IsPlainKind (.mark m) := fun _ => sameKind_mark.mp

theorem isPlainKind_keyword (k : Keyword) : IsPlainKind (.keyword k) :=
  fun _ => sameKind_keyword.mp

theorem Viable.isNext {kind : Token} {f : Bool → Parse σ α} (hkind : IsPlainKind kind)
    (htrue : next = some kind → Viable n next (f true) language)
    (hfalse : Viable n next (f false) language) :
    Viable n next (isNext kind >>= f) language where
  inhabited := hfalse.inhabited
  outcome {s ts failure} hs hn hnext := by
    have hat : s.isAt kind = next.any (·.sameKind kind) := by
      rw [Lookahead.isAt, hs.token?_eq, hnext]
    rw [isNext_bind, hat]
    cases hany : next.any (·.sameKind kind) with
    | false => exact hfalse.outcome hs hn hnext
    | true =>
      obtain ⟨t, rfl, ht⟩ := (Option.any_eq_true _ _).mp hany
      exact (htrue (congrArg some (hkind t ht))).outcome hs hn hnext

theorem Viable.fail {cause : Lookahead σ → Cause} (h : ∃ a ts, language a ts)
    (hcause : ∀ (s : Lookahead σ) ts failure, s.Holds ts failure → (cause s).Meets ts) :
    Viable n next (fail cause : Parse σ α) language where
  inhabited := h
  outcome hs _ _ := .inr ⟨[], _, rfl, hs, hcause _ _ _ hs, h⟩

theorem Viable.violation {v : Violation} (hv : v ≠ .nesting) (h : ∃ a ts, language a ts) :
    Viable n next (violation v : Parse σ α) language :=
  .fail h fun _ _ _ _ => hv

theorem found_eq {s : Lookahead σ} {ts : List Token} {failure : Option SyntaxError}
    (hs : s.Holds ts failure) : s.found = nextText ts := by
  rw [Lookahead.found, nextText, hs.token?_eq]

theorem Viable.unexpected {rule : Rule} (h : ∃ a ts, language a ts) :
    Viable n next (unexpected rule : Parse σ α) language :=
  .fail h fun _ _ _ hs => found_eq hs

theorem viable_advance (t : Token) :
    Viable n (some t) (advance : Parse σ Unit) fun _ ts => ts = [t] where
  inhabited := ⟨(), [t], rfl⟩
  outcome {s ts failure} hs _ hnext := by
    obtain ⟨us, rfl⟩ := List.head?_eq_some_iff.mp hnext
    cases hadvance : (advance : Parse σ Unit) s with
    | ok a s' => exact ⟨[t], us, rfl, advance_sound hs hadvance, rfl⟩
    | error e s' =>
      left
      cases hs with
      | more step _ => simp [step.2] at hadvance
      | broken _ fails => rw [(EStateM.Result.error.inj (fails.symm.trans hadvance)).1]

theorem viable_eat {kind : Token} (hkind : IsPlainKind kind) :
    Viable n next (eat kind : Parse σ Unit) fun _ ts => ts = [kind] := by
  refine .isNext hkind ?_ (.fail ⟨(), _, rfl⟩ fun _ _ _ hs => found_eq hs)
  rintro rfl
  exact viable_advance kind

/-- A parse that begins with a token has one token less for what comes behind it. -/
theorem Viable.behind {t : Token} {p : Parse σ Unit} {f : Unit → Parse σ β}
    {language : Language β} (hp : Viable (n + 1) next p fun _ ts => ts = [t])
    (hf : ∀ next, Viable n next (f ()) language) :
    Viable (n + 1) next (p >>= f) fun b ts => ∃ us, ts = t :: us ∧ language b us := by
  have hrest : ∀ (a : Unit) next, Viable n next (f a) language := fun _ next => hf next
  refine (hp.bind (m := n) ?_ hrest).imp ?_
  · rintro _ _ rfl
    exact Nat.le_refl _
  · rintro b _ ⟨_, _, us, rfl, rfl, hus⟩
    exact ⟨us, rfl, hus⟩

theorem Viable.before {kind : Token} {p : Parse σ α} {language : Language α}
    (hp : Viable n next p language) (hkind : IsPlainKind kind) {g : α → β} :
    Viable n next (do let a ← p; eat kind; pure (g a)) fun b ts =>
      ∃ a us, b = g a ∧ ts = us ++ [kind] ∧ language a us := by
  refine (hp.then fun a _ => (viable_eat hkind).then fun _ _ => viable_pure (g a)).imp ?_
  rintro _ _ ⟨a, us, _, rfl, ha, _, _, _, rfl, rfl, rfl, rfl⟩
  exact ⟨a, us, rfl, by simp, ha⟩

theorem viable_zero {p : Parse σ α} (h : ∃ a ts, language a ts) : Viable 0 next p language where
  inhabited := h
  outcome _ hn _ := absurd hn (Nat.not_lt_zero _)

theorem viable_separated {item : List α → Parse σ α} (rule : List Token → Prop) {rounds : Nat}
    (hitem : ∀ before next, Viable n next (item before) language)
    (hlast : ∀ a ts, language a ts → rule ts)
    (hmore : ∀ a ts us, language a ts → rule us → rule (ts ++ .mark .comma :: us))
    (hrounds : n ≤ rounds) (read : List α) :
    Viable n next (separated item rounds read) fun _ ts => rule ts := by
  induction rounds generalizing n next read with
  | zero =>
    obtain rfl := Nat.le_zero.mp hrounds
    obtain ⟨a, ts, ha⟩ := (hitem [] none).inhabited
    exact viable_zero ⟨[], ts, hlast a ts ha⟩
  | succ rounds ih =>
    cases n with
    | zero =>
      obtain ⟨a, ts, ha⟩ := (hitem [] none).inhabited
      exact viable_zero ⟨[], ts, hlast a ts ha⟩
    | succ n =>
      have hothers (read : List α) (next : Option Token) :
          Viable n next (separated item rounds read) fun _ ts => rule ts :=
        ih (fun before next => (hitem before next).mono (Nat.le_succ n) fun _ _ h => h)
          (Nat.le_of_succ_le_succ hrounds) read
      refine ((hitem read next).then ((fun a next => ?_ : ∀ a next, Viable _ next _ fun (_ : List α) ts =>
        ts = [] ∨ ∃ us, ts = .mark .comma :: us ∧ rule us))).imp ?_
      · refine .isNext (isPlainKind_mark .comma) ?_ ?_
        · rintro rfl
          exact ((viable_advance _).behind fun next => hothers (a :: read) next).imp
            fun _ _ h => .inr h
        · exact (viable_pure _).imp fun _ _ h => .inl h.2
      · rintro _ _ ⟨a, us, _, rfl, ha, rfl | ⟨vs, rfl, hvs⟩⟩
        · simpa using hlast a us ha
        · exact hmore a us vs ha hvs

/-- The tokens from which a rule derives a tree that is an assignment if the given one is. -/
def Derived (rule : List Token → Expr → Bool → Prop) : Language Expr := fun e ts =>
  ∃ e' openly, rule ts e' openly ∧ e'.isAssign = e.isAssign

theorem exists_operand : ∃ e ts, Derived (Derivation.Operand false) e ts :=
  ⟨_, _, _, _, @Derivation.Operand.name false "x", rfl⟩

theorem expression_of_operand {settled : Bool} {e : Expr} {ts : List Token} {openly : Bool}
    (h : Derivation.Operand settled ts e openly) : ∃ openly', Expression settled ts e openly' := by
  cases hassign : e.isAssign with
  | true => exact ⟨openly, .assignment h hassign⟩
  | false => exact ⟨true, by simpa using Expression.operators h hassign .nil .alone⟩

theorem operators_append {ts us : List Token} {ops ops' : List (Operator × Expr)}
    (h' : Operators false us ops') :
    Operators false ts ops → Operators false (ts ++ us) (ops ++ ops')
  | .nil => h'
  | .cons operand others _ => by
    simpa using Operators.cons operand (operators_append h' others) nofun

section
variable {expr : Parse σ Expr} {rounds : Nat}
  (hexpr : ∀ next, Viable n next expr (Derived (Expression false)))
include hexpr

theorem viable_parenthesized :
    Viable (n + 1) next (parenthesized expr) (Derived (Derivation.Operand false)) := by
  refine ((viable_eat (isPlainKind_mark .leftParen)).behind fun next =>
    (hexpr next).before (isPlainKind_mark .rightParen) (g := id)).imp ?_
  rintro _ _ ⟨_, rfl, e, us, rfl, rfl, e', openly, he, hassign⟩
  exact ⟨e', false, .group he, hassign⟩

theorem viable_arguments (hrounds : n ≤ rounds) :
    Viable n next (arguments rounds expr) fun _ ts => ∃ args, Arguments false ts args := by
  refine .isNext (isPlainKind_mark .rightParen) (fun _ => ?_) ?_
  · refine (viable_pure _).imp ?_
    rintro _ _ ⟨-, rfl⟩
    exact ⟨[], .none⟩
  · refine (viable_separated (fun ts => ∃ es, Items false ts es) (fun _ => hexpr) ?_ ?_
      hrounds []).imp ?_
    · rintro e ts ⟨e', openly, he, -⟩
      exact ⟨[e'], .last he⟩
    · rintro e ts us ⟨e', openly, he, -⟩ ⟨es, hes⟩
      exact ⟨e' :: es, .more he hes⟩
    · rintro _ ts ⟨es, hes⟩
      exact ⟨es, .some hes⟩

theorem viable_afterName (hrounds : n ≤ rounds) (name : String) :
    Viable n next (afterName rounds expr name) fun e ts =>
      Derived (Derivation.Operand false) e (.ident name :: ts) := by
  refine .peek ?_
  split
  · refine ((viable_advance _).then fun _ next => (hexpr next).then fun e _ =>
      viable_pure (Expr.assign name e)).imp ?_
    rintro _ _ ⟨_, _, _, rfl, rfl, e, us, _, rfl, ⟨e', openly, he, -⟩, rfl, rfl⟩
    exact ⟨.assign name e', openly, by simpa using Derivation.Operand.assign he, rfl⟩
  · refine ((viable_advance _).then fun _ next => (viable_arguments hexpr hrounds).before
      (isPlainKind_mark .rightParen) (g := Expr.call name)).imp ?_
    rintro _ _ ⟨_, _, _, rfl, rfl, args, us, rfl, rfl, args', hargs⟩
    exact ⟨_, false, .call hargs, rfl⟩
  · refine (viable_pure _).imp ?_
    rintro _ _ ⟨rfl, rfl⟩
    exact ⟨_, false, .name, rfl⟩

theorem viable_primary (hrounds : n ≤ rounds) :
    Viable (n + 1) next (primary rounds expr) (Derived (Derivation.Operand false)) := by
  refine .peek ?_
  split
  · next name =>
    refine ((viable_advance _).behind fun next => viable_afterName hexpr hrounds name).imp ?_
    rintro _ _ ⟨us, rfl, h⟩
    exact h
  · refine ((viable_advance _).then fun _ _ => viable_pure _).imp ?_
    rintro _ _ ⟨_, _, _, rfl, rfl, rfl, rfl⟩
    exact ⟨_, false, .number, rfl⟩
  · refine ((viable_advance _).then fun _ _ => viable_pure _).imp ?_
    rintro _ _ ⟨_, _, _, rfl, rfl, rfl, rfl⟩
    exact ⟨_, false, .str, rfl⟩
  · exact viable_parenthesized hexpr
  · exact .unexpected exists_operand

end

theorem Viable.nextOperator {least : Nat} {f : Option Operator → Parse σ α}
    (hnone : Viable n next (f none) language)
    (hsome : ∀ op, next = some (.operator op) → Viable n next (f (some op)) language) :
    Viable n next (nextOperator least >>= f) language where
  inhabited := hnone.inhabited
  outcome {s ts failure} hs hn hnext := by
    rcases nextOperator_cases hs least with ⟨heq, -⟩ | ⟨op, us, rfl, -, heq⟩
    · rw [bind_of_ok heq]
      exact hnone.outcome hs hn hnext
    · rw [bind_of_ok heq]
      exact (hsome op hnext.symm).outcome hs hn hnext

/-- Operators with their operands behind `left`. No assignment comes of anything else. -/
def Extended (left : Expr) : Language Expr := fun e ts =>
  (∃ ops, Operators false ts ops) ∧ (left.isAssign = false → e.isAssign = false)

theorem Extended.trans {left middle e : Expr} {ts us : List Token} (h : Extended left middle ts)
    (h' : Extended middle e us) : Extended left e (ts ++ us) := by
  obtain ⟨⟨ops, hops⟩, hassign⟩ := h
  obtain ⟨⟨ops', hops'⟩, hassign'⟩ := h'
  exact ⟨⟨_, operators_append hops' hops⟩, fun hleft => hassign' (hassign hleft)⟩

theorem viable_stop (e : Expr) : Viable n next (pure e : Parse σ Expr) (Extended e) := by
  refine (viable_pure e).imp ?_
  rintro _ _ ⟨rfl, rfl⟩
  exact ⟨⟨[], .nil⟩, id⟩

theorem viable_absorb {climb : Nat → Expr → Parse σ Expr}
    (hclimb : ∀ least left next, Viable n next (climb least left) (Extended left))
    (least tiers : Nat) (right : Expr) (next : Option Token) :
    Viable n next (absorb climb least tiers right) (Extended right) := by
  induction tiers generalizing right next with
  | zero => exact viable_stop right
  | succ tiers ih =>
    refine .nextOperator (viable_stop right) fun op _ => ?_
    refine ((hclimb op.precedence right next).then fun middle next => ih middle next).imp ?_
    rintro _ _ ⟨_, us, vs, rfl, hus, hvs⟩
    exact hus.trans hvs

section
variable {operand : Parse σ Expr}

/-- There is room for as many operators as there are tokens. -/
theorem viable_chain {climb : Nat → Expr → Parse σ Expr} {room : Nat}
    (hoperand : ∀ next, Viable n next operand (Derived (Derivation.Operand false)))
    (hclimb : ∀ least left next, Viable n next (climb least left) (Extended left))
    (hroom : n ≤ room + 1) (least : Nat) (left : Expr) (next : Option Token) :
    Viable n next (chain operand climb least room left) (Extended left) := by
  induction room generalizing n left next with
  | zero =>
    refine ⟨⟨left, [], ⟨[], .nil⟩, id⟩, fun {s ts failure} hs hn _ => ?_⟩
    have hts : ts.length = 0 := by omega
    obtain rfl := List.length_eq_zero_iff.mp hts
    rcases nextOperator_cases hs least with ⟨heq, -⟩ | ⟨_, _, heq, -⟩
    · rw [chain, bind_of_ok heq]
      exact ⟨[], [], rfl, hs, ⟨[], .nil⟩, id⟩
    · simp at heq
  | succ room ih =>
    cases n with
    | zero => exact viable_zero ⟨left, [], ⟨[], .nil⟩, id⟩
    | succ n =>
      refine .nextOperator (viable_stop left) fun op hop => ?_
      subst hop
      have hle := Nat.le_succ n
      have hoperand' := fun next => (hoperand next).mono hle fun _ _ h => h
      have hclimb' := fun least left next => (hclimb least left next).mono hle fun _ _ h => h
      refine ((viable_advance _).behind fun next => (hoperand' next).then fun first next =>
        (viable_absorb hclimb' _ 5 first next).then fun right next =>
          ih hoperand' hclimb' (Nat.le_of_succ_le_succ hroom) (.binary op left right) next).imp ?_
      rintro _ _ ⟨_, rfl, first, us, _, rfl, ⟨e, openly, he, -⟩, _, vs, ws, rfl,
        ⟨⟨ops, hops⟩, -⟩, ⟨ops', hops'⟩, hassign⟩
      exact ⟨⟨_, .cons he (operators_append hops' hops) (by simp)⟩, fun _ => hassign rfl⟩

theorem viable_climb {room : Nat}
    (hoperand : ∀ next, Viable n next operand (Derived (Derivation.Operand false)))
    (hroom : n ≤ room + 1) (tiers least : Nat) (left : Expr) (next : Option Token) :
    Viable n next (climb operand room tiers least left) (Extended left) := by
  induction tiers generalizing least left next with
  | zero => exact viable_stop left
  | succ tiers ih => exact viable_chain hoperand ih hroom least left next

end

theorem exists_expression : ∃ e ts, Derived (Expression false) e ts := by
  obtain ⟨e, ts, e', _, he, hassign⟩ := exists_operand
  obtain ⟨openly, he'⟩ := expression_of_operand he
  exact ⟨e, ts, e', openly, he', hassign⟩

/-- An expression of fewer tokens than levels does not nest too deep. -/
theorem viable_expression {rounds levels : Nat} (hlevels : n ≤ levels) (hrounds : n ≤ rounds + 1)
    (next : Option Token) :
    Viable n next (expression rounds levels : Parse σ Expr) (Derived (Expression false)) := by
  induction levels generalizing n next with
  | zero =>
    obtain rfl := Nat.le_zero.mp hlevels
    exact viable_zero exists_expression
  | succ levels ih =>
    cases n with
    | zero => exact viable_zero exists_expression
    | succ n =>
      have hprimary (next : Option Token) : Viable (n + 1) next (primary rounds
          (expression rounds levels) : Parse σ Expr) (Derived (Derivation.Operand false)) :=
        viable_primary (ih (Nat.le_of_succ_le_succ hlevels) (Nat.le_of_succ_le hrounds))
        (Nat.le_of_succ_le_succ hrounds)
      refine ((hprimary next).then ((fun first next => ?_ : ∀ first next, Viable _ next _ fun e ts =>
        first = e ∧ ts = [] ∨ first.isAssign = false ∧ Extended first e ts))).imp ?_
      · split
        · refine (viable_pure first).imp ?_
          rintro _ _ ⟨rfl, rfl⟩
          exact .inl ⟨rfl, rfl⟩
        · next hassign =>
          exact (viable_climb hprimary hlevels 5 0 first next).imp fun _ _ h =>
            .inr ⟨by simpa using hassign, h⟩
      · rintro e _ ⟨first, us, _, rfl, ⟨e', openly, he', heq⟩, ⟨rfl, rfl⟩ | ⟨hfirst, hext⟩⟩
        · obtain ⟨openly', hexpr⟩ := expression_of_operand he'
          exact ⟨e', openly', by simpa using hexpr, heq⟩
        · obtain ⟨⟨ops, hops⟩, hassign⟩ := hext
          have hfirst' := heq.trans hfirst
          obtain ⟨e'', hgrouped⟩ := Grammar.exists_grouped e' ops
          exact ⟨e'', true, .operators he' hfirst' hops hgrouped,
            (hgrouped.isAssign hfirst').trans (hassign hfirst).symm⟩

theorem viable_parameter (strict : Bool) (before : List String) (next : Option Token) :
    Viable n next (parameter strict before : Parse σ String) fun _ ts =>
      ∃ name, ts = [.ident name] := by
  refine .peek ?_
  split
  · next name =>
    split
    · exact .violation nofun ⟨name, _, name, rfl⟩
    · refine ((viable_advance _).then fun _ _ => viable_pure name).imp ?_
      rintro _ _ ⟨_, _, _, rfl, rfl, -, rfl⟩
      exact ⟨name, rfl⟩
  · exact .violation nofun ⟨"x", _, "x", rfl⟩

theorem viable_parameters {rounds : Nat} (hrounds : n ≤ rounds) (strict : Bool) :
    Viable n next (parameters rounds strict : Parse σ (List String)) fun _ ts =>
      ∃ names, Parameters ts names := by
  refine .isNext (isPlainKind_mark .rightParen) (fun _ => ?_) ?_
  · refine (viable_pure _).imp ?_
    rintro _ _ ⟨-, rfl⟩
    exact ⟨[], .none⟩
  · refine (viable_separated (fun ts => ∃ names, Names ts names)
      (viable_parameter strict) ?_ ?_ hrounds []).imp ?_
    · rintro _ _ ⟨name, rfl⟩
      exact ⟨[name], .last⟩
    · rintro _ _ us ⟨name, rfl⟩ ⟨names, hnames⟩
      exact ⟨name :: names, .more hnames⟩
    · rintro _ ts ⟨names, hnames⟩
      exact ⟨names, .some hnames⟩

theorem viable_functionName :
    Viable n next (functionName : Parse σ String) fun _ ts => ∃ name, ts = [.ident name] := by
  refine .peek ?_
  split
  · next name =>
    refine ((viable_advance _).then fun _ _ => viable_pure name).imp ?_
    rintro _ _ ⟨_, _, _, rfl, rfl, -, rfl⟩
    exact ⟨name, rfl⟩
  · exact .violation nofun ⟨"x", _, "x", rfl⟩

/-- The tokens of statements, and those of blocks. -/
def IsStatement (ts : List Token) : Prop :=
  ∃ s openly, Statement false ts s openly

def IsBlock (ts : List Token) : Prop :=
  ∃ b openly, Derivation.Block false ts b openly

section
variable {expr : Parse σ Expr} {block : Parse σ Block} {rounds : Nat}
  (hexpr : ∀ next, Viable n next expr (Derived (Expression false)))
  (hblock : ∀ next, Viable n next block fun _ ts => IsBlock ts)

include hblock in
theorem viable_definition (hrounds : n ≤ rounds) (strict : Bool) :
    Viable (n + 1) next (definition rounds strict block) fun _ ts => IsStatement ts := by
  have hrest (name : String) (next : Option Token) : Viable n next (do
      let params ← parameters rounds strict
      eat (.mark .rightParen)
      return Stmt.define name params (← block)) fun _ ts =>
        ∃ us vs names, ts = us ++ .mark .rightParen :: vs ∧ Parameters us names ∧ IsBlock vs := by
    refine ((viable_parameters hrounds strict).then fun params _ =>
      (viable_eat (isPlainKind_mark .rightParen)).then fun _ next =>
        (hblock next).then fun b _ => viable_pure (Stmt.define name params b)).imp ?_
    rintro _ _ ⟨_, us, _, rfl, ⟨names, hnames⟩, _, _, _, rfl, rfl, _, vs, _, rfl, hvs, rfl, rfl⟩
    exact ⟨us, vs, names, by simp, hnames, hvs⟩
  have hparen (name : String) (next : Option Token) : Viable n next (do
      if ← isNext (.mark .leftParen) then advance else violation .functionParen
      let params ← parameters rounds strict
      eat (.mark .rightParen)
      return Stmt.define name params (← block)) fun _ ts => ∃ us vs names,
        ts = .mark .leftParen :: (us ++ .mark .rightParen :: vs) ∧ Parameters us names ∧
          IsBlock vs := by
    refine .isNext (isPlainKind_mark .leftParen) ?_ ?_
    · rintro rfl
      refine ((viable_advance _).then fun _ next => hrest name next).imp ?_
      rintro _ _ ⟨_, _, _, rfl, rfl, us, vs, names, rfl, hnames, hvs⟩
      exact ⟨us, vs, names, rfl, hnames, hvs⟩
    · have hfails : Viable n next (violation .functionParen : Parse σ Unit)
          fun _ ts => ts = [.mark .leftParen] := .violation nofun ⟨(), _, rfl⟩
      refine (hfails.then fun _ next => hrest name next).imp ?_
      rintro _ _ ⟨_, _, _, rfl, rfl, us, vs, names, rfl, hnames, hvs⟩
      exact ⟨us, vs, names, rfl, hnames, hvs⟩
  refine ((viable_eat (isPlainKind_keyword .defWord)).behind fun next =>
    viable_functionName.then hparen).imp ?_
  rintro _ _ ⟨_, rfl, _, _, _, rfl, ⟨name, rfl⟩, us, vs, names, rfl, hnames, b, openly, hb⟩
  exact ⟨_, openly, .define hnames hb⟩

include hblock in
theorem viable_elseBlock :
    Viable n next (elseBlock block) fun _ ts =>
      ts = [] ∨ ∃ us, ts = .keyword .elseWord :: us ∧ IsBlock us := by
  refine .isNext (isPlainKind_keyword .elseWord) ?_ ?_
  · rintro rfl
    refine ((viable_advance _).then fun _ next => (hblock next).then fun b _ =>
      viable_pure (some b)).imp ?_
    rintro _ _ ⟨_, _, _, rfl, rfl, _, us, _, rfl, hus, -, rfl⟩
    exact .inr ⟨us, by simp, hus⟩
  · exact (viable_pure none).imp fun _ _ h => .inl h.2

include hexpr in
/-- A condition in parentheses. -/
theorem viable_condition :
    Viable n next (parenthesized expr) fun _ ts => ∃ us e openly,
      ts = .mark .leftParen :: (us ++ [.mark .rightParen]) ∧ Expression false us e openly := by
  refine ((viable_eat (isPlainKind_mark .leftParen)).then fun _ next =>
    (hexpr next).before (isPlainKind_mark .rightParen) (g := id)).imp ?_
  rintro _ _ ⟨_, _, _, rfl, rfl, _, us, -, rfl, e, openly, he, -⟩
  exact ⟨us, e, openly, rfl, he⟩

include hexpr hblock

theorem viable_whileLoop :
    Viable (n + 1) next (whileLoop expr block) fun _ ts => IsStatement ts := by
  refine ((viable_eat (isPlainKind_keyword .whileWord)).behind fun next =>
    (viable_condition hexpr).then fun c next => (hblock next).then fun b _ =>
      viable_pure (Stmt.loop c b)).imp ?_
  rintro _ _ ⟨_, rfl, _, _, _, rfl, ⟨us, e, openly, rfl, he⟩, _, vs, _, rfl, ⟨b, openly', hb⟩, -,
    rfl⟩
  exact ⟨_, openly', by simpa using Statement.loop he hb⟩

theorem viable_conditional :
    Viable (n + 1) next (conditional expr block) fun _ ts => IsStatement ts := by
  refine ((viable_eat (isPlainKind_keyword .ifWord)).behind fun next =>
    (viable_condition hexpr).then fun c next => (hblock next).then fun yes _ =>
      (viable_elseBlock hblock).then fun no _ => viable_pure (Stmt.conditional c yes no)).imp ?_
  rintro _ _ ⟨_, rfl, _, _, _, rfl, ⟨us, e, openly, rfl, he⟩, _, vs, _, rfl, ⟨b, openly', hb⟩, _,
    _, _, rfl, rfl | ⟨ws, rfl, b', openly'', hb'⟩, -, rfl⟩
  · exact ⟨_, true, by simpa using Statement.conditional he hb⟩
  · exact ⟨_, openly'', by simpa using Statement.alternative he hb nofun hb'⟩

end

section
variable {expr : Parse σ Expr} {block : Parse σ Block} {rounds : Nat}

theorem viable_returnStatement
    (hexpr : ∀ next, Viable n next expr (Derived (Expression false))) :
    Viable n next (returnStatement expr) fun _ ts => IsStatement ts := by
  refine ((viable_eat (isPlainKind_keyword .returnWord)).then fun _ next =>
    (hexpr next).before (isPlainKind_mark .semicolon) (g := Stmt.ret)).imp ?_
  rintro _ _ ⟨_, _, _, rfl, rfl, _, us, -, rfl, e, openly, he, -⟩
  exact ⟨_, false, .ret he⟩

theorem viable_expressionStatement
    (hexpr : ∀ next, Viable n next expr (Derived (Expression false))) :
    Viable n next (expressionStatement expr) fun _ ts => IsStatement ts := by
  refine ((hexpr next).before (isPlainKind_mark .semicolon) (g := Stmt.expression)).imp ?_
  rintro _ _ ⟨_, us, -, rfl, e, openly, he, -⟩
  exact ⟨_, false, .expression he⟩

theorem exists_statement : ∃ ts, IsStatement ts := by
  obtain ⟨e, ts, e', openly, he, -⟩ := exists_expression
  exact ⟨_, _, false, .expression he⟩

/-- A block needs a level of its own, which the first token of its statement pays for. -/
theorem viable_statement (hrounds : n ≤ rounds) (strict : Bool)
    (hexpr : ∀ next, Viable (n + 1) next expr (Derived (Expression false)))
    (hblock : ∀ next, Viable n next block fun _ ts => IsBlock ts) (next : Option Token) :
    Viable (n + 1) next (statement rounds strict expr block) fun _ ts => IsStatement ts := by
  have hexpr' := fun next => (hexpr next).mono (Nat.le_succ n) fun _ _ h => h
  refine .peek ?_
  split
  · exact viable_whileLoop hexpr' hblock
  · exact viable_conditional hexpr' hblock
  · exact viable_returnStatement hexpr
  · exact viable_definition hblock hrounds strict
  · exact viable_expressionStatement hexpr
  · obtain ⟨ts, hts⟩ := exists_statement
    exact .unexpected ⟨.ret (.variable ""), ts, hts⟩

end

def IsProgram (ts : List Token) : Prop :=
  ∃ b, Derivation.Program false ts b

theorem isProgram_append {ts us : List Token} (h : IsStatement ts) (h' : IsProgram us) :
    IsProgram (ts ++ us) := by
  obtain ⟨s, openly, hs⟩ := h
  obtain ⟨b, hb⟩ := h'
  exact ⟨s :: b, .cons hs hb⟩

theorem viable_repeatWhile {stmt : Parse σ Stmt} {more : Lookahead σ → Bool}
    (hstmt : ∀ next, Viable n next stmt fun _ ts => IsStatement ts) (rounds : Nat)
    (read : List Stmt) (next : Option Token) :
    Viable n next (repeatWhile more stmt rounds read) fun _ ts => IsProgram ts := by
  have hstop (read : List Stmt) (next : Option Token) :
      Viable n next (pure read.reverse : Parse σ (List Stmt)) fun _ ts => IsProgram ts := by
    refine (viable_pure _).imp ?_
    rintro _ _ ⟨-, rfl⟩
    exact ⟨[], .nil⟩
  induction rounds generalizing read next with
  | zero => exact hstop read next
  | succ rounds ih =>
    refine ⟨(hstop read next).inhabited, fun {s ts failure} hs hn hnext => ?_⟩
    rw [repeatWhile, get_bind]
    split
    · refine (Viable.imp ((hstmt next).then fun s next => ih (s :: read) next) ?_).outcome hs hn
        hnext
      rintro _ _ ⟨_, us, vs, rfl, hus, hvs⟩
      exact isProgram_append hus hvs
    · exact (hstop read next).outcome hs hn hnext

theorem viable_blockOf {stmt : Parse σ Stmt} {rounds : Nat}
    (hstmt : ∀ next, Viable n next stmt fun _ ts => IsStatement ts) :
    Viable n next (blockOf rounds stmt) fun _ ts => IsBlock ts := by
  refine .isNext (isPlainKind_mark .leftBrace) ?_ ?_
  · rintro rfl
    refine ((viable_advance _).then fun _ next => (viable_repeatWhile hstmt rounds [] next).before
      (isPlainKind_mark .rightBrace) (g := id)).imp ?_
    rintro _ _ ⟨_, _, _, rfl, rfl, _, us, -, rfl, b, hb⟩
    exact ⟨b, false, .braces hb⟩
  · refine ((hstmt next).then fun s _ => viable_pure [s]).imp ?_
    rintro _ _ ⟨_, us, _, rfl, ⟨s, openly, hs⟩, -, rfl⟩
    exact ⟨[s], openly, by simpa using Derivation.Block.single hs⟩

theorem viable_block {rounds levels : Nat} (hlevels : n + 1 ≤ levels) (hrounds : n ≤ rounds)
    (strict : Bool) (next : Option Token) :
    Viable n next (block rounds strict levels : Parse σ Block) fun _ ts => IsBlock ts := by
  induction levels generalizing n next with
  | zero => omega
  | succ levels ih =>
    cases n with
    | zero =>
      obtain ⟨ts, s, openly, hs⟩ := exists_statement
      exact viable_zero ⟨[], ts, [s], openly, .single hs⟩
    | succ n =>
      exact viable_blockOf fun next => viable_statement (Nat.le_of_succ_le hrounds) strict
        (viable_expression (Nat.le_of_succ_le_succ hlevels) (Nat.le_succ_of_le hrounds))
        (ih (Nat.le_of_succ_le_succ hlevels) (Nat.le_of_succ_le hrounds)) next

/-- Statements of fewer tokens than levels do not nest too deep. -/
theorem viable_program (options : ParseOptions) {s : Lookahead σ} {ts : List Token}
    {failure : Option SyntaxError} (hs : s.Holds ts failure) (hlevels : ts.length < options.maxDepth) :
    Outcome (fun _ ts => IsProgram ts) ts failure (program options s) := by
  have hrounds := hs.length_le
  rw [program, get_bind]
  refine (viable_repeatWhile (fun next => ?_) _ [] _).outcome hs (Nat.lt_succ_self _) rfl
  exact viable_statement hrounds options.strictParams
    (viable_expression hlevels (Nat.succ_le_succ hrounds))
    (viable_block hlevels hrounds options.strictParams) next

/-- With more levels than tokens, only the source itself could report that nesting is too deep. -/
theorem cause_of_program_error {options : ParseOptions} {s s' : Lookahead σ} {ts : List Token}
    {failure : Option SyntaxError} {e : SyntaxError} (hs : s.Holds ts failure)
    (hlevels : ts.length < options.maxDepth) (h : program options s = .error e s') :
    failure = some e ∨ e.cause ≠ .grammar .nesting := by
  have houtcome := viable_program options hs hlevels
  rw [h] at houtcome
  refine houtcome.imp id ?_
  rintro ⟨_, rest, _, _, hmeets, _⟩ hcause
  rw [hcause] at hmeets
  exact hmeets rfl

end Parse
end Sapling
