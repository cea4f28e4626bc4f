import Sapling.Proofs.ExpressionSound

/-!
# Every phrase of the grammar is parsed

The other direction: where the tokens that a parse holds begin with a phrase, the parse succeeds
and gives its tree. Tokens must not break off, because a parse looks one token past its phrase.
-/
namespace Sapling

open Grammar

namespace Parse

variable {σ α : Type} [TokenSource σ] {s : Lookahead σ} {ts : List Token} {n rounds levels : Nat}

/-- On at most `n` tokens, every phrase is read. -/
def Accepts (n : Nat) (p : Parse σ α) (phrase : Phrase α) : Prop :=
  ∀ ⦃s : Lookahead σ⦄ ⦃ts : List Token⦄ ⦃a : α⦄ ⦃rest : List Token⦄, s.Holds ts none →
    ts.length ≤ n → phrase ts a rest → ∃ s', p s = .ok a s' ∧ s'.Holds rest none

theorem nextOperator_of_loose {failure : Option SyntaxError} (hs : s.Holds ts failure)
    {least : Nat} (h : Loose least ts) : nextOperator least s = .ok none s := by
  rcases nextOperator_cases hs least with ⟨hnext, -⟩ | ⟨op, us, rfl, htight, -⟩
  · exact hnext
  · have := h op us rfl
    omega

theorem nextOperator_of_tight {failure : Option SyntaxError} {op : Operator}
    (hs : s.Holds (.operator op :: ts) failure) {least : Nat} (h : least ≤ op.precedence) :
    nextOperator least s = .ok (some op) s := by
  rcases nextOperator_cases hs least with ⟨-, hloose⟩ | ⟨op', us, heq, -, hnext⟩
  · have := hloose op ts rfl
    omega
  · obtain ⟨heq, -⟩ := List.cons.inj heq
    obtain rfl := Token.operator.inj heq
    exact hnext

theorem separated_accepts {item : List α → Parse σ α} {phrase : List α → Phrase α}
    {first : Token → Bool} (hitem : ∀ before, Accepts n (item before) (phrase before))
    (hopens : ∀ before, Opens first (phrase before)) {before as : List α} {rest : List Token}
    (hs : s.Holds ts none) (hn : ts.length ≤ n) (hrounds : ts.length < rounds)
    (h : Separated phrase before ts as rest) :
    ∃ s', separated item rounds before s = .ok (before.reverse ++ as) s' ∧
      s'.Holds rest none := by
  induction h generalizing s rounds with
  | @last before ts rest a only stop =>
    obtain ⟨rounds, rfl⟩ := Nat.exists_eq_add_one_of_ne_zero (Nat.ne_zero_of_lt hrounds)
    obtain ⟨s₁, ha, hs₁⟩ := hitem before hs hn only
    have hcomma : s₁.isAt (.mark .comma) = false := by
      rw [← Bool.not_eq_true, isAt_mark hs₁]
      exact stop
    refine ⟨s₁, ?_, hs₁⟩
    rw [separated, bind_of_ok ha, isNext_bind, hcomma]
    simp [pure, EStateM.pure]
  | @more before ts us rest a as begins _ ih =>
    obtain ⟨rounds, rfl⟩ := Nat.exists_eq_add_one_of_ne_zero (Nat.ne_zero_of_lt hrounds)
    obtain ⟨s₁, ha, hs₁⟩ := hitem before hs hn begins
    obtain ⟨s₂, hadvance, hs₂⟩ := hs₁.exists_advance
    have hlt := (hopens before).length_lt begins
    simp only [List.length_cons] at hlt
    have hrounds' : us.length < rounds := by omega
    obtain ⟨s', hothers, hs'⟩ := ih hs₂ (by omega) hrounds'
    have hcomma : s₁.isAt (.mark .comma) = true := (isAt_mark hs₁ _).mpr rfl
    refine ⟨s', ?_, hs'⟩
    rw [separated, bind_of_ok ha, isNext_bind, hcomma, if_pos rfl, bind_of_ok hadvance, hothers]
    simp

theorem listed_accepts {item : List α → Parse σ α} {phrase : List α → Phrase α}
    {first : Token → Bool} (hitem : ∀ before, Accepts n (item before) (phrase before))
    (hopens : ∀ before, Opens first (phrase before)) (hrounds : n < rounds) :
    Accepts n (do if ← isNext (.mark .rightParen) then pure [] else separated item rounds [])
      (Listed phrase) := by
  intro s ts as rest hs hn h
  cases h with
  | none =>
    have hparen : s.isAt (.mark .rightParen) = true := (isAt_mark hs _).mpr rfl
    exact ⟨s, by rw [isNext_bind, hparen]; rfl, hs⟩
  | some start items =>
    have hparen : s.isAt (.mark .rightParen) = false := by
      rw [← Bool.not_eq_true, isAt_mark hs]
      exact start
    have hlt : ts.length < rounds := by omega
    obtain ⟨s', hitems, hs'⟩ := separated_accepts hitem hopens hs hn hlt items
    exact ⟨s', by rw [isNext_bind, hparen]; simpa using hitems, hs'⟩

theorem repeatWhile_accepts {more : Lookahead σ → Bool} {item : Parse σ α} {phrase : Phrase α}
    {first : Token → Bool} (hitem : Accepts n item phrase) (hopens : Opens first phrase)
    (hmore : ∀ (s : Lookahead σ) t us, s.Holds (t :: us) none → first t = true → more s = true)
    (before : List α) {as : List α} {rest : List Token}
    (hstop : ∀ s : Lookahead σ, s.Holds rest none → more s = false) (hs : s.Holds ts none)
    (hn : ts.length ≤ n) (hrounds : ts.length ≤ rounds) (h : Repeated phrase ts as rest) :
    ∃ s', repeatWhile more item rounds before s = .ok (before.reverse ++ as) s' ∧
      s'.Holds rest none := by
  induction h generalizing s rounds before with
  | nil =>
    refine ⟨s, ?_, hs⟩
    cases rounds with
    | zero => simp [repeatWhile, pure, EStateM.pure]
    | succ rounds => simp [repeatWhile, hstop s hs, pure, EStateM.pure]
  | @cons ts us rest a as begins _ ih =>
    obtain ⟨t, vs, rfl, ht, -⟩ := hopens begins
    have hlt := hopens.length_lt begins
    obtain ⟨rounds, rfl⟩ := Nat.exists_eq_add_one_of_ne_zero
      (Nat.ne_zero_of_lt (Nat.lt_of_lt_of_le (Nat.zero_lt_succ _) hrounds))
    obtain ⟨s₁, ha, hs₁⟩ := hitem hs hn begins
    have hrounds' : us.length ≤ rounds := by omega
    obtain ⟨s', hothers, hs'⟩ := ih (a :: before) hstop hs₁ (by omega) hrounds'
    refine ⟨s', ?_, hs'⟩
    rw [repeatWhile, get_bind, hmore s t vs hs ht, if_pos rfl, bind_of_ok ha, hothers]
    simp

section
variable {expr : Parse σ Expr} {inner : Phrase Expr} {e : Expr} {rest : List Token}
  (hexpr : Accepts n expr inner)

include hexpr in
theorem parenthesized_complete (hs : s.Holds (.mark .leftParen :: ts) none) (hn : ts.length ≤ n)
    (h : inner ts e (.mark .rightParen :: rest)) :
    ∃ s', parenthesized expr s = .ok e s' ∧ s'.Holds rest none := by
  obtain ⟨s₁, hopen, hs₁⟩ := exists_eat_mark hs
  obtain ⟨s₂, he, hs₂⟩ := hexpr hs₁ hn h
  obtain ⟨s₃, hclose, hs₃⟩ := exists_eat_mark hs₂
  refine ⟨s₃, ?_, hs₃⟩
  rw [parenthesized, bind_of_ok hopen, bind_of_ok he, bind_of_ok hclose]
  rfl

include hexpr in
theorem afterName_complete (hopens : Opens opensExpression inner) (hs : s.Holds ts none)
    (hn : ts.length < n) (hrounds : n ≤ rounds) {name : String}
    (h : Operand inner (.ident name :: ts) e rest) :
    ∃ s', afterName rounds expr name s = .ok e s' ∧ s'.Holds rest none := by
  cases h with
  | name notAssigned notCalled =>
    refine ⟨s, ?_, hs⟩
    rw [afterName, peek_bind, hs.token?_eq]
    generalize ts.head? = next at notAssigned notCalled
    split
    · exact absurd rfl notAssigned
    · exact absurd rfl notCalled
    · rfl
  | assign value =>
    obtain ⟨s₁, hadvance, hs₁⟩ := hs.exists_advance
    obtain ⟨s₂, he, hs₂⟩ := hexpr hs₁ (by simp at hn; omega) value
    refine ⟨s₂, ?_, hs₂⟩
    rw [afterName, peek_bind, hs.token?_eq, List.head?_cons]
    simp only [bind_of_ok hadvance, bind_of_ok he]
    rfl
  | @call _ us _ args items =>
    obtain ⟨s₁, hadvance, hs₁⟩ := hs.exists_advance
    simp only [List.length_cons] at hn
    have hitem : Accepts us.length expr inner := fun _ _ _ _ hs hn => hexpr hs (by omega)
    have hlt : us.length < rounds := by omega
    obtain ⟨s₂, hargs, hs₂⟩ := listed_accepts (fun _ => hitem) (fun _ => hopens) hlt hs₁
      (Nat.le_refl _) items
    obtain ⟨s₃, hclose, hs₃⟩ := exists_eat_mark hs₂
    refine ⟨s₃, ?_, hs₃⟩
    rw [afterName, peek_bind, hs.token?_eq, List.head?_cons]
    have hargs' : arguments rounds expr s₁ = .ok args s₂ := hargs
    simp only [bind_of_ok hadvance, bind_of_ok hargs', bind_of_ok hclose]
    rfl

theorem primary_ident {name : String} {s₁ : Lookahead σ} (hs : s.Holds (.ident name :: ts) none)
    (hadvance : advance s = .ok () s₁) :
    primary rounds expr s = afterName rounds expr name s₁ := by
  rw [primary, peek_bind, hs.token?_eq, List.head?_cons]
  simp only [bind_of_ok hadvance]

include hexpr in
theorem primary_accepts (hopens : Opens opensExpression inner) (hrounds : n ≤ rounds) :
    Accepts n (primary rounds expr) (Operand inner) := by
  intro s ts e rest hs hn h
  by_cases hname : ∃ name us, ts = .ident name :: us
  · obtain ⟨name, us, rfl⟩ := hname
    obtain ⟨s₁, hadvance, hs₁⟩ := hs.exists_advance
    rw [primary_ident hs hadvance]
    exact afterName_complete hexpr hopens hs₁ hn hrounds h
  · cases h with
    | name | assign | call => exact absurd ⟨_, _, rfl⟩ hname
    | number | str =>
      obtain ⟨s₁, hadvance, hs₁⟩ := hs.exists_advance
      refine ⟨s₁, ?_, hs₁⟩
      rw [primary, peek_bind, hs.token?_eq, List.head?_cons]
      simp only [bind_of_ok hadvance]
      rfl
    | group hinner =>
      obtain ⟨s', hparen, hs'⟩ :=
        parenthesized_complete hexpr hs (by simp at hn; omega) hinner
      refine ⟨s', ?_, hs'⟩
      rw [primary, peek_bind, hs.token?_eq, List.head?_cons]
      exact hparen

end

section
variable {operand : Parse σ Expr} {phrase : Phrase Expr} (hopens : Opens opensExpression phrase)
  (hoperand : Accepts n operand phrase)

theorem absorb_complete {climb : Nat → Expr → Parse σ Expr} {least : Nat}
    (hopens : Opens opensExpression phrase)
    (hclimb : ∀ q left, least ≤ q → q < 5 →
      Accepts n (climb q left) (Chain phrase levels q levels left))
    {tiers : Nat} {right e : Expr} {rest : List Token} (hs : s.Holds ts none)
    (hn : ts.length ≤ n) (htiers : Loose tiers ts)
    (h : Absorb phrase levels least right ts e rest) :
    ∃ s', absorb climb least tiers right s = .ok e s' ∧ s'.Holds rest none := by
  induction tiers generalizing s ts right with
  | zero =>
    cases h with
    | stop _ => exact ⟨s, rfl, hs⟩
    | step tight _ _ => exact absurd (htiers _ _ rfl) (by omega)
  | succ tiers ih =>
    rw [absorb]
    cases h with
    | stop loose => exact ⟨s, by rw [bind_of_ok (nextOperator_of_loose hs loose)]; rfl, hs⟩
    | @step _ _ middle _ op us vs _ tight chain others =>
      obtain ⟨s₁, hmiddle, hs₁⟩ := hclimb _ right tight op.precedence_lt hs hn chain
      have hlt : op.precedence ≤ tiers := Nat.le_of_lt_succ (htiers op us rfl)
      have hle := (chain.suffix hopens).length_le
      obtain ⟨s', hothers, hs'⟩ := ih hs₁ (Nat.le_trans hle hn) (chain.loose.mono hlt) others
      refine ⟨s', ?_, hs'⟩
      simp only [bind_of_ok (nextOperator_of_tight hs tight), bind_of_ok hmiddle, hothers]

include hopens hoperand in
theorem chain_accepts {climb : Nat → Expr → Parse σ Expr} {least : Nat}
    (hclimb : ∀ q left, least < q → q < 5 →
      Accepts n (climb q left) (Chain phrase levels q levels left)) (room : Nat) (left : Expr) :
    Accepts n (chain operand climb least room left) (Chain phrase levels least room left) := by
  induction room generalizing left with
  | zero =>
    intro s ts e rest hs _ h
    cases h with
    | stop loose =>
      exact ⟨s, by rw [chain, bind_of_ok (nextOperator_of_loose hs loose)]; rfl, hs⟩
  | succ room ih =>
    intro s ts e rest hs hn h
    cases h with
    | stop loose =>
      exact ⟨s, by rw [chain, bind_of_ok (nextOperator_of_loose hs loose)]; rfl, hs⟩
    | @step _ _ _ first right _ op us vs ws _ tight begins absorbed others =>
      simp only [List.length_cons] at hn
      obtain ⟨s₁, hadvance, hs₁⟩ := hs.exists_advance
      obtain ⟨s₂, hfirst, hs₂⟩ := hoperand hs₁ (by omega) begins
      have hvs := hopens.length_lt begins
      have hclimb' : ∀ q left, op.precedence + 1 ≤ q → q < 5 →
          Accepts n (climb q left) (Chain phrase levels q levels left) :=
        fun q left hq => hclimb q left (by omega)
      obtain ⟨s₃, hright, hs₃⟩ :=
        absorb_complete hopens hclimb' hs₂ (by omega) (loose_five vs) absorbed
      have hws := (absorbed.suffix hopens).length_le
      obtain ⟨s', hothers, hs'⟩ := ih (.binary op left right) hs₃ (by omega) others
      refine ⟨s', ?_, hs'⟩
      rw [chain]
      simp only [bind_of_ok (nextOperator_of_tight hs tight), bind_of_ok hadvance,
        bind_of_ok hfirst, bind_of_ok hright, hothers]

include hopens hoperand in
theorem climb_accepts (tiers : Nat) {least : Nat} (hleast : least < 5) (htiers : 5 ≤ least + tiers)
    (left : Expr) :
    Accepts n (climb operand levels tiers least left) (Chain phrase levels least levels left) := by
  induction tiers generalizing least left with
  | zero => omega
  | succ tiers ih =>
    exact chain_accepts hopens hoperand (fun q left hlt hq => ih hq (by omega) left) levels left

end

theorem expression_accepts (hrounds : n ≤ rounds) (levels : Nat) :
    Accepts n (expression rounds levels : Parse σ Expr) (ExpressionWithin levels) := by
  induction levels with
  | zero => exact fun _ _ _ _ _ _ h => h.elim
  | succ levels ih =>
    intro s ts e rest hs hn h
    have hopens := Operand.opens (opens_expressionWithin levels)
    have hprimary := primary_accepts ih (opens_expressionWithin levels) hrounds
    rw [expression]
    cases h with
    | assignment only assigns =>
      obtain ⟨s', honly, hs'⟩ := hprimary hs hn only
      exact ⟨s', by simp only [bind_of_ok honly, assigns]; rfl, hs'⟩
    | @chain _ us _ first _ begins assigns others =>
      obtain ⟨s₁, hfirst, hs₁⟩ := hprimary hs hn begins
      have hlt := hopens.length_lt begins
      obtain ⟨s', hchain, hs'⟩ :=
        climb_accepts hopens hprimary 5 (by decide) (by decide) first hs₁ (by omega) others
      exact ⟨s', by simp only [bind_of_ok hfirst, assigns]; exact hchain, hs'⟩

end Parse
end Sapling
