import Sapling.Parse.Program
import Sapling.Proofs.Grammar
import Sapling.Proofs.ParseSteps

/-!
# What is parsed is a phrase of the grammar

Every parse that succeeds reads a phrase: the tokens that it held before and those that it holds
afterwards are related to its result by the rule of the grammar that it stands for. The bounds of
the parses (their rounds and tiers) are seen here to be large enough never to end a rule early.
-/
namespace Sapling

open Grammar

theorem Operator.precedence_lt (op : Operator) : op.precedence < 5 := by
  cases op <;> decide

namespace Grammar

theorem Loose.mono {least least' : Nat} {ts : List Token} (h : Loose least ts)
    (hle : least ≤ least') : Loose least' ts :=
  fun op us hts => Nat.lt_of_lt_of_le (h op us hts) hle

theorem loose_five (ts : List Token) : Loose 5 ts := fun op _ _ => op.precedence_lt

end Grammar

namespace Parse

variable {σ α : Type} [TokenSource σ] {s s' : Lookahead σ} {ts : List Token}
  {failure : Option SyntaxError} {n rounds levels : Nat}

/-- On at most `n` tokens, what the parse reads is a phrase. -/
def Reads (n : Nat) (p : Parse σ α) (phrase : Phrase α) : Prop :=
  ∀ ⦃s : Lookahead σ⦄ ⦃ts : List Token⦄ ⦃failure : Option SyntaxError⦄ ⦃a : α⦄
    ⦃s' : Lookahead σ⦄, s.Holds ts failure → ts.length ≤ n → p s = .ok a s' →
      ∃ rest, phrase ts a rest ∧ s'.Holds rest failure

theorem nextOperator_cases (hs : s.Holds ts failure) (least : Nat) :
    (nextOperator least s = .ok none s ∧ Loose least ts) ∨
      ∃ op us, ts = .operator op :: us ∧ least ≤ op.precedence ∧
        nextOperator least s = .ok (some op) s := by
  have hnext : nextOperator least s =
      .ok ((ts.head?.bind Token.operator?).filter (least ≤ ·.precedence)) s := by
    rw [← hs.token?_eq]
    rfl
  cases ts with
  | nil => exact .inl ⟨hnext, nofun⟩
  | cons t us =>
    cases t with
    | operator op =>
      by_cases hle : least ≤ op.precedence
      · exact .inr ⟨op, us, rfl, hle, by simp [hnext, Token.operator?, hle]⟩
      · refine .inl ⟨by simpa [hnext, Token.operator?] using hle, ?_⟩
        rintro _ _ ⟨⟩
        omega
    | _ => exact .inl ⟨hnext, nofun⟩

theorem separated_reads {item : List α → Parse σ α} {phrase : List α → Phrase α}
    {first : Token → Bool} (hitem : ∀ before, Reads n (item before) (phrase before))
    (hopens : ∀ before, Opens first (phrase before)) {before all : List α}
    (hs : s.Holds ts failure) (hn : ts.length ≤ n) (hrounds : ts.length < rounds)
    (h : separated item rounds before s = .ok all s') :
    ∃ as rest, all = before.reverse ++ as ∧ Separated phrase before ts as rest ∧
      s'.Holds rest failure := by
  induction rounds generalizing before s ts with
  | zero => omega
  | succ rounds ih =>
    obtain ⟨a, s₁, ha, h⟩ := bind_eq_ok.mp h
    obtain ⟨us, hphrase, hs₁⟩ := hitem before hs hn ha
    have hlt := (hopens before).length_lt hphrase
    rw [isNext_bind] at h
    split at h
    · next hcomma =>
      rw [isAt_mark hs₁] at hcomma
      obtain ⟨vs, rfl⟩ := List.head?_eq_some_iff.mp hcomma
      obtain ⟨_, s₂, hadvance, h⟩ := bind_eq_ok.mp h
      have hs₂ := advance_sound hs₁ hadvance
      simp only [List.length_cons] at hlt
      obtain ⟨as, rest, rfl, hothers, hs'⟩ := ih hs₂ (by omega) (by omega) h
      exact ⟨a :: as, rest, by simp, .more hphrase hothers, hs'⟩
    · next hcomma =>
      rw [isAt_mark hs₁] at hcomma
      obtain ⟨rfl, rfl⟩ := pure_eq_ok.mp h
      exact ⟨[a], us, by simp, .last hphrase hcomma, hs₁⟩

theorem listed_reads {item : List α → Parse σ α} {phrase : List α → Phrase α}
    {first : Token → Bool} (hitem : ∀ before, Reads n (item before) (phrase before))
    (hopens : ∀ before, Opens first (phrase before)) (hrounds : n < rounds) :
    Reads n (do if ← isNext (.mark .rightParen) then pure [] else separated item rounds [])
      (Listed phrase) := by
  intro s ts failure as s' hs hn h
  rw [isNext_bind] at h
  split at h
  · next hparen =>
    rw [isAt_mark hs] at hparen
    obtain ⟨us, rfl⟩ := List.head?_eq_some_iff.mp hparen
    obtain ⟨rfl, rfl⟩ := pure_eq_ok.mp h
    exact ⟨_, .none, hs⟩
  · next hparen =>
    rw [isAt_mark hs] at hparen
    obtain ⟨as, rest, rfl, hitems, hs'⟩ := separated_reads hitem hopens hs hn (by omega) h
    exact ⟨rest, .some hparen hitems, hs'⟩

theorem repeatWhile_reads {more : Lookahead σ → Bool} {item : Parse σ α} {phrase : Phrase α}
    {first : Token → Bool} (hmore : ∀ s : Lookahead σ, s.atEnd = true → more s = false)
    (hitem : Reads n item phrase) (hopens : Opens first phrase) {before all : List α}
    (hs : s.Holds ts failure) (hn : ts.length ≤ n) (hrounds : ts.length ≤ rounds)
    (h : repeatWhile more item rounds before s = .ok all s') :
    ∃ as rest, all = before.reverse ++ as ∧ Repeated phrase ts as rest ∧
      s'.Holds rest failure ∧ more s' = false := by
  induction rounds generalizing before s ts with
  | zero =>
    obtain ⟨rfl, rfl⟩ := pure_eq_ok.mp h
    obtain rfl := List.length_eq_zero_iff.mp (Nat.le_zero.mp hrounds)
    exact ⟨[], [], by simp, .nil, hs, hmore s hs.atEnd_eq⟩
  | succ rounds ih =>
    rw [repeatWhile, get_bind] at h
    split at h
    · obtain ⟨a, s₁, ha, h⟩ := bind_eq_ok.mp h
      obtain ⟨us, hphrase, hs₁⟩ := hitem hs hn ha
      have hlt := hopens.length_lt hphrase
      obtain ⟨as, rest, rfl, hothers, hs', hstop⟩ := ih hs₁ (by omega) (by omega) h
      exact ⟨a :: as, rest, by simp, .cons hphrase hothers, hs', hstop⟩
    · next hstop =>
      obtain ⟨rfl, rfl⟩ := pure_eq_ok.mp h
      exact ⟨[], ts, by simp, .nil, hs, by simpa using hstop⟩

section
variable {expr : Parse σ Expr} {inner : Phrase Expr} (hopens : Opens opensExpression inner)
  (hexpr : Reads n expr inner)

include hexpr in
theorem parenthesized_sound (hs : s.Holds ts failure) (hn : ts.length ≤ n) {e : Expr}
    (h : parenthesized expr s = .ok e s') :
    ∃ us rest, ts = .mark .leftParen :: us ∧ inner us e (.mark .rightParen :: rest) ∧
      s'.Holds rest failure := by
  obtain ⟨_, s₁, hopen, h⟩ := bind_eq_ok.mp h
  obtain ⟨e', s₂, he, h⟩ := bind_eq_ok.mp h
  obtain ⟨_, s₃, hclose, h⟩ := bind_eq_ok.mp h
  obtain ⟨rfl, rfl⟩ := pure_eq_ok.mp h
  obtain ⟨us, rfl, hs₁⟩ := eat_mark_sound hs hopen
  obtain ⟨vs, hinner, hs₂⟩ := hexpr hs₁ (by simp at hn; omega) he
  obtain ⟨rest, rfl, hs₃⟩ := eat_mark_sound hs₂ hclose
  exact ⟨us, rest, rfl, hinner, hs₃⟩

include hopens hexpr in
theorem afterName_sound (hs : s.Holds ts failure) (hn : ts.length < n) (hrounds : n ≤ rounds)
    {name : String} {e : Expr} (h : afterName rounds expr name s = .ok e s') :
    ∃ rest, Operand inner (.ident name :: ts) e rest ∧ s'.Holds rest failure := by
  rw [afterName, peek_bind, hs.token?_eq] at h
  generalize hnext : ts.head? = next at h
  split at h
  · obtain ⟨us, rfl⟩ := List.head?_eq_some_iff.mp hnext
    obtain ⟨_, s₁, hadvance, h⟩ := bind_eq_ok.mp h
    obtain ⟨e', s₂, he, h⟩ := bind_eq_ok.mp h
    obtain ⟨rfl, rfl⟩ := pure_eq_ok.mp h
    obtain ⟨rest, hinner, hs₂⟩ := hexpr (advance_sound hs hadvance) (by simp at hn; omega) he
    exact ⟨rest, .assign hinner, hs₂⟩
  · obtain ⟨us, rfl⟩ := List.head?_eq_some_iff.mp hnext
    obtain ⟨_, s₁, hadvance, h⟩ := bind_eq_ok.mp h
    obtain ⟨args, s₂, hargs, h⟩ := bind_eq_ok.mp h
    obtain ⟨_, s₃, hclose, h⟩ := bind_eq_ok.mp h
    obtain ⟨rfl, rfl⟩ := pure_eq_ok.mp h
    simp only [List.length_cons] at hn
    have hitem : Reads us.length expr inner := fun _ _ _ _ _ hs hn => hexpr hs (by omega)
    obtain ⟨vs, hlisted, hs₂⟩ := listed_reads (fun _ => hitem) (fun _ => hopens) (by omega)
      (advance_sound hs hadvance) (Nat.le_refl _) hargs
    obtain ⟨rest, rfl, hs₃⟩ := eat_mark_sound hs₂ hclose
    exact ⟨rest, .call hlisted, hs₃⟩
  · next hassign hparen =>
    obtain ⟨rfl, rfl⟩ := pure_eq_ok.mp h
    exact ⟨ts, .name (hnext ▸ hassign) (hnext ▸ hparen), hs⟩

include hopens hexpr in
theorem primary_reads (hrounds : n ≤ rounds) : Reads n (primary rounds expr) (Operand inner) := by
  intro s ts failure e s' hs hn h
  rw [primary, peek_bind, hs.token?_eq] at h
  generalize hnext : ts.head? = next at h
  split at h
  · obtain ⟨us, rfl⟩ := List.head?_eq_some_iff.mp hnext
    obtain ⟨_, s₁, hadvance, h⟩ := bind_eq_ok.mp h
    exact afterName_sound hopens hexpr (advance_sound hs hadvance) hn hrounds h
  · obtain ⟨us, rfl⟩ := List.head?_eq_some_iff.mp hnext
    obtain ⟨_, s₁, hadvance, h⟩ := bind_eq_ok.mp h
    obtain ⟨rfl, rfl⟩ := pure_eq_ok.mp h
    exact ⟨us, .number, advance_sound hs hadvance⟩
  · obtain ⟨us, rfl⟩ := List.head?_eq_some_iff.mp hnext
    obtain ⟨_, s₁, hadvance, h⟩ := bind_eq_ok.mp h
    obtain ⟨rfl, rfl⟩ := pure_eq_ok.mp h
    exact ⟨us, .str, advance_sound hs hadvance⟩
  · obtain ⟨us, rest, rfl, hinner, hs'⟩ := parenthesized_sound hexpr hs hn h
    exact ⟨rest, .group hinner, hs'⟩
  · simp at h

end

section
variable {operand : Parse σ Expr} {phrase : Phrase Expr} (hopens : Opens opensExpression phrase)
  (hoperand : Reads n operand phrase)

/-- A number of tiers is enough for operators that bind less tightly than that number, since each
climb ends before a looser one than it began with. -/
theorem absorb_sound {climb : Nat → Expr → Parse σ Expr} {least : Nat}
    (hopens : Opens opensExpression phrase)
    (hclimb : ∀ q left, least ≤ q → q < 5 →
      Reads n (climb q left) (Chain phrase levels q levels left))
    {tiers : Nat} {right e : Expr} (hs : s.Holds ts failure) (hn : ts.length ≤ n)
    (htiers : Loose tiers ts) (h : absorb climb least tiers right s = .ok e s') :
    ∃ rest, Absorb phrase levels least right ts e rest ∧ s'.Holds rest failure := by
  induction tiers generalizing s ts right with
  | zero =>
    obtain ⟨rfl, rfl⟩ := pure_eq_ok.mp h
    exact ⟨ts, .stop (htiers.mono (Nat.zero_le _)), hs⟩
  | succ tiers ih =>
    rw [absorb] at h
    rcases nextOperator_cases hs least with ⟨hnext, hloose⟩ | ⟨op, us, rfl, htight, hnext⟩
    · rw [bind_of_ok hnext] at h
      obtain ⟨rfl, rfl⟩ := pure_eq_ok.mp h
      exact ⟨ts, .stop hloose, hs⟩
    · rw [bind_of_ok hnext] at h
      obtain ⟨middle, s₁, hmiddle, h⟩ := bind_eq_ok.mp h
      obtain ⟨vs, hchain, hs₁⟩ := hclimb _ right htight op.precedence_lt hs hn hmiddle
      have hlt : op.precedence ≤ tiers := Nat.le_of_lt_succ (htiers op us rfl)
      have hle := (hchain.suffix hopens).length_le
      obtain ⟨rest, hothers, hs'⟩ := ih hs₁ (Nat.le_trans hle hn) (hchain.loose.mono hlt) h
      exact ⟨rest, .step htight hchain hothers, hs'⟩

include hopens hoperand in
theorem chain_reads {climb : Nat → Expr → Parse σ Expr} {least : Nat}
    (hclimb : ∀ q left, least < q → q < 5 →
      Reads n (climb q left) (Chain phrase levels q levels left)) (room : Nat) (left : Expr) :
    Reads n (chain operand climb least room left) (Chain phrase levels least room left) := by
  induction room generalizing left with
  | zero =>
    intro s ts failure e s' hs hn h
    rw [chain] at h
    rcases nextOperator_cases hs least with ⟨hnext, hloose⟩ | ⟨op, us, rfl, htight, hnext⟩
    · rw [bind_of_ok hnext] at h
      obtain ⟨rfl, rfl⟩ := pure_eq_ok.mp h
      exact ⟨ts, .stop hloose, hs⟩
    · rw [bind_of_ok hnext] at h
      simp at h
  | succ room ih =>
    intro s ts failure e s' hs hn h
    rw [chain] at h
    rcases nextOperator_cases hs least with ⟨hnext, hloose⟩ | ⟨op, us, rfl, htight, hnext⟩
    · rw [bind_of_ok hnext] at h
      obtain ⟨rfl, rfl⟩ := pure_eq_ok.mp h
      exact ⟨ts, .stop hloose, hs⟩
    · rw [bind_of_ok hnext] at h
      obtain ⟨_, s₁, hadvance, h⟩ := bind_eq_ok.mp h
      obtain ⟨first, s₂, hfirst, h⟩ := bind_eq_ok.mp h
      obtain ⟨right, s₃, hright, h⟩ := bind_eq_ok.mp h
      simp only [List.length_cons] at hn
      obtain ⟨vs, hbegins, hs₂⟩ := hoperand (advance_sound hs hadvance) (by omega) hfirst
      have hvs := hopens.length_lt hbegins
      have hclimb' : ∀ q left, op.precedence + 1 ≤ q → q < 5 →
          Reads n (climb q left) (Chain phrase levels q levels left) :=
        fun q left hq => hclimb q left (by omega)
      obtain ⟨ws, habsorb, hs₃⟩ :=
        absorb_sound hopens hclimb' hs₂ (by omega) (loose_five vs) hright
      have hws := (habsorb.suffix hopens).length_le
      obtain ⟨rest, hothers, hs'⟩ := ih (.binary op left right) hs₃ (by omega) h
      exact ⟨rest, .step htight hbegins habsorb hothers, hs'⟩

include hopens hoperand in
/-- As many tiers as precedences from the least one on are enough. -/
theorem climb_reads {tiers least : Nat} (hleast : least < 5) (htiers : 5 ≤ least + tiers)
    (left : Expr) :
    Reads n (climb operand levels tiers least left) (Chain phrase levels least levels left) := by
  induction tiers generalizing least left with
  | zero => omega
  | succ tiers ih =>
    exact chain_reads hopens hoperand (fun q left hlt hq => ih hq (by omega) left) levels left

end

theorem expression_reads (hrounds : n ≤ rounds) (levels : Nat) :
    Reads n (expression rounds levels : Parse σ Expr) (ExpressionWithin levels) := by
  induction levels with
  | zero =>
    intro s ts failure e s' _ _ h
    simp [expression] at h
  | succ levels ih =>
    intro s ts failure e s' hs hn h
    have hopens := Operand.opens (opens_expressionWithin levels)
    have hprimary := primary_reads (opens_expressionWithin levels) ih hrounds
    obtain ⟨first, s₁, hfirst, h⟩ := bind_eq_ok.mp h
    obtain ⟨us, hbegins, hs₁⟩ := hprimary hs hn hfirst
    have hlt := hopens.length_lt hbegins
    split at h
    · next hassign =>
      obtain ⟨rfl, rfl⟩ := pure_eq_ok.mp h
      exact ⟨us, .assignment hbegins hassign, hs₁⟩
    · next hassign =>
      obtain ⟨rest, hchain, hs'⟩ :=
        climb_reads hopens hprimary (by decide) (by decide) first hs₁ (by omega) h
      exact ⟨rest, .chain hbegins (by simpa using hassign) hchain, hs'⟩

end Parse
end Sapling
