import Sapling.Proofs.ExpressionSound

/-!
# Grouping by precedence

The chains of the grammar are climbs: a chain takes operators that bind tightly enough, and the
right operand of each is absorbed by chains of tighter ones. `Grouped` says what comes of this
without a climb: the loosest operator stands at the top of the tree, of several equally loose ones
the last, and the operators on either side of it are grouped the same way. A chain reads the
operands one after another and groups them (`Chain.exists_grouped`), and where there are levels
enough, operands that can be read one after another are a chain (`Operations.chain`).
-/
namespace Sapling.Grammar

/-- The tree of a first operand and of operators with their right operands. -/
inductive Grouped : Expr → List (Operator × Expr) → Expr → Prop
  | alone {e : Expr} : Grouped e [] e
  | split {first operand left right : Expr} {op : Operator}
      {before after : List (Operator × Expr)}
      (loosest : ∀ x ∈ before, op.precedence ≤ x.1.precedence)
      (last : ∀ x ∈ after, op.precedence < x.1.precedence)
      (lefts : Grouped first before left) (rights : Grouped operand after right) :
      Grouped first (before ++ (op, operand) :: after) (.binary op left right)

theorem split_unique {before after before' after' : List (Operator × Expr)}
    {x x' : Operator × Expr} (heq : before ++ x :: after = before' ++ x' :: after')
    (hbefore : ∀ y ∈ before, x.1.precedence ≤ y.1.precedence)
    (hafter : ∀ y ∈ after, x.1.precedence < y.1.precedence)
    (hbefore' : ∀ y ∈ before', x'.1.precedence ≤ y.1.precedence)
    (hafter' : ∀ y ∈ after', x'.1.precedence < y.1.precedence) :
    before = before' ∧ x = x' ∧ after = after' := by
  rcases List.append_eq_append_iff.mp heq with ⟨between, rfl, hrest⟩ | ⟨between, rfl, hrest⟩
  · cases between with
    | nil =>
      obtain ⟨hx, hrest⟩ := List.cons.inj hrest
      exact ⟨by simp, hx, hrest⟩
    | cons y between =>
      obtain ⟨rfl, rfl⟩ := List.cons.inj hrest
      have hle := hbefore' x (by simp)
      have hlt := hafter x' (by simp)
      omega
  · cases between with
    | nil =>
      obtain ⟨hx, hrest⟩ := List.cons.inj hrest
      exact ⟨by simp, hx.symm, hrest.symm⟩
    | cons y between =>
      obtain ⟨rfl, rfl⟩ := List.cons.inj hrest
      have hle := hbefore x' (by simp)
      have hlt := hafter' x (by simp)
      omega

theorem Grouped.unique {first e e' : Expr} {ops : List (Operator × Expr)}
    (h : Grouped first ops e) (h' : Grouped first ops e') : e = e' := by
  induction h generalizing e' with
  | alone =>
    generalize hops : ([] : List (Operator × Expr)) = ops at h'
    cases h' with
    | alone => rfl
    | split => simp at hops
  | @split first operand left right op before after loosest last _ _ ihl ihr =>
    generalize hops : before ++ (op, operand) :: after = ops at h'
    cases h' with
    | alone => simp at hops
    | split loosest' last' lefts' rights' =>
      obtain ⟨rfl, hx, rfl⟩ := split_unique hops loosest last loosest' last'
      obtain ⟨rfl, rfl⟩ := Prod.mk.inj hx
      rw [ihl lefts', ihr rights']

theorem exists_loosest {ops : List (Operator × Expr)} (hne : ops ≠ []) :
    ∃ before x after, ops = before ++ x :: after ∧
      (∀ y ∈ before, x.1.precedence ≤ y.1.precedence) ∧
      ∀ y ∈ after, x.1.precedence < y.1.precedence := by
  induction ops with
  | nil => exact absurd rfl hne
  | cons x ops ih =>
    by_cases hops : ops = []
    · exact ⟨[], x, [], by simp [hops], by simp, by simp⟩
    · obtain ⟨before, y, after, rfl, hbefore, hafter⟩ := ih hops
      by_cases hxy : x.1.precedence < y.1.precedence
      · refine ⟨[], x, before ++ y :: after, rfl, by simp, fun z hz => ?_⟩
        rcases List.mem_append.mp hz with hz | hz
        · exact Nat.lt_of_lt_of_le hxy (hbefore z hz)
        · rcases List.mem_cons.mp hz with rfl | hz
          · exact hxy
          · exact Nat.lt_trans hxy (hafter z hz)
      · refine ⟨x :: before, y, after, rfl, fun z hz => ?_, hafter⟩
        rcases List.mem_cons.mp hz with rfl | hz
        · exact Nat.le_of_not_lt hxy
        · exact hbefore z hz

/-- Any operators with operands can be grouped. -/
theorem exists_grouped (first : Expr) (ops : List (Operator × Expr)) :
    ∃ e, Grouped first ops e := by
  induction hn : ops.length using Nat.strongRecOn generalizing first ops with
  | ind n ih =>
    by_cases hops : ops = []
    · subst hops
      exact ⟨first, .alone⟩
    · obtain ⟨before, ⟨op, operand⟩, after, rfl, hbefore, hafter⟩ := exists_loosest hops
      simp only [List.length_append, List.length_cons] at hn
      obtain ⟨left, hleft⟩ := ih before.length (by omega) first before rfl
      obtain ⟨right, hright⟩ := ih after.length (by omega) operand after rfl
      exact ⟨_, .split hbefore hafter hleft hright⟩

theorem Grouped.isAssign {first e : Expr} {ops : List (Operator × Expr)}
    (h : Grouped first ops e) (hfirst : first.isAssign = false) : e.isAssign = false := by
  cases h with
  | alone => exact hfirst
  | split => rfl

/-- Operators with their right operands, taken one by one. -/
inductive Operations (operand : Phrase Expr) : Phrase (List (Operator × Expr))
  | nil {rest : List Token} : Operations operand rest [] rest
  | cons {op : Operator} {e : Expr} {ts us rest : List Token} {ops : List (Operator × Expr)}
      (begins : operand ts e us) (others : Operations operand us ops rest) :
      Operations operand (.operator op :: ts) ((op, e) :: ops) rest

variable {operand : Phrase Expr} {levels least : Nat} {ts us rest : List Token}
  {ops ops' : List (Operator × Expr)}

theorem Operations.append (h : Operations operand ts ops us)
    (h' : Operations operand us ops' rest) : Operations operand ts (ops ++ ops') rest := by
  induction h with
  | nil => exact h'
  | cons begins _ ih => exact .cons begins (ih h')

theorem Operations.eq_nil (h : Operations operand ts ops rest) (hloose : Loose 0 ts) :
    ops = [] ∧ ts = rest := by
  cases h with
  | nil => exact ⟨rfl, rfl⟩
  | cons => exact absurd (hloose _ _ rfl) (Nat.not_lt_zero _)

/-- A left operand, with whatever operators have been grouped in it, goes on to `e` by operators
that bind at least as tightly as `least`. The operators that follow bind no tighter than any
before them. -/
structure Joins (least : Nat) (left : Expr) (ts : List Token) (ops : List (Operator × Expr))
    (e : Expr) (rest : List Token) : Prop where
  tight : ∀ x ∈ ops, least ≤ x.1.precedence
  grouped : ∀ {first : Expr} {before : List (Operator × Expr)}, Grouped first before left →
    (∀ x ∈ before, Loose (x.1.precedence + 1) ts) → Grouped first (before ++ ops) e
  falls : ∀ p, Loose p ts → Loose p rest
  behind : ∀ x ∈ ops, Loose (x.1.precedence + 1) rest

theorem Joins.stop (least : Nat) (left : Expr) (ts : List Token) :
    Joins least left ts [] left ts where
  tight := by simp
  grouped h _ := by simpa using h
  falls _ h := h
  behind := by simp

theorem Joins.trans {left middle e : Expr} (h : Joins least left ts ops middle us)
    (h' : Joins least middle us ops' e rest) : Joins least left ts (ops ++ ops') e rest where
  tight x hx := (List.mem_append.mp hx).elim (h.tight x) (h'.tight x)
  grouped {first before} hleft hbefore := by
    rw [← List.append_assoc]
    refine h'.grouped (h.grouped hleft hbefore) fun x hx => ?_
    rcases List.mem_append.mp hx with hx | hx
    · exact h.falls _ (hbefore x hx)
    · exact h.behind x hx
  falls p hp := h'.falls p (h.falls p hp)
  behind x hx := (List.mem_append.mp hx).elim (fun hx => h'.falls _ (h.behind x hx)) (h'.behind x)

theorem Joins.mono {least' : Nat} {left e : Expr} (h : Joins least left ts ops e rest)
    (hle : least' ≤ least) : Joins least' left ts ops e rest :=
  { h with tight := fun x hx => Nat.le_trans hle (h.tight x hx) }

/-- An operator joins the left operand to a right one that has absorbed all tighter operators. -/
theorem Joins.binary {left first right : Expr} {op : Operator} (tight : least ≤ op.precedence)
    (absorbed : Joins (op.precedence + 1) first us ops right rest)
    (hloose : Loose (op.precedence + 1) rest) :
    Joins least left (.operator op :: ts) ((op, first) :: ops) (.binary op left right) rest where
  tight x hx := by
    rcases List.mem_cons.mp hx with rfl | hx
    · exact tight
    · have := absorbed.tight x hx
      omega
  grouped {f before} hleft hbefore := by
    have hright := absorbed.grouped .alone (by simp)
    refine .split (fun x hx => ?_) absorbed.tight hleft hright
    have := hbefore x hx op ts rfl
    omega
  falls p hp := hloose.mono (hp op ts rfl)
  behind x hx := by
    rcases List.mem_cons.mp hx with rfl | hx
    · exact hloose
    · exact absorbed.behind x hx

mutual

theorem Chain.exists_operations {least room : Nat} {left e : Expr} {ts rest : List Token} :
    Chain operand levels least room left ts e rest →
      ∃ ops, Operations operand ts ops rest ∧ Joins least left ts ops e rest
  | .stop _ => ⟨[], .nil, .stop _ _ _⟩
  | .step tight begins absorbed others => by
    obtain ⟨ops, hops, hjoins⟩ := absorbed.exists_operations
    obtain ⟨ops', hops', hjoins'⟩ := others.exists_operations
    exact ⟨_, (Operations.cons begins hops).append hops',
      (Joins.binary tight hjoins absorbed.loose).trans hjoins'⟩

theorem Absorb.exists_operations {least : Nat} {right e : Expr} {ts rest : List Token} :
    Absorb operand levels least right ts e rest →
      ∃ ops, Operations operand ts ops rest ∧ Joins least right ts ops e rest
  | .stop _ => ⟨[], .nil, .stop _ _ _⟩
  | .step tight chain others => by
    obtain ⟨ops, hops, hjoins⟩ := chain.exists_operations
    obtain ⟨ops', hops', hjoins'⟩ := others.exists_operations
    exact ⟨_, hops.append hops', (hjoins.mono tight).trans hjoins'⟩

end

/-- A chain is operands one after another, grouped by precedence. -/
theorem Chain.exists_grouped {room : Nat} {first e : Expr}
    (h : Chain operand levels least room first ts e rest) :
    ∃ ops, Operations operand ts ops rest ∧ Grouped first ops e := by
  obtain ⟨ops, hops, hjoins⟩ := h.exists_operations
  exact ⟨ops, hops, hjoins.grouped .alone (by simp)⟩

/-- A phrase takes the first of the operations and leaves the others. -/
def Takes (phrase : Phrase Expr) (operand : Phrase Expr) (least : Nat) (left : Expr)
    (ts : List Token) (ops : List (Operator × Expr)) (rest : List Token) : Prop :=
  ∃ e us taken others, ops = taken ++ others ∧ phrase ts e us ∧
    Joins least left ts taken e us ∧ Operations operand us others rest

theorem takes_chain {n room : Nat} (least : Nat) (left : Expr) (hops : Operations operand ts ops rest)
    (hloose : Loose 0 rest) (hn : ops.length = n) (hroom : n ≤ room)
    (habsorb : ∀ {ts rest : List Token} {ops : List (Operator × Expr)} (least : Nat)
      (right : Expr), Operations operand ts ops rest → Loose 0 rest → ops.length < n →
        Takes (Absorb operand levels least right) operand least right ts ops rest) :
    Takes (Chain operand levels least room left) operand least left ts ops rest := by
  induction n using Nat.strongRecOn generalizing ts ops rest room left with
  | ind n ih =>
    cases hops with
    | nil =>
      exact ⟨left, ts, [], [], rfl, .stop (hloose.mono (Nat.zero_le _)), .stop _ _ _, .nil⟩
    | @cons op first ts us _ ops begins others =>
      by_cases htight : least ≤ op.precedence
      · simp only [List.length_cons] at hn
        obtain ⟨room, rfl⟩ := Nat.exists_eq_add_one_of_ne_zero (n := room) (by omega)
        obtain ⟨right, vs, taken, ops, rfl, habsorbed, hjoins, hops⟩ :=
          habsorb (op.precedence + 1) first others hloose (by omega)
        simp only [List.length_append] at hn
        obtain ⟨e, ws, taken', ops, rfl, hothers, hjoins', hops⟩ :=
          ih ops.length (by omega) (.binary op left right) hops hloose rfl
            (Nat.le_trans (Nat.le_add_left _ _) (Nat.le_of_succ_le_succ (hn ▸ hroom)))
            fun least right hops hloose hlt => habsorb least right hops hloose (by omega)
        refine ⟨e, ws, (op, first) :: taken ++ taken', ops, by simp,
          .step htight begins habsorbed hothers, ?_, hops⟩
        exact (Joins.binary htight hjoins habsorbed.loose).trans hjoins'
      · refine ⟨left, _, [], _, rfl, .stop ?_, .stop _ _ _, .cons begins others⟩
        rintro _ _ ⟨⟩
        omega

theorem takes_absorb {right : Expr} (hops : Operations operand ts ops rest)
    (hloose : Loose 0 rest) (hlevels : ops.length ≤ levels) :
    Takes (Absorb operand levels least right) operand least right ts ops rest := by
  induction hn : ops.length using Nat.strongRecOn generalizing ts ops rest least right with
  | ind n ih =>
    cases hops with
    | nil =>
      exact ⟨right, ts, [], [], rfl, .stop (hloose.mono (Nat.zero_le _)), .stop _ _ _, .nil⟩
    | @cons op first ts us _ ops begins others =>
      by_cases htight : least ≤ op.precedence
      · obtain ⟨middle, vs, taken, ops', hsplit, hchain, hjoins, hops⟩ :=
          takes_chain op.precedence right (.cons begins others) hloose hn
            (hn ▸ hlevels) fun least right hops hloose hlt =>
              ih _ hlt hops hloose (by omega) rfl
        have hlength := congrArg List.length hsplit
        simp only [List.length_append] at hlength
        -- The chain takes at least the operator that it begins with.
        have htaken : taken ≠ [] := by
          rintro rfl
          obtain rfl : (op, first) :: ops = ops' := by simpa using hsplit
          cases hops with
          | cons => exact absurd (hchain.loose _ _ rfl) (Nat.lt_irrefl _)
        have hpos := List.length_pos_iff.mpr htaken
        obtain ⟨e, ws, taken', ops'', rfl, hothers, hjoins', hops⟩ :=
          ih ops'.length (by omega) hops hloose (by omega) rfl
        refine ⟨e, ws, taken ++ taken', ops'', by simp [hsplit], ?_,
          (hjoins.mono htight).trans hjoins', hops⟩
        exact .step htight hchain hothers
      · refine ⟨right, _, [], _, rfl, .stop ?_, .stop _ _ _, .cons begins others⟩
        rintro _ _ ⟨⟩
        omega

/-- Operands one after another are a chain if there are as many levels as operators. -/
theorem Operations.chain {first e : Expr} (hops : Operations operand ts ops rest)
    (hloose : Loose 0 rest) (hlevels : ops.length ≤ levels) (hgrouped : Grouped first ops e) :
    Chain operand levels 0 levels first ts e rest := by
  obtain ⟨e', us, taken, others, rfl, hchain, hjoins, hothers⟩ :=
    takes_chain 0 first hops hloose rfl hlevels
      fun _ _ hops hloose hlt => takes_absorb hops hloose (Nat.le_trans (Nat.le_of_lt hlt) hlevels)
  obtain ⟨rfl, rfl⟩ := hothers.eq_nil hchain.loose
  have hgrouped' := hjoins.grouped .alone (by simp)
  obtain rfl : e = e' := hgrouped.unique (by simpa using hgrouped')
  exact hchain

end Sapling.Grammar
