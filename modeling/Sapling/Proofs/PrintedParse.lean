import Sapling.Proofs.Grammar
import Sapling.Proofs.PrintedTokens
import Sapling.Proofs.ProgramComplete

/-!
# Reading the tokens of printed text

The tokens that a tree is printed as are read back as the tree if its numbers have no sign, no
assignment is a left operand and there are levels enough; otherwise they are not read at all.
Each half goes by recursion over the tree. An expression that stands alone is followed by a
closing mark, and its reading can stop before an operator only where an assignment is a left
operand. What stands behind an expression is always a mark, so that the whole is not read then.
-/
namespace Sapling

open Token Grammar

/-- The tokens that a node is printed as are read as the node. -/
def Node.isStable (strict : Bool) (n : Node) : Bool :=
  n.isUnsigned && n.isPlain && n.isStrict strict

theorem Node.isStable_iff {strict : Bool} {n : Node} :
    n.isStable strict = true ↔
      n.isUnsigned = true ∧ n.isPlain = true ∧ n.isStrict strict = true := by
  simp [isStable, and_assoc]

theorem Node.isStrict_define {strict : Bool} {name : String} {params : List String}
    {body : Block} :
    Node.isStrict strict (.stmt (.define name params body)) = true ↔
      (strict = true → params.Nodup) := by
  cases strict <;> simp [isStrict]

namespace Grammar

variable {α : Type} {expr : Phrase Expr} {levels : Nat} {e : Expr} {ts k : List Token}

/-- A name that comes before is neither called nor assigned to. -/
def Unapplied (ts : List Token) : Prop :=
  ts.head? ≠ some (.mark .assign) ∧ ts.head? ≠ some (.mark .leftParen)

inductive Ends : List Token → Prop
  | rightParen {ts : List Token} : Ends (.mark .rightParen :: ts)
  | semicolon {ts : List Token} : Ends (.mark .semicolon :: ts)
  | comma {ts : List Token} : Ends (.mark .comma :: ts)

theorem Ends.unapplied (h : Ends k) : Unapplied k := by
  cases h <;> simp [Unapplied]

theorem Ends.loose (h : Ends k) (least : Nat) : Loose least k := by
  rintro op us rfl
  cases h

theorem unapplied_operator (op : Operator) (ts : List Token) : Unapplied (.operator op :: ts) := by
  simp [Unapplied]

/-- The tokens that a printed expression can begin with: a signed number begins with `-`. -/
def opensPrinted (t : Token) : Bool :=
  opensExpression t || t == .operator .sub

theorem Literal.exists_tokens (value : Literal) :
    ∃ t us, value.tokens = t :: us ∧ opensPrinted t = true := by
  cases value with
  | str text => exact ⟨_, _, rfl, rfl⟩
  | number value =>
    cases value with
    | nan | infinite => exact ⟨_, _, rfl, rfl⟩
    | finite negative rank => cases negative <;> exact ⟨_, _, rfl, rfl⟩

theorem exists_tokens (e : Expr) (alone : Bool) :
    ∃ t us, e.tokens alone = t :: us ∧ opensPrinted t = true := by
  cases e with
  | literal value => exact Literal.exists_tokens value
  | «variable» name | call callee args => exact ⟨_, _, rfl, rfl⟩
  | assign target value => cases alone <;> exact ⟨_, _, rfl, rfl⟩
  | binary op left right =>
    cases alone with
    | false => exact ⟨_, _, rfl, rfl⟩
    | true =>
      obtain ⟨t, us, hleft, ht⟩ := exists_tokens left false
      exact ⟨t, us ++ .operator op :: right.tokens false, by simp [Expr.tokens, hleft], ht⟩

/-- A printed expression begins with none of the tokens that cannot begin one. -/
theorem head_tokens_ne (e : Expr) (alone : Bool) {t : Token} (ht : opensPrinted t = false) :
    (e.tokens alone ++ k).head? ≠ some t := by
  obtain ⟨t', us, htokens, ht'⟩ := exists_tokens e alone
  rw [htokens]
  rintro heq
  obtain rfl := Option.some.inj heq
  simp [ht'] at ht

theorem operand_inParens
    (h : expr (ts ++ .mark .rightParen :: k) e (.mark .rightParen :: k)) :
    Operand expr (inParens ts ++ k) e k := by
  have hgroup : Operand expr (.mark .leftParen :: (ts ++ .mark .rightParen :: k)) e k := .group h
  simpa [inParens] using hgroup

theorem expressionWithin_of_operand (h : Operand (ExpressionWithin levels) ts e k)
    (he : e.isAssign = false) (hk : Ends k) : ExpressionWithin (levels + 1) ts e k :=
  .chain h he (.stop (hk.loose 0))

theorem expressionWithin_binary {op : Operator} {left right : Expr} {us : List Token}
    (hleft : Operand (ExpressionWithin (levels + 1)) ts left (.operator op :: us))
    (hassign : left.isAssign = false)
    (hright : Operand (ExpressionWithin (levels + 1)) us right k) (hk : Ends k) :
    ExpressionWithin (levels + 2) ts (.binary op left right) k :=
  .chain hleft hassign
    (.step (Nat.zero_le _) hright (.stop (hk.loose _)) (.stop (hk.loose 0)))

theorem separated_listed {item : List α → Phrase α} {tokens : α → List Token} {as : List α}
    (hne : as ≠ []) (before : List α)
    (h : ∀ earlier a later, as = earlier ++ a :: later → ∀ k, Ends k →
      item (earlier.reverse ++ before) (tokens a ++ k) a k) :
    Separated item before (listed (as.map tokens) ++ .mark .rightParen :: k) as
      (.mark .rightParen :: k) := by
  induction as generalizing before with
  | nil => exact absurd rfl hne
  | cons a as ih =>
    have ha := h [] a as rfl
    cases as with
    | nil => exact .last (by simpa [listed] using ha _ .rightParen) (by simp)
    | cons b bs =>
      have hothers := ih (List.cons_ne_nil _ _) (a :: before) fun earlier b later heq k hk => by
        have hb := h (a :: earlier) b later (by rw [heq, List.cons_append]) k hk
        simpa using hb
      have hfirst := ha (.mark .comma :: (listed ((b :: bs).map tokens) ++ .mark .rightParen :: k))
        .comma
      have hlisted : listed ((a :: b :: bs).map tokens) ++ .mark .rightParen :: k =
          tokens a ++ .mark .comma ::
            (listed ((b :: bs).map tokens) ++ .mark .rightParen :: k) := by
        simp [listed]
      rw [hlisted]
      exact .more hfirst hothers

theorem listed_listed {item : List α → Phrase α} {tokens : α → List Token} {as : List α}
    (hhead : ∀ a ∈ as, ∀ k, (tokens a ++ k).head? ≠ some (.mark .rightParen))
    (h : ∀ earlier a later, as = earlier ++ a :: later → ∀ k, Ends k →
      item earlier.reverse (tokens a ++ k) a k) :
    Listed item (listed (as.map tokens) ++ .mark .rightParen :: k) as
      (.mark .rightParen :: k) := by
  cases as with
  | nil => exact .none
  | cons a as =>
    refine .some ?_ (separated_listed (List.cons_ne_nil _ _) [] (by simpa using h))
    rw [List.map_cons, Expr.listed_cons, List.append_assoc]
    exact hhead a List.mem_cons_self _

end Grammar

namespace Expr

/-- The tokens of the expression are read back as it, as an operand and alone. -/
structure ReadsBack (e : Expr) : Prop where
  operand : ∀ {levels : Nat} {k : List Token}, e.depth false ≤ levels → Unapplied k →
    Operand (ExpressionWithin levels) (e.tokens false ++ k) e k
  alone : ∀ {levels : Nat} {k : List Token}, e.depth true ≤ levels → Ends k →
    ExpressionWithin levels (e.tokens true ++ k) e k

theorem argTokens_eq_map (args : List Expr) :
    argTokens args = args.map fun arg => arg.tokens true := by
  induction args with
  | nil => rfl
  | cons arg args ih => rw [argTokens, ih, List.map_cons]

theorem depth_le_argsDepth {arg : Expr} {args : List Expr} (h : arg ∈ args) :
    arg.depth true ≤ argsDepth args := by
  induction args with
  | nil => simp at h
  | cons other args ih =>
    rw [argsDepth]
    rcases List.mem_cons.mp h with rfl | hmem
    · exact Nat.le_max_left _ _
    · exact Nat.le_trans (ih hmem) (Nat.le_max_right _ _)

/-- What is read back as an operand is read back alone, with one level more. -/
theorem ReadsBack.of_operand {e : Expr} (hassign : e.isAssign = false)
    (htokens : e.tokens true = e.tokens false) (hdepth : e.depth true = e.depth false + 1)
    (h : ∀ {levels : Nat} {k : List Token}, e.depth false ≤ levels → Unapplied k →
      Operand (ExpressionWithin levels) (e.tokens false ++ k) e k) : e.ReadsBack where
  operand := h
  alone {levels k} hlevels hk := by
    obtain ⟨levels, rfl⟩ := Nat.exists_eq_add_one_of_ne_zero (show levels ≠ 0 by omega)
    rw [htokens]
    exact expressionWithin_of_operand (h (by omega) hk.unapplied) hassign hk

/-- What is read back alone is read back in parentheses. -/
theorem ReadsBack.of_alone {e : Expr} (htokens : e.tokens false = inParens (e.tokens true))
    (hdepth : e.depth true = e.depth false)
    (h : ∀ {levels : Nat} {k : List Token}, e.depth true ≤ levels → Ends k →
      ExpressionWithin levels (e.tokens true ++ k) e k) : e.ReadsBack where
  operand hlevels _ := by
    rw [htokens]
    exact operand_inParens (h (by omega) .rightParen)
  alone := h

theorem Literal.operand {value : Literal} (h : Node.isUnsigned (.expr (.literal value)) = true)
    (levels : Nat) (k : List Token) :
    Operand (ExpressionWithin levels) (value.tokens ++ k) (.literal value) k := by
  cases value with
  | str text => exact .str
  | number value =>
    rcases Number.isUnsigned_iff.mp h with rfl | ⟨rank, rfl⟩
    · exact .number
    · exact .number

theorem ReadsBack.binary {op : Operator} {left right : Expr} (hleft : left.ReadsBack)
    (hright : right.ReadsBack) (hassign : left.isAssign = false) :
    (Expr.binary op left right).ReadsBack := by
  refine .of_alone rfl rfl fun {levels k} hlevels hk => ?_
  simp only [depth] at hlevels
  obtain ⟨levels, rfl⟩ : ∃ n, levels = n + 2 := ⟨levels - 2, by omega⟩
  have hr := hright.operand (show right.depth false ≤ levels + 1 by omega) hk.unapplied
  have happ := unapplied_operator op (right.tokens false ++ k)
  have hl := hleft.operand (show left.depth false ≤ levels + 1 by omega) happ
  have hbinary := expressionWithin_binary hl hassign hr hk
  simpa [tokens] using hbinary

theorem ReadsBack.assign {target : String} {value : Expr} (hvalue : value.ReadsBack) :
    (Expr.assign target value).ReadsBack := by
  refine .of_alone rfl rfl fun {levels k} hlevels hk => ?_
  simp only [depth] at hlevels
  obtain ⟨levels, rfl⟩ : ∃ n, levels = n + 1 := ⟨levels - 1, by omega⟩
  exact .assignment (.assign (hvalue.alone (by omega) hk)) rfl

theorem ReadsBack.call {callee : String} {args : List Expr}
    (hargs : ∀ arg ∈ args, arg.ReadsBack) : (Expr.call callee args).ReadsBack := by
  refine .of_operand rfl rfl (Nat.add_comm _ _) fun {levels k} hlevels _ => ?_
  have hlisted : Listed (fun _ => ExpressionWithin levels)
      (listed (argTokens args) ++ .mark .rightParen :: k) args (.mark .rightParen :: k) := by
    rw [argTokens_eq_map]
    refine listed_listed (fun arg _ k => head_tokens_ne arg true rfl) ?_
    rintro earlier arg later rfl k hk
    have hmem : arg ∈ earlier ++ arg :: later := by simp
    exact (hargs arg hmem).alone (Nat.le_trans (depth_le_argsDepth hmem) hlevels) hk
  simpa [tokens, inParens] using Operand.call hlisted

mutual

theorem readsBack {strict : Bool} {e : Expr} (h : e.all (Node.isStable strict) = true) :
    e.ReadsBack := by
  cases e with
  | literal value =>
    have hvalue := (Node.isStable_iff.mp h).1
    exact .of_operand rfl rfl rfl fun _ _ => Literal.operand hvalue _ _
  | «variable» name =>
    exact .of_operand rfl rfl rfl fun _ hk => .name hk.1 hk.2
  | binary op left right =>
    simp only [all, Bool.and_eq_true] at h
    have hassign : left.isAssign = false := by
      simpa [Node.isPlain] using (Node.isStable_iff.mp h.1.1).2.1
    exact .binary (readsBack h.1.2) (readsBack h.2) hassign
  | assign target value =>
    simp only [all, Bool.and_eq_true] at h
    exact .assign (readsBack h.2)
  | call callee args =>
    simp only [all, Bool.and_eq_true] at h
    exact .call (readsBack_args h.2)

theorem readsBack_args {strict : Bool} {args : List Expr}
    (h : allArgs (Node.isStable strict) args = true) : ∀ arg ∈ args, arg.ReadsBack := by
  cases args with
  | nil => simp
  | cons arg args =>
    simp only [allArgs, Bool.and_eq_true] at h
    rintro arg' (_ | ⟨_, hmem⟩)
    · exact readsBack h.1
    · exact readsBack_args h.2 arg' hmem

end

end Expr

namespace Grammar

variable {α : Type} {operand : Phrase Expr} {levels : Nat} {ts k k' : List Token}

theorem Chain.eq_of_ends {least room : Nat} {left e : Expr} (hk : Ends k)
    (h : Chain operand levels least room left k e k') : e = left ∧ k' = k := by
  cases h with
  | stop => exact ⟨rfl, rfl⟩
  | step => cases hk

theorem Absorb.eq_of_ends {least : Nat} {right e : Expr} (hk : Ends k)
    (h : Absorb operand levels least right k e k') : e = right ∧ k' = k := by
  cases h with
  | stop => exact ⟨rfl, rfl⟩
  | step => cases hk

theorem Separated.eq_of_listed {item : List α → Phrase α} {tokens : α → List Token}
    {fits : α → Prop} {before as bs : List α} (hne : as ≠ [])
    (h : ∀ before, ∀ a ∈ as, ∀ k b m us, Ends k →
      item before (tokens a ++ k) b (.mark m :: us) → fits a ∧ b = a ∧ .mark m :: us = k)
    (hs : Separated item before (listed (as.map tokens) ++ .mark .rightParen :: k) bs
      (.mark .rightParen :: k')) : (∀ a ∈ as, fits a) ∧ bs = as ∧ k' = k := by
  induction as generalizing before bs with
  | nil => exact absurd rfl hne
  | cons a as ih =>
    have ha := fun before => h before a List.mem_cons_self
    cases as with
    | nil =>
      have hlisted : listed ([a].map tokens) ++ .mark .rightParen :: k =
          tokens a ++ .mark .rightParen :: k := by
        simp [listed]
      rw [hlisted] at hs
      cases hs with
      | last only _ =>
        obtain ⟨hfits, rfl, hrest⟩ := ha _ _ _ _ _ .rightParen only
        exact ⟨by simpa using hfits, rfl, (List.cons.inj hrest).2⟩
      | more first _ =>
        have hrest := (ha _ _ _ _ _ .rightParen first).2.2
        simp at hrest
    | cons a' as =>
      have hlisted : listed ((a :: a' :: as).map tokens) ++ .mark .rightParen :: k =
          tokens a ++ .mark .comma ::
            (listed ((a' :: as).map tokens) ++ .mark .rightParen :: k) := by
        simp [listed]
      rw [hlisted] at hs
      cases hs with
      | last only _ =>
        have hrest := (ha _ _ _ _ _ .comma only).2.2
        simp at hrest
      | more first others =>
        obtain ⟨hfits, rfl, hrest⟩ := ha _ _ _ _ _ .comma first
        rw [(List.cons.inj hrest).2] at others
        obtain ⟨hall, rfl, rfl⟩ := ih (List.cons_ne_nil _ _)
          (fun before a' hmem => h before a' (List.mem_cons_of_mem _ hmem)) others
        refine ⟨?_, rfl, rfl⟩
        rintro c (_ | ⟨_, hmem⟩)
        · exact hfits
        · exact hall c hmem

theorem Listed.eq_of_listed {item : List α → Phrase α} {tokens : α → List Token}
    {fits : α → Prop} {as bs : List α}
    (hhead : ∀ a ∈ as, ∀ k, (tokens a ++ k).head? ≠ .some (.mark .rightParen))
    (h : ∀ before, ∀ a ∈ as, ∀ k b m us, Ends k →
      item before (tokens a ++ k) b (.mark m :: us) → fits a ∧ b = a ∧ .mark m :: us = k)
    (hl : Listed item (listed (as.map tokens) ++ .mark .rightParen :: k) bs
      (.mark .rightParen :: k')) : (∀ a ∈ as, fits a) ∧ bs = as ∧ k' = k := by
  cases as with
  | nil =>
    have hlisted : listed (([] : List α).map tokens) ++ .mark .rightParen :: k =
        .mark .rightParen :: k := rfl
    rw [hlisted] at hl
    cases hl with
    | none => simp
    | some start _ => exact absurd rfl start
  | cons a as =>
    generalize hts : listed ((a :: as).map tokens) ++ .mark .rightParen :: k = ts at hl
    cases hl with
    | none =>
      rw [List.map_cons, Expr.listed_cons, List.append_assoc] at hts
      have hfirst := hhead a List.mem_cons_self
        ((as.map tokens).flatMap (.mark .comma :: ·) ++ .mark .rightParen :: k)
      rw [hts] at hfirst
      exact absurd rfl hfirst
    | some _ items =>
      rw [← hts] at items
      exact Separated.eq_of_listed (List.cons_ne_nil _ _) h items

end Grammar

namespace Expr

variable {strict : Bool}

/-- The tokens of the expression can be read, as an operand or alone. -/
def Fits (strict alone : Bool) (levels : Nat) (e : Expr) : Prop :=
  e.all (Node.isStable strict) = true ∧ e.depth alone ≤ levels

/-- The tokens of the expression are read only if it fits, and only as it. -/
structure ReadsOnly (strict : Bool) (e : Expr) : Prop where
  operand : ∀ {levels : Nat} {k k' : List Token} {e' : Expr}, Unapplied k →
    Operand (ExpressionWithin levels) (e.tokens false ++ k) e' k' →
      e.Fits strict false levels ∧ e' = e ∧ k' = k
  alone : ∀ {levels : Nat} {k k' : List Token} {e' : Expr}, Ends k →
    ExpressionWithin levels (e.tokens true ++ k) e' k' →
      (e.Fits strict true levels ∧ e' = e ∧ k' = k) ∨ ∃ op us, k' = .operator op :: us

theorem ReadsOnly.closed {e e' : Expr} {levels : Nat} {m : Mark} {k us : List Token}
    (he : e.ReadsOnly strict) (hk : Ends k)
    (h : ExpressionWithin levels (e.tokens true ++ k) e' (.mark m :: us)) :
    e.Fits strict true levels ∧ e' = e ∧ .mark m :: us = k := by
  rcases he.alone hk h with hfits | ⟨op, vs, hrest⟩
  · exact hfits
  · simp at hrest

theorem ReadsOnly.of_operand {e : Expr} (hassign : e.isAssign = false)
    (htokens : e.tokens true = e.tokens false) (hdepth : e.depth true = e.depth false + 1)
    (h : ∀ {levels : Nat} {k k' : List Token} {e' : Expr}, Unapplied k →
      Operand (ExpressionWithin levels) (e.tokens false ++ k) e' k' →
        e.Fits strict false levels ∧ e' = e ∧ k' = k) : e.ReadsOnly strict where
  operand := h
  alone {levels k k' e'} hk he := by
    rw [htokens] at he
    cases levels with
    | zero => exact he.elim
    | succ levels =>
      cases he with
      | assignment only assigns =>
        obtain ⟨-, rfl, -⟩ := h hk.unapplied only
        simp [hassign] at assigns
      | chain begins _ others =>
        obtain ⟨hfits, rfl, rfl⟩ := h hk.unapplied begins
        obtain ⟨rfl, rfl⟩ := others.eq_of_ends hk
        exact .inl ⟨⟨hfits.1, by have := hfits.2; omega⟩, rfl, rfl⟩

theorem ReadsOnly.of_alone {e : Expr} (htokens : e.tokens false = inParens (e.tokens true))
    (hdepth : e.depth true = e.depth false)
    (h : ∀ {levels : Nat} {k k' : List Token} {e' : Expr}, Ends k →
      ExpressionWithin levels (e.tokens true ++ k) e' k' →
        (e.Fits strict true levels ∧ e' = e ∧ k' = k) ∨ ∃ op us, k' = .operator op :: us) :
    e.ReadsOnly strict where
  alone := h
  operand {levels k k' e'} _ he := by
    rw [htokens] at he
    simp only [inParens, List.cons_append, List.append_assoc, List.nil_append] at he
    cases he with
    | group inner =>
      rcases h .rightParen inner with ⟨hfits, rfl, hrest⟩ | ⟨op, us, hrest⟩
      · exact ⟨⟨hfits.1, by have := hfits.2; omega⟩, rfl, (List.cons.inj hrest).2⟩
      · simp at hrest

theorem Literal.readsOnly {value : Literal}
    (h : Node.isFaithful (.expr (.literal value)) = true) {levels : Nat} {k k' : List Token}
    {e : Expr} (he : Operand (ExpressionWithin levels) (value.tokens ++ k) e k') :
    (Expr.literal value).Fits strict false levels ∧ e = .literal value ∧ k' = k := by
  cases value with
  | str text =>
    cases he with
    | str => exact ⟨⟨rfl, Nat.zero_le _⟩, rfl, rfl⟩
  | number value =>
    cases value with
    | nan => simp [Node.isFaithful] at h
    | infinite negative =>
      obtain rfl : negative = false := by simpa [Node.isFaithful] using h
      cases he with
      | number => exact ⟨⟨rfl, Nat.zero_le _⟩, rfl, rfl⟩
    | finite negative rank =>
      cases negative with
      | true => cases he
      | false =>
        cases he with
        | number => exact ⟨⟨rfl, Nat.zero_le _⟩, rfl, rfl⟩

theorem fits_binary {op : Operator} {left right : Expr} {levels : Nat}
    (hleft : left.Fits strict false (levels + 1)) (hright : right.Fits strict false (levels + 1))
    (hassign : left.isAssign = false) :
    (Expr.binary op left right).Fits strict true (levels + 2) := by
  have hnode : Node.isStable strict (.expr (.binary op left right)) = true :=
    Node.isStable_iff.mpr ⟨rfl, by simp [Node.isPlain, hassign], rfl⟩
  have hl := hleft.2
  have hr := hright.2
  refine ⟨by simp [all, hnode, hleft.1, hright.1], ?_⟩
  simp only [depth]
  omega

theorem fits_assign {target : String} {value : Expr} {levels : Nat}
    (h : value.Fits strict true levels) :
    (Expr.assign target value).Fits strict true (levels + 1) := by
  refine ⟨h.1, ?_⟩
  rw [depth, Nat.add_comm]
  exact Nat.succ_le_succ h.2

theorem fits_args {args : List Expr} {levels : Nat}
    (h : ∀ arg ∈ args, arg.Fits strict true levels) :
    allArgs (Node.isStable strict) args = true ∧ argsDepth args ≤ levels := by
  induction args with
  | nil => exact ⟨rfl, Nat.zero_le _⟩
  | cons arg args ih =>
    have harg := h arg List.mem_cons_self
    have hargs := ih fun other hmem => h other (List.mem_cons_of_mem _ hmem)
    simp only [allArgs, argsDepth, Bool.and_eq_true]
    exact ⟨⟨harg.1, hargs.1⟩, Nat.max_le.mpr ⟨harg.2, hargs.2⟩⟩

theorem ReadsOnly.binary {op : Operator} {left right : Expr} (hleft : left.ReadsOnly strict)
    (hright : right.ReadsOnly strict) : (Expr.binary op left right).ReadsOnly strict := by
  refine .of_alone rfl rfl fun {levels k k' e'} hk he => ?_
  simp only [tokens, if_true, List.append_assoc, List.cons_append] at he
  cases levels with
  | zero => exact he.elim
  | succ levels =>
    cases he with
    | assignment only _ =>
      obtain ⟨-, rfl, rfl⟩ := hleft.operand (unapplied_operator op _) only
      exact .inr ⟨_, _, rfl⟩
    | chain begins assigns others =>
      obtain ⟨hfits, rfl, rfl⟩ := hleft.operand (unapplied_operator op _) begins
      cases others with
      | stop loose => exact absurd (loose op _ rfl) (Nat.not_lt_zero _)
      | step _ begins absorbed others =>
        obtain ⟨hfits', rfl, rfl⟩ := hright.operand hk.unapplied begins
        obtain ⟨rfl, rfl⟩ := absorbed.eq_of_ends hk
        obtain ⟨rfl, rfl⟩ := others.eq_of_ends hk
        exact .inl ⟨fits_binary hfits hfits' assigns, rfl, rfl⟩

theorem ReadsOnly.assign {target : String} {value : Expr} (hvalue : value.ReadsOnly strict) :
    (Expr.assign target value).ReadsOnly strict := by
  refine .of_alone rfl rfl fun {levels k k' e'} hk he => ?_
  simp only [tokens, if_true, List.cons_append] at he
  cases levels with
  | zero => exact he.elim
  | succ levels =>
    cases he with
    | assignment only _ =>
      cases only with
      | name notAssigned _ => exact absurd rfl notAssigned
      | assign value =>
        rcases hvalue.alone hk value with ⟨hfits, rfl, rfl⟩ | hoperator
        · exact .inl ⟨fits_assign hfits, rfl, rfl⟩
        · exact .inr hoperator
    | chain begins assigns _ =>
      cases begins with
      | name notAssigned _ => exact absurd rfl notAssigned
      | assign value => simp [isAssign] at assigns

theorem ReadsOnly.call {callee : String} {args : List Expr}
    (hargs : ∀ arg ∈ args, arg.ReadsOnly strict) : (Expr.call callee args).ReadsOnly strict := by
  refine .of_operand rfl rfl (Nat.add_comm _ _) fun {levels k k' e'} _ he => ?_
  simp only [tokens, inParens, List.cons_append, List.append_assoc, List.nil_append,
    argTokens_eq_map] at he
  cases he with
  | name _ notCalled => exact absurd rfl notCalled
  | call items =>
    obtain ⟨hfits, rfl, rfl⟩ := items.eq_of_listed
      (fun arg _ k => head_tokens_ne arg true rfl)
      (fun _ arg hmem _ _ _ _ hk harg => (hargs arg hmem).closed hk harg)
    exact ⟨fits_args hfits, rfl, rfl⟩

mutual

theorem readsOnly {e : Expr} (h : e.all Node.isFaithful = true) : e.ReadsOnly strict := by
  cases e with
  | literal value => exact .of_operand rfl rfl rfl fun _ => Literal.readsOnly h
  | «variable» name =>
    refine .of_operand rfl rfl rfl fun hk he => ?_
    cases he with
    | name => exact ⟨⟨rfl, Nat.zero_le _⟩, rfl, rfl⟩
    | assign => exact absurd rfl hk.1
    | call => exact absurd rfl hk.2
  | binary op left right =>
    simp only [all, Bool.and_eq_true] at h
    exact .binary (readsOnly h.1.2) (readsOnly h.2)
  | assign target value =>
    simp only [all, Bool.and_eq_true] at h
    exact .assign (readsOnly h.2)
  | call callee args =>
    simp only [all, Bool.and_eq_true] at h
    exact .call (readsOnly_args h.2)

theorem readsOnly_args {args : List Expr} (h : allArgs Node.isFaithful args = true) :
    ∀ arg ∈ args, arg.ReadsOnly strict := by
  cases args with
  | nil => simp
  | cons arg args =>
    simp only [allArgs, Bool.and_eq_true] at h
    rintro arg' (_ | ⟨_, hmem⟩)
    · exact readsOnly h.1
    · exact readsOnly_args h.2 arg' hmem

end

end Expr

namespace Stmt

section
variable {strict : Bool} {levels : Nat} {k : List Token}

/-- Statements end here: at the end of all or of a block. -/
inductive Over : List Token → Prop
  | nil : Over []
  | rightBrace {ts : List Token} : Over (.mark .rightBrace :: ts)

theorem Over.head_ne (h : Over k) : k.head? ≠ some (.keyword .elseWord) := by
  cases h <;> simp

theorem head_tokens_ne (stmt : Stmt) {t : Token}
    (ht : t = .mark .rightBrace ∨ t = .keyword .elseWord) :
    (stmt.tokens ++ k).head? ≠ some t := by
  cases stmt with
  | expression e =>
    rw [tokens, List.append_assoc]
    exact Grammar.head_tokens_ne e true (by rcases ht with rfl | rfl <;> rfl)
  | conditional condition yes no => cases no <;> rcases ht with rfl | rfl <;> simp [tokens]
  | loop | ret | define => rcases ht with rfl | rfl <;> simp [tokens]

theorem not_over_tokens (stmt : Stmt) : ¬Over (stmt.tokens ++ k) := by
  intro h
  generalize hts : stmt.tokens ++ k = ts at h
  cases h with
  | nil =>
    rw [List.append_eq_nil_iff] at hts
    cases stmt with
    | conditional condition yes no => cases no <;> simp [tokens] at hts
    | _ => simp [tokens] at hts
  | rightBrace => exact head_tokens_ne (k := k) stmt (.inl rfl) (by rw [hts]; rfl)

theorem head_tokensIn_ne (stmts : List Stmt) (hk : k.head? ≠ some (.keyword .elseWord)) :
    (tokensIn stmts ++ k).head? ≠ some (.keyword .elseWord) := by
  cases stmts with
  | nil => exact hk
  | cons stmt stmts =>
    rw [tokensIn, List.append_assoc]
    exact head_tokens_ne stmt (.inr rfl)

theorem blockWithin_inBraces {body : Block}
    (h : ∀ {levels : Nat}, depthIn body ≤ levels → ∀ {k : List Token},
      k.head? ≠ some (.keyword .elseWord) →
        Repeated (StatementWithin strict levels) (tokensIn body ++ k) body k)
    (hlevels : 1 + depthIn body ≤ levels) (k : List Token) :
    BlockWithin strict levels (inBraces (tokensIn body) ++ k) body k := by
  obtain ⟨levels, rfl⟩ : ∃ n, levels = n + 1 := ⟨levels - 1, by omega⟩
  have hover : Over (.mark .rightBrace :: k) := .rightBrace
  have hitems := h (show depthIn body ≤ levels by omega) hover.head_ne
  have hblock : BlockWithin strict (levels + 1)
      (.mark .leftBrace :: (tokensIn body ++ .mark .rightBrace :: k)) body k := .braces hitems
  simpa [inBraces] using hblock

theorem listed_params {params : List String} (h : strict = true → params.Nodup) :
    Listed (Parameter strict) (paramTokens params ++ .mark .rightParen :: k) params
      (.mark .rightParen :: k) := by
  refine listed_listed (fun _ _ _ => by simp) ?_
  rintro earlier name later rfl k -
  refine ⟨rfl, fun hs => ?_⟩
  have hnodup := h hs
  rw [List.nodup_append] at hnodup
  intro hmem
  exact hnodup.2.2 name (List.mem_reverse.mp hmem) name List.mem_cons_self rfl

theorem tokens_loop (condition : Expr) (body : Block) (k : List Token) :
    (loop condition body).tokens ++ k = .keyword .whileWord :: .mark .leftParen ::
      (condition.tokens true ++ .mark .rightParen :: (inBraces (tokensIn body) ++ k)) := by
  simp [tokens, inParens]

theorem tokens_conditional (condition : Expr) (yes : Block) (k : List Token) :
    (conditional condition yes none).tokens ++ k = .keyword .ifWord :: .mark .leftParen ::
      (condition.tokens true ++ .mark .rightParen :: (inBraces (tokensIn yes) ++ k)) := by
  simp [tokens, inParens]

theorem tokens_alternative (condition : Expr) (yes no : Block) (k : List Token) :
    (conditional condition yes (some no)).tokens ++ k = .keyword .ifWord :: .mark .leftParen ::
      (condition.tokens true ++ .mark .rightParen :: (inBraces (tokensIn yes) ++
        .keyword .elseWord :: (inBraces (tokensIn no) ++ k))) := by
  simp [tokens, inParens]

theorem tokens_define (name : String) (params : List String) (body : Block) (k : List Token) :
    (define name params body).tokens ++ k = .keyword .defWord :: .ident name ::
      .mark .leftParen :: (paramTokens params ++ .mark .rightParen ::
        (inBraces (tokensIn body) ++ k)) := by
  simp [tokens, inParens]

end

mutual

/-- The tokens of a statement are read back as it. -/
theorem readsBack {strict : Bool} {stmt : Stmt} (h : stmt.all (Node.isStable strict) = true)
    {levels : Nat} (hlevels : stmt.depth ≤ levels) {k : List Token}
    (hk : k.head? ≠ some (.keyword .elseWord)) :
    StatementWithin strict levels (stmt.tokens ++ k) stmt k := by
  cases stmt with
  | expression e =>
    simp only [all, Bool.and_eq_true] at h
    rw [tokens, List.append_assoc]
    exact .expression ((Expr.readsBack h.2).alone hlevels .semicolon)
  | ret value =>
    simp only [all, Bool.and_eq_true] at h
    rw [tokens, List.cons_append, List.append_assoc]
    exact .ret ((Expr.readsBack h.2).alone hlevels .semicolon)
  | loop condition body =>
    simp only [all, Bool.and_eq_true] at h
    obtain ⟨hcondition, hbody⟩ := Nat.max_le.mp hlevels
    rw [tokens_loop]
    exact .loop ((Expr.readsBack h.1.2).alone hcondition .rightParen)
      (blockWithin_inBraces (readsBack_in h.2) hbody k)
  | conditional condition yes no =>
    cases no with
    | none =>
      simp only [all, Bool.and_eq_true] at h
      obtain ⟨hcondition, hyes⟩ := Nat.max_le.mp hlevels
      rw [tokens_conditional]
      exact .conditional ((Expr.readsBack h.1.2).alone hcondition .rightParen)
        (blockWithin_inBraces (readsBack_in h.2) hyes k) hk
    | some no =>
      simp only [all, Bool.and_eq_true] at h
      obtain ⟨hcondition, hblocks⟩ := Nat.max_le.mp hlevels
      obtain ⟨hyes, hno⟩ := Nat.max_le.mp hblocks
      rw [tokens_alternative]
      exact .alternative ((Expr.readsBack h.1.1.2).alone hcondition .rightParen)
        (blockWithin_inBraces (readsBack_in h.1.2) hyes _)
        (blockWithin_inBraces (readsBack_in h.2) hno k)
  | define name params body =>
    simp only [all, Bool.and_eq_true] at h
    have hparams := Node.isStrict_define.mp (Node.isStable_iff.mp h.1).2.2
    rw [tokens_define]
    exact .define (listed_params hparams) (blockWithin_inBraces (readsBack_in h.2) hlevels k)

theorem readsBack_in {strict : Bool} {stmts : List Stmt}
    (h : allIn (Node.isStable strict) stmts = true) {levels : Nat}
    (hlevels : depthIn stmts ≤ levels) {k : List Token}
    (hk : k.head? ≠ some (.keyword .elseWord)) :
    Repeated (StatementWithin strict levels) (tokensIn stmts ++ k) stmts k := by
  cases stmts with
  | nil => exact .nil
  | cons stmt stmts =>
    simp only [allIn, Bool.and_eq_true] at h
    obtain ⟨hstmt, hstmts⟩ := Nat.max_le.mp hlevels
    rw [tokensIn, List.append_assoc]
    exact .cons (readsBack h.1 hstmt (head_tokensIn_ne stmts hk)) (readsBack_in h.2 hstmts hk)

end

end Stmt

namespace Grammar

/-- Parameters that are read strictly are all different. -/
theorem nodup_of_separated {before names : List String} {ts rest : List Token}
    (h : Separated (Parameter true) before ts names rest) :
    names.Nodup ∧ ∀ name ∈ names, name ∉ before := by
  induction h with
  | last only _ => simpa using only.2 rfl
  | more first _ ih =>
    have hfirst := first.2 rfl
    constructor
    · refine List.nodup_cons.mpr ⟨fun hmem => ?_, ih.1⟩
      exact ih.2 _ hmem List.mem_cons_self
    · rintro name (_ | ⟨_, hmem⟩)
      · exact hfirst
      · exact fun hbefore => ih.2 name hmem (List.mem_cons_of_mem _ hbefore)

theorem nodup_of_listed {strict : Bool} {names : List String} {ts rest : List Token}
    (h : Listed (Parameter strict) ts names rest) (hs : strict = true) : names.Nodup := by
  subst hs
  cases h with
  | none => exact List.nodup_nil
  | some _ items => exact (nodup_of_separated items).1

theorem not_expressionWithin_keyword {levels : Nat} {word : Keyword} {ts rest : List Token}
    {e : Expr} (h : ExpressionWithin levels (.keyword word :: ts) e rest) : False := by
  obtain ⟨t, us, heq, ht, -⟩ := opens_expressionWithin levels h
  obtain rfl := (List.cons.inj heq).1
  simp [opensExpression] at ht

end Grammar

namespace Stmt

variable {strict : Bool}

def Fits (strict : Bool) (levels : Nat) (stmt : Stmt) : Prop :=
  stmt.all (Node.isStable strict) = true ∧ stmt.depth ≤ levels

def FitsIn (strict : Bool) (levels : Nat) (stmts : List Stmt) : Prop :=
  allIn (Node.isStable strict) stmts = true ∧ depthIn stmts ≤ levels

/-- In braces the block is read only as it is, and only where a level is left for them. -/
def BracesReadOnly (strict : Bool) (body : Block) : Prop :=
  ∀ ⦃levels : Nat⦄ ⦃k k' : List Token⦄ ⦃b : Block⦄,
    BlockWithin strict levels (inBraces (tokensIn body) ++ k) b k' →
      (allIn (Node.isStable strict) body = true ∧ 1 + depthIn body ≤ levels) ∧ b = body ∧ k' = k

theorem bracesReadOnly {body : Block}
    (h : ∀ {levels : Nat} {k k' : List Token} {b : Block}, Over k → Over k' →
      Repeated (StatementWithin strict levels) (tokensIn body ++ k) b k' →
        FitsIn strict levels body ∧ b = body ∧ k' = k) : BracesReadOnly strict body := by
  intro levels k k' b hb
  cases levels with
  | zero => exact hb.elim
  | succ levels =>
    simp only [inBraces, List.cons_append, List.append_assoc, List.nil_append] at hb
    cases hb with
    | braces items =>
      obtain ⟨hfits, hb, hrest⟩ := h .rightBrace .rightBrace items
      refine ⟨⟨hfits.1, ?_⟩, hb, (List.cons.inj hrest).2⟩
      have hdepth := hfits.2
      omega
    | single start _ => exact absurd rfl start

theorem BracesReadOnly.guarded {condition c : Expr} {body b : Block} {levels : Nat}
    {k k' us : List Token} (hbody : BracesReadOnly strict body)
    (hcondition : condition.ReadsOnly strict)
    (hc : ExpressionWithin levels
      (condition.tokens true ++ .mark .rightParen :: (inBraces (tokensIn body) ++ k)) c
      (.mark .rightParen :: us))
    (hb : BlockWithin strict levels us b k') :
    (condition.Fits strict true levels ∧ allIn (Node.isStable strict) body = true ∧
      1 + depthIn body ≤ levels) ∧ c = condition ∧ b = body ∧ k' = k := by
  obtain ⟨hfits, rfl, hrest⟩ := hcondition.closed .rightParen hc
  rw [(List.cons.inj hrest).2] at hb
  obtain ⟨hblock, rfl, rfl⟩ := hbody hb
  exact ⟨⟨hfits, hblock⟩, rfl, rfl, rfl⟩

theorem eq_of_listed_params {params names : List String} {k k' : List Token}
    (h : Listed (Parameter strict) (paramTokens params ++ .mark .rightParen :: k) names
      (.mark .rightParen :: k')) :
    (strict = true → params.Nodup) ∧ names = params ∧ k' = k := by
  have hparam : ∀ before, ∀ name ∈ params, ∀ k name' m us, Ends k →
      Parameter strict before ([.ident name] ++ k) name' (.mark m :: us) →
        True ∧ name' = name ∧ .mark m :: us = k := by
    rintro before name - k name' m us - ⟨heq, -⟩
    obtain ⟨hname, hrest⟩ := List.cons.inj heq
    exact ⟨trivial, (Token.ident.inj hname).symm, hrest.symm⟩
  obtain ⟨-, rfl, rfl⟩ := h.eq_of_listed (fun _ _ _ => by simp) hparam
  exact ⟨nodup_of_listed h, rfl, rfl⟩

def ReadsOnly (strict : Bool) (stmt : Stmt) : Prop :=
  ∀ ⦃levels : Nat⦄ ⦃k k' : List Token⦄ ⦃s : Stmt⦄, k.head? ≠ some (.keyword .elseWord) →
    StatementWithin strict levels (stmt.tokens ++ k) s k' →
      stmt.Fits strict levels ∧ s = stmt ∧ k' = k

theorem ReadsOnly.expression {e : Expr} (he : e.ReadsOnly strict) :
    (Stmt.expression e).ReadsOnly strict := by
  intro levels k k' s _ hs
  have hhead : ∀ word us, e.tokens true ++ .mark .semicolon :: k ≠ .keyword word :: us := by
    intro word us heq
    have hne := Grammar.head_tokens_ne (k := .mark .semicolon :: k) e true
      (show opensPrinted (.keyword word) = false from rfl)
    exact hne (by rw [heq]; rfl)
  rw [tokens, List.append_assoc] at hs
  generalize hts : e.tokens true ++ ([.mark .semicolon] ++ k) = ts at hs
  cases hs with
  | expression value =>
    rw [← hts] at value
    obtain ⟨hfits, rfl, hrest⟩ := he.closed .semicolon value
    exact ⟨hfits, rfl, (List.cons.inj hrest).2⟩
  | ret | loop | conditional | alternative | define => exact absurd hts (hhead _ _)

theorem ReadsOnly.ret {value : Expr} (hvalue : value.ReadsOnly strict) :
    (Stmt.ret value).ReadsOnly strict := by
  intro levels k k' s _ hs
  rw [tokens, List.cons_append, List.append_assoc] at hs
  cases hs with
  | expression value => exact (not_expressionWithin_keyword value).elim
  | ret value =>
    obtain ⟨hfits, rfl, hrest⟩ := hvalue.closed .semicolon value
    exact ⟨hfits, rfl, (List.cons.inj hrest).2⟩

theorem ReadsOnly.loop {condition : Expr} {body : Block} (hcondition : condition.ReadsOnly strict)
    (hbody : BracesReadOnly strict body) : (Stmt.loop condition body).ReadsOnly strict := by
  intro levels k k' s _ hs
  rw [tokens_loop] at hs
  cases hs with
  | expression value => exact (not_expressionWithin_keyword value).elim
  | loop condition body =>
    obtain ⟨⟨hfits, hblock⟩, rfl, rfl, rfl⟩ := hbody.guarded hcondition condition body
    refine ⟨⟨?_, Nat.max_le.mpr ⟨hfits.2, hblock.2⟩⟩, rfl, rfl⟩
    simp [all, Node.isStable_iff, hfits.1, hblock.1, Node.isUnsigned, Node.isPlain,
      Node.isStrict]

theorem ReadsOnly.conditional {condition : Expr} {yes : Block}
    (hcondition : condition.ReadsOnly strict) (hyes : BracesReadOnly strict yes) :
    (Stmt.conditional condition yes none).ReadsOnly strict := by
  intro levels k k' s hk hs
  rw [tokens_conditional] at hs
  cases hs with
  | expression value => exact (not_expressionWithin_keyword value).elim
  | conditional condition taken _ =>
    obtain ⟨⟨hfits, hblock⟩, rfl, rfl, rfl⟩ := hyes.guarded hcondition condition taken
    refine ⟨⟨?_, Nat.max_le.mpr ⟨hfits.2, hblock.2⟩⟩, rfl, rfl⟩
    simp [all, Node.isStable_iff, hfits.1, hblock.1, Node.isUnsigned, Node.isPlain,
      Node.isStrict]
  | alternative condition taken _ =>
    obtain ⟨-, -, -, rfl⟩ := hyes.guarded hcondition condition taken
    exact absurd rfl hk

theorem ReadsOnly.alternative {condition : Expr} {yes no : Block}
    (hcondition : condition.ReadsOnly strict) (hyes : BracesReadOnly strict yes)
    (hno : BracesReadOnly strict no) :
    (Stmt.conditional condition yes (some no)).ReadsOnly strict := by
  intro levels k k' s _ hs
  rw [tokens_alternative] at hs
  cases hs with
  | expression value => exact (not_expressionWithin_keyword value).elim
  | conditional condition taken stop =>
    obtain ⟨-, -, -, rfl⟩ := hyes.guarded hcondition condition taken
    exact absurd rfl stop
  | alternative condition taken otherwise =>
    obtain ⟨⟨hfits, hblock⟩, rfl, rfl, hrest⟩ := hyes.guarded hcondition condition taken
    rw [(List.cons.inj hrest).2] at otherwise
    obtain ⟨hblock', rfl, rfl⟩ := hno otherwise
    have hdepth := Nat.max_le.mpr ⟨hblock.2, hblock'.2⟩
    refine ⟨⟨?_, Nat.max_le.mpr ⟨hfits.2, hdepth⟩⟩, rfl, rfl⟩
    simp [all, Node.isStable_iff, hfits.1, hblock.1, hblock'.1, Node.isUnsigned,
      Node.isPlain, Node.isStrict]

theorem ReadsOnly.define {name : String} {params : List String} {body : Block}
    (hbody : BracesReadOnly strict body) : (Stmt.define name params body).ReadsOnly strict := by
  intro levels k k' s _ hs
  rw [tokens_define] at hs
  cases hs with
  | expression value => exact (not_expressionWithin_keyword value).elim
  | define items body =>
    obtain ⟨hnodup, rfl, rfl⟩ := eq_of_listed_params items
    obtain ⟨hblock, rfl, rfl⟩ := hbody body
    refine ⟨⟨?_, hblock.2⟩, rfl, rfl⟩
    simp [all, Node.isStable_iff, hblock.1, Node.isStrict_define.mpr hnodup, Node.isUnsigned,
      Node.isPlain]

mutual

theorem readsOnly {stmt : Stmt} (h : stmt.all Node.isFaithful = true) :
    stmt.ReadsOnly strict := by
  cases stmt with
  | expression e =>
    simp only [all, Bool.and_eq_true] at h
    exact .expression (Expr.readsOnly h.2)
  | ret value =>
    simp only [all, Bool.and_eq_true] at h
    exact .ret (Expr.readsOnly h.2)
  | loop condition body =>
    simp only [all, Bool.and_eq_true] at h
    exact .loop (Expr.readsOnly h.1.2) (bracesReadOnly (readsOnly_in h.2))
  | conditional condition yes no =>
    cases no with
    | none =>
      simp only [all, Bool.and_eq_true] at h
      exact .conditional (Expr.readsOnly h.1.2) (bracesReadOnly (readsOnly_in h.2))
    | some no =>
      simp only [all, Bool.and_eq_true] at h
      exact .alternative (Expr.readsOnly h.1.1.2) (bracesReadOnly (readsOnly_in h.1.2))
        (bracesReadOnly (readsOnly_in h.2))
  | define name params body =>
    simp only [all, Bool.and_eq_true] at h
    exact .define (bracesReadOnly (readsOnly_in h.2))

theorem readsOnly_in {stmts : List Stmt} (h : allIn Node.isFaithful stmts = true)
    {levels : Nat} {k k' : List Token} {b : Block} (hk : Over k) (hk' : Over k')
    (hb : Repeated (StatementWithin strict levels) (tokensIn stmts ++ k) b k') :
    FitsIn strict levels stmts ∧ b = stmts ∧ k' = k := by
  cases stmts with
  | nil =>
    cases hb with
    | nil => exact ⟨⟨rfl, Nat.zero_le _⟩, rfl, rfl⟩
    | cons first _ =>
      obtain ⟨t, us, rfl, ht, -⟩ := opens_statementWithin strict levels first
      cases hk
      simp [opensStatement, opensExpression] at ht
  | cons stmt stmts =>
    simp only [allIn, Bool.and_eq_true] at h
    rw [tokensIn, List.append_assoc] at hb
    generalize hts : stmt.tokens ++ (tokensIn stmts ++ k) = ts at hb
    cases hb with
    | nil => exact absurd (hts ▸ hk') (not_over_tokens stmt)
    | cons first others =>
      rw [← hts] at first
      obtain ⟨hstmt, rfl, rfl⟩ := readsOnly h.1 (head_tokensIn_ne stmts hk.head_ne) first
      obtain ⟨hstmts, rfl, rfl⟩ := readsOnly_in h.2 hk hk' others
      refine ⟨⟨by simp [allIn, hstmt.1, hstmts.1], Nat.max_le.mpr ⟨hstmt.2, hstmts.2⟩⟩, rfl, rfl⟩

end

end Stmt

def Block.Fits (options : ParseOptions) (program : Block) : Prop :=
  Stmt.FitsIn options.strictParams options.maxDepth program

/-- The tokens that a program is printed as are read only as it, and only if it fits. -/
theorem Grammar.program_tokens_iff {options : ParseOptions} {program read : Block}
    (h : Stmt.allIn Node.isFaithful program = true) :
    Program options program.tokens read ↔ program.Fits options ∧ read = program := by
  constructor
  · intro hread
    have hp : Repeated (StatementWithin options.strictParams options.maxDepth)
        (Stmt.tokensIn program ++ []) read [] := by
      rwa [List.append_nil]
    obtain ⟨hfits, rfl, -⟩ := Stmt.readsOnly_in h .nil .nil hp
    exact ⟨hfits, rfl⟩
  · rintro ⟨hfits, rfl⟩
    have hp := Stmt.readsBack_in hfits.1 hfits.2 (Stmt.Over.nil).head_ne
    rwa [List.append_nil] at hp

/-- Only a program with equal tokens is read from the printed text of one that is spelled well. -/
theorem parse_print_iff {options : ParseOptions} {program read : Block}
    (hspelled : Stmt.allIn Node.isSpelled program = true)
    (hfaithful : Stmt.allIn Node.isFaithful program = true) (layout : Layout) :
    parse options (program.print layout) = .ok read ↔ program.Fits options ∧ read = program := by
  rw [← Grammar.program_tokens_iff hfaithful]
  have hprint := Block.supplies_print hspelled layout
  constructor
  · intro h
    obtain ⟨ts, hts, hread⟩ := parseFrom_eq_ok_iff.mp h
    rwa [hts.unique hprint] at hread
  · exact fun hread => parseFrom_eq_ok_iff.mpr ⟨_, hprint, hread⟩

end Sapling
