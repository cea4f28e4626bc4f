import Sapling.Proofs.Grouping

/-!
# Derivations

The rules of the grammar for lists of tokens, without any lookahead. A derivation may be ambiguous
in two ways: an `else` can belong to more than one `if`, and an assignment in front of an operator
can end or go on. Each rule gives the tree of its tokens and tells whether they end openly, that
is whether an operator (behind an expression) or an `else` (behind a statement) would go on with
what they end with. A derivation is settled if nothing that ends openly is followed by such a
token: each `else` belongs to the nearest open `if`, and each value of an assignment extends as far
to the right as it can. Whatever can be derived has a settled derivation
(`Program.exists_settled`).
-/
namespace Sapling.Derivation

open Grammar

section
variable (settled : Bool)

mutual

inductive Operand : List Token → Expr → (openly : Bool) → Prop
  | name {name : String} : Operand [.ident name] (.variable name) false
  | number {value : Number} : Operand [.number value] (.literal (.number value)) false
  | str {text : String} : Operand [.str text] (.literal (.str text)) false
  | group {ts : List Token} {e : Expr} {openly : Bool} (inner : Expression ts e openly) :
      Operand (.mark .leftParen :: (ts ++ [.mark .rightParen])) e false
  | assign {name : String} {ts : List Token} {e : Expr} {openly : Bool}
      (value : Expression ts e openly) :
      Operand (.ident name :: .mark .assign :: ts) (.assign name e) openly
  | call {name : String} {ts : List Token} {args : List Expr} (items : Arguments ts args) :
      Operand (.ident name :: .mark .leftParen :: (ts ++ [.mark .rightParen])) (.call name args)
        false

/-- An operand that is an assignment, or operands with operators between them of which the first
is no assignment. -/
inductive Expression : List Token → Expr → (openly : Bool) → Prop
  | assignment {ts : List Token} {e : Expr} {openly : Bool} (only : Operand ts e openly)
      (assigns : e.isAssign = true) : Expression ts e openly
  | operators {ts us : List Token} {first e : Expr} {ops : List (Operator × Expr)}
      {openly : Bool} (begins : Operand ts first openly) (assigns : first.isAssign = false)
      (others : Operators us ops) (grouped : Grouped first ops e) : Expression (ts ++ us) e true

inductive Operators : List Token → List (Operator × Expr) → Prop
  | nil : Operators [] []
  | cons {op : Operator} {ts us : List Token} {e : Expr} {ops : List (Operator × Expr)}
      {openly : Bool} (operand : Operand ts e openly) (others : Operators us ops)
      (furthest : settled = true → openly = true → us = []) :
      Operators (.operator op :: (ts ++ us)) ((op, e) :: ops)

inductive Arguments : List Token → List Expr → Prop
  | none : Arguments [] []
  | some {ts : List Token} {args : List Expr} (items : Items ts args) : Arguments ts args

inductive Items : List Token → List Expr → Prop
  | last {ts : List Token} {e : Expr} {openly : Bool} (only : Expression ts e openly) :
      Items ts [e]
  | more {ts us : List Token} {e : Expr} {es : List Expr} {openly : Bool}
      (first : Expression ts e openly) (others : Items us es) :
      Items (ts ++ .mark .comma :: us) (e :: es)

end

inductive Names : List Token → List String → Prop
  | last {name : String} : Names [.ident name] [name]
  | more {name : String} {ts : List Token} {names : List String} (others : Names ts names) :
      Names (.ident name :: .mark .comma :: ts) (name :: names)

inductive Parameters : List Token → List String → Prop
  | none : Parameters [] []
  | some {ts : List Token} {names : List String} (items : Names ts names) : Parameters ts names

mutual

inductive Statement : List Token → Stmt → (openly : Bool) → Prop
  | expression {ts : List Token} {e : Expr} {openly : Bool}
      (value : Expression settled ts e openly) :
      Statement (ts ++ [.mark .semicolon]) (.expression e) false
  | ret {ts : List Token} {e : Expr} {openly : Bool} (value : Expression settled ts e openly) :
      Statement (.keyword .returnWord :: (ts ++ [.mark .semicolon])) (.ret e) false
  | loop {ts us : List Token} {c : Expr} {b : List Stmt} {openly openly' : Bool}
      (condition : Expression settled ts c openly) (body : Block us b openly') :
      Statement (.keyword .whileWord :: .mark .leftParen :: (ts ++ .mark .rightParen :: us))
        (.loop c b) openly'
  | conditional {ts us : List Token} {c : Expr} {yes : List Stmt} {openly openly' : Bool}
      (condition : Expression settled ts c openly) (taken : Block us yes openly') :
      Statement (.keyword .ifWord :: .mark .leftParen :: (ts ++ .mark .rightParen :: us))
        (.conditional c yes none) true
  | alternative {ts us vs : List Token} {c : Expr} {yes no : List Stmt}
      {openly openly' openly'' : Bool} (condition : Expression settled ts c openly)
      (taken : Block us yes openly') (nearest : settled = true → openly' = false)
      (otherwise : Block vs no openly'') :
      Statement (.keyword .ifWord :: .mark .leftParen ::
        (ts ++ .mark .rightParen :: (us ++ .keyword .elseWord :: vs)))
        (.conditional c yes (some no)) openly''
  | define {name : String} {ts us : List Token} {params : List String} {b : List Stmt}
      {openly : Bool} (items : Parameters ts params) (body : Block us b openly) :
      Statement (.keyword .defWord :: .ident name :: .mark .leftParen ::
        (ts ++ .mark .rightParen :: us)) (.define name params b) openly

/-- Statements in braces, or exactly one statement. -/
inductive Block : List Token → List Stmt → (openly : Bool) → Prop
  | braces {ts : List Token} {b : List Stmt} (body : Program ts b) :
      Block (.mark .leftBrace :: (ts ++ [.mark .rightBrace])) b false
  | single {ts : List Token} {s : Stmt} {openly : Bool} (only : Statement ts s openly) :
      Block ts [s] openly

inductive Program : List Token → List Stmt → Prop
  | nil : Program [] []
  | cons {ts us : List Token} {s : Stmt} {b : List Stmt} {openly : Bool}
      (first : Statement ts s openly) (others : Program us b) : Program (ts ++ us) (s :: b)

end

end

mutual

/-- Operators behind an operand that ends openly go to the value of its last assignment. -/
theorem Operand.extend {ts us : List Token} {e : Expr} {ops : List (Operator × Expr)}
    {openly : Bool} (hops : Operators true us ops) : Operand true ts e openly → openly = true →
      ∃ e', Operand true (ts ++ us) e' true ∧ e'.isAssign = true
  | .assign value, hopen => by
    obtain ⟨e', hvalue⟩ := value.extend hops hopen
    exact ⟨_, .assign hvalue, rfl⟩

theorem Expression.extend {ts us : List Token} {e : Expr} {ops : List (Operator × Expr)}
    {openly : Bool} (hops : Operators true us ops) : Expression true ts e openly →
      openly = true → ∃ e', Expression true (ts ++ us) e' true
  | .assignment only _, hopen => by
    obtain ⟨e', honly, hassign⟩ := only.extend hops hopen
    exact ⟨e', .assignment honly hassign⟩
  | @Expression.operators _ _ _ first _ _ _ begins assigns others _, _ => by
    obtain ⟨ops', hothers⟩ := Operators.append hops others
    obtain ⟨e', hgrouped⟩ := exists_grouped first ops'
    exact ⟨e', by simpa using Expression.operators begins assigns hothers hgrouped⟩

theorem Operators.append {ts us : List Token} {ops ops' : List (Operator × Expr)}
    (hops : Operators true us ops') :
    Operators true ts ops → ∃ ops'', Operators true (ts ++ us) ops''
  | .nil => ⟨ops', hops⟩
  | @Operators.cons _ _ _ _ _ _ false operand others _ => by
    obtain ⟨ops'', hothers⟩ := Operators.append hops others
    exact ⟨_, by simpa using Operators.cons operand hothers nofun⟩
  | @Operators.cons _ _ _ _ _ _ true operand _ furthest => by
    obtain ⟨e', hoperand, -⟩ := operand.extend hops rfl
    obtain rfl := furthest rfl rfl
    exact ⟨_, by simpa using Operators.cons hoperand .nil fun _ _ => rfl⟩

end

variable {settled : Bool}

mutual

theorem Operand.exists_settled {ts : List Token} {e : Expr} {openly : Bool} :
    Operand settled ts e openly →
      ∃ e' openly', Operand true ts e' openly' ∧ e'.isAssign = e.isAssign
  | .name => ⟨_, _, .name, rfl⟩
  | .number => ⟨_, _, .number, rfl⟩
  | .str => ⟨_, _, .str, rfl⟩
  | .group inner => by
    obtain ⟨e', openly', hinner, hassign⟩ := inner.exists_settled
    exact ⟨e', _, .group hinner, hassign⟩
  | .assign value => by
    obtain ⟨e', openly', hvalue, -⟩ := value.exists_settled
    exact ⟨_, _, .assign hvalue, rfl⟩
  | .call items => by
    obtain ⟨args, hitems⟩ := items.exists_settled
    exact ⟨_, _, .call hitems, rfl⟩

theorem Expression.exists_settled {ts : List Token} {e : Expr} {openly : Bool} :
    Expression settled ts e openly →
      ∃ e' openly', Expression true ts e' openly' ∧ e'.isAssign = e.isAssign
  | .assignment only assigns => by
    obtain ⟨e', openly', honly, hassign⟩ := only.exists_settled
    exact ⟨e', openly', .assignment honly (hassign.trans assigns), hassign⟩
  | .operators begins assigns others grouped => by
    obtain ⟨first, openly', hbegins, hassign⟩ := begins.exists_settled
    obtain ⟨ops, hothers⟩ := others.exists_settled
    obtain ⟨e', hgrouped⟩ := exists_grouped first ops
    have hfirst := hassign.trans assigns
    refine ⟨e', true, .operators hbegins hfirst hothers hgrouped, ?_⟩
    rw [hgrouped.isAssign hfirst, grouped.isAssign assigns]

theorem Operators.exists_settled {ts : List Token} {ops : List (Operator × Expr)} :
    Operators settled ts ops → ∃ ops', Operators true ts ops'
  | .nil => ⟨[], .nil⟩
  | .cons operand others _ => by
    obtain ⟨e', openly', hoperand, -⟩ := operand.exists_settled
    obtain ⟨ops', hothers⟩ := others.exists_settled
    cases openly' with
    | false => exact ⟨_, .cons hoperand hothers nofun⟩
    | true =>
      obtain ⟨e'', hextended, -⟩ := hoperand.extend hothers rfl
      exact ⟨_, by simpa using Operators.cons hextended .nil fun _ _ => rfl⟩

theorem Arguments.exists_settled {ts : List Token} {args : List Expr} :
    Arguments settled ts args → ∃ args', Arguments true ts args'
  | .none => ⟨[], .none⟩
  | .some items => by
    obtain ⟨args', hitems⟩ := items.exists_settled
    exact ⟨args', .some hitems⟩

theorem Items.exists_settled {ts : List Token} {es : List Expr} :
    Items settled ts es → ∃ es', Items true ts es'
  | .last only => by
    obtain ⟨e', openly', honly, -⟩ := only.exists_settled
    exact ⟨[e'], .last honly⟩
  | .more first others => by
    obtain ⟨e', openly', hfirst, -⟩ := first.exists_settled
    obtain ⟨es', hothers⟩ := others.exists_settled
    exact ⟨e' :: es', .more hfirst hothers⟩

end

mutual

/-- An `else` behind a statement that ends openly goes to the last `if` that has none. -/
theorem Statement.attach {ts vs : List Token} {s : Stmt} {no : List Stmt} {openly openly' : Bool}
    (otherwise : Block true vs no openly') : Statement true ts s openly → openly = true →
      ∃ s' openly'', Statement true (ts ++ .keyword .elseWord :: vs) s' openly''
  | .loop condition body, hopen => by
    obtain ⟨b', openly'', hbody⟩ := Block.attach otherwise body hopen
    exact ⟨_, _, by simpa using Statement.loop condition hbody⟩
  | @Statement.conditional _ _ _ _ _ _ true condition taken, _ => by
    obtain ⟨yes', openly'', htaken⟩ := Block.attach otherwise taken rfl
    exact ⟨_, _, by simpa using Statement.conditional condition htaken⟩
  | @Statement.conditional _ _ _ _ _ _ false condition taken, _ =>
    ⟨_, _, by simpa using Statement.alternative condition taken (fun _ => rfl) otherwise⟩
  | .alternative condition taken nearest otherwise', hopen => by
    obtain ⟨no', openly'', hotherwise⟩ := Block.attach otherwise otherwise' hopen
    exact ⟨_, _, by simpa using Statement.alternative condition taken nearest hotherwise⟩
  | .define items body, hopen => by
    obtain ⟨b', openly'', hbody⟩ := Block.attach otherwise body hopen
    exact ⟨_, _, by simpa using Statement.define items hbody⟩

theorem Block.attach {ts vs : List Token} {b no : List Stmt} {openly openly' : Bool}
    (otherwise : Block true vs no openly') : Block true ts b openly → openly = true →
      ∃ b' openly'', Block true (ts ++ .keyword .elseWord :: vs) b' openly''
  | .single only, hopen => by
    obtain ⟨s', openly'', honly⟩ := Statement.attach otherwise only hopen
    exact ⟨[s'], openly'', .single honly⟩

end

mutual

theorem Statement.exists_settled {ts : List Token} {s : Stmt} {openly : Bool} :
    Statement settled ts s openly → ∃ s' openly', Statement true ts s' openly'
  | .expression value => by
    obtain ⟨e', openly', hvalue, -⟩ := value.exists_settled
    exact ⟨_, _, .expression hvalue⟩
  | .ret value => by
    obtain ⟨e', openly', hvalue, -⟩ := value.exists_settled
    exact ⟨_, _, .ret hvalue⟩
  | .loop condition body => by
    obtain ⟨c', openly', hcondition, -⟩ := condition.exists_settled
    obtain ⟨b', openly'', hbody⟩ := body.exists_settled
    exact ⟨_, _, .loop hcondition hbody⟩
  | .conditional condition taken => by
    obtain ⟨c', openly', hcondition, -⟩ := condition.exists_settled
    obtain ⟨yes', openly'', htaken⟩ := taken.exists_settled
    exact ⟨_, _, .conditional hcondition htaken⟩
  | .alternative condition taken _ otherwise => by
    obtain ⟨c', openly', hcondition, -⟩ := condition.exists_settled
    obtain ⟨yes', opens, htaken⟩ := taken.exists_settled
    obtain ⟨no', openly'', hotherwise⟩ := otherwise.exists_settled
    cases opens with
    | false => exact ⟨_, _, .alternative hcondition htaken (fun _ => rfl) hotherwise⟩
    | true =>
      obtain ⟨yes'', _, hattached⟩ := Block.attach hotherwise htaken rfl
      exact ⟨_, _, .conditional hcondition hattached⟩
  | .define items body => by
    obtain ⟨b', openly', hbody⟩ := body.exists_settled
    exact ⟨_, _, .define items hbody⟩

theorem Block.exists_settled {ts : List Token} {b : List Stmt} {openly : Bool} :
    Block settled ts b openly → ∃ b' openly', Block true ts b' openly'
  | .braces body => by
    obtain ⟨b', hbody⟩ := body.exists_settled
    exact ⟨_, _, .braces hbody⟩
  | .single only => by
    obtain ⟨s', openly', honly⟩ := only.exists_settled
    exact ⟨_, _, .single honly⟩

/-- Whatever can be derived as a program has a settled derivation. -/
theorem Program.exists_settled {ts : List Token} {b : List Stmt} :
    Program settled ts b → ∃ b', Program true ts b'
  | .nil => ⟨[], .nil⟩
  | .cons first others => by
    obtain ⟨s', openly', hfirst⟩ := first.exists_settled
    obtain ⟨b', hothers⟩ := others.exists_settled
    exact ⟨s' :: b', .cons hfirst hothers⟩

end

end Sapling.Derivation
