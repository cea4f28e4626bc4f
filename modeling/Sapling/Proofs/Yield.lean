import Sapling.Proofs.EqualTrees
import Sapling.Proofs.PrintedTokens
import Sapling.Proofs.ProgramComplete

/-!
# The yield of a tree

The yield of a tree is the list of its tokens without the brackets. Whatever tokens a program is
read from, without their brackets they are its yield, and so are the tokens that it is printed as.
Since the lexer supplies readable tokens only, the names, strings and numbers of a program that
has been read can be written down.
-/
namespace Sapling

namespace Token

def isBracket : Token → Bool
  | .mark .leftParen => true
  | .mark .rightParen => true
  | .mark .leftBrace => true
  | .mark .rightBrace => true
  | _ => false

def withoutBrackets (ts : List Token) : List Token :=
  ts.filter fun t => !t.isBracket

end Token

open Token

namespace Expr

mutual

def yield : Expr → List Token
  | .literal (.number value) => [.number value]
  | .literal (.str text) => [.str text]
  | .variable name => [.ident name]
  | .binary op left right => left.yield ++ .operator op :: right.yield
  | .assign target value => .ident target :: .mark .assign :: value.yield
  | .call callee args => .ident callee :: listed (yields args)

def yields : List Expr → List (List Token)
  | [] => []
  | arg :: args => arg.yield :: yields args

end

end Expr

namespace Stmt

mutual

def yield : Stmt → List Token
  | .expression e => e.yield ++ [.mark .semicolon]
  | .conditional condition yes none => .keyword .ifWord :: (condition.yield ++ yieldIn yes)
  | .conditional condition yes (some no) =>
    .keyword .ifWord :: (condition.yield ++ yieldIn yes ++ .keyword .elseWord :: yieldIn no)
  | .loop condition body => .keyword .whileWord :: (condition.yield ++ yieldIn body)
  | .ret value => .keyword .returnWord :: (value.yield ++ [.mark .semicolon])
  | .define name params body =>
    .keyword .defWord :: .ident name :: (paramTokens params ++ yieldIn body)

def yieldIn : List Stmt → List Token
  | [] => []
  | stmt :: stmts => stmt.yield ++ yieldIn stmts

end

end Stmt

/-- The tokens of a program without the brackets. -/
def Block.yield (program : Block) : List Token :=
  Stmt.yieldIn program

namespace Grammar

variable {α : Type}

/-- Without their brackets, the tokens that a phrase takes are the yield of its tree. -/
def Yields (yield : α → List Token) (phrase : Phrase α) : Prop :=
  ∀ ⦃ts : List Token⦄ ⦃a : α⦄ ⦃rest : List Token⦄, phrase ts a rest →
    withoutBrackets ts = yield a ++ withoutBrackets rest

@[simp] theorem withoutBrackets_nil : withoutBrackets [] = [] := rfl

@[simp] theorem withoutBrackets_cons (t : Token) (ts : List Token) :
    withoutBrackets (t :: ts) = if t.isBracket then withoutBrackets ts
      else t :: withoutBrackets ts := by
  cases h : t.isBracket <;> simp [withoutBrackets, h]

attribute [simp] Token.isBracket

theorem Separated.yields {yield : α → List Token} {item : List α → Phrase α}
    (h : ∀ before, Yields yield (item before)) (before : List α) :
    Yields (fun as => listed (as.map yield)) (Separated item before) := by
  intro ts as rest hs
  induction hs with
  | last only _ => simpa [listed] using h _ only
  | @more before ts us rest a as first others ih =>
    have hfirst := h before first
    obtain ⟨b, bs, rfl⟩ : ∃ b bs, as = b :: bs := by cases others <;> exact ⟨_, _, rfl⟩
    rw [hfirst]
    simpa [listed] using ih

theorem Listed.yields {yield : α → List Token} {item : List α → Phrase α}
    (h : ∀ before, Yields yield (item before)) :
    Yields (fun as => listed (as.map yield)) (Listed item) := by
  intro ts as rest hl
  cases hl with
  | none => rfl
  | some _ items => exact Separated.yields h [] items

theorem yields_eq_map (args : List Expr) : Expr.yields args = args.map Expr.yield := by
  induction args with
  | nil => rfl
  | cons arg args ih => rw [Expr.yields, ih, List.map_cons]

theorem Operand.yields {expr : Phrase Expr} (h : Yields Expr.yield expr) :
    Yields Expr.yield (Operand expr) := by
  intro ts e rest ho
  cases ho with
  | name | number | str => simp [Expr.yield]
  | group inner =>
    have hinner := h inner
    simpa using hinner
  | assign value =>
    have hvalue := h value
    simp [Expr.yield, hvalue]
  | call items =>
    have hitems := Listed.yields (fun _ => h) items
    simp [Expr.yield, yields_eq_map, hitems]

section
variable {operand : Phrase Expr} {levels : Nat}

mutual

theorem Chain.yields (h : Yields Expr.yield operand) {least room : Nat} {left e : Expr}
    {ts rest : List Token} : Chain operand levels least room left ts e rest →
      left.yield ++ withoutBrackets ts = e.yield ++ withoutBrackets rest
  | .stop _ => rfl
  | .step _ begins absorbed others => by
    have hfirst := h begins
    have hright := absorbed.yields h
    have hothers := others.yields h
    rw [← hothers]
    simp [Expr.yield, hfirst, hright]

theorem Absorb.yields (h : Yields Expr.yield operand) {least : Nat} {right e : Expr}
    {ts rest : List Token} : Absorb operand levels least right ts e rest →
      right.yield ++ withoutBrackets ts = e.yield ++ withoutBrackets rest
  | .stop _ => rfl
  | .step _ chain others => (chain.yields h).trans (others.yields h)

end

theorem Compound.yields (h : Yields Expr.yield operand) :
    Yields Expr.yield (Compound operand levels) := by
  intro ts e rest hc
  cases hc with
  | assignment only _ => exact h only
  | chain begins _ others => rw [h begins, others.yields h]

end

theorem expressionWithin_yields (levels : Nat) :
    Yields Expr.yield (ExpressionWithin levels) := by
  induction levels with
  | zero => exact fun _ _ _ hp => hp.elim
  | succ levels ih => exact Compound.yields (Operand.yields ih)

theorem parameter_yields (strict : Bool) (before : List String) :
    Yields (fun name => [.ident name]) (Parameter strict before) := by
  rintro ts name rest ⟨rfl, -⟩
  simp

theorem Statement.yields {strict : Bool} {expr : Phrase Expr} {block : Phrase Block}
    (he : Yields Expr.yield expr) (hb : Yields Block.yield block) :
    Yields Stmt.yield (Statement strict expr block) := by
  intro ts s rest hs
  cases hs with
  | expression value | ret value =>
    have hvalue := he value
    simp [Stmt.yield, hvalue]
  | loop condition body | conditional condition body _ =>
    have hcondition := he condition
    have hbody := hb body
    simp [Stmt.yield, hcondition, hbody, Block.yield]
  | alternative condition taken otherwise =>
    have hcondition := he condition
    have htaken := hb taken
    have hotherwise := hb otherwise
    simp [Stmt.yield, hcondition, htaken, hotherwise, Block.yield]
  | define items body =>
    have hitems := Listed.yields (parameter_yields strict) items
    have hbody := hb body
    simp [Stmt.yield, hitems, hbody, Block.yield, paramTokens]

theorem Repeated.yields {item : Phrase Stmt} (h : Yields Stmt.yield item) :
    Yields Block.yield (Repeated item) := by
  intro ts as rest hr
  induction hr with
  | nil => rfl
  | cons first _ ih =>
    rw [h first, ih]
    simp [Block.yield, Stmt.yieldIn]

theorem Body.yields {stmt : Phrase Stmt} (h : Yields Stmt.yield stmt) :
    Yields Block.yield (Body stmt) := by
  intro ts b rest hb
  cases hb with
  | braces items =>
    have hitems := Repeated.yields h items
    simpa using hitems
  | single _ only =>
    have honly := h only
    simpa [Block.yield, Stmt.yieldIn] using honly

theorem statementWithin_yields (strict : Bool) (levels : Nat) :
    Yields Stmt.yield (StatementWithin strict levels) := by
  induction levels with
  | zero => exact Statement.yields (expressionWithin_yields 0) fun _ _ _ hp => hp.elim
  | succ levels ih => exact Statement.yields (expressionWithin_yields _) (Body.yields ih)

/-- Without their brackets, the tokens of a program are its yield. -/
theorem program_yields {options : ParseOptions} {ts : List Token} {program : Block}
    (h : Program options ts program) : withoutBrackets ts = program.yield := by
  have hyields := Repeated.yields (statementWithin_yields _ _) h
  simpa using hyields

end Grammar

section
open Grammar

@[simp] theorem withoutBrackets_append (ts us : List Token) :
    withoutBrackets (ts ++ us) = withoutBrackets ts ++ withoutBrackets us :=
  List.filter_append ts us

@[simp] theorem withoutBrackets_inParens (ts : List Token) :
    withoutBrackets (inParens ts) = withoutBrackets ts := by
  simp [inParens, withoutBrackets_append]

@[simp] theorem withoutBrackets_inBraces (ts : List Token) :
    withoutBrackets (inBraces ts) = withoutBrackets ts := by
  simp [inBraces, withoutBrackets_append]

@[simp] theorem withoutBrackets_listed (runs : List (List Token)) :
    withoutBrackets (listed runs) = listed (runs.map withoutBrackets) := by
  induction runs with
  | nil => rfl
  | cons ts runs ih =>
    cases runs with
    | nil => simp [listed]
    | cons us runs =>
      simp only [listed] at ih
      simp [listed, withoutBrackets_append, ih]

@[simp] theorem withoutBrackets_params (params : List String) :
    withoutBrackets (paramTokens params) = paramTokens params := by
  rw [paramTokens, withoutBrackets_listed]
  simp [Function.comp_def]

/-- A literal is printed as one token, unless its number has a sign. -/
theorem Literal.yield_tokens {value : Literal}
    (h : Node.isUnsigned (.expr (.literal value)) = true) :
    withoutBrackets value.tokens = (Expr.literal value).yield := by
  cases value with
  | str text => simp [Literal.tokens, Expr.yield]
  | number value =>
    rcases Number.isUnsigned_iff.mp h with rfl | ⟨rank, rfl⟩
    · simp [Literal.tokens, Expr.yield]
    · simp [Literal.tokens, Expr.yield]

mutual

theorem Expr.yield_tokens {e : Expr} (h : e.all Node.isUnsigned = true) (alone : Bool) :
    withoutBrackets (e.tokens alone) = e.yield := by
  cases e with
  | literal value => exact Literal.yield_tokens h
  | «variable» name => simp [Expr.tokens, Expr.yield]
  | binary op left right =>
    simp only [Expr.all, Bool.and_eq_true] at h
    have hleft := Expr.yield_tokens h.1.2 false
    have hright := Expr.yield_tokens h.2 false
    cases alone <;> simp [Expr.tokens, Expr.yield, withoutBrackets_append,
      withoutBrackets_inParens, hleft, hright]
  | assign target value =>
    simp only [Expr.all, Bool.and_eq_true] at h
    have hvalue := Expr.yield_tokens h.2 true
    cases alone <;> simp [Expr.tokens, Expr.yield, withoutBrackets_inParens, hvalue]
  | call callee args =>
    simp only [Expr.all, Bool.and_eq_true] at h
    have hargs := Expr.yields_tokens h.2
    simp [Expr.tokens, Expr.yield, withoutBrackets_inParens, withoutBrackets_listed,
      hargs]

theorem Expr.yields_tokens {args : List Expr}
    (h : Expr.allArgs Node.isUnsigned args = true) :
    (Expr.argTokens args).map withoutBrackets = Expr.yields args := by
  cases args with
  | nil => rfl
  | cons arg args =>
    simp only [Expr.allArgs, Bool.and_eq_true] at h
    simp [Expr.argTokens, Expr.yields, Expr.yield_tokens h.1 true, Expr.yields_tokens h.2]

end

mutual

theorem Stmt.yield_tokens {stmt : Stmt} (h : stmt.all Node.isUnsigned = true) :
    withoutBrackets stmt.tokens = stmt.yield := by
  cases stmt with
  | expression e | ret e =>
    simp only [Stmt.all, Bool.and_eq_true] at h
    have he := Expr.yield_tokens h.2 true
    simp [Stmt.tokens, Stmt.yield, withoutBrackets_append, he]
  | loop condition body =>
    simp only [Stmt.all, Bool.and_eq_true] at h
    have hcondition := Expr.yield_tokens h.1.2 true
    have hbody := Stmt.yieldIn_tokens h.2
    simp [Stmt.tokens, Stmt.yield, withoutBrackets_append, withoutBrackets_inParens,
      withoutBrackets_inBraces, hcondition, hbody]
  | conditional condition yes no =>
    cases no with
    | none =>
      simp only [Stmt.all, Bool.and_eq_true] at h
      have hcondition := Expr.yield_tokens h.1.2 true
      have hyes := Stmt.yieldIn_tokens h.2
      simp [Stmt.tokens, Stmt.yield, withoutBrackets_append, withoutBrackets_inParens,
        withoutBrackets_inBraces, hcondition, hyes]
    | some no =>
      simp only [Stmt.all, Bool.and_eq_true] at h
      have hcondition := Expr.yield_tokens h.1.1.2 true
      have hyes := Stmt.yieldIn_tokens h.1.2
      have hno := Stmt.yieldIn_tokens h.2
      simp [Stmt.tokens, Stmt.yield, withoutBrackets_append, withoutBrackets_inParens,
        withoutBrackets_inBraces, hcondition, hyes, hno]
  | define name params body =>
    simp only [Stmt.all, Bool.and_eq_true] at h
    have hbody := Stmt.yieldIn_tokens h.2
    simp [Stmt.tokens, Stmt.yield, withoutBrackets_append, withoutBrackets_inParens,
      withoutBrackets_inBraces, withoutBrackets_params, hbody]

theorem Stmt.yieldIn_tokens {stmts : List Stmt} (h : Stmt.allIn Node.isUnsigned stmts = true) :
    withoutBrackets (Stmt.tokensIn stmts) = Stmt.yieldIn stmts := by
  cases stmts with
  | nil => rfl
  | cons stmt stmts =>
    simp only [Stmt.allIn, Bool.and_eq_true] at h
    rw [Stmt.tokensIn, withoutBrackets_append, Stmt.yield_tokens h.1, Stmt.yieldIn_tokens h.2,
      Stmt.yieldIn]

end

theorem mem_listed {runs : List (List Token)} {ts : List Token} {t : Token} (hts : ts ∈ runs)
    (ht : t ∈ ts) : t ∈ listed runs := by
  induction runs with
  | nil => simp at hts
  | cons us runs ih =>
    rw [Expr.listed_cons, List.mem_append, List.mem_flatMap]
    rcases List.mem_cons.mp hts with rfl | hmem
    · exact .inl ht
    · exact .inr ⟨ts, hmem, List.mem_cons_of_mem _ ht⟩

mutual

theorem Expr.isWritable_of_yield {e : Expr} (h : ∀ t ∈ e.yield, t.isReadable = true) :
    e.all Node.isWritable = true := by
  cases e with
  | literal value =>
    cases value with
    | number value => exact Node.isWritable_iff.mpr ⟨rfl, h _ List.mem_cons_self⟩
    | str text => exact Node.isWritable_iff.mpr ⟨h _ List.mem_cons_self, rfl⟩
  | «variable» name => exact Node.isWritable_iff.mpr ⟨h _ List.mem_cons_self, rfl⟩
  | binary op left right =>
    simp only [Expr.yield, List.mem_append, List.mem_cons] at h
    have hleft := Expr.isWritable_of_yield fun t ht => h t (.inl ht)
    have hright := Expr.isWritable_of_yield fun t ht => h t (.inr (.inr ht))
    have hnode : Node.isWritable (.expr (.binary op left right)) = true := rfl
    simp [Expr.all, hnode, hleft, hright]
  | assign target value =>
    simp only [Expr.yield, List.mem_cons] at h
    have hvalue := Expr.isWritable_of_yield fun t ht => h t (.inr (.inr ht))
    have hnode : Node.isWritable (.expr (.assign target value)) = true :=
      Node.isWritable_iff.mpr ⟨h _ (.inl rfl), rfl⟩
    simp [Expr.all, hnode, hvalue]
  | call callee args =>
    simp only [Expr.yield, List.mem_cons] at h
    have hargs := Expr.isWritable_of_yields fun ts hts t ht => h t (.inr (mem_listed hts ht))
    have hnode : Node.isWritable (.expr (.call callee args)) = true :=
      Node.isWritable_iff.mpr ⟨h _ (.inl rfl), rfl⟩
    simp [Expr.all, hnode, hargs]

theorem Expr.isWritable_of_yields {args : List Expr}
    (h : ∀ ts ∈ Expr.yields args, ∀ t ∈ ts, t.isReadable = true) :
    Expr.allArgs Node.isWritable args = true := by
  cases args with
  | nil => rfl
  | cons arg args =>
    have harg := Expr.isWritable_of_yield (h arg.yield List.mem_cons_self)
    have hargs := Expr.isWritable_of_yields fun ts hts => h ts (List.mem_cons_of_mem _ hts)
    simp [Expr.allArgs, harg, hargs]

end

theorem isName_of_params {params : List String}
    (h : ∀ t ∈ paramTokens params, t.isReadable = true) :
    params.all Lexer.isName = true := by
  rw [List.all_eq_true]
  intro name hname
  exact h (.ident name) (mem_listed (List.mem_map_of_mem hname) List.mem_cons_self)

mutual

theorem Stmt.isWritable_of_yield {stmt : Stmt} (h : ∀ t ∈ stmt.yield, t.isReadable = true) :
    stmt.all Node.isWritable = true := by
  cases stmt with
  | expression e =>
    simp only [Stmt.yield, List.mem_append] at h
    have he := Expr.isWritable_of_yield fun t ht => h t (.inl ht)
    have hnode : Node.isWritable (.stmt (.expression e)) = true := rfl
    simp [Stmt.all, hnode, he]
  | ret value =>
    simp only [Stmt.yield, List.mem_append, List.mem_cons] at h
    have hvalue := Expr.isWritable_of_yield fun t ht => h t (.inr (.inl ht))
    have hnode : Node.isWritable (.stmt (.ret value)) = true := rfl
    simp [Stmt.all, hnode, hvalue]
  | loop condition body =>
    simp only [Stmt.yield, List.mem_append, List.mem_cons] at h
    have hcondition := Expr.isWritable_of_yield fun t ht => h t (.inr (.inl ht))
    have hbody := Stmt.isWritable_of_yieldIn fun t ht => h t (.inr (.inr ht))
    have hnode : Node.isWritable (.stmt (.loop condition body)) = true := rfl
    simp [Stmt.all, hnode, hcondition, hbody]
  | conditional condition yes no =>
    cases no with
    | none =>
      simp only [Stmt.yield, List.mem_append, List.mem_cons] at h
      have hcondition := Expr.isWritable_of_yield fun t ht => h t (.inr (.inl ht))
      have hyes := Stmt.isWritable_of_yieldIn fun t ht => h t (.inr (.inr ht))
      have hnode : Node.isWritable (.stmt (.conditional condition yes none)) = true := rfl
      simp [Stmt.all, hnode, hcondition, hyes]
    | some no =>
      simp only [Stmt.yield, List.mem_append, List.mem_cons] at h
      have hcondition := Expr.isWritable_of_yield fun t ht => h t (.inr (.inl (.inl ht)))
      have hyes := Stmt.isWritable_of_yieldIn fun t ht => h t (.inr (.inl (.inr ht)))
      have hno := Stmt.isWritable_of_yieldIn fun t ht => h t (.inr (.inr (.inr ht)))
      have hnode : Node.isWritable (.stmt (.conditional condition yes (some no))) = true := rfl
      simp [Stmt.all, hnode, hcondition, hyes, hno]
  | define name params body =>
    simp only [Stmt.yield, List.mem_append, List.mem_cons] at h
    have hname : Lexer.isName name = true := h _ (.inr (.inl rfl))
    have hparams := isName_of_params fun t ht => h t (.inr (.inr (.inl ht)))
    have hbody := Stmt.isWritable_of_yieldIn fun t ht => h t (.inr (.inr (.inr ht)))
    have hnode : Node.isWritable (.stmt (.define name params body)) = true :=
      Node.isWritable_iff.mpr ⟨by simp [Node.isSpelled, hname, hparams], rfl⟩
    simp [Stmt.all, hnode, hbody]

theorem Stmt.isWritable_of_yieldIn {stmts : List Stmt}
    (h : ∀ t ∈ Stmt.yieldIn stmts, t.isReadable = true) :
    Stmt.allIn Node.isWritable stmts = true := by
  cases stmts with
  | nil => rfl
  | cons stmt stmts =>
    simp only [Stmt.yieldIn, List.mem_append] at h
    have hstmt := Stmt.isWritable_of_yield fun t ht => h t (.inl ht)
    have hstmts := Stmt.isWritable_of_yieldIn fun t ht => h t (.inr ht)
    simp [Stmt.allIn, hstmt, hstmts]

end

end

/-- All that a program holds can be written down if it has been read from text. -/
theorem Block.isWritable_of_parse {options : ParseOptions} {source : String} {program : Block}
    (h : parse options source = .ok program) : Stmt.allIn Node.isWritable program = true := by
  obtain ⟨ts, hts, hprogram⟩ := parseFrom_eq_ok_iff.mp h
  apply Stmt.isWritable_of_yieldIn
  intro t ht
  have hmem : t ∈ withoutBrackets ts := by
    rw [Grammar.program_yields hprogram]
    exact ht
  exact Lexer.isReadable_of_supplies hts t (List.mem_of_mem_filter hmem)

theorem parse_eq_ok_of_equals {options : ParseOptions} {source : String} {program : Block}
    (hunsigned : Stmt.allIn Node.isUnsigned program = true)
    (h : (parse options source).toOption.any (fun read => Block.equals read program) = true) :
    parse options source = .ok program := by
  cases hread : parse options source with
  | error e => simp [hread, Except.toOption] at h
  | ok read =>
    rw [hread] at h
    have hwritable := Block.isWritable_iff.mp (Block.isWritable_of_parse hread)
    rw [(Stmt.equalsAll_iff hwritable.2 hunsigned).mp h]

/-- Printing a program that has been read changes brackets and layout only. -/
theorem tokenize_print {options : ParseOptions} {source : String} {program : Block}
    (h : parse options source = .ok program) (layout : Layout) :
    ∃ ts us, (Lexer.ofString source).tokenize = .ok ts ∧
      (Lexer.ofString (program.print layout)).tokenize = .ok us ∧
      withoutBrackets us = withoutBrackets ts := by
  obtain ⟨ts, hts, hprogram⟩ := parseFrom_eq_ok_iff.mp h
  obtain ⟨hspelled, hunsigned⟩ := Block.isWritable_iff.mp (Block.isWritable_of_parse h)
  refine ⟨ts, program.tokens, Lexer.tokenize_of_supplies hts,
    Lexer.tokenize_of_supplies (Block.supplies_print hspelled layout), ?_⟩
  rw [Grammar.program_yields hprogram]
  exact Stmt.yieldIn_tokens hunsigned

/-- Parentheses that group nothing are dropped, and a branch gets its braces. -/
theorem tokenize_print_branches :
    ∃ program, parse {} "if (a) f((b)); else c;" = .ok program ∧
      ∃ ts us, (Lexer.ofString "if (a) f((b)); else c;").tokenize = .ok ts ∧
        (Lexer.ofString (program.print {})).tokenize = .ok us ∧
        withoutBrackets us = withoutBrackets ts := by
  have hread : parse {} "if (a) f((b)); else c;" = .ok [.conditional (.variable "a")
      [.expression (.call "f" [.variable "b"])] (some [.expression (.variable "c")])] :=
    parse_eq_ok_of_equals rfl (by decide +kernel)
  exact ⟨_, hread, tokenize_print hread {}⟩

end Sapling
