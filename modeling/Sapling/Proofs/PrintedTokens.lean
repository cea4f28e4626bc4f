import Sapling.Printer
import Sapling.Proofs.Printable

/-!
# The tokens of printed text

`Block.tokens` lists the tokens that a program is printed as, and the lexer reads the printed text
as them. Each writing step of the printer is followed by the tokens that its text adds
(`Printer.Writes`): a step that ends with a mark can be followed by any text, while behind a name
or a number the text must be separate.
-/
namespace Sapling

namespace Token

def inParens (ts : List Token) : List Token :=
  .mark .leftParen :: (ts ++ [.mark .rightParen])

def inBraces (ts : List Token) : List Token :=
  .mark .leftBrace :: (ts ++ [.mark .rightBrace])

def listed (runs : List (List Token)) : List Token :=
  [.mark .comma].intercalate runs

end Token

open Token

/-- A number with a sign has the text of the number without behind the sign. -/
theorem Number.text_signed (rank : Fin magnitudeCount) :
    Number.text (.finite true rank) = "-" ++ Number.text (.finite false rank) := by
  simp [Number.text]

namespace Literal

/-- A number with a sign is written as an operator and a number without. -/
def tokens : Literal → List Token
  | .number .nan => [.ident "NaN"]
  | .number (.infinite _) => [.number (.infinite false)]
  | .number (.finite true rank) => [.operator .sub, .number (.finite false rank)]
  | .number (.finite false rank) => [.number (.finite false rank)]
  | .str text => [.str text]

theorem text_str (text : String) : (str text).text = "\"" ++ text ++ "\"" := rfl

theorem text_infinite (negative : Bool) :
    (number (.infinite negative)).text = String.ofList ('1' :: List.replicate 309 '0') :=
  rfl

theorem text_finite (negative : Bool) (rank : Fin magnitudeCount) :
    (number (.finite negative rank)).text = Number.text (.finite negative rank) := rfl

end Literal

namespace Expr

mutual

/-- The tokens that an expression is printed as, alone or as an operand. -/
def tokens : Expr → (alone : Bool) → List Token
  | .literal value, _ => value.tokens
  | .variable name, _ => [.ident name]
  | .binary op left right, alone =>
    let ts := left.tokens false ++ .operator op :: right.tokens false
    if alone then ts else inParens ts
  | .assign target value, alone =>
    let ts := .ident target :: .mark .assign :: value.tokens true
    if alone then ts else inParens ts
  | .call callee args, _ => .ident callee :: inParens (listed (argTokens args))

def argTokens : List Expr → List (List Token)
  | [] => []
  | arg :: args => arg.tokens true :: argTokens args

end

end Expr

def paramTokens (params : List String) : List Token :=
  listed (params.map fun name => [.ident name])

namespace Stmt

mutual

def tokens : Stmt → List Token
  | .expression e => e.tokens true ++ [.mark .semicolon]
  | .conditional condition yes none =>
    .keyword .ifWord :: (inParens (condition.tokens true) ++ inBraces (tokensIn yes))
  | .conditional condition yes (some no) =>
    .keyword .ifWord :: (inParens (condition.tokens true) ++ inBraces (tokensIn yes) ++
      .keyword .elseWord :: inBraces (tokensIn no))
  | .loop condition body =>
    .keyword .whileWord :: (inParens (condition.tokens true) ++ inBraces (tokensIn body))
  | .ret value => .keyword .returnWord :: (value.tokens true ++ [.mark .semicolon])
  | .define name params body =>
    .keyword .defWord :: .ident name ::
      (inParens (paramTokens params) ++ inBraces (tokensIn body))

def tokensIn : List Stmt → List Token
  | [] => []
  | stmt :: stmts => stmt.tokens ++ tokensIn stmts

end

end Stmt

def Block.tokens (program : Block) : List Token :=
  Stmt.tokensIn program

namespace Printer

open Lexer

/-- The text that `write` adds is read as the tokens that it is told, which may depend on whether
what is written stands alone. Unless the text is closed, the text behind it must be separate. -/
def Writes (closed : Bool) (write : Printer → Printer) (ts : Bool → List Token) : Prop :=
  ∀ p : Printer, ∃ cs : List Char, (write p).text.toList = p.text.toList ++ cs ∧
    ∀ (rest : List Char) (us : List Token), (closed = false → isSeparate rest = true) →
      Lexes rest us → Lexes (cs ++ rest) (ts p.bare ++ us)

/-- The text is read as the tokens, whatever comes behind it, and ends what comes before it. -/
structure Spells (s : String) (ts : List Token) : Prop where
  separate : ∀ rest, isSeparate (s.toList ++ rest) = true
  lexes : ∀ {rest : List Char} {us : List Token}, Lexes rest us →
    Lexes (s.toList ++ rest) (ts ++ us)

variable {closed : Bool} {write write' : Printer → Printer} {s s' name : String}
  {f : Bool → List Token} {ts us : List Token} {rest : List Char}

theorem Spells.append (h : Spells s ts) (h' : Spells s' us) : Spells (s ++ s') (ts ++ us) where
  separate rest := by
    rw [String.toList_append, List.append_assoc]
    exact h.separate _
  lexes hrest := by
    rw [String.toList_append, List.append_assoc, List.append_assoc]
    exact h.lexes (h'.lexes hrest)

theorem spells_blank : Spells " " [] :=
  ⟨fun _ => rfl, fun hrest => hrest.layout (.inl rfl)⟩

theorem spells_newline : Spells "\n" [] :=
  ⟨fun _ => rfl, fun hrest => hrest.layout (.inr rfl)⟩

theorem spells_mark (m : Mark) (hm : m ≠ .assign) : Spells m.text [.mark m] :=
  ⟨fun _ => by cases m <;> rfl, fun hrest => Lexes.mark hm hrest⟩

theorem spells_mark_blank (m : Mark) (hm : m ≠ .assign) : Spells (m.text ++ " ") [.mark m] :=
  (spells_mark m hm).append spells_blank

theorem spells_mark_newline (m : Mark) (hm : m ≠ .assign) : Spells (m.text ++ "\n") [.mark m] :=
  (spells_mark m hm).append spells_newline

theorem spells_assign : Spells " = " [.mark .assign] :=
  ⟨fun _ => rfl, fun hrest => (Lexes.assign (hrest.layout (.inl rfl))).layout (.inl rfl)⟩

theorem spells_operator (op : Operator) : Spells (" " ++ op.symbol ++ " ") [.operator op] where
  separate rest := by
    rw [String.toList_append, String.toList_append, List.append_assoc, List.append_assoc]
    rfl
  lexes hrest := by
    rw [String.toList_append, String.toList_append, List.append_assoc, List.append_assoc]
    exact (Lexes.operator op (hrest.layout (.inl rfl))).layout (.inl rfl)

theorem lexes_keyword (word : Keyword) (hs : Spells s ts) (hrest : Lexes rest us) :
    Lexes ((word.text ++ s).toList ++ rest) (.keyword word :: (ts ++ us)) := by
  have hword : isWord word.text.toList = true := by cases word <;> decide
  have htoken : Token.ofWord word.text = .keyword word := by cases word <;> decide
  rw [String.toList_append, List.append_assoc, ← htoken]
  exact (hs.lexes hrest).word hword (hs.separate rest)

theorem lexes_name (hname : isName name = true) (hs : Spells s ts) (hrest : Lexes rest us) :
    Lexes ((name ++ s).toList ++ rest) (.ident name :: (ts ++ us)) := by
  rw [String.toList_append, List.append_assoc]
  exact (hs.lexes hrest).name hname (hs.separate rest)

theorem lexes_params {params : List String} (hparams : ∀ name ∈ params, isName name = true)
    (hseparate : isSeparate rest = true) (hrest : Lexes rest us) :
    Lexes ((", ".intercalate params).toList ++ rest) (paramTokens params ++ us) := by
  induction params with
  | nil => simpa [paramTokens, listed] using hrest
  | cons name params ih =>
    have hname := hparams name List.mem_cons_self
    cases params with
    | nil => simpa [paramTokens, listed] using hrest.name hname hseparate
    | cons name' params =>
      have hothers := ih fun name hmem => hparams name (List.mem_cons_of_mem _ hmem)
      have hcomma : Spells ", " [.mark .comma] := spells_mark_blank .comma (by decide)
      have hlexes := lexes_name hname hcomma hothers
      simpa [paramTokens, listed] using hlexes

theorem spells_else : Spells " else " [.keyword .elseWord] :=
  ⟨fun _ => rfl, fun hrest => (lexes_keyword .elseWord spells_blank hrest).layout (.inl rfl)⟩

theorem Writes.congr {g : Bool → List Token} (h : Writes closed write f)
    (hf : ∀ alone, f alone = g alone) : Writes closed write g := by
  rwa [← funext hf]

theorem Writes.open (h : Writes true write f) : Writes closed write f := by
  intro p
  obtain ⟨cs, htext, hlexes⟩ := h p
  exact ⟨cs, htext, fun rest us _ => hlexes rest us (by simp)⟩

theorem writes_of_lexes (h : ∀ (rest : List Char) (us : List Token),
    (closed = false → isSeparate rest = true) → Lexes rest us →
      Lexes (s.toList ++ rest) (ts ++ us)) : Writes closed (put s) fun _ => ts :=
  fun _ => ⟨s.toList, String.toList_append, h⟩

theorem writes_put (h : Spells s ts) : Writes true (put s) fun _ => ts :=
  writes_of_lexes fun _ _ _ => h.lexes

theorem writes_keyword (word : Keyword) (hs : Spells s ts) :
    Writes true (put (word.text ++ s)) fun _ => .keyword word :: ts :=
  writes_of_lexes fun _ _ _ => lexes_keyword word hs

theorem writes_name (hname : isName name = true) (hs : Spells s ts) :
    Writes true (put (name ++ s)) fun _ => .ident name :: ts :=
  writes_of_lexes fun _ _ _ => lexes_name hname hs

theorem writes_indent : Writes true indent fun _ => [] := fun p =>
  ⟨_, String.toList_append, fun _ _ _ hrest => by
    rw [String.toList_ofList]
    exact hrest.blanks _⟩

theorem Writes.then (h : Writes true write f) (h' : Writes closed write' fun _ => us) :
    Writes closed (fun p => write' (write p)) fun alone => f alone ++ us := by
  intro p
  obtain ⟨cs, htext, hlexes⟩ := h p
  obtain ⟨cs', htext', hlexes'⟩ := h' (write p)
  refine ⟨cs ++ cs', by rw [htext', htext, List.append_assoc], fun rest vs hrest hvs => ?_⟩
  rw [List.append_assoc, List.append_assoc]
  exact hlexes _ _ (by simp) (hlexes' rest vs hrest hvs)

/-- A fixed text closes what comes before it. -/
theorem Writes.put (h : Writes closed write f) (hs : Spells s ts) :
    Writes true (fun p => (write p).put s) fun alone => f alone ++ ts := by
  intro p
  obtain ⟨cs, htext, hlexes⟩ := h p
  refine ⟨cs ++ s.toList, ?_, fun rest vs _ hvs => ?_⟩
  · show ((write p).text ++ s).toList = _
    rw [String.toList_append, htext, List.append_assoc]
  · rw [List.append_assoc, List.append_assoc]
    exact hlexes _ _ (fun _ => hs.separate rest) (hs.lexes hvs)

theorem Writes.alone (h : Writes closed write f) :
    Writes closed (Printer.alone write) fun _ => f true := fun p =>
  h { p with bare := true }

theorem Writes.inParens (h : Writes closed write f) :
    Writes true (fun p => (write (p.put "(")).put ")") fun alone => Token.inParens (f alone) := by
  intro p
  obtain ⟨cs, htext, hlexes⟩ := h.put (spells_mark .rightParen (by decide)) (p.put "(")
  refine ⟨'(' :: cs, ?_, fun rest vs hrest hvs => ?_⟩
  · have hopen : (p.put "(").text.toList = p.text.toList ++ ['('] := String.toList_append
    rw [hopen, List.append_assoc] at htext
    exact htext
  · have hmark : Mark.leftParen ≠ .assign := by decide
    exact Lexes.mark hmark (hlexes rest vs hrest hvs)

theorem Writes.operand (assignment : Bool) (h : Writes closed write f) :
    Writes closed (Printer.operand assignment write) fun _ =>
      if assignment then Token.inParens (f false) else f false := by
  intro p
  cases assignment with
  | false => exact h { p with bare := false }
  | true => exact h.inParens.open { p with bare := false }

theorem Writes.grouped (h : Writes closed write f) :
    Writes closed (Printer.grouped write) fun alone =>
      if alone then f false else Token.inParens (f false) := by
  intro p
  have hparens : Writes closed (fun p => (write (p.put "(")).put ")") _ := h.inParens.open
  unfold Printer.grouped
  cases hbare : p.bare with
  | true => exact h { p with bare := false }
  | false =>
    have hp := hparens p
    rwa [hbare] at hp

theorem Writes.braced (h : Writes true write fun _ => ts) :
    Writes true (Printer.braced write) fun _ => inBraces ts := by
  intro p
  obtain ⟨cs, htext, hlexes⟩ := h { p.put "\x7b\n" with level := p.level + 1 }
  have hclose := writes_indent.then (writes_put (spells_mark .rightBrace (by decide)))
  let inner := write { p.put "\x7b\n" with level := p.level + 1 }
  obtain ⟨cs', htext', hlexes'⟩ := hclose { inner with level := inner.level - 1 }
  refine ⟨'\x7b' :: '\n' :: (cs ++ cs'), ?_, fun rest vs hrest hvs => ?_⟩
  · have hopen : (p.put "\x7b\n").text.toList = p.text.toList ++ ['\x7b', '\n'] :=
      String.toList_append
    rw [htext, hopen, List.append_assoc, List.append_assoc] at htext'
    exact htext'
  · have hmark : Mark.leftBrace ≠ .assign := by decide
    have hbody := hlexes _ _ (by simp) (hlexes' rest vs hrest hvs)
    have hlexes := Lexes.mark hmark (hbody.layout (.inr rfl))
    simp only [inBraces, List.cons_append, List.append_assoc, List.nil_append] at hlexes ⊢
    exact hlexes

theorem lexes_infinite (hseparate : isSeparate rest = true) (hrest : Lexes rest us) :
    Lexes ('1' :: List.replicate 309 '0' ++ rest) (.number (.infinite false) :: us) := by
  have hpart : ∀ c ∈ '1' :: List.replicate 309 '0', Numeral.isPart c = true := by
    rintro c (_ | ⟨_, hc⟩)
    · rfl
    · rw [List.eq_of_mem_replicate hc]
      rfl
  have hlexes := hrest.numeral (List.cons_ne_nil _ _) hpart hseparate
  rwa [Number.value_infinite] at hlexes

theorem lexes_finite (rank : Fin magnitudeCount) (hseparate : isSeparate rest = true)
    (hrest : Lexes rest us) :
    Lexes ((Number.text (.finite false rank)).toList ++ rest)
      (.number (.finite false rank) :: us) := by
  obtain ⟨hne, hpart⟩ := Number.isPart_text rank
  have hlexes := hrest.numeral hne hpart hseparate
  rwa [Number.value_text] at hlexes

theorem writes_literal {value : Literal} (h : Node.isSpelled (.expr (.literal value)) = true) :
    Writes false (Printer.put value.text) fun _ => value.tokens := by
  refine writes_of_lexes fun rest us hrest hus => ?_
  have hseparate := hrest rfl
  cases value with
  | str text =>
    have hquote : '"' ∉ text.toList := by simpa [Node.isSpelled] using h
    rw [Literal.text_str, String.toList_append, String.toList_append, List.append_assoc,
      List.append_assoc]
    exact hus.quoted hquote
  | number value =>
    cases value with
    | nan => exact hus.name (by decide) hseparate
    | infinite negative =>
      rw [Literal.text_infinite, String.toList_ofList]
      exact lexes_infinite hseparate hus
    | finite negative rank =>
      have hlexes := lexes_finite rank hseparate hus
      rw [Literal.text_finite]
      cases negative with
      | false => exact hlexes
      | true =>
        rw [Number.text_signed, String.toList_append, List.append_assoc]
        exact hlexes.sign

end Printer

open Printer Lexer

namespace Expr

theorem writes_alone {e : Expr}
    (h : Writes false e.write fun alone => e.tokens (alone || e.isAssign)) :
    Writes false (alone e.write) fun _ => e.tokens true :=
  h.alone

theorem writes_operand {e : Expr}
    (h : Writes false e.write fun alone => e.tokens (alone || e.isAssign)) :
    Writes false (operand e.isAssign e.write) fun _ => e.tokens false := by
  refine (h.operand e.isAssign).congr fun _ => ?_
  cases e <;> rfl

theorem listed_cons (ts : List Token) (runs : List (List Token)) :
    listed (ts :: runs) = ts ++ runs.flatMap (.mark .comma :: ·) := by
  induction runs generalizing ts with
  | nil => simp [listed]
  | cons us runs ih =>
    have hus := ih us
    simp only [listed] at hus
    simp [listed, hus]

mutual

theorem writes {e : Expr} (h : e.all Node.isSpelled = true) :
    Writes false e.write fun alone => e.tokens (alone || e.isAssign) := by
  cases e with
  | literal value => exact (writes_literal h).congr fun _ => rfl
  | «variable» name =>
    refine writes_of_lexes fun rest us hrest hus => ?_
    exact hus.name h (hrest rfl)
  | binary op left right =>
    simp only [all, Bool.and_eq_true] at h
    have hleft := writes_operand (writes h.1.2)
    have hright := writes_operand (writes h.2)
    have hinner := (hleft.put (spells_operator op)).then hright
    refine hinner.grouped.congr fun alone => ?_
    simp [tokens, isAssign]
  | assign target value =>
    simp only [all, Bool.and_eq_true] at h
    have htarget := writes_name h.1 spells_assign
    refine (htarget.then (writes_alone (writes h.2))).congr fun alone => ?_
    simp [tokens, isAssign]
  | call callee args =>
    simp only [all, Bool.and_eq_true] at h
    cases args with
    | nil =>
      have hparens : Spells "()" [.mark .leftParen, .mark .rightParen] :=
        (spells_mark .leftParen (by decide)).append (spells_mark .rightParen (by decide))
      exact (writes_name h.1 hparens).open.congr fun _ => rfl
    | cons arg args =>
      have hopen : Spells "(" [.mark .leftParen] := spells_mark .leftParen (by decide)
      have hcallee := writes_name h.1 hopen
      simp only [allArgs, Bool.and_eq_true] at h
      have hargs := writes_rest h.2.2 (hcallee.then (writes_alone (writes h.2.1)))
      have hcall := hargs.put (spells_mark .rightParen (by decide))
      refine hcall.open.congr fun _ => ?_
      simp [tokens, argTokens, inParens, listed_cons]

theorem writes_rest {args : List Expr} (h : allArgs Node.isSpelled args = true)
    {write : Printer → Printer} {ts : List Token} (hwrite : Writes false write fun _ => ts) :
    Writes false (fun p => writeRest args (write p)) fun _ =>
      ts ++ (argTokens args).flatMap (.mark .comma :: ·) := by
  cases args with
  | nil => exact hwrite.congr fun _ => by simp [argTokens]
  | cons arg args =>
    simp only [allArgs, Bool.and_eq_true] at h
    have hcomma := hwrite.put (spells_mark_blank .comma (by decide))
    have harg := hcomma.then (writes_alone (writes h.1))
    refine (writes_rest h.2 harg).congr fun _ => ?_
    simp [argTokens]

end

end Expr

namespace Stmt

theorem writes_condition (word : Keyword) {condition : Expr}
    (h : condition.all Node.isSpelled = true) :
    Writes true
      (fun p => ((p.indent.put (word.text ++ " (")).alone condition.write).put ") ")
      fun _ => .keyword word :: inParens (condition.tokens true) := by
  have hopen : Spells " (" [.mark .leftParen] :=
    spells_blank.append (spells_mark .leftParen (by decide))
  have hword := writes_indent.then (writes_keyword word hopen)
  have hcondition := hword.then (Expr.writes_alone (Expr.writes h))
  refine (hcondition.put (spells_mark_blank .rightParen (by decide))).congr fun _ => ?_
  simp [inParens]

theorem writes_header {name : String} {params : List String} (hname : isName name = true)
    (hparams : ∀ name ∈ params, isName name = true) :
    Writes true (put ("def " ++ name ++ "(" ++ ", ".intercalate params ++ ") "))
      fun _ => .keyword .defWord :: .ident name :: inParens (paramTokens params) := by
  refine writes_of_lexes fun rest us _ hus => ?_
  have hopen : Spells "(" [.mark .leftParen] := spells_mark .leftParen (by decide)
  have hclose : Spells ") " [.mark .rightParen] := spells_mark_blank .rightParen (by decide)
  have hlist := lexes_params hparams (hclose.separate rest) (hclose.lexes hus)
  have hnamed := lexes_name hname hopen hlist
  have hseparate : isSeparate (' ' :: ((name ++ "(").toList ++
      ((", ".intercalate params).toList ++ (") ".toList ++ rest)))) = true := rfl
  have hdef : isWord "def".toList = true := by decide
  have hword := (hnamed.layout (.inl rfl)).word hdef hseparate
  simp only [String.toList_append, inParens, List.append_assoc, List.cons_append] at hword ⊢
  exact hword

mutual

theorem writes {stmt : Stmt} (h : stmt.all Node.isSpelled = true) :
    Writes true stmt.write fun _ => stmt.tokens := by
  have hclose : Spells ";\n" [.mark .semicolon] := spells_mark_newline .semicolon (by decide)
  cases stmt with
  | expression e =>
    simp only [all, Bool.and_eq_true] at h
    exact (writes_indent.then (Expr.writes_alone (Expr.writes h.2))).put hclose
  | ret value =>
    simp only [all, Bool.and_eq_true] at h
    have hword := writes_indent.then (writes_keyword .returnWord spells_blank)
    have hvalue := hword.then (Expr.writes_alone (Expr.writes h.2))
    exact (hvalue.put hclose).congr fun _ => by simp [tokens]
  | loop condition body =>
    simp only [all, Bool.and_eq_true] at h
    have hbody := (writes_condition .whileWord h.1.2).then (writes_in h.2).braced
    exact (hbody.put spells_newline).congr fun _ => by simp [tokens]
  | conditional condition yes no =>
    cases no with
    | none =>
      simp only [all, Bool.and_eq_true] at h
      have hyes := (writes_condition .ifWord h.1.2).then (writes_in h.2).braced
      exact (hyes.put spells_newline).congr fun _ => by simp [tokens]
    | some no =>
      simp only [all, Bool.and_eq_true] at h
      have hyes := (writes_condition .ifWord h.1.1.2).then (writes_in h.1.2).braced
      have hno := (hyes.put spells_else).then (writes_in h.2).braced
      exact (hno.put spells_newline).congr fun _ => by simp [tokens]
  | define name params body =>
    simp only [all, Node.isSpelled, Bool.and_eq_true, List.all_eq_true] at h
    have hheader := writes_indent.then (writes_header h.1.1 h.1.2)
    have hbody := hheader.then (writes_in h.2).braced
    exact (hbody.put spells_newline).congr fun _ => by simp [tokens]

theorem writes_in {stmts : List Stmt} (h : allIn Node.isSpelled stmts = true) :
    Writes true (writeAll stmts) fun _ => tokensIn stmts := by
  cases stmts with
  | nil => exact fun p => ⟨[], by simp [writeAll], fun _ _ _ hrest => hrest⟩
  | cons stmt stmts =>
    simp only [allIn, Bool.and_eq_true] at h
    exact (writes h.1).then (writes_in h.2)

end

end Stmt

/-- The lexer reads the printed text of a program as its tokens. -/
theorem Block.supplies_print {program : Block}
    (h : Stmt.allIn Node.isSpelled program = true) (layout : Layout) :
    TokenSource.Supplies (Lexer.ofString (program.print layout)) program.tokens := by
  obtain ⟨cs, htext, hlexes⟩ := Stmt.writes_in h { layout }
  have hprint : (program.print layout).toList = cs := htext
  have hcs := hlexes [] [] (by simp) Lexes.nil
  rw [List.append_nil, List.append_nil, ← hprint] at hcs
  exact hcs 1 none

end Sapling
