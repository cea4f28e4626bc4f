import Mathlib.Data.List.Forall2
import Sapling.Proofs.WordRuns

/-!
# Highlighting and tokens

Where every run of word characters is a single token, the highlighter and the lexer read a line
alike (`highlight_agrees`): the words and strings that are shown are the tokens other than symbols,
each in the style of its kind, and the comment that is shown is the one that the lexer skips.
-/
namespace Sapling

/-- A token as it is read: the layout in front of it, its text, and what is behind it. -/
structure Lexer.Reading where
  layout : List Char
  lexeme : List Char
  token : Token
  behind : List Char

/-- The fetches of a lexer up to the end of the text, and the layout that the last one skips. -/
inductive Lexer.ReadsThrough : Lexer → List Reading → List Char → Prop
  | ends {lexer lexer' : Lexer} (fetched : fetch lexer = .ok false lexer') :
      ReadsThrough lexer [] lexer.rest
  | reads {lexer lexer' : Lexer} {reading : Reading} {others : List Reading} {last : List Char}
      (text : lexer.rest = reading.layout ++ (reading.lexeme ++ reading.behind))
      (skipped : (skipLayout false lexer.line lexer.rest).2 = reading.lexeme ++ reading.behind)
      (fetched : fetch lexer = .ok true lexer') (current : lexer'.current = some reading.token)
      (left : lexer'.rest = reading.behind) (more : ReadsThrough lexer' others last) :
      ReadsThrough lexer (reading :: others) last

/-- The comment that is skipped as a part of layout in a line. -/
def comment? (layout : List Char) : Option (List Char) :=
  if '#' ∈ layout then some (layout.dropWhile (· != '#')) else none

namespace Span

/-- A single character that is no part of a word. -/
def isSymbol (span : Span) : Bool :=
  match span.text with
  | [c] => !Highlight.isWordPart c && c != '"'
  | _ => false

def isComment (span : Span) : Bool :=
  span.text.head? == some '#'

def isToken (span : Span) : Bool :=
  !span.isSymbol && !span.isComment

/-- A span shows a token: it has its text, and a style that belongs to what the token is. -/
structure Shows (span : Span) (reading : Lexer.Reading) : Prop where
  text : span.text = reading.lexeme
  reads : Lexical.Lexeme span.text reading.token
  keyword : span.style = { fg := Palette.keyword, bold := true } ↔ ∃ k, reading.token = .keyword k
  number : span.style = { fg := Palette.number } ↔ ∃ value, reading.token = .number value
  string : span.style = { fg := Palette.string } ↔ ∃ text, reading.token = .str text
  quoted : ∀ text, reading.token = .str text → span.text = '"' :: (text.toList ++ ['"'])
  function : span.style = { fg := Palette.function } ↔
    (∃ name, reading.token = .ident name) ∧ reading.behind.head? = some '('
  plain : span.style = { fg := Palette.plain } ↔
    (∃ name, reading.token = .ident name) ∧ reading.behind.head? ≠ some '('

end Span

namespace Highlight

variable {cs rest : List Char}

theorem line_others (h : ∀ c ∈ cs, isOther c = true) :
    line (cs ++ rest) = cs.map (fun c => ⟨[c], symbolStyle c⟩) ++ line rest := by
  induction cs with
  | nil => rfl
  | cons c cs ih =>
    obtain ⟨hpart, hquote, hcomment⟩ := isOther_iff.mp (h c List.mem_cons_self)
    rw [List.cons_append, line_symbol hcomment hquote hpart,
      ih fun d hd => h d (List.mem_cons_of_mem c hd)]
    rfl

theorem comment_not_mem (h : ∀ c ∈ cs, isOther c = true) : '#' ∉ cs :=
  fun hmem => (isOther_iff.mp (h _ hmem)).2.2 rfl

theorem line_quoted {text : List Char} (h : '"' ∉ text) :
    line ('"' :: (text ++ ['"']) ++ rest) =
      ⟨'"' :: (text ++ ['"']), { fg := Palette.string }⟩ :: line rest := by
  rw [List.cons_append, line_string, quoted, behindQuoted, List.append_assoc,
    List.singleton_append, Lexer.takeWhile_bne h, Lexer.dropWhile_bne h]
  rfl

end Highlight

/-- The style of a token that is no symbol. -/
def Token.style (called : Bool) : Token → Style
  | .keyword _ => { fg := Palette.keyword, bold := true }
  | .number _ => { fg := Palette.number }
  | .str _ => { fg := Palette.string }
  | .ident _ | .operator _ | .mark _ =>
    if called then { fg := Palette.function } else { fg := Palette.plain }

section Styles

open Lexical

variable {lexeme rest layout : List Char} {t : Token}

theorem wordStyle_numeral (hne : lexeme ≠ []) (hall : ∀ c ∈ lexeme, Numeral.isPart c = true)
    (called : Bool) : Highlight.wordStyle lexeme called = { fg := Palette.number } := by
  obtain ⟨c, cs, rfl⟩ := List.exists_cons_of_ne_nil hne
  have hc := hall c List.mem_cons_self
  have hword : Keyword.ofText? (String.ofList (c :: cs)) = none := by
    rw [Keyword.ofText?, List.find?_eq_none]
    intro k _ hk
    have htext : k.text.toList = c :: cs := by
      rw [beq_iff_eq.mp hk, String.toList_ofList]
    obtain ⟨d, ds, hd, halpha, -⟩ := exists_cons_of_isWord (isWord_text k)
    obtain ⟨rfl, -⟩ := List.cons.inj (hd.symm.trans htext)
    exact Bool.false_ne_true ((Lexer.letter_ne halpha).2.2.2.2.symm.trans hc)
  rw [Highlight.wordStyle, hword, if_neg (by simp), if_pos (by simpa [Numeral.isPart] using hc)]

theorem wordStyle_word (h : Lexer.isWord lexeme = true) (called : Bool) :
    Highlight.wordStyle lexeme called = (Token.ofWord (String.ofList lexeme)).style called := by
  obtain ⟨c, cs, rfl, halpha, -⟩ := exists_cons_of_isWord h
  have hpart := (Lexer.letter_ne halpha).2.2.2.2
  have hhead : ((c :: cs).head?).any (fun c => c.isDigit || c == '.') = false := hpart
  rw [Highlight.wordStyle, Token.ofWord, hhead]
  cases Keyword.ofText? (String.ofList (c :: cs)) with
  | none => rfl
  | some k => rfl

/-- The styles tell the kinds of tokens apart. -/
theorem Token.style_eq_iff (ht : t.isSymbol = false) (called : Bool) :
    (t.style called = { fg := Palette.keyword, bold := true } ↔ ∃ k, t = .keyword k) ∧
      (t.style called = { fg := Palette.number } ↔ ∃ value, t = .number value) ∧
      (t.style called = { fg := Palette.string } ↔ ∃ text, t = .str text) ∧
      (t.style called = { fg := Palette.function } ↔ (∃ name, t = .ident name) ∧ called = true) ∧
      (t.style called = { fg := Palette.plain } ↔ (∃ name, t = .ident name) ∧ called = false) := by
  cases t with
  | operator _ | mark _ => cases ht
  | ident _ =>
    cases called <;>
      simp [Token.style, Palette.number, Palette.string, Palette.function, Palette.plain]
  | keyword _ | number _ | str _ =>
    simp [Token.style, Palette.keyword, Palette.number, Palette.string, Palette.function,
      Palette.plain]

theorem Span.shows_of_lexeme (h : Lexeme lexeme t) (ht : t.isSymbol = false) :
    Span.Shows ⟨lexeme, t.style (rest.head? == some '(')⟩ ⟨layout, lexeme, t, rest⟩ := by
  obtain ⟨hkeyword, hnumber, hstring, hfunction, hplain⟩ :=
    Token.style_eq_iff ht (rest.head? == some '(')
  rw [beq_iff_eq] at hfunction
  rw [beq_eq_false_iff_ne] at hplain
  refine ⟨rfl, h, hkeyword, hnumber, hstring, fun text htext => ?_, hfunction, hplain⟩
  obtain rfl : t = .str text := htext
  cases h with
  | quoted _ => rw [String.toList_ofList]

theorem Lexical.Kind.wordStyle_eq (h : Kind lexeme t)
    (hparts : ∀ c ∈ lexeme, Highlight.isWordPart c = true) (called : Bool) :
    Highlight.wordStyle lexeme called = t.style called := by
  cases h with
  | numeral some all => exact wordStyle_numeral some all called
  | word shape => exact wordStyle_word shape called
  | symbol mem =>
    obtain ⟨c, cs, rfl⟩ := List.exists_cons_of_ne_nil (symbols_parts _ mem).1
    have hother := Highlight.isOther_of_mem_symbols _ mem c List.mem_cons_self
    have hword := Highlight.not_isWordPart_of_isOther hother
    exact absurd (hparts c List.mem_cons_self) (by simp [hword])
  | quoted _ => exact absurd (hparts '"' List.mem_cons_self) (by decide)

end Styles

/-- The comments in the layout that is skipped, as they are shown. -/
def commentSpans (readings : List Lexer.Reading) (last : List Char) : List Span :=
  ((readings.map (·.layout) ++ [last]).filterMap comment?).map (⟨·, { fg := Palette.muted }⟩)

/-- A part of a line shows the tokens that are read there, and comments. -/
structure ShowsAll (spans : Line) (readings : List Lexer.Reading) (comments : List Span) :
    Prop where
  tokens : List.Forall₂ Span.Shows (spans.filter Span.isToken)
    (readings.filter (!·.token.isSymbol))
  comments : spans.filter Span.isComment = comments

section Lines

open Lexical

variable {cs lexeme rest layout last : List Char} {t : Token} {pieces : List Piece}

theorem ShowsAll.append {spans spans' : Line} {readings readings' : List Lexer.Reading}
    {comments comments' : List Span} (h : ShowsAll spans readings comments)
    (h' : ShowsAll spans' readings' comments') :
    ShowsAll (spans ++ spans') (readings ++ readings') (comments ++ comments') where
  tokens := by
    rw [List.filter_append, List.filter_append]
    exact List.rel_append h.tokens h'.tokens
  comments := by rw [List.filter_append, h.comments, h'.comments]

theorem showsAll_others (h : ∀ c ∈ cs, Highlight.isOther c = true)
    {readings : List Lexer.Reading} (hreadings : ∀ r ∈ readings, r.token.isSymbol = true) :
    ShowsAll (cs.map fun c => ⟨[c], Highlight.symbolStyle c⟩) readings [] := by
  have hother (c : Char) (hc : c ∈ cs) :
      Span.isToken ⟨[c], Highlight.symbolStyle c⟩ = false ∧
        Span.isComment ⟨[c], Highlight.symbolStyle c⟩ = false := by
    obtain ⟨hpart, hquote, hcomment⟩ := Highlight.isOther_iff.mp (h c hc)
    simp [Span.isToken, Span.isSymbol, Span.isComment, hpart, hquote, hcomment]
  have htokens : (cs.map fun c => (⟨[c], Highlight.symbolStyle c⟩ : Span)).filter Span.isToken =
      [] := by
    rw [List.filter_eq_nil_iff]
    intro span hspan
    obtain ⟨c, hc, rfl⟩ := List.mem_map.mp hspan
    simp [(hother c hc).1]
  have hnone : readings.filter (!·.token.isSymbol) = [] := by
    rw [List.filter_eq_nil_iff]
    intro r hr
    simp [hreadings r hr]
  constructor
  · rw [htokens, hnone]
    exact .nil
  · rw [List.filter_eq_nil_iff]
    intro span hspan
    obtain ⟨c, hc, rfl⟩ := List.mem_map.mp hspan
    simp [(hother c hc).2]

theorem showsAll_layout (h : ∀ c ∈ cs, Highlight.isOther c = true) :
    ShowsAll (cs.map fun c => ⟨[c], Highlight.symbolStyle c⟩) [] [] :=
  showsAll_others h fun _ hr => absurd hr List.not_mem_nil

theorem showsAll_token {span : Span} {reading : Lexer.Reading} {c : Char}
    (hshows : span.Shows reading) (hspan : span.text.head? = some c)
    (hc : Highlight.isWordPart c = true ∨ c = '"') (ht : reading.token.isSymbol = false) :
    ShowsAll [span] [reading] [] := by
  have hcomment : span.isComment = false := by
    rw [Span.isComment, hspan, beq_eq_false_iff_ne]
    rintro ⟨⟩
    rcases hc with hc | hc <;> exact absurd hc (by decide)
  have hsymbol : span.isSymbol = false := by
    rw [Span.isSymbol]
    split
    · next d htext =>
      obtain rfl : d = c := by simpa [htext] using hspan
      rcases hc with hc | rfl
      · simp [hc]
      · simp
    · rfl
  constructor
  · rw [List.filter_cons_of_pos (by simp [Span.isToken, hcomment, hsymbol]),
      List.filter_cons_of_pos (by simp [ht])]
    exact .cons hshows .nil
  · rw [List.filter_cons_of_neg (by simp [hcomment])]
    rfl

/-- The spans of a token show the token. -/
theorem Lexical.Longest.exists_spans (h : Longest lexeme t (lexeme ++ rest))
    (hends : (∀ c ∈ lexeme, Highlight.isWordPart c = true) →
      ∀ c ∈ rest.head?, Highlight.isWordPart c = false) (layout : List Char) :
    ∃ spans, Highlight.line (lexeme ++ rest) = spans ++ Highlight.line rest ∧
      ShowsAll spans [⟨layout, lexeme, t, rest⟩] [] := by
  let style := t.style (rest.head? == some '(')
  have hshows (ht : t.isSymbol = false) :
      Span.Shows ⟨lexeme, style⟩ ⟨layout, lexeme, t, rest⟩ := Span.shows_of_lexeme h.reads ht
  rcases h.reads.kind.cases_parts with ⟨hsymbol, hothers⟩ | ⟨hword, hparts⟩ |
    ⟨text, hclosed, rfl, rfl⟩
  · exact ⟨_, Highlight.line_others hothers, showsAll_others hothers (by simpa using hsymbol)⟩
  · obtain ⟨c, cs, rfl⟩ := h.reads.exists_cons
    refine ⟨[⟨c :: cs, style⟩], ?_,
      showsAll_token (hshows hword) rfl (.inl (hparts c List.mem_cons_self)) hword⟩
    rw [Highlight.line_word hparts (List.cons_ne_nil c cs) (hends hparts),
      h.reads.kind.wordStyle_eq hparts]
    rfl
  · exact ⟨[⟨_, style⟩], Highlight.line_quoted hclosed,
      showsAll_token (hshows rfl) rfl (.inr rfl) rfl⟩

theorem comment?_others (h : ∀ c ∈ cs, Highlight.isOther c = true) : comment? cs = none := by
  rw [comment?, if_neg (Highlight.comment_not_mem h)]

theorem showsAll_final (h : IsFinalLayout last) (hnewline : '\n' ∉ last) :
    ShowsAll (Highlight.line last) [] (commentSpans [] last) := by
  cases h with
  | closed all =>
    have hothers := isOther_of_layout all hnewline
    have hline := @Highlight.line_others last [] hothers
    rw [Highlight.line, List.append_nil, List.append_nil] at hline
    have hnone : commentSpans [] last = [] := by simp [commentSpans, comment?_others hothers]
    rw [hline, hnone]
    exact showsAll_layout hothers
  | @comment layout body before _ =>
    rw [List.mem_append, not_or] at hnewline
    have hothers := isOther_of_layout before hnewline.1
    have hdrop : (layout ++ '#' :: body).dropWhile (· != '#') = '#' :: body :=
      Lexer.dropWhile_bne (Highlight.comment_not_mem hothers)
    have hcomment : commentSpans [] (layout ++ '#' :: body) =
        [] ++ [⟨'#' :: body, { fg := Palette.muted }⟩] := by
      simp [commentSpans, comment?, hdrop]
    rw [Highlight.line_others hothers, Highlight.line_comment, hcomment]
    refine (showsAll_layout hothers).append ⟨?_, ?_⟩
    · simp [Span.isToken, Span.isComment]
    · simp [Span.isComment]

theorem Lexical.skipLayout_longest (hlayout : IsLayout layout)
    (h : Longest lexeme t (lexeme ++ rest)) (line : Nat) :
    (Lexer.skipLayout false line (layout ++ (lexeme ++ rest))).2 = lexeme ++ rest := by
  obtain ⟨c, cs, rfl⟩ := h.reads.exists_cons
  obtain ⟨hspace, hcomment⟩ := h.reads.not_layout
  rw [skipLayout_layout hlayout, List.cons_append, skipLayout_of_ne hspace hcomment]

/-- The highlighter and the lexer go over a line alike. -/
theorem Lexical.Split.highlighted (h : Split cs pieces (.finished last)) (hnewline : '\n' ∉ cs)
    (hruns : RunsAreTokens cs) (line : Nat) (current : Option Token) :
    ∃ readings, Lexer.ReadsThrough ⟨cs, line, current⟩ readings last ∧
      readings.map (·.token) = pieces.map Piece.token ∧
      ShowsAll (Highlight.line cs) readings (commentSpans readings last) := by
  generalize hstop : Stop.finished last = stop at h
  induction h generalizing line current with
  | stop valid =>
    subst hstop
    have hfetch : Lexer.fetch ⟨last, line, current⟩ =
        .ok false ⟨[], line + last.count '\n', current⟩ := fetch_stop valid line current
    exact ⟨[], .ends hfetch, rfl, showsAll_final valid hnewline⟩
  | @token piece pieces stop rest hlayout longest _ ih =>
    simp only [List.mem_append, not_or] at hnewline
    have hothers := isOther_of_layout hlayout hnewline.1
    obtain ⟨readings, hreads, htokens, hshows⟩ := ih hnewline.2.2
      (longest.runs_behind hothers hruns) (line + (piece.layout ++ piece.lexeme).count '\n')
      (some piece.token) hstop
    let reading : Lexer.Reading := ⟨piece.layout, piece.lexeme, piece.token, rest⟩
    obtain ⟨spans, hspans, hshown⟩ :=
      longest.exists_spans (longest.ends_run hruns hothers) piece.layout
    refine ⟨reading :: readings, ?_, ?_, ?_⟩
    · exact .reads rfl (skipLayout_longest hlayout longest line)
        (fetch_token hlayout longest line current) rfl rfl hreads
    · rw [List.map_cons, List.map_cons, htokens]
    · have hcomments : commentSpans (reading :: readings) last =
          [] ++ ([] ++ commentSpans readings last) := by
        simp [commentSpans, reading, comment?_others hothers]
      rw [Highlight.line_others hothers, hspans, hcomments]
      exact (showsAll_layout hothers).append (hshown.append hshows)

end Lines

/-- The highlighter and the lexer agree on a line that is made of tokens, if each of its words is a
single token: the spans other than single characters and the comment show the tokens other than
symbols one by one and in order, and there is a comment span exactly where the lexer skips a
comment, with the same text. -/
theorem highlight_agrees {line : String} {tokens : List Token} (hnewline : '\n' ∉ line.toList)
    (htokens : (Lexer.ofString line).tokenize = .ok tokens) (hruns : RunsAreTokens line.toList) :
    ∃ spans readings last, (highlight line).run = some (.ok spans) ∧
      Lexer.ReadsThrough (Lexer.ofString line) readings last ∧
      tokens = readings.map (·.token) ∧
      List.Forall₂ Span.Shows (spans.filter Span.isToken)
        (readings.filter (!·.token.isSymbol)) ∧
      spans.filter Span.isComment = commentSpans readings last := by
  obtain ⟨pieces, last, hsplit, rfl⟩ := Lexer.exists_split_of_tokenize htokens
  obtain ⟨readings, hreads, hsame, hshows⟩ := hsplit.highlighted hnewline hruns 1 none
  exact ⟨_, readings, last, highlight_eq line, hreads, hsame.symm, hshows.tokens, hshows.comments⟩

/-- Points and digits in strings and comments are no words. -/
theorem highlight_agrees_call : ∃ spans readings last,
    (highlight "if f(2.5, \"a.b\") x1 # 1x").run = some (.ok spans) ∧
      Lexer.ReadsThrough (Lexer.ofString "if f(2.5, \"a.b\") x1 # 1x") readings last ∧
      [.keyword .ifWord, .ident "f", .mark .leftParen, .number (.nearest 25 10), .mark .comma,
        .str "a.b", .mark .rightParen, .ident "x1"] = readings.map (·.token) ∧
      List.Forall₂ Span.Shows (spans.filter Span.isToken)
        (readings.filter (!·.token.isSymbol)) ∧
      spans.filter Span.isComment = commentSpans readings last :=
  highlight_agrees (by decide +kernel) (by decide +kernel) (by decide +kernel)

end Sapling
