import Sapling.Proofs.LexicalGrammar

/-!
# One step of the lexer

What a fetch does, given how the text goes on by the grammar of tokens: behind layout it takes the
longest lexeme (`fetch_token`), and where there is none it stops (`fetch_stop`). One of the two
cases holds of every text (`exists_step`), and the lexer tells where the pieces end, so that a text
splits in one way (`Split.unique`).
-/
namespace Sapling

namespace Lexical

open Lexer

variable {c : Char} {cs lexeme rest : List Char} {t : Token}

theorem mem_symbols_operator (op : Operator) : (op.symbol.toList, Token.operator op) ∈ symbols := by
  cases op <;> decide

theorem mem_symbols_mark (m : Mark) : (m.text.toList, Token.mark m) ∈ symbols := by
  cases m <;> decide

theorem ofWord_text (k : Keyword) : Token.ofWord k.text = .keyword k := by
  cases k <;> decide

theorem isWord_text (k : Keyword) : isWord k.text.toList = true := by
  cases k <;> decide

theorem ofWord_of_free {word : String} (h : ∀ k : Keyword, k.text.toList ≠ word.toList) :
    Token.ofWord word = .ident word := by
  have hnone : Keyword.ofText? word = none := by
    rw [Keyword.ofText?, List.find?_eq_none]
    intro k _ hk
    exact h k (congrArg String.toList (beq_iff_eq.mp hk))
  rw [Token.ofWord, hnone]

/-- What a lexeme can be, by its first character. -/
inductive Kind : List Char → Token → Prop
  | numeral {run : List Char} (some : run ≠ []) (all : ∀ c ∈ run, Numeral.isPart c = true) :
      Kind run (.number (Numeral.value run))
  | word {word : List Char} (shape : isWord word = true) :
      Kind word (.ofWord (String.ofList word))
  | symbol {text : List Char} {t : Token} (mem : (text, t) ∈ symbols) : Kind text t
  | quoted {text : List Char} (closed : '"' ∉ text) :
      Kind ('"' :: (text ++ ['"'])) (.str (String.ofList text))

theorem Lexeme.kind (h : Lexeme lexeme t) : Kind lexeme t := by
  cases h with
  | numeral some all worth =>
    rw [worth.unique (runValue_value all)]
    exact .numeral some all
  | @name word shape free =>
    have hword := Kind.word shape
    rwa [ofWord_of_free (by simpa using free)] at hword
  | keyword k =>
    have hword := Kind.word (isWord_text k)
    rwa [String.ofList_toList, ofWord_text] at hword
  | operator op => exact .symbol (mem_symbols_operator op)
  | mark m => exact .symbol (mem_symbols_mark m)
  | quoted closed => exact .quoted closed

theorem lexeme_numeral (some : lexeme ≠ []) (all : ∀ c ∈ lexeme, Numeral.isPart c = true) :
    Lexeme lexeme (.number (Numeral.value lexeme)) :=
  .numeral some all (runValue_value all)

theorem lexeme_word (shape : isWord lexeme = true) :
    Lexeme lexeme (.ofWord (String.ofList lexeme)) := by
  by_cases h : ∃ k : Keyword, k.text.toList = lexeme
  · obtain ⟨k, rfl⟩ := h
    rw [String.ofList_toList, ofWord_text]
    exact .keyword k
  · have hfree : ∀ k : Keyword, k.text.toList ≠ lexeme := not_exists.mp h
    rw [ofWord_of_free (by simpa using hfree)]
    exact .name shape hfree

theorem symbols_cases (mem : (lexeme, t) ∈ symbols) :
    (∃ op : Operator, lexeme = op.symbol.toList ∧ t = .operator op) ∨
      ∃ m : Mark, lexeme = m.text.toList ∧ t = .mark m := by
  rcases List.mem_append.mp mem with hop | hmark
  · obtain ⟨op, -, heq⟩ := List.mem_map.mp hop
    obtain ⟨rfl, rfl⟩ := Prod.mk.inj heq
    exact .inl ⟨op, rfl, rfl⟩
  · obtain ⟨m, -, heq⟩ := List.mem_map.mp hmark
    obtain ⟨rfl, rfl⟩ := Prod.mk.inj heq
    exact .inr ⟨m, rfl, rfl⟩

theorem lexeme_symbol (mem : (lexeme, t) ∈ symbols) : Lexeme lexeme t := by
  rcases symbols_cases mem with ⟨op, rfl, rfl⟩ | ⟨m, rfl, rfl⟩
  · exact .operator op
  · exact .mark m

theorem exists_cons_of_isWord (h : isWord lexeme = true) :
    ∃ c cs, lexeme = c :: cs ∧ c.isAlpha = true ∧ ∀ d ∈ c :: cs, isWordPart d = true := by
  cases lexeme with
  | nil => simp [isWord] at h
  | cons c cs =>
    simp only [isWord, Bool.and_eq_true, List.all_eq_true] at h
    refine ⟨c, cs, rfl, h.1, ?_⟩
    rintro d (_ | ⟨_, hd⟩)
    · simp [isWordPart, Char.isAlphanum, h.1]
    · exact h.2 d hd

theorem isSpace_eq_false (h : c ≠ '\n') (h' : isBlank c = false) : isSpace c = false := by
  simp_all [isSpace, isBlank]

/-- The characters that a symbol is made of begin no other kind of lexeme and no layout. -/
def isSymbolPart (c : Char) : Bool :=
  c != '"' && !Numeral.isPart c && !c.isAlpha && !isSpace c && c != '#'

theorem symbols_parts : ∀ entry ∈ symbols, entry.1 ≠ [] ∧ ∀ c ∈ entry.1, isSymbolPart c = true := by
  have hall : ∀ entry ∈ symbols, entry.1 ≠ [] ∧ entry.1.all isSymbolPart = true := by decide
  simpa only [List.all_eq_true] using hall

theorem symbols_single : ∀ entry ∈ symbols, ∀ c ∈ entry.1.head?, ∃ entry' ∈ symbols,
    entry'.1 = [c] := by
  have hall : ∀ entry ∈ symbols,
      entry.1.head?.all (fun c => symbols.any (·.1 == [c])) = true := by
    decide
  simpa only [Option.all_eq_true, List.any_eq_true, beq_iff_eq, Option.mem_def] using hall

theorem Lexeme.exists_cons (h : Lexeme lexeme t) : ∃ c cs, lexeme = c :: cs := by
  refine List.exists_cons_of_ne_nil ?_
  cases h.kind with
  | numeral some _ => exact some
  | word shape =>
    obtain ⟨c, cs, rfl, -⟩ := exists_cons_of_isWord shape
    exact List.cons_ne_nil c cs
  | symbol mem => exact (symbols_parts _ mem).1
  | quoted _ => exact List.cons_ne_nil _ _

theorem Lexeme.not_layout (h : Lexeme (c :: cs) t) : isSpace c = false ∧ c ≠ '#' := by
  generalize hlexeme : c :: cs = lexeme at h
  cases h.kind with
  | numeral _ all =>
    obtain ⟨hnewline, hcomment, hblank, -⟩ := part_ne (all c (by simp [← hlexeme]))
    exact ⟨isSpace_eq_false hnewline hblank, hcomment⟩
  | word shape =>
    obtain ⟨d, ds, rfl, halpha, -⟩ := exists_cons_of_isWord shape
    obtain ⟨rfl, -⟩ := List.cons.inj hlexeme
    obtain ⟨hnewline, hcomment, hblank, -⟩ := letter_ne halpha
    exact ⟨isSpace_eq_false hnewline hblank, hcomment⟩
  | symbol mem =>
    have := (symbols_parts _ mem).2 c (by simp [← hlexeme])
    simp_all [isSymbolPart]
  | quoted _ =>
    obtain ⟨rfl, -⟩ := List.cons.inj hlexeme
    exact ⟨rfl, by decide⟩

/-- The first character of a lexeme is one itself, unless it is a quote. -/
theorem Lexeme.single (h : Lexeme (c :: cs) t) (hc : c ≠ '"') : ∃ t', Lexeme [c] t' := by
  generalize hlexeme : c :: cs = lexeme at h
  cases h.kind with
  | numeral _ all => exact ⟨_, lexeme_numeral (List.cons_ne_nil c []) (by simp [all c, ← hlexeme])⟩
  | word shape =>
    obtain ⟨d, ds, rfl, halpha, -⟩ := exists_cons_of_isWord shape
    obtain ⟨rfl, -⟩ := List.cons.inj hlexeme
    exact ⟨_, lexeme_word (by simp [isWord, halpha])⟩
  | symbol mem =>
    obtain ⟨⟨text, t'⟩, hmem, rfl⟩ := symbols_single _ mem c (by simp [← hlexeme])
    exact ⟨t', lexeme_symbol hmem⟩
  | quoted _ => exact absurd (List.cons.inj hlexeme).1 hc

/-- Where a text begins with a lexeme, it has a longest one. -/
theorem exists_longest (h : Lexeme lexeme t) (hpre : lexeme <+: cs) :
    ∃ lexeme' t', Longest lexeme' t' cs := by
  -- The lengths of the lexemes are bounded by that of the text.
  induction hn : cs.length - lexeme.length using Nat.strongRecOn generalizing lexeme t with
  | ind n ih =>
    by_cases hlonger : ∃ lexeme' t', Lexeme lexeme' t' ∧ lexeme' <+: cs ∧
        lexeme.length < lexeme'.length
    · obtain ⟨lexeme', t', h', hpre', hlt⟩ := hlonger
      have := hpre'.length_le
      exact ih (cs.length - lexeme'.length) (by omega) h' hpre' rfl
    · refine ⟨lexeme, t, h, hpre, fun lexeme' t' h' hpre' => Nat.le_of_not_lt fun hlt => ?_⟩
      exact hlonger ⟨lexeme', t', h', hpre', hlt⟩

theorem Longest.eq {lexeme' : List Char} {t' : Token} (h : Longest lexeme t cs)
    (h' : Longest lexeme' t' cs) : lexeme = lexeme' := by
  have hle := h'.longest _ _ h.reads h.begins
  have hle' := h.longest _ _ h'.reads h'.begins
  exact (List.prefix_of_prefix_length_le h.begins h'.begins hle).eq_of_length
    (Nat.le_antisymm hle hle')

/-- The characters with which the text of a token goes on. -/
def goesOn : Token → Char → Bool
  | .number _, c => Numeral.isPart c
  | .ident _, c | .keyword _, c => isWordPart c
  | .operator .lt, c | .operator .gt, c | .mark .assign, c => c == '='
  | _, _ => false

/-- A token is not read further into this text. -/
def Stops (t : Token) (rest : List Char) : Prop :=
  ∀ c ∈ rest.head?, goesOn t c = false

theorem goesOn_ofWord (word : String) (c : Char) : goesOn (.ofWord word) c = isWordPart c := by
  rw [Token.ofWord]
  split <;> rfl

theorem Lexeme.exists_longer (h : Lexeme lexeme t) (hc : goesOn t c = true) :
    ∃ t', Lexeme (lexeme ++ [c]) t' := by
  cases h.kind with
  | numeral _ all =>
    refine ⟨_, lexeme_numeral (by simp) fun d hd => ?_⟩
    rcases List.mem_append.mp hd with hd | hd
    · exact all d hd
    · rwa [List.mem_singleton.mp hd]
  | word shape =>
    rw [goesOn_ofWord] at hc
    obtain ⟨d, ds, rfl, -⟩ := exists_cons_of_isWord shape
    exact ⟨_, lexeme_word (by simp_all [isWord])⟩
  | symbol mem =>
    rcases symbols_cases mem with ⟨op, rfl, rfl⟩ | ⟨m, rfl, rfl⟩
    · cases op <;> simp only [goesOn, beq_iff_eq, Bool.false_eq_true] at hc
      · subst hc
        exact ⟨_, .operator .le⟩
      · subst hc
        exact ⟨_, .operator .ge⟩
    · cases m <;> simp only [goesOn, beq_iff_eq, Bool.false_eq_true] at hc
      subst hc
      exact ⟨_, .operator .eq⟩
  | quoted _ => simp [goesOn] at hc

/-- Behind the longest lexeme there is no character with which it goes on. -/
theorem Longest.stops (h : Longest lexeme t (lexeme ++ rest)) : Stops t rest := by
  intro c hc
  obtain ⟨rest, rfl⟩ := List.head?_eq_some_iff.mp hc
  rw [Bool.eq_false_iff]
  intro hgoes
  obtain ⟨t', ht'⟩ := h.reads.exists_longer hgoes
  have := h.longest _ _ ht' ⟨rest, by simp⟩
  simp at this

theorem symbol?_equals {cs : List Char} (h : cs.head? ≠ some '=') :
    symbol? ('=' :: cs) = some (.mark .assign, cs) ∧
      symbol? ('<' :: cs) = some (.operator .lt, cs) ∧
      symbol? ('>' :: cs) = some (.operator .gt, cs) := by
  cases cs with
  | nil => exact ⟨rfl, rfl, rfl⟩
  | cons c cs =>
    have hc : '=' ≠ c := by simpa [eq_comm] using h
    have hpre : ∀ d, List.isPrefixOf [d, '='] (d :: c :: cs) = false := by
      intro d
      simp [List.isPrefixOf, hc]
    simp [symbol?, symbols, Operator.all, Operator.symbol, Mark.all, Mark.text, hpre]

theorem symbol?_append (mem : (lexeme, t) ∈ symbols) (h : Stops t rest) :
    symbol? (lexeme ++ rest) = some (t, rest) := by
  have hne (hgoes : goesOn t '=' = true) : rest.head? ≠ some '=' := fun hhead => by
    simp [h '=' hhead] at hgoes
  rcases symbols_cases mem with ⟨op, rfl, rfl⟩ | ⟨m, rfl, rfl⟩
  · cases op with
    | lt => exact (symbol?_equals (hne rfl)).2.1
    | gt => exact (symbol?_equals (hne rfl)).2.2
    | add | sub | mul | div | mod | eq | le | ge => rfl
  · cases m with
    | assign => exact (symbol?_equals (hne rfl)).1
    | leftParen | rightParen | leftBrace | rightBrace | semicolon | comma => rfl

theorem symbol?_of_none (h : ∀ lexeme t, Lexeme lexeme t → ¬ lexeme <+: cs) :
    symbol? cs = none := by
  rw [symbol?, Option.map_eq_none_iff, List.find?_eq_none]
  intro entry hmem hpre
  exact h _ _ (lexeme_symbol hmem) (List.isPrefixOf_iff_prefix.mp hpre)

theorem count_eq_zero_of_all {p : Char → Bool} (hall : ∀ c ∈ cs, p c = true)
    (hp : p '\n' = false) : cs.count '\n' = 0 :=
  List.count_eq_zero.mpr fun hmem => Bool.false_ne_true (hp.symm.trans (hall _ hmem))

/-- A lexeme is taken where the text does not go on with it. -/
theorem readToken_of_stops (h : Lexeme (c :: cs) t) (hstops : Stops t rest) (lexer : Lexer) :
    readToken lexer c (cs ++ rest) =
      .ok true ⟨rest, lexer.line + (c :: cs).count '\n', some t⟩ := by
  generalize hlexeme : c :: cs = lexeme at h
  cases h.kind with
  | numeral some all =>
    subst hlexeme
    have hpart := all c List.mem_cons_self
    obtain ⟨-, -, -, hquote⟩ := part_ne hpart
    have htake := takeWhile_append_eq all hstops
    have hdrop := dropWhile_append_eq all hstops
    rw [List.cons_append] at htake hdrop
    rw [count_eq_zero_of_all all rfl]
    simp only [readToken, hquote, hpart, htake, hdrop, if_false, if_true, Nat.add_zero]
  | word shape =>
    have hstop : ∀ c ∈ rest.head?, isWordPart c = false := fun c hc =>
      (goesOn_ofWord _ c).symm.trans (hstops c hc)
    obtain ⟨d, ds, rfl, halpha, hall⟩ := exists_cons_of_isWord shape
    obtain ⟨rfl, rfl⟩ := List.cons.inj hlexeme
    obtain ⟨-, -, -, hquote, hpart⟩ := letter_ne halpha
    have htake := takeWhile_append_eq hall hstop
    have hdrop := dropWhile_append_eq hall hstop
    rw [List.cons_append] at htake hdrop
    rw [count_eq_zero_of_all hall rfl]
    simp only [readToken, hquote, hpart, halpha, htake, hdrop, Bool.false_eq_true, if_false,
      if_true, Nat.add_zero]
  | symbol mem =>
    have hsymbol := symbol?_append mem hstops
    have hparts := (symbols_parts _ mem).2
    subst hlexeme
    have hc := hparts c List.mem_cons_self
    simp only [isSymbolPart, Bool.and_eq_true, bne_iff_ne, Bool.not_eq_true'] at hc
    rw [List.cons_append] at hsymbol
    rw [count_eq_zero_of_all hparts rfl]
    simp [readToken, hc, hsymbol]
  | @quoted text closed =>
    obtain ⟨rfl, rfl⟩ := List.cons.inj hlexeme
    simp [readToken, takeWhile_bne closed, dropWhile_bne closed]

/-- The lexer takes the longest lexeme. -/
theorem readToken_longest (h : Longest (c :: cs) t (c :: cs ++ rest)) (lexer : Lexer) :
    readToken lexer c (cs ++ rest) =
      .ok true ⟨rest, lexer.line + (c :: cs).count '\n', some t⟩ :=
  readToken_of_stops h.reads h.stops lexer

theorem Lexeme.longest (h : Lexeme lexeme t) (hstops : Stops t rest) :
    Longest lexeme t (lexeme ++ rest) := by
  obtain ⟨lexeme', t', hlongest⟩ := exists_longest h ⟨rest, rfl⟩
  obtain ⟨rest', hrest⟩ := hlongest.begins
  -- The lexer takes both, and leaves the same text behind them.
  obtain ⟨c, cs, rfl⟩ := h.exists_cons
  obtain ⟨d, ds, rfl⟩ := hlongest.reads.exists_cons
  rw [← hrest] at hlongest
  obtain ⟨rfl, htail⟩ : d = c ∧ ds ++ rest' = cs ++ rest := List.cons.inj hrest
  have hread := readToken_longest hlongest ⟨[], 0, none⟩
  have hread' := readToken_of_stops h hstops ⟨[], 0, none⟩
  rw [htail, hread'] at hread
  simp only [EStateM.Result.ok.injEq, Lexer.mk.injEq, true_and, Option.some.injEq] at hread
  obtain ⟨rfl, -, rfl⟩ := hread
  rw [List.append_cancel_right htail] at hlongest
  exact hlongest

theorem Longest.token_eq {t' : Token} (h : Longest lexeme t (lexeme ++ rest))
    (h' : Longest lexeme t' (lexeme ++ rest)) : t = t' := by
  obtain ⟨c, cs, rfl⟩ := h.reads.exists_cons
  have hread := readToken_longest h ⟨[], 0, none⟩
  rw [readToken_longest h'] at hread
  simpa using hread.symm

theorem skipLayout_comment {body : List Char} (h : '\n' ∉ body) (line : Nat) :
    skipLayout true line (body ++ cs) = skipLayout true line cs := by
  induction body with
  | nil => rfl
  | cons c body ih =>
    obtain ⟨hc, hbody⟩ := not_or.mp (List.mem_cons.not.mp h)
    rw [List.cons_append, skipLayout, if_neg (Ne.symm hc), if_pos rfl, ih hbody]

theorem skipLayout_layout {layout : List Char} (h : IsLayout layout) (line : Nat) :
    skipLayout false line (layout ++ cs) =
      skipLayout false (line + layout.count '\n') cs := by
  induction h generalizing line with
  | nil => rfl
  | @space c others space _ ih =>
    by_cases hc : c = '\n'
    · subst hc
      rw [List.cons_append, skipLayout, if_pos rfl, ih, List.count_cons_self]
      congr 1
      omega
    · have hcomment : c ≠ '#' := by
        rintro rfl
        simp [isSpace] at space
      have hblank : isBlank c = true := by
        simp only [isSpace, Bool.or_eq_true, beq_iff_eq, hc, or_false] at space
        simpa only [isBlank, Bool.or_eq_true, beq_iff_eq, or_right_comm] using space
      simp [skipLayout, hc, hcomment, hblank, ih]
  | @comment body others hline _ ih =>
    have hbody : body.count '\n' = 0 := List.count_eq_zero.mpr hline
    have hnext : skipLayout false line ('#' :: (body ++ '\n' :: others) ++ cs) =
        skipLayout true line (body ++ '\n' :: (others ++ cs)) := by simp [skipLayout]
    rw [hnext, skipLayout_comment hline, skipLayout, if_pos rfl, ih]
    congr 1
    simp [hbody]
    omega

theorem skipLayout_final {layout : List Char} (h : IsFinalLayout layout) (line : Nat) :
    skipLayout false line layout = (line + layout.count '\n', []) := by
  cases h with
  | closed all =>
    have hskip := @skipLayout_layout [] layout all line
    rwa [List.append_nil] at hskip
  | @comment layout body before hline =>
    have hbody := @skipLayout_comment [] body hline (line + layout.count '\n')
    rw [List.append_nil] at hbody
    rw [skipLayout_layout before]
    simpa [skipLayout, List.count_eq_zero.mpr hline] using hbody

theorem skipLayout_of_ne (h : isSpace c = false) (h' : c ≠ '#') (line : Nat) :
    skipLayout false line (c :: cs) = (line, c :: cs) := by
  have hne : c ≠ '\n' ∧ isBlank c = false := by
    constructor
    · rintro rfl
      simp [isSpace] at h
    · simp_all [isSpace, isBlank]
  simp [skipLayout, hne, h']

theorem IsLayout.append {layout more : List Char} (h : IsLayout layout) (hmore : IsLayout more) :
    IsLayout (layout ++ more) := by
  induction h with
  | nil => exact hmore
  | space hspace _ ih => exact .space hspace ih
  | comment hline _ ih =>
    rw [List.cons_append, List.append_assoc, List.cons_append]
    exact .comment hline ih

theorem IsLayout.append_final {layout final : List Char} (h : IsLayout layout)
    (hfinal : IsFinalLayout final) : IsFinalLayout (layout ++ final) := by
  cases hfinal with
  | closed all => exact .closed (h.append all)
  | comment before hline =>
    rw [← List.append_assoc]
    exact .comment (h.append before) hline

theorem exists_layout (cs : List Char) :
    IsFinalLayout cs ∨ ∃ layout c others, cs = layout ++ c :: others ∧ IsLayout layout ∧
      isSpace c = false ∧ c ≠ '#' := by
  induction hn : cs.length using Nat.strongRecOn generalizing cs with
  | ind n ih =>
    subst hn
    -- A first piece of layout is followed by a shorter text.
    have hbehind (first others : List Char)
        (hfirst : ∀ {more}, IsLayout more → IsLayout (first ++ more))
        (hcs : cs = first ++ others) (hlt : others.length < cs.length) :
        IsFinalLayout cs ∨ ∃ layout c others, cs = layout ++ c :: others ∧ IsLayout layout ∧
          isSpace c = false ∧ c ≠ '#' := by
      subst hcs
      rcases ih others.length hlt others rfl with hfinal | ⟨layout, c, behind, rfl, hlayout, hc⟩
      · have happend := (hfirst .nil).append_final hfinal
        rw [List.append_nil] at happend
        exact .inl happend
      · exact .inr ⟨first ++ layout, c, behind, by simp, hfirst hlayout, hc⟩
    cases cs with
    | nil => exact .inl (.closed .nil)
    | cons c cs =>
      by_cases hspace : isSpace c = true
      · exact hbehind [c] cs (fun hmore => .space hspace hmore) rfl (Nat.lt_succ_self _)
      · by_cases hc : c = '#'
        · subst hc
          by_cases hline : '\n' ∈ cs
          · obtain ⟨body, others, rfl, hbody⟩ := List.eq_append_cons_of_mem hline
            refine hbehind ('#' :: (body ++ ['\n'])) others ?_ (by simp) (by simp; omega)
            intro more hmore
            simpa using IsLayout.comment hbody hmore
          · exact .inl (.comment .nil hline)
        · exact .inr ⟨[], c, cs, rfl, .nil, by simpa using hspace, hc⟩

theorem readToken_unterminated {text : List Char} (h : '"' ∉ text) (lexer : Lexer) :
    readToken lexer '"' text = .error ⟨lexer.line, .unterminatedString⟩
      ⟨[], lexer.line + text.count '\n', lexer.current⟩ := by
  have hall := bne_of_not_mem h
  rw [readToken, if_pos rfl, List.takeWhile_eq_self_iff.mpr hall,
    List.dropWhile_eq_nil_iff.mpr hall]

theorem quote_begins : Begins '"' :=
  .inr (.inr ⟨['"'], _, @Lexeme.quoted [] List.not_mem_nil⟩)

theorem readToken_unexpected (h : ¬ Begins c) (lexer : Lexer) :
    readToken lexer c cs = .error ⟨lexer.line, .unexpectedCharacter c⟩
      ⟨cs, lexer.line, lexer.current⟩ := by
  have hnone : ∀ text t, ¬ Lexeme (c :: text) t := fun text t ht => h (.inr (.inr ⟨text, t, ht⟩))
  have hquote : c ≠ '"' := by
    rintro rfl
    exact h quote_begins
  have hpart : Numeral.isPart c = false := by
    rw [Bool.eq_false_iff]
    exact fun hpart => hnone [] _ (lexeme_numeral (List.cons_ne_nil c []) (by simp [hpart]))
  have halpha : c.isAlpha = false := by
    rw [Bool.eq_false_iff]
    exact fun halpha => hnone [] _ (lexeme_word (by simp [isWord, halpha]))
  have hsymbol : symbol? (c :: cs) = none := by
    refine symbol?_of_none fun lexeme t ht hpre => ?_
    obtain ⟨d, ds, rfl⟩ := ht.exists_cons
    obtain ⟨rfl, -⟩ := List.cons_prefix_cons.mp hpre
    exact hnone ds t ht
  simp [readToken, hquote, hpart, halpha, hsymbol]

/-- A fetch takes the layout and the longest lexeme behind it. -/
theorem fetch_token {layout : List Char} (hlayout : IsLayout layout)
    (h : Longest lexeme t (lexeme ++ rest)) (line : Nat) (current : Option Token) :
    fetch ⟨layout ++ (lexeme ++ rest), line, current⟩ =
      .ok true ⟨rest, line + (layout ++ lexeme).count '\n', some t⟩ := by
  obtain ⟨c, cs, rfl⟩ := h.reads.exists_cons
  obtain ⟨hspace, hcomment⟩ := h.reads.not_layout
  rw [fetch, skipLayout_layout hlayout, List.cons_append, skipLayout_of_ne hspace hcomment]
  simp only [readToken_longest h, List.count_append, Nat.add_assoc]

namespace Stop

def taken : Stop → List Char
  | finished layout => layout
  | unterminated layout text => layout ++ '"' :: text
  | unexpected layout c _ => layout ++ [c]

def left : Stop → List Char
  | unexpected _ _ rest => rest
  | _ => []

theorem taken_append_left (stop : Stop) : stop.taken ++ stop.left = stop.text := by
  cases stop <;> simp [taken, left, text]

theorem left_of_error?_eq_none {stop : Stop} {line : Nat} (h : stop.error? line = none) :
    stop.left = [] := by
  cases stop with
  | finished _ => rfl
  | unterminated _ _ | unexpected _ _ _ => simp [error?] at h

end Stop

/-- What a fetch answers when there is no lexeme. -/
def stopped (error : Option SyntaxError) (lexer : Lexer) : EStateM.Result SyntaxError Lexer Bool :=
  match error with
  | none => .ok false lexer
  | some e => .error e lexer

/-- Without a lexeme a fetch takes what cannot be one, and its error is on the line where that
begins. -/
theorem fetch_stop {stop : Stop} (h : stop.Valid) (line : Nat) (current : Option Token) :
    fetch ⟨stop.text, line, current⟩ =
      stopped (stop.error? line) ⟨stop.left, line + stop.taken.count '\n', current⟩ := by
  cases stop with
  | finished layout =>
    simp [fetch, Stop.text, skipLayout_final h, stopped, Stop.error?, Stop.left, Stop.taken]
  | unterminated layout text =>
    have hskip := @skipLayout_of_ne '"' text rfl (by decide) (line + layout.count '\n')
    simp [fetch, Stop.text, skipLayout_layout h.1, hskip, readToken_unterminated h.2, stopped,
      Stop.error?, Stop.left, Stop.taken, Nat.add_assoc]
  | unexpected layout c rest =>
    obtain ⟨hspace, hcomment, -⟩ : isSpace c ≠ true ∧ c ≠ '#' ∧ _ := by
      simpa only [Begins, not_or] using h.2
    have hne : c ≠ '\n' := by
      rintro rfl
      exact hspace rfl
    have hskip := @skipLayout_of_ne c rest (by simpa using hspace) hcomment
      (line + layout.count '\n')
    simp [fetch, Stop.text, skipLayout_layout h.1, hskip, readToken_unexpected h.2, stopped,
      Stop.error?, Stop.left, Stop.taken, hne]

/-- A text goes on with layout and a lexeme, or stops. -/
theorem exists_step (cs : List Char) :
    (∃ stop : Stop, stop.Valid ∧ cs = stop.text) ∨
      ∃ layout lexeme t rest, IsLayout layout ∧ Longest lexeme t (lexeme ++ rest) ∧
        cs = layout ++ (lexeme ++ rest) := by
  rcases exists_layout cs with hfinal | ⟨layout, c, others, rfl, hlayout, hspace, hcomment⟩
  · exact .inl ⟨.finished cs, hfinal, rfl⟩
  · by_cases h : ∃ lexeme t, Lexeme lexeme t ∧ lexeme <+: c :: others
    · obtain ⟨lexeme, t, ht, hpre⟩ := h
      obtain ⟨lexeme, t, hlongest⟩ := exists_longest ht hpre
      obtain ⟨rest, hrest⟩ := hlongest.begins
      rw [← hrest] at hlongest ⊢
      exact .inr ⟨layout, lexeme, t, rest, hlayout, hlongest, rfl⟩
    · have hnone : ∀ lexeme t, Lexeme lexeme t → ¬ lexeme <+: c :: others := fun lexeme t ht hpre =>
        h ⟨lexeme, t, ht, hpre⟩
      by_cases hquote : c = '"'
      · subst hquote
        refine .inl ⟨.unterminated layout others, ⟨hlayout, fun hmem => ?_⟩, rfl⟩
        obtain ⟨text, rest, rfl, htext⟩ := List.eq_append_cons_of_mem hmem
        exact hnone _ _ (.quoted htext) ⟨rest, by simp⟩
      · refine .inl ⟨.unexpected layout c others, ⟨hlayout, ?_⟩, rfl⟩
        rintro (hspace' | hcomment' | ⟨text, t, ht⟩)
        · simp [hspace] at hspace'
        · exact hcomment hcomment'
        · obtain ⟨t', ht'⟩ := ht.single hquote
          exact hnone _ _ ht' ⟨others, rfl⟩

theorem exists_split (cs : List Char) : ∃ pieces stop, Split cs pieces stop := by
  induction hn : cs.length using Nat.strongRecOn generalizing cs with
  | ind n ih =>
    rcases exists_step cs with ⟨stop, hvalid, rfl⟩ | ⟨layout, lexeme, t, rest, hlayout, h, rfl⟩
    · exact ⟨[], stop, .stop hvalid⟩
    · obtain ⟨c, cs, rfl⟩ := h.reads.exists_cons
      obtain ⟨pieces, stop, hsplit⟩ := ih rest.length (by simp at hn; omega) rest rfl
      let piece : Piece := ⟨layout, c :: cs, t⟩
      exact ⟨piece :: pieces, stop, @Split.token piece _ _ _ hlayout h hsplit⟩

def behindLayout (cs : List Char) : List Char :=
  (skipLayout false 0 cs).2

theorem behindLayout_longest {layout : List Char} (hlayout : IsLayout layout)
    (h : Longest lexeme t (lexeme ++ rest)) :
    behindLayout (layout ++ (lexeme ++ rest)) = lexeme ++ rest := by
  obtain ⟨c, cs, rfl⟩ := h.reads.exists_cons
  obtain ⟨hspace, hcomment⟩ := h.reads.not_layout
  rw [behindLayout, skipLayout_layout hlayout, List.cons_append, skipLayout_of_ne hspace hcomment]

def Stop.behind : Stop → List Char
  | finished _ => []
  | unterminated _ text => '"' :: text
  | unexpected _ c rest => c :: rest

theorem behindLayout_stop {stop : Stop} (h : stop.Valid) :
    behindLayout stop.text = stop.behind := by
  cases stop with
  | finished layout =>
    rw [behindLayout, Stop.text, skipLayout_final h]
    rfl
  | unterminated layout text =>
    rw [behindLayout, Stop.text, skipLayout_layout h.1, skipLayout_of_ne rfl (by decide)]
    rfl
  | unexpected layout c rest =>
    have hnot := h.2
    simp only [Begins, not_or] at hnot
    rw [behindLayout, Stop.text, skipLayout_layout h.1,
      skipLayout_of_ne (by simpa using hnot.1) hnot.2.1]
    rfl

theorem Stop.Valid.not_lexeme {stop : Stop} (h : stop.Valid) (ht : Lexeme lexeme t) :
    ¬ lexeme <+: stop.behind := by
  obtain ⟨c, cs, rfl⟩ := ht.exists_cons
  intro hpre
  cases stop with
  | finished _ => simp [Stop.behind] at hpre
  | unterminated layout text =>
    obtain ⟨rfl, hcs⟩ := List.cons_prefix_cons.mp hpre
    generalize hlexeme : '"' :: cs = lexeme at ht
    cases ht.kind with
    | numeral _ all => simpa [Numeral.isPart] using all '"' (by simp [← hlexeme])
    | word shape =>
      obtain ⟨d, ds, rfl, halpha, -⟩ := exists_cons_of_isWord shape
      obtain ⟨rfl, -⟩ := List.cons.inj hlexeme
      simp at halpha
    | symbol mem => simpa [isSymbolPart] using (symbols_parts _ mem).2 '"' (by simp [← hlexeme])
    | quoted _ =>
      obtain ⟨-, rfl⟩ := List.cons.inj hlexeme
      exact h.2 (hcs.subset (by simp))
  | unexpected layout d rest =>
    obtain ⟨rfl, -⟩ := List.cons_prefix_cons.mp hpre
    exact h.2 (.inr (.inr ⟨cs, t, ht⟩))

theorem Stop.Valid.unique {stop stop' : Stop} (h : stop.Valid) (h' : stop'.Valid)
    (htext : stop.text = stop'.text) : stop = stop' := by
  have hbehind := behindLayout_stop h
  rw [htext, behindLayout_stop h'] at hbehind
  cases stop with
  | finished layout =>
    cases stop' with
    | finished layout' => exact congrArg Stop.finished htext
    | unterminated _ _ | unexpected _ _ _ => simp [Stop.behind] at hbehind
  | unterminated layout text =>
    cases stop' with
    | finished _ => simp [Stop.behind] at hbehind
    | unterminated layout' text' =>
      obtain rfl := (List.cons.inj hbehind).2
      rw [List.append_cancel_right htext]
    | unexpected layout' c rest =>
      obtain rfl := (List.cons.inj hbehind).1
      exact absurd quote_begins h'.2
  | unexpected layout c rest =>
    cases stop' with
    | finished _ => simp [Stop.behind] at hbehind
    | unterminated layout' text =>
      obtain rfl := (List.cons.inj hbehind).1
      exact absurd quote_begins h.2
    | unexpected layout' c' rest' =>
      obtain ⟨rfl, rfl⟩ := List.cons.inj hbehind
      rw [List.append_cancel_right htext]

theorem Stop.Valid.ne_token {stop : Stop} {layout : List Char} (h : stop.Valid)
    (hlayout : IsLayout layout) (hlongest : Longest lexeme t (lexeme ++ rest)) :
    stop.text ≠ layout ++ (lexeme ++ rest) := by
  intro htext
  have hbehind := behindLayout_stop h
  rw [htext, behindLayout_longest hlayout hlongest] at hbehind
  exact h.not_lexeme hlongest.reads (hbehind ▸ hlongest.begins)

/-- A text splits in one way. -/
theorem Split.unique {pieces pieces' : List Piece} {stop stop' : Stop}
    (h : Split cs pieces stop) (h' : Split cs pieces' stop') : pieces = pieces' ∧ stop = stop' := by
  induction h generalizing pieces' with
  | @stop stop valid =>
    generalize htext : stop.text = text at h'
    cases h' with
    | stop valid' => exact ⟨rfl, valid.unique valid' htext⟩
    | token layout longest _ => exact absurd htext (valid.ne_token layout longest)
  | @token piece pieces stop rest layout longest _ ih =>
    generalize htext : piece.layout ++ (piece.lexeme ++ rest) = text at h'
    cases h' with
    | stop valid => exact absurd htext.symm (valid.ne_token layout longest)
    | @token piece' pieces' _ rest' layout' longest' others' =>
      have hbehind := behindLayout_longest layout longest
      rw [htext, behindLayout_longest layout' longest'] at hbehind
      have hlexeme := (hbehind ▸ longest').eq longest
      obtain ⟨l, x, t⟩ := piece
      obtain ⟨l', x', t'⟩ := piece'
      simp only at hlexeme hbehind htext longest longest'
      subst hlexeme
      obtain rfl := List.append_cancel_left hbehind
      obtain rfl := List.append_cancel_right htext
      obtain rfl := longest.token_eq longest'
      obtain ⟨rfl, rfl⟩ := ih others'
      exact ⟨rfl, rfl⟩

end Lexical
end Sapling
