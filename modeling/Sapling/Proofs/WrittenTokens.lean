import Sapling.Proofs.MaximalMunch

/-!
# Writing tokens

Tokens can be written with any layout between them, and with none where the lexer does not read
the two texts as one. What is written so is read back as the same tokens.
-/
namespace Sapling

def Token.isWord : Token → Bool
  | .ident _ | .keyword _ => true
  | _ => false

def Token.isNumber : Token → Bool
  | .number _ => true
  | _ => false

namespace Lexical

open Lexer

variable {c : Char} {cs rest : List Char} {t : Token} {piece next : Piece}

/-- The texts that tokens are written as. A numeral has at most one point. -/
inductive Written : List Char → Token → Prop
  | name {word : List Char} (shape : isWord word = true)
      (free : ∀ k : Keyword, k.text.toList ≠ word) : Written word (.ident (String.ofList word))
  | keyword (k : Keyword) : Written k.text.toList (.keyword k)
  | operator (op : Operator) : Written op.symbol.toList (.operator op)
  | mark (m : Mark) : Written m.text.toList (.mark m)
  | quoted {text : List Char} (closed : '"' ∉ text) :
      Written ('"' :: (text ++ ['"'])) (.str (String.ofList text))
  | decimal {text whole fraction : List Char} (form : DecimalForm text whole fraction) :
      Written text (.number (decimalValue whole fraction))

/-- Without layout between them, the second piece would go on with the text of the first one. -/
inductive Fuse (piece next : Piece) : Prop
  | words (first : piece.token.isWord = true) (second : next.token.isWord = true)
  | digits (first : piece.token.isWord = true) (second : next.token.isNumber = true)
      (digit : ∃ c ∈ next.lexeme.head?, c.isDigit = true)
  | numbers (first : piece.token.isNumber = true) (second : next.token.isNumber = true)
  | symbols (first : piece.token ∈ [.mark .assign, .operator .lt, .operator .gt])
      (second : next.token ∈ [.mark .assign, .operator .eq])

theorem DecimalForm.lexeme {text whole fraction : List Char}
    (h : DecimalForm text whole fraction) :
    Lexeme text (.number (decimalValue whole fraction)) := by
  refine .numeral h.ne_nil ?_ (.longest h (List.prefix_refl text) ?_)
  case refine_2 => exact fun _ _ _ _ hpre => hpre.length_le
  cases h with
  | digits _ all =>
    intro c hc
    simp [Numeral.isPart, all c hc]
  | point _ all all' =>
    intro c hc
    rcases List.mem_append.mp hc with hc | hc
    · simp [Numeral.isPart, all c hc]
    · rcases List.mem_cons.mp hc with rfl | hc
      · rfl
      · simp [Numeral.isPart, all' c hc]

theorem Written.lexeme {text : List Char} (h : Written text t) : Lexeme text t := by
  cases h with
  | name shape free => exact .name shape free
  | keyword k => exact .keyword k
  | operator op => exact .operator op
  | mark m => exact .mark m
  | quoted closed => exact .quoted closed
  | decimal form => exact form.lexeme

theorem isWord_ofWord (word : String) : (Token.ofWord word).isWord = true := by
  rw [Token.ofWord]
  split <;> rfl

theorem goesOn_cases (h : goesOn t c = true) :
    t.isNumber = true ∧ Numeral.isPart c = true ∨ t.isWord = true ∧ isWordPart c = true ∨
      t ∈ [.mark .assign, .operator .lt, .operator .gt] ∧ c = '=' := by
  cases t with
  | number _ => exact .inl ⟨rfl, h⟩
  | ident _ | keyword _ => exact .inr (.inl ⟨rfl, h⟩)
  | str _ => simp [goesOn] at h
  | operator op => cases op <;> simp_all [goesOn]
  | mark m => cases m <;> simp_all [goesOn]

theorem symbols_not_wordPart : ∀ entry ∈ symbols, ∀ c ∈ entry.1, isWordPart c = false := by
  have hall : ∀ entry ∈ symbols, entry.1.all (!isWordPart ·) = true := by decide
  simpa only [List.all_eq_true, Bool.not_eq_true'] using hall

theorem symbols_equals : ∀ entry ∈ symbols, entry.1.head? = some '=' →
    entry.2 ∈ [.mark .assign, .operator .eq] := by
  decide

/-- What a lexeme is that begins with a character with which another one goes on. -/
theorem Kind.of_head (h : Kind (c :: cs) t) :
    (Numeral.isPart c = true → t.isNumber = true) ∧
      (isWordPart c = true → t.isWord = true ∨ t.isNumber = true ∧ c.isDigit = true) ∧
      (c = '=' → t ∈ [.mark .assign, .operator .eq]) := by
  generalize hlexeme : c :: cs = lexeme at h
  cases h with
  | numeral _ all =>
    have hpart := all c (by simp [← hlexeme])
    refine ⟨fun _ => rfl, fun hword => .inr ⟨rfl, ?_⟩, ?_⟩
    · rcases Bool.or_eq_true_iff.mp hpart with hdigit | hpoint
      · exact hdigit
      · simp_all [isWordPart]
    · rintro rfl
      simp [Numeral.isPart] at hpart
  | word shape =>
    obtain ⟨d, ds, rfl, halpha, -⟩ := exists_cons_of_isWord shape
    obtain ⟨rfl, -⟩ := List.cons.inj hlexeme
    obtain ⟨-, -, -, -, hpart⟩ := letter_ne halpha
    refine ⟨by simp [hpart], fun _ => .inl (isWord_ofWord _), ?_⟩
    rintro rfl
    simp at halpha
  | symbol mem =>
    have hmem : c ∈ lexeme := by simp [← hlexeme]
    have hpart := (symbols_parts _ mem).2 c hmem
    have hword := symbols_not_wordPart _ mem c hmem
    refine ⟨by simp_all [isSymbolPart], by simp [hword], ?_⟩
    rintro rfl
    exact symbols_equals _ mem (by simp [← hlexeme])
  | quoted _ =>
    obtain ⟨rfl, -⟩ := List.cons.inj hlexeme
    simp [Numeral.isPart, isWordPart]

theorem goesOn_of_layout (h : isSpace c = true ∨ c = '#') : goesOn t c = false := by
  rw [Bool.eq_false_iff]
  intro hgoes
  have hc : c = ' ' ∨ c = '\t' ∨ c = '\n' ∨ c = '\x0c' ∨ c = '\r' ∨ c = '#' := by
    simpa [isSpace, or_assoc] using h
  rcases goesOn_cases hgoes with ⟨-, hpart⟩ | ⟨-, hword⟩ | ⟨-, rfl⟩
  · rcases hc with rfl | rfl | rfl | rfl | rfl | rfl <;> simp [Numeral.isPart] at hpart
  · rcases hc with rfl | rfl | rfl | rfl | rfl | rfl <;> simp [isWordPart] at hword
  · simp at hc

theorem IsLayout.stops {layout : List Char} (h : IsLayout layout) (hne : layout ≠ []) :
    Stops t (layout ++ rest) := by
  intro c hc
  cases h with
  | nil => exact absurd rfl hne
  | space hspace _ =>
    obtain rfl := Option.some.inj hc
    exact goesOn_of_layout (.inl hspace)
  | comment _ _ =>
    obtain rfl := Option.some.inj hc
    exact goesOn_of_layout (.inr rfl)

theorem IsFinalLayout.stops {layout : List Char} (h : IsFinalLayout layout) : Stops t layout := by
  cases h with
  | closed all =>
    by_cases hne : layout = []
    · subst hne
      exact nofun
    · have hstops : Stops t (layout ++ []) := all.stops hne
      rwa [List.append_nil] at hstops
  | @comment layout body before _ =>
    by_cases hne : layout = []
    · subst hne
      intro c hc
      obtain rfl := Option.some.inj hc
      exact goesOn_of_layout (.inr rfl)
    · exact before.stops hne

/-- The text of a piece ends where the next one begins, unless the two fuse. -/
theorem stops_of_not_fuse (hlayout : IsLayout next.layout) (hreads : Lexeme next.lexeme next.token)
    (hapart : Fuse piece next → next.layout ≠ []) :
    Stops piece.token (next.layout ++ (next.lexeme ++ rest)) := by
  by_cases hne : next.layout = []
  · rw [hne, List.nil_append]
    obtain ⟨d, ds, hlexeme⟩ := hreads.exists_cons
    rw [hlexeme] at hreads ⊢
    intro c hc
    obtain rfl := Option.some.inj hc
    rw [Bool.eq_false_iff]
    intro hgoes
    obtain ⟨hpart, hword, hequals⟩ := hreads.kind.of_head
    refine hapart ?_ hne
    rcases goesOn_cases hgoes with ⟨hfirst, hd⟩ | ⟨hfirst, hd⟩ | ⟨hfirst, hd⟩
    · exact .numbers hfirst (hpart hd)
    · rcases hword hd with hsecond | ⟨hsecond, hdigit⟩
      · exact .words hfirst hsecond
      · exact .digits hfirst hsecond ⟨d, by simp [hlexeme], hdigit⟩
    · exact .symbols hfirst (hequals hd)
  · exact hlayout.stops hne

theorem split_of_written {pieces : List Piece} {final : List Char}
    (hwritten : ∀ piece ∈ pieces, IsLayout piece.layout ∧ Written piece.lexeme piece.token)
    (hapart : pieces.IsChain fun piece next => Fuse piece next → next.layout ≠ [])
    (hfinal : IsFinalLayout final) :
    Split (pieces.flatMap Piece.text ++ final) pieces (.finished final) := by
  induction pieces with
  | nil => exact @Split.stop (.finished final) hfinal
  | cons piece pieces ih =>
    obtain ⟨hlayout, hreads⟩ := hwritten piece List.mem_cons_self
    have hothers := ih (fun other hother => hwritten other (List.mem_cons_of_mem piece hother))
      hapart.tail
    have hstops : Stops piece.token (pieces.flatMap Piece.text ++ final) := by
      cases pieces with
      | nil => exact hfinal.stops
      | cons next pieces =>
        obtain ⟨hlayout', hreads'⟩ := hwritten next (by simp)
        simpa [Piece.text] using stops_of_not_fuse hlayout' hreads'.lexeme hapart.rel
    have htoken := Split.token hlayout (hreads.lexeme.longest hstops) hothers
    simpa [Piece.text] using htoken

end Lexical

open Lexical

/-- Tokens that are written with any layout, and with none where they do not fuse, are read back.
The text may end with a comment whose line does not end. -/
theorem tokenize_written (pieces : List Piece) (final : List Char)
    (hwritten : ∀ piece ∈ pieces, IsLayout piece.layout ∧ Written piece.lexeme piece.token)
    (hapart : pieces.IsChain fun piece next => Fuse piece next → next.layout ≠ [])
    (hfinal : IsFinalLayout final) :
    (Scanner.ofString (String.ofList (pieces.flatMap Piece.text ++ final))).tokenize =
        .ok (pieces.map Piece.token) ∧
      (Lexer.ofString (String.ofList (pieces.flatMap Piece.text ++ final))).tokenize =
        .ok (pieces.map Piece.token) := by
  obtain ⟨source, hsource⟩ :
      ∃ source, source = String.ofList (pieces.flatMap Piece.text ++ final) := ⟨_, rfl⟩
  have hrest : (Scanner.ofString source).rest = pieces.flatMap Piece.text ++ final := by
    rw [hsource]
    exact String.toList_ofList
  have hsplit := split_of_written hwritten hapart hfinal
  rw [← hrest] at hsplit
  have hscanner : (Scanner.ofString source).tokenize = .ok (pieces.map Piece.token) :=
    Scanner.tokenize_of_split hsplit
  have hlexer : (Lexer.ofString source).tokenize = .ok (pieces.map Piece.token) :=
    @Lexer.tokenize_of_split _ _ (Lexer.ofString source) hsplit
  rw [← hsource]
  exact ⟨hscanner, hlexer⟩

/-- A keyword before a point, a numeral before a letter, and a string and a comment that hold the
beginning of the other. -/
theorem tokenize_written_tight :
    (Scanner.ofString "if.5a1<=#\"\n\"#\n\"# end").tokenize = .ok [.keyword .ifWord,
        .number (decimalValue [] ['5']), .ident "a1", .operator .le, .str "#\n"] ∧
      (Lexer.ofString "if.5a1<=#\"\n\"#\n\"# end").tokenize = .ok [.keyword .ifWord,
        .number (decimalValue [] ['5']), .ident "a1", .operator .le, .str "#\n"] := by
  refine tokenize_written [⟨[], ['i', 'f'], .keyword .ifWord⟩,
    ⟨[], ['.', '5'], .number (decimalValue [] ['5'])⟩, ⟨[], ['a', '1'], .ident "a1"⟩,
    ⟨[], ['<', '='], .operator .le⟩, ⟨['#', '"', '\n'], ['"', '#', '\n', '"'], .str "#\n"⟩]
    ['#', ' ', 'e', 'n', 'd'] ?_ ?_ ?_
  · simp only [List.forall_mem_cons]
    refine ⟨⟨.nil, .keyword .ifWord⟩, ⟨.nil, .decimal (@DecimalForm.point [] ['5'] ?_ ?_ ?_)⟩,
      ⟨.nil, @Written.name ['a', '1'] rfl fun k => ?_⟩, ⟨.nil, .operator .le⟩,
      ⟨@IsLayout.comment ['"'] [] ?_ .nil, @Written.quoted ['#', '\n'] ?_⟩, nofun⟩
    case refine_4 => cases k <;> decide
    all_goals simp
  · simp only [List.isChain_cons_cons, List.isChain_singleton, and_true]
    refine ⟨fun h => ?_, fun h => ?_, fun h => ?_, fun _ => List.cons_ne_nil _ _⟩ <;>
      cases h <;> simp_all [Token.isWord, Token.isNumber]
  · exact @IsFinalLayout.comment [] [' ', 'e', 'n', 'd'] .nil (by decide)

end Sapling
