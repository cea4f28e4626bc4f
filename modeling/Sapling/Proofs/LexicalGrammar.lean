import Sapling.Proofs.LexerTokens

/-!
# The grammar of tokens

Which texts are layout, which texts are lexemes and of which tokens, as relations that mention no
lexer. `Split` cuts a text into layout, the longest lexemes and a stop. Here are also the facts
about these relations alone; that the lexer follows them is shown in `MaximalMunch`.
-/
namespace Sapling.Lexical

def isSpace (c : Char) : Bool :=
  c == ' ' || c == '\t' || c == '\n' || c == '\x0c' || c == '\r'

/-- Spaces, and comments that end with their line. -/
inductive IsLayout : List Char → Prop
  | nil : IsLayout []
  | space {c : Char} {cs : List Char} (space : isSpace c = true) (others : IsLayout cs) :
      IsLayout (c :: cs)
  | comment {body cs : List Char} (line : '\n' ∉ body) (others : IsLayout cs) :
      IsLayout ('#' :: (body ++ '\n' :: cs))

/-- Layout at the end of a text, where a comment may have no end of its line. -/
inductive IsFinalLayout : List Char → Prop
  | closed {layout : List Char} (all : IsLayout layout) : IsFinalLayout layout
  | comment {layout body : List Char} (before : IsLayout layout) (line : '\n' ∉ body) :
      IsFinalLayout (layout ++ '#' :: body)

/-- Digits with at most one point and at least one digit. -/
inductive DecimalForm : (text whole fraction : List Char) → Prop
  | digits {whole : List Char} (some : whole ≠ []) (all : ∀ c ∈ whole, c.isDigit = true) :
      DecimalForm whole whole []
  | point {whole fraction : List Char} (some : whole ++ fraction ≠ [])
      (all : ∀ c ∈ whole, c.isDigit = true) (all' : ∀ c ∈ fraction, c.isDigit = true) :
      DecimalForm (whole ++ '.' :: fraction) whole fraction

/-- The number nearest to the decimal with these digits before and behind the point. -/
def decimalValue (whole fraction : List Char) : Number :=
  .nearest (Nat.ofDigitChars 10 (whole ++ fraction) 0) (10 ^ fraction.length)

/-- The value of a run of digits and points is that of its longest prefix in decimal form. -/
inductive RunValue (run : List Char) : Number → Prop
  | longest {text whole fraction : List Char} (form : DecimalForm text whole fraction)
      (begins : text <+: run) (longest : ∀ text' whole' fraction',
        DecimalForm text' whole' fraction' → text' <+: run → text'.length ≤ text.length) :
      RunValue run (decimalValue whole fraction)
  | zero (none : ∀ text whole fraction, DecimalForm text whole fraction → ¬ text <+: run) :
      RunValue run .zero

inductive Lexeme : List Char → Token → Prop
  | numeral {run : List Char} {value : Number} (some : run ≠ [])
      (all : ∀ c ∈ run, Numeral.isPart c = true) (worth : RunValue run value) :
      Lexeme run (.number value)
  | name {word : List Char} (shape : Lexer.isWord word = true)
      (free : ∀ k : Keyword, k.text.toList ≠ word) : Lexeme word (.ident (String.ofList word))
  | keyword (k : Keyword) : Lexeme k.text.toList (.keyword k)
  | operator (op : Operator) : Lexeme op.symbol.toList (.operator op)
  | mark (m : Mark) : Lexeme m.text.toList (.mark m)
  | quoted {text : List Char} (closed : '"' ∉ text) :
      Lexeme ('"' :: (text ++ ['"'])) (.str (String.ofList text))

/-- A lexeme at the beginning of a text that is at least as long as any other one there. -/
structure Longest (lexeme : List Char) (token : Token) (cs : List Char) : Prop where
  reads : Lexeme lexeme token
  begins : lexeme <+: cs
  longest : ∀ lexeme' token', Lexeme lexeme' token' → lexeme' <+: cs →
    lexeme'.length ≤ lexeme.length

def Begins (c : Char) : Prop :=
  isSpace c = true ∨ c = '#' ∨ ∃ cs t, Lexeme (c :: cs) t

/-- A token with the layout in front of it. -/
structure Piece where
  layout : List Char
  lexeme : List Char
  token : Token

def Piece.text (piece : Piece) : List Char :=
  piece.layout ++ piece.lexeme

/-- What is behind the last token: layout up to the end, or layout and a quote that is not closed,
or layout and a character that begins nothing. -/
inductive Stop where
  | finished (layout : List Char)
  | unterminated (layout text : List Char)
  | unexpected (layout : List Char) (c : Char) (rest : List Char)

namespace Stop

def text : Stop → List Char
  | finished layout => layout
  | unterminated layout text => layout ++ '"' :: text
  | unexpected layout c rest => layout ++ c :: rest

def Valid : Stop → Prop
  | finished layout => IsFinalLayout layout
  | unterminated layout text => IsLayout layout ∧ '"' ∉ text
  | unexpected layout c _ => IsLayout layout ∧ ¬ Begins c

/-- The error that a stop is reported as when it begins on a line. -/
def error? (line : Nat) : Stop → Option SyntaxError
  | finished .. => none
  | unterminated layout _ => some ⟨line + layout.count '\n', .unterminatedString⟩
  | unexpected layout c _ => some ⟨line + layout.count '\n', .unexpectedCharacter c⟩

end Stop

/-- A text as pieces, each with the longest lexeme that is possible in its place, and a stop. -/
inductive Split : List Char → List Piece → Stop → Prop
  | stop {stop : Stop} (valid : stop.Valid) : Split stop.text [] stop
  | token {piece : Piece} {pieces : List Piece} {stop : Stop} {rest : List Char}
      (layout : IsLayout piece.layout)
      (longest : Longest piece.lexeme piece.token (piece.lexeme ++ rest))
      (others : Split rest pieces stop) :
      Split (piece.layout ++ (piece.lexeme ++ rest)) (piece :: pieces) stop

/-- Nothing of a text is lost or moved. -/
theorem Split.flatten {cs : List Char} {pieces : List Piece} {stop : Stop}
    (h : Split cs pieces stop) : cs = pieces.flatMap Piece.text ++ stop.text := by
  induction h with
  | stop _ => rfl
  | token _ _ _ ih => rw [List.flatMap_cons, List.append_assoc, ← ih, Piece.text, List.append_assoc]

theorem Split.valid {cs : List Char} {pieces : List Piece} {stop : Stop}
    (h : Split cs pieces stop) : stop.Valid := by
  induction h with
  | stop valid => exact valid
  | token _ _ _ ih => exact ih

theorem DecimalForm.ne_nil {text whole fraction : List Char} (h : DecimalForm text whole fraction) :
    text ≠ [] := by
  cases h with
  | digits some _ => exact some
  | point _ _ _ => simp

theorem DecimalForm.ne_point {whole fraction : List Char} :
    ¬ DecimalForm ['.'] whole fraction := by
  intro h
  generalize htext : ['.'] = text at h
  cases h with
  | digits _ all => simpa using all '.' (by simp [← htext])
  | point some _ _ =>
    have hlength := congrArg List.length htext
    simp only [List.length_append, List.length_cons, List.length_nil] at hlength
    exact some (List.eq_nil_of_length_eq_zero (by rw [List.length_append]; omega))

theorem count_point {digits : List Char} (h : ∀ c ∈ digits, c.isDigit = true) :
    digits.count '.' = 0 :=
  List.count_eq_zero.mpr fun hmem => by simpa using h _ hmem

theorem DecimalForm.count_le {text whole fraction : List Char}
    (h : DecimalForm text whole fraction) : text.count '.' ≤ 1 := by
  cases h with
  | digits _ all => rw [count_point all]; exact Nat.zero_le 1
  | point _ all all' => simp [count_point all, count_point all']

theorem DecimalForm.parts {text whole fraction : List Char} (h : DecimalForm text whole fraction) :
    whole = text.takeWhile (· != '.') ∧ fraction = (text.dropWhile (· != '.')).drop 1 := by
  cases h with
  | digits _ all =>
    have hne := Numeral.ne_point_of_isDigit all
    rw [List.takeWhile_eq_self_iff.mpr hne, List.dropWhile_eq_nil_iff.mpr hne]
    exact ⟨rfl, rfl⟩
  | point _ all _ =>
    have hne := Numeral.ne_point_of_isDigit all
    rw [List.takeWhile_append_of_pos hne, List.dropWhile_append_of_pos hne]
    simp

theorem length_le_of_count {text text' run : List Char} (h : text <+: run) (h' : text' <+: run)
    (hcount : text'.count '.' ≤ 1)
    (hmax : text = run ∨ text.count '.' = 1 ∧ text ++ ['.'] <+: run) :
    text'.length ≤ text.length := by
  rcases hmax with rfl | ⟨hone, hnext⟩
  · exact h'.length_le
  · by_contra hlt
    have hlonger : text ++ ['.'] <+: text' :=
      List.prefix_of_prefix_length_le hnext h' (by simp; omega)
    have := hlonger.sublist.count_le '.'
    simp [hone] at this
    omega

theorem RunValue.unique {run : List Char} {value value' : Number} (h : RunValue run value)
    (h' : RunValue run value') : value = value' := by
  cases h with
  | zero hnone =>
    cases h' with
    | zero _ => rfl
    | longest form begins _ => exact absurd begins (hnone _ _ _ form)
  | @longest text whole fraction form begins longest =>
    cases h' with
    | zero hnone => exact absurd begins (hnone _ _ _ form)
    | @longest text' whole' fraction' form' begins' longest' =>
      have hle := longest _ _ _ form' begins'
      have hle' := longest' _ _ _ form begins
      obtain rfl := (List.prefix_of_prefix_length_le begins begins' hle').eq_of_length
        (Nat.le_antisymm hle' hle)
      rw [form.parts.1, form.parts.2, form'.parts.1, form'.parts.2]

theorem decimalValue_zero : decimalValue [] [] = .zero := by decide +kernel

theorem exists_digits {run : List Char} (h : ∀ c ∈ run, Numeral.isPart c = true) :
    ∃ digits others, run = digits ++ others ∧ (∀ c ∈ digits, c.isDigit = true) ∧
      (others = [] ∨ ∃ more, others = '.' :: more ∧ ∀ c ∈ more, Numeral.isPart c = true) := by
  induction run with
  | nil => exact ⟨[], [], rfl, by simp, .inl rfl⟩
  | cons c run ih =>
    have hmore : ∀ c ∈ run, Numeral.isPart c = true := fun d hd => h d (List.mem_cons_of_mem c hd)
    by_cases hc : c = '.'
    · subst hc
      exact ⟨[], '.' :: run, rfl, by simp, .inr ⟨run, rfl, hmore⟩⟩
    · obtain ⟨digits, others, rfl, hdigits, hothers⟩ := ih hmore
      have hdigit : c.isDigit = true := by
        have := h c List.mem_cons_self
        simpa [Numeral.isPart, hc] using this
      refine ⟨c :: digits, others, rfl, ?_, hothers⟩
      rintro d (_ | ⟨_, hd⟩)
      · exact hdigit
      · exact hdigits d hd

theorem value_of_digits {digits : List Char} (h : ∀ c ∈ digits, c.isDigit = true) :
    Numeral.value digits = decimalValue digits [] := by
  rw [Numeral.value_of_whole h, Numeral.digitsValue_eq, decimalValue, List.append_nil]
  rfl

/-- What is behind a second point does not count. -/
theorem value_of_points {whole fraction others : List Char}
    (hwhole : ∀ c ∈ whole, c.isDigit = true) (hfraction : ∀ c ∈ fraction, c.isDigit = true)
    (hothers : others = [] ∨ ∃ more, others = '.' :: more) :
    Numeral.value (whole ++ '.' :: (fraction ++ others)) = decimalValue whole fraction := by
  have hw := Numeral.ne_point_of_isDigit hwhole
  have hf := Numeral.ne_point_of_isDigit hfraction
  have htake : (fraction ++ others).takeWhile (· != '.') = fraction := by
    apply Lexer.takeWhile_append_eq hf
    rcases hothers with rfl | ⟨more, rfl⟩ <;> simp
  simp [Numeral.value, List.takeWhile_append_of_pos hw, List.dropWhile_append_of_pos hw, htake,
    Numeral.digitsValue_eq, decimalValue]

/-- The value of a numeral is the value of its run. -/
theorem runValue_value {run : List Char} (h : ∀ c ∈ run, Numeral.isPart c = true) :
    RunValue run (Numeral.value run) := by
  obtain ⟨whole, behind, rfl, hwhole, rfl | ⟨more, rfl, hmore⟩⟩ := exists_digits h
  · rw [List.append_nil, value_of_digits hwhole]
    by_cases hne : whole = []
    · subst hne
      rw [decimalValue_zero]
      exact .zero fun text _ _ form hpre => form.ne_nil (List.prefix_nil.mp hpre)
    · exact .longest (.digits hne hwhole) (List.prefix_refl _) fun _ _ _ _ hpre => hpre.length_le
  · obtain ⟨fraction, others, rfl, hfraction, hothers⟩ := exists_digits hmore
    have hbegins : whole ++ '.' :: fraction <+: whole ++ '.' :: (fraction ++ others) :=
      ⟨others, by simp⟩
    have hmax : whole ++ '.' :: fraction = whole ++ '.' :: (fraction ++ others) ∨
        (whole ++ '.' :: fraction).count '.' = 1 ∧
          whole ++ '.' :: fraction ++ ['.'] <+: whole ++ '.' :: (fraction ++ others) := by
      rcases hothers with rfl | ⟨more, rfl, -⟩
      · exact .inl (by simp)
      · exact .inr ⟨by simp [count_point hwhole, count_point hfraction], more, by simp⟩
    have hothers' : others = [] ∨ ∃ more, others = '.' :: more :=
      hothers.imp_right fun ⟨more, hmore, _⟩ => ⟨more, hmore⟩
    rw [value_of_points hwhole hfraction hothers']
    by_cases hne : whole ++ fraction = []
    · obtain ⟨rfl, rfl⟩ := List.append_eq_nil_iff.mp hne
      rw [decimalValue_zero]
      -- A decimal form in front of the second point would be the first point alone.
      refine .zero fun text _ _ form hpre => ?_
      have hle := length_le_of_count hbegins hpre form.count_le hmax
      have heq := (List.prefix_of_prefix_length_le hpre hbegins hle).eq_of_length
        (Nat.le_antisymm hle (List.length_pos_iff.mpr form.ne_nil))
      subst heq
      exact form.ne_point
    · exact .longest (.point hne hwhole hfraction) hbegins fun _ _ _ form hpre =>
        length_le_of_count hbegins hpre form.count_le hmax

end Sapling.Lexical
