import Sapling.Proofs.ErrorLines
import Sapling.Proofs.MaximalMunch
import Sapling.Proofs.ReplayedTokens

/-!
# The places of errors

A parse fetches the pieces of its text one by one (`Lexical.Split`), and its error is found at the
piece that has been fetched last, or at the stop behind all pieces. The line of the error counts the
newlines up to that place (`parse_error_line`): up to the character or quote that an error of the
lexer is about, up to the last character of the token that the parser refuses, or all newlines
where the parser has come to the end.
-/
namespace Sapling

open TokenStream Lexical

namespace Lexical

variable {pieces : List Piece} {stop : Stop} {line : Nat} {e : SyntaxError}

theorem numbered_take (line : Nat) (pieces : List Piece) (n : Nat) :
    (numbered line pieces).take n = numbered line (pieces.take n) := by
  induction pieces generalizing line n with
  | nil => simp [numbered]
  | cons piece pieces ih =>
    cases n with
    | zero => rfl
    | succ n => simp only [numbered, List.take_succ_cons, ih]

theorem numbered_concat (line : Nat) (pieces : List Piece) (piece : Piece) :
    numbered line (pieces ++ [piece]) =
      numbered line pieces ++ [(lineBehind line (pieces ++ [piece]), piece.token)] := by
  induction pieces generalizing line with
  | nil => simp [numbered, lineBehind]
  | cons first pieces ih =>
    rw [List.cons_append, numbered, ih, numbered, lineBehind_cons, List.cons_append]

theorem length_numbered (line : Nat) (pieces : List Piece) :
    (numbered line pieces).length = pieces.length := by
  rw [← List.length_map (·.2), map_numbered, List.length_map]

theorem Stop.error?_eq_some (h : stop.error? line = some e) :
    (∃ layout c rest, stop = .unexpected layout c rest ∧
      e = ⟨line + layout.count '\n', .unexpectedCharacter c⟩) ∨
    ∃ layout text, stop = .unterminated layout text ∧
      e = ⟨line + layout.count '\n', .unterminatedString⟩ := by
  cases stop with
  | finished _ => simp [Stop.error?] at h
  | unterminated layout text => exact .inr ⟨layout, text, rfl, (Option.some.inj h).symm⟩
  | unexpected layout c rest => exact .inl ⟨layout, c, rest, rfl, (Option.some.inj h).symm⟩

end Lexical

namespace Lexer

variable {lexer : Lexer} {pieces : List Piece} {stop : Stop}

/-- How the fetches of a text end that has been split. -/
def stopOfSplit (line : Nat) (pieces : List Piece) (stop : Stop) : Fetched :=
  match stop.error? (lineBehind line pieces) with
  | none => .ended (line + (pieces.flatMap Piece.text ++ stop.text).count '\n')
  | some e => .failed e

/-- A text is handed out piece by piece. -/
theorem delivers_split (h : Split lexer.rest pieces stop) :
    Delivers lexer (numbered lexer.line pieces) (stopOfSplit lexer.line pieces stop) := by
  obtain ⟨last, -, hdrain⟩ := drain_of_split h
  have hdelivers := delivers_drain lexer
  rw [hdrain] at hdelivers
  suffices hstop : stopOf (match stop.error? (lineBehind lexer.line pieces) with
      | none => Except.ok last
      | some e => .error e) = stopOfSplit lexer.line pieces stop from hstop ▸ hdelivers
  unfold stopOfSplit
  cases herror : stop.error? (lineBehind lexer.line pieces) with
  | some e => rfl
  | none =>
    -- The fetch that finds the end has counted all newlines.
    rw [herror] at hdelivers
    obtain ⟨end_, hyields⟩ := hdelivers.2
    have htokens : ∀ entry ∈ (entriesOf (numbered lexer.line pieces) ++
        [stopOf (.ok last)]).dropLast, ∃ line t, entry = .token line (some t) := by
      intro entry hentry
      rw [List.dropLast_concat] at hentry
      obtain ⟨⟨line, t⟩, -, rfl⟩ := List.mem_map.mp hentry
      exact ⟨line, t, rfl⟩
    rcases line_of_yields hyields htokens List.getLast?_concat with hend | ⟨hne, -⟩
    · rw [← h.flatten]
      exact hend
    · exact absurd rfl (hne last.line)

end Lexer

namespace Parser

variable {options : ParseOptions} {pieces : List Piece} {stop : Stop} {e : SyntaxError}
  {last : Recorded Lexer}

/-- What has been fetched before an error: the pieces up to one of them, or all of them and what is
found at the stop. -/
theorem record_cases {lexer : Lexer} (hsplit : Split lexer.rest pieces stop)
    (hrun : run options (Recorded.ofStream lexer) = some (.error e, last)) :
    (∃ before piece behind, pieces = before ++ piece :: behind ∧
      last.record.length = before.length + 1 ∧
      last.record.getLast? = some (.token e.line (some piece.token)) ∧
      e.line = lineBehind lexer.line (before ++ [piece])) ∨
    last.record.length = pieces.length + 1 ∧
      last.record.getLast? = some (Lexer.stopOfSplit lexer.line pieces stop) ∧
      e.line = (Lexer.stopOfSplit lexer.line pieces stop).line := by
  obtain ⟨hyields, hdemands, -⟩ := run_recorded (τ := Lexer) hrun
  obtain ⟨entry, hentry, hline⟩ := hdemands.line rfl
  have hprefix := (Lexer.delivers_split hsplit).isPrefix hyields hdemands.tokens
  rcases List.prefix_concat_iff.mp hprefix with hall | hbefore
  · rw [hall, List.getLast?_concat] at hentry
    obtain rfl := Option.some.inj hentry
    refine .inr ⟨?_, by rw [hall, List.getLast?_concat], hline⟩
    rw [hall, List.length_append, List.length_singleton, entriesOf, List.length_map,
      length_numbered]
  · -- The record is that of the first pieces, of which there is a last one.
    have htake : last.record = entriesOf (numbered lexer.line (pieces.take last.record.length)) := by
      have heq := List.prefix_iff_eq_take.mp hbefore
      rwa [entriesOf, ← List.map_take, numbered_take] at heq
    generalize hfirst : pieces.take last.record.length = first at htake
    rcases List.eq_nil_or_concat' first with rfl | ⟨before, piece, rfl⟩
    · rw [htake] at hentry
      simp [numbered, entriesOf] at hentry
    · have hlength := congrArg List.length htake
      have hlast := hentry
      rw [htake, numbered_concat, entriesOf, List.map_append, List.map_singleton,
        List.getLast?_concat] at hentry
      rw [entriesOf, List.length_map, length_numbered, List.length_append,
        List.length_singleton] at hlength
      obtain rfl := Option.some.inj hentry
      have hplace : e.line = lineBehind lexer.line (before ++ [piece]) := hline
      refine .inl ⟨before, piece, pieces.drop last.record.length, ?_, hlength, ?_, hplace⟩
      · have hpieces := List.take_append_drop last.record.length pieces
        rw [hfirst, List.append_assoc, List.singleton_append] at hpieces
        exact hpieces.symm
      · rw [hlast, hplace]

end Parser

/-- For every text that is not a program: the error of the lexer about a character is on the line of
this character, that about a string on the line of its opening quote, and any other error is on the
line of the last character of the token that was fetched last, or behind all newlines if the end was
found. The pieces before are those that the text splits into. -/
theorem parse_error_line {options : ParseOptions} {source : String} {e : SyntaxError}
    (h : parse options source = .error e) :
    ∃ pieces stop last, Split source.toList pieces stop ∧
      Parser.run options (Recorded.ofStream (Lexer.ofString source)) = some (.error e, last) ∧
      match e.cause with
      | .unexpectedCharacter c =>
        ∃ layout rest, stop = .unexpected layout c rest ∧
          source.toList = pieces.flatMap Piece.text ++ layout ++ c :: rest ∧
          e.line = 1 + (pieces.flatMap Piece.text ++ layout).count '\n'
      | .unterminatedString =>
        ∃ layout text, stop = .unterminated layout text ∧ '"' ∉ text ∧
          source.toList = pieces.flatMap Piece.text ++ layout ++ '"' :: text ∧
          e.line = 1 + (pieces.flatMap Piece.text ++ layout).count '\n'
      | .unexpectedToken _ _ | .expectedToken _ _ | .grammar _ =>
        (∃ before piece behind, pieces = before ++ piece :: behind ∧
          last.record.length = before.length + 1 ∧
          last.record.getLast? = some (.token e.line (some piece.token)) ∧
          source.toList = before.flatMap Piece.text ++ piece.layout ++ piece.lexeme ++
            (behind.flatMap Piece.text ++ stop.text) ∧
          e.line = 1 + (before.flatMap Piece.text ++ piece.layout ++ piece.lexeme).count '\n') ∨
        last.record.length = pieces.length + 1 ∧
          last.record.getLast? = some (.ended e.line) ∧
          e.line = 1 + source.toList.count '\n' := by
  obtain ⟨pieces, stop, hsplit⟩ := exists_split source.toList
  obtain ⟨last, hrun, -⟩ := Parser.parse_eq_replay options source
  rw [h] at hrun
  have hflatten := hsplit.flatten
  have hown := (Parser.run_recorded (τ := Lexer) hrun).2.1.own rfl
  refine ⟨pieces, stop, last, hsplit, hrun, ?_⟩
  rcases @Parser.record_cases _ _ _ _ _ (.ofString source) hsplit hrun with
    ⟨before, piece, behind, rfl, hlength, hlast, hline⟩ | ⟨hlength, hlast, hline⟩
  · -- A token has been fetched last, so that the error is the parser's own.
    have hgrammar : e.cause.isLexical = false := hown.resolve_right (by simp [hlast])
    have hplace : source.toList = before.flatMap Piece.text ++ piece.layout ++ piece.lexeme ++
        (behind.flatMap Piece.text ++ stop.text) := by
      rw [hflatten]
      simp [Piece.text]
    have hcount : e.line =
        1 + (before.flatMap Piece.text ++ piece.layout ++ piece.lexeme).count '\n' := by
      rw [hline, lineBehind, List.flatMap_append, List.flatMap_singleton, Piece.text,
        ← List.append_assoc]
      rfl
    cases hcause : e.cause with
    | unexpectedCharacter _ | unterminatedString =>
      rw [hcause] at hgrammar
      exact absurd hgrammar.symm Bool.false_ne_true
    | unexpectedToken _ _ | expectedToken _ _ | grammar _ =>
      exact .inl ⟨before, piece, behind, rfl, hlength, hlast, hplace, hcount⟩
  · cases herror : stop.error? (lineBehind 1 pieces) with
    | none =>
      have hstop : Lexer.stopOfSplit 1 pieces stop = .ended (1 + source.toList.count '\n') := by
        rw [Lexer.stopOfSplit, herror, hflatten]
      have hline : e.line = 1 + source.toList.count '\n' := hline.trans (congrArg _ hstop)
      have hlast : last.record.getLast? = some (.ended e.line) := by
        rw [hline]
        exact hlast.trans (congrArg _ hstop)
      have hgrammar : e.cause.isLexical = false := hown.resolve_right (by simp [hlast])
      cases hcause : e.cause with
      | unexpectedCharacter _ | unterminatedString =>
        rw [hcause] at hgrammar
        exact absurd hgrammar.symm Bool.false_ne_true
      | unexpectedToken _ _ | expectedToken _ _ | grammar _ =>
        exact .inr ⟨hlength, hlast, hline⟩
    | some own =>
      have hstop : Lexer.stopOfSplit 1 pieces stop = .failed own := by
        rw [Lexer.stopOfSplit, herror]
      have hfailed : last.record.getLast? = some (.failed own) := hlast.trans (congrArg _ hstop)
      have hdemands := (Parser.run_recorded (τ := Lexer) hrun).2.1
      obtain rfl := Except.error.inj (hdemands.failed (List.mem_of_getLast? hfailed))
      have hvalid := hsplit.valid
      have hcount (layout : List Char) : lineBehind 1 pieces + layout.count '\n' =
          1 + (pieces.flatMap Piece.text ++ layout).count '\n' := by
        rw [lineBehind, List.count_append, Nat.add_assoc]
      rcases Stop.error?_eq_some herror with
        ⟨layout, c, rest, rfl, rfl⟩ | ⟨layout, text, rfl, rfl⟩
      · refine ⟨layout, rest, rfl, ?_, hcount layout⟩
        rw [hflatten, Stop.text, List.append_assoc]
      · refine ⟨layout, text, rfl, hvalid.2, ?_, hcount layout⟩
        rw [hflatten, Stop.text, List.append_assoc]

def parseError? (options : ParseOptions) (source : String) : Option SyntaxError :=
  match parse options source with
  | .ok _ => none
  | .error e => some e

theorem parse_eq_error_iff {options : ParseOptions} {source : String} {e : SyntaxError} :
    parse options source = .error e ↔ parseError? options source = some e := by
  unfold parseError?
  cases parse options source <;> simp

/-- A string over two lines where the semicolon is missed: the error is on the line of its closing
quote, one line before the end of the text. -/
theorem parse_error_line_string :
    parse {} "f\n\"a\nb\"\n" = .error ⟨3, .expectedToken "';'" "string \"a\nb\""⟩ ∧
      ∃ (before behind : List Char) (piece : Piece) (last : Recorded Lexer),
        "f\n\"a\nb\"\n".toList = before ++ piece.lexeme ++ behind ∧
        last.record.getLast? = some (.token 3 (some piece.token)) ∧
        (before ++ piece.lexeme).count '\n' = 2 := by
  have hread : parse {} "f\n\"a\nb\"\n" =
      .error ⟨3, .expectedToken "';'" "string \"a\nb\""⟩ :=
    parse_eq_error_iff.mpr (by decide +kernel)
  refine ⟨hread, ?_⟩
  obtain ⟨pieces, stop, last, hplace⟩ := parse_error_line hread
  replace hplace := hplace.2.2
  simp only at hplace
  rcases hplace with ⟨before, piece, behind, -, -, hlast, htext, hline⟩ | ⟨-, -, hline⟩
  · exact ⟨_, _, piece, last, htext, hlast, Nat.add_left_cancel hline.symm⟩
  · exact absurd hline (by decide)

end Sapling
