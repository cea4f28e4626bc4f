import Sapling.Proofs.CommandRuns
import Sapling.Proofs.MaximalMunch
import Sapling.Proofs.TextRows

/-!
# Listed tokens

The listing of a text has a row for each token, with the line that the scanner has reached behind
it. A string is listed as it stands, so that each newline in it begins one more line. The listing
has one line for each token exactly if no string has a newline (`Console.dumpTokens_lines_iff`).
-/
namespace Sapling

namespace Token

/-- The newlines in the string that a token holds. -/
def heldNewlines : Token → Nat
  | .str text => newlines text
  | _ => 0

theorem newlines_text {t : Token} (h : t.isReadable = true) : newlines t.text = t.heldNewlines := by
  cases t with
  | ident name => simp [newlines, text, heldNewlines, newlines_of_isName h]
  | _ => simp [newlines, text, heldNewlines]

theorem heldNewlines_eq_zero_iff {ts : List Token} :
    (∀ t ∈ ts, t.heldNewlines = 0) ↔ ∀ text, .str text ∈ ts → '\n' ∉ text.toList := by
  constructor
  · intro h text htext
    exact newlines_eq_zero_iff.mp (h _ htext)
  · intro h t ht
    cases t with
    | str text => exact newlines_eq_zero_iff.mpr (h text ht)
    | _ => rfl

end Token

/-- A line in at least four columns, at the right edge, two blanks, and a token. -/
def tokenRow (line : Nat) (t : Token) : String :=
  String.ofList ((Nat.toDigits 10 line).leftpad 4 ' ') ++ "  " ++ t.text

theorem newlines_tokenRow (line : Nat) {t : Token} (h : t.isReadable = true) :
    newlines (tokenRow line t) = t.heldNewlines := by
  rw [← Token.newlines_text h]
  simp [newlines, tokenRow, List.leftpad, List.count_replicate]

namespace Lexer

theorem isReadable_of_mem_drainFrom {fuel : Nat} {lexer : Lexer} {read : List (Nat × Token)}
    (hread : ∀ entry ∈ read, entry.2.isReadable = true) :
    ∀ entry ∈ (drainFrom fuel lexer read).1, entry.2.isReadable = true := by
  induction fuel generalizing lexer read with
  | zero => simpa [drainFrom] using hread
  | succ fuel ih =>
    rw [drainFrom]
    cases hfetch : fetch lexer with
    | ok more lexer' =>
      cases more with
      | true =>
        obtain ⟨t, ht⟩ := Option.isSome_iff_exists.mp (fetch_eq_ok hfetch).1
        have htoken : t.isReadable = true := isReadable_of_fetch hfetch ht
        have hmore : ∀ entry ∈ (lexer'.line, t) :: read, entry.2.isReadable = true :=
          List.forall_mem_cons.mpr ⟨htoken, hread⟩
        simpa [ht] using ih hmore
      | false => simpa using hread
    | error e lexer' => simpa using hread

end Lexer

namespace CommandLine

/-- The rows of a text, one for each token with the line that the scanner is on behind it. -/
def tokenRows (source : String) : List String :=
  (Scanner.ofString source).drain.1.map fun (line, t) => tokenRow line t

theorem tokenListing_eq (tokens : List (Nat × Token)) :
    tokenListing tokens = rowsText (tokens.map fun (line, t) => tokenRow line t) := by
  rw [tokenListing, rowsText, List.map_map]
  rfl

section
variable {source : String} {ts : List Token}

/-- A text that is made of tokens is drained of them, and its listing is written row by row. -/
theorem Console.dumpTokens_of_tokenize (h : (Scanner.ofString source).tokenize = .ok ts)
    (name : String) (console : Console) :
    (Scanner.ofString source).drain.1.map (·.2) = ts ∧
    dumpTokens name "" (.ofString source) console =
      some (.ok (rowsText (tokenRows source)), console) := by
  have hlexer : (Scanner.ofString source).toLexer = Lexer.ofString source := rfl
  rw [Scanner.tokenize_toLexer, hlexer, Lexer.tokenize] at h
  rw [tokenRows, (Scanner.drain_toLexer (Scanner.ofString source)).1, hlexer, dumpTokens_eq]
  cases hdrain : (Lexer.ofString source).drain with
  | mk tokens result =>
    rw [hdrain] at h
    cases result with
    | ok last => exact ⟨Except.ok.inj h, by simp [listing, tokenListing_eq]⟩
    | error e => simp [Except.mapError] at h

theorem newlines_tokenRows (h : (Scanner.ofString source).drain.1.map (·.2) = ts) :
    (tokenRows source).map newlines = ts.map Token.heldNewlines := by
  rw [tokenRows, ← h, List.map_map, List.map_map]
  apply List.map_congr_left
  rintro ⟨line, t⟩ hentry
  -- What is known of single tokens is known of the lexer's, and the scanner is drained of these.
  rw [(Scanner.drain_toLexer (Scanner.ofString source)).1] at hentry
  have hreadable : t.isReadable = true :=
    Lexer.isReadable_of_mem_drainFrom (List.forall_mem_nil _) (line, t) hentry
  simp only [Function.comp_apply]
  exact newlines_tokenRow line hreadable

/-- For every text that is made of tokens the listing is written row by row, a row for each token
with the line that the scanner is on behind it. The lines of the listing are what stands between the
newlines of the rows. So there is one more than there are tokens for each newline in a string, and
there are as many lines as tokens, or the lines are the rows, exactly if no string has a newline. -/
theorem Console.dumpTokens_lines_iff (h : (Scanner.ofString source).tokenize = .ok ts)
    (name : String) (console : Console) :
    (Scanner.ofString source).drain.1.map (·.2) = ts ∧
    ∃ output lines, dumpTokens name "" (.ofString source) console = some (.ok output, console) ∧
      HasLines output lines ∧ lines = (tokenRows source).flatMap cutRow ∧
      lines.length = ts.length + (ts.map Token.heldNewlines).sum ∧
      (lines.length = ts.length ↔ ∀ text, .str text ∈ ts → '\n' ∉ text.toList) ∧
      (lines = tokenRows source ↔ ∀ text, .str text ∈ ts → '\n' ∉ text.toList) := by
  obtain ⟨htokens, hdump⟩ := dumpTokens_of_tokenize h name console
  have hlength : (tokenRows source).length = ts.length := by
    rw [tokenRows, List.length_map, ← htokens, List.length_map]
  obtain ⟨lines, hlines⟩ := exists_lines_of_rows (newlines_tokenRows htokens)
    (List.forall_mem_map.trans Token.heldNewlines_eq_zero_iff)
  rw [hlength] at hlines
  exact ⟨htokens, _, lines, hdump, hlines⟩

/-- Newlines outside of strings end no line of the listing. -/
theorem Console.dumpTokens_lines_comment :
    (Scanner.ofString "x = # none yet\n \"a\";").tokenize =
        .ok [.ident "x", .mark .assign, .str "a", .mark .semicolon] ∧
      ∃ output, (dumpTokens "<stdin>" "" (.ofString "x = # none yet\n \"a\";")
          { stdin := .empty, files := fun _ => .error .notFound }).map (·.1) = some (.ok output) ∧
        HasLines output ["   1  identifier 'x'", "   1  '='", "   2  string \"a\"", "   2  ';'"] := by
  have hread : (Scanner.ofString "x = # none yet\n \"a\";").tokenize =
      .ok [.ident "x", .mark .assign, .str "a", .mark .semicolon] := by
    rw [Scanner.tokenize_toLexer]
    rfl
  have hrows : tokenRows "x = # none yet\n \"a\";" =
      ["   1  identifier 'x'", "   1  '='", "   2  string \"a\"", "   2  ';'"] := by
    rw [tokenRows, (Scanner.drain_toLexer _).1]
    rfl
  obtain ⟨-, output, lines, hdump, hlines, -, -, -, hiff⟩ :=
    dumpTokens_lines_iff hread "<stdin>" { stdin := .empty, files := fun _ => .error .notFound }
  have huncut : lines = tokenRows "x = # none yet\n \"a\";" := hiff.mpr (by simp)
  rw [huncut, hrows] at hlines
  exact ⟨hread, output, by rw [hdump]; rfl, hlines⟩

/-- Two tokens, but a string of two lines. -/
theorem Console.dumpTokens_string_cut :
    (Scanner.ofString "\"a\nb\";").tokenize = .ok [.str "a\nb", .mark .semicolon] ∧
      ∃ output, (dumpTokens "<stdin>" "" (.ofString "\"a\nb\";")
          { stdin := .empty, files := fun _ => .error .notFound }).map (·.1) = some (.ok output) ∧
        HasLines output ["   2  string \"a", "b\"", "   2  ';'"] ∧
        ¬∃ lines, HasLines output lines ∧ lines.length = 2 := by
  have hread : (Scanner.ofString "\"a\nb\";").tokenize = .ok [.str "a\nb", .mark .semicolon] := by
    rw [Scanner.tokenize_toLexer]
    rfl
  have hrows : tokenRows "\"a\nb\";" = ["   2  string \"a\nb\"", "   2  ';'"] := by
    rw [tokenRows, (Scanner.drain_toLexer _).1]
    rfl
  obtain ⟨-, hdump⟩ := dumpTokens_of_tokenize hread "<stdin>"
    { stdin := .empty, files := fun _ => .error .notFound }
  rw [hrows] at hdump
  refine ⟨hread, _, by rw [hdump]; rfl, by decide, ?_⟩
  rintro ⟨lines, hlines, htwo⟩
  have hthree := hlines.length_eq
  rw [htwo] at hthree
  exact absurd hthree (by decide)

end

end CommandLine
end Sapling
