import Sapling.Token.Source

/-!
# Lexer

The source of tokens that reads text. Between tokens it skips layout: blanks, and comments from
`#` to the end of the line. Each token takes as many characters as it can. An error consumes the
text it is about, so that reading can go on behind it.
-/
namespace Sapling

structure Lexer where
  rest : List Char
  line : Nat
  current : Option Token

namespace Lexer

def ofString (source : String) : Lexer :=
  ⟨source.toList, 1, none⟩

def isBlank (c : Char) : Bool :=
  c == ' ' || c == '\t' || c == '\r' || c == '\x0c'

/-- Drop layout and count the lines passed, starting inside a comment or outside. -/
def skipLayout (comment : Bool) (line : Nat) : List Char → Nat × List Char
  | [] => (line, [])
  | c :: cs =>
    if c = '\n' then skipLayout false (line + 1) cs
    else if comment then skipLayout true line cs
    else if c = '#' then skipLayout true line cs
    else if isBlank c then skipLayout false line cs
    else (line, c :: cs)

def isWordPart (c : Char) : Bool :=
  c.isAlphanum || c == '_'

/-- The symbols with their tokens. One that begins another stands behind it. -/
def symbols : List (List Char × Token) :=
  Operator.all.reverse.map (fun op => (op.symbol.toList, .operator op)) ++
    Mark.all.map (fun mark => (mark.text.toList, .mark mark))

def symbol? (cs : List Char) : Option (Token × List Char) :=
  (symbols.find? (·.1.isPrefixOf cs)).map fun (text, token) => (token, cs.drop text.length)

/-- Read the token at the head of a text that does not start with layout. A string that is not
closed is reported on the line of its opening quote. -/
def readToken (lexer : Lexer) (c : Char) (cs : List Char) : EStateM.Result SyntaxError Lexer Bool :=
  if c = '"' then
    let text := cs.takeWhile (· != '"')
    let line := lexer.line + text.count '\n'
    match cs.dropWhile (· != '"') with
    | [] => .error ⟨lexer.line, .unterminatedString⟩ ⟨[], line, lexer.current⟩
    | _ :: rest => .ok true ⟨rest, line, some (.str (String.ofList text))⟩
  else if Numeral.isPart c then
    let run := (c :: cs).takeWhile Numeral.isPart
    .ok true ⟨(c :: cs).dropWhile Numeral.isPart, lexer.line, some (.number (Numeral.value run))⟩
  else if c.isAlpha then
    let word := (c :: cs).takeWhile isWordPart
    .ok true ⟨(c :: cs).dropWhile isWordPart, lexer.line, some (.ofWord (String.ofList word))⟩
  else
    match symbol? (c :: cs) with
    | some (token, rest) => .ok true ⟨rest, lexer.line, some token⟩
    | none => .error ⟨lexer.line, .unexpectedCharacter c⟩ ⟨cs, lexer.line, lexer.current⟩

def fetch : EStateM SyntaxError Lexer Bool := fun lexer =>
  let (line, rest) := skipLayout false lexer.line lexer.rest
  match rest with
  | [] => .ok false ⟨[], line, lexer.current⟩
  | c :: cs => readToken ⟨rest, line, lexer.current⟩ c cs

theorem skipLayout_length_le (comment : Bool) (line : Nat) (cs : List Char) :
    (skipLayout comment line cs).2.length ≤ cs.length := by
  fun_induction skipLayout comment line cs <;> grind

theorem symbol?_length_lt {cs rest : List Char} {token : Token}
    (h : symbol? cs = some (token, rest)) : rest.length < cs.length := by
  obtain ⟨entry, hfind, heq⟩ := Option.map_eq_some_iff.mp h
  obtain ⟨-, rfl⟩ := Prod.mk.inj heq
  have hsome : entry.1.isPrefixOf cs := by simpa using List.find?_some hfind
  have hle := (List.isPrefixOf_iff_prefix.mp hsome).length_le
  have hpos : ∀ entry ∈ symbols, 0 < entry.1.length := by decide
  have := hpos _ (List.mem_of_find?_eq_some hfind)
  simp only [List.length_drop]
  omega

/-- A token that is read becomes current and takes at least one character. -/
theorem readToken_eq_ok {lexer lexer' : Lexer} {c : Char} {cs : List Char} {more : Bool}
    (h : readToken lexer c cs = .ok more lexer') :
    more = true ∧ lexer'.current.isSome ∧ lexer'.rest.length < (c :: cs).length := by
  have drop_lt (p : Char → Bool) (hc : p c) :
      ((c :: cs).dropWhile p).length < (c :: cs).length := by
    rw [List.dropWhile_cons_of_pos hc]
    exact Nat.lt_succ_of_le (List.dropWhile_sublist p).length_le
  simp only [readToken] at h
  split at h
  · split at h
    · simp at h
    · next hrest =>
      obtain ⟨rfl, rfl⟩ := EStateM.Result.ok.inj h
      have := (List.dropWhile_sublist (l := cs) (· != '"')).length_le
      simp only [hrest, List.length_cons] at this ⊢
      exact ⟨trivial, rfl, by omega⟩
  · split at h
    · next hc =>
      obtain ⟨rfl, rfl⟩ := EStateM.Result.ok.inj h
      exact ⟨rfl, rfl, drop_lt _ hc⟩
    · split at h
      · next hc =>
        obtain ⟨rfl, rfl⟩ := EStateM.Result.ok.inj h
        exact ⟨rfl, rfl, drop_lt _ (by simp [isWordPart, Char.isAlphanum, hc])⟩
      · split at h
        · next hsymbol =>
          obtain ⟨rfl, rfl⟩ := EStateM.Result.ok.inj h
          exact ⟨rfl, rfl, symbol?_length_lt hsymbol⟩
        · simp at h

theorem fetch_eq_ok {lexer lexer' : Lexer} (h : fetch lexer = .ok true lexer') :
    lexer'.current.isSome ∧ lexer'.rest.length < lexer.rest.length := by
  have hskip := skipLayout_length_le false lexer.line lexer.rest
  simp only [fetch] at h
  split at h
  · simp at h
  · next hrest =>
    obtain ⟨-, hcurrent, hlength⟩ := readToken_eq_ok h
    rw [hrest] at hskip
    exact ⟨hcurrent, by omega⟩

instance : TokenSource Lexer where
  fetch := fetch
  current := Lexer.current
  line := Lexer.line
  bound lexer := lexer.rest.length
  current_isSome h := (fetch_eq_ok h).1
  bound_lt h := (fetch_eq_ok h).2

/-- The tokens up to the end or the first error, each with the line reached, and the state or the
error at which they end. Every token takes at least one character. -/
def drainFrom : Nat → Lexer → List (Nat × Token) → List (Nat × Token) × Except SyntaxError Lexer
  | 0, lexer, read => (read.reverse, .ok lexer)
  | fuel + 1, lexer, read =>
    match fetch lexer with
    | .ok true lexer =>
      drainFrom fuel lexer (lexer.current.toList.map (lexer.line, ·) ++ read)
    | .ok false lexer => (read.reverse, .ok lexer)
    | .error e _ => (read.reverse, .error e)

def drain (lexer : Lexer) : List (Nat × Token) × Except SyntaxError Lexer :=
  drainFrom (lexer.rest.length + 1) lexer []

def tokenize (lexer : Lexer) : Except SyntaxError (List Token) :=
  match lexer.drain with
  | (tokens, .ok _) => .ok (tokens.map (·.2))
  | (_, .error e) => .error e

/-- The tokens of the text as a prepared source, with the error or the line at which they end. -/
def toFeed (lexer : Lexer) : Feed :=
  let entries (read : List (Nat × Token)) : List Feed.Entry :=
    read.map fun (line, token) => ⟨line, .ok token⟩
  match lexer.drain with
  | (read, .ok last) => { rest := entries read, endLine := some last.line }
  | (read, .error e) => { rest := entries read ++ [⟨e.line, .error e.cause⟩] }

end Lexer
end Sapling
