import Sapling.Lexer

/-!
# Scanning character by character

A scanner takes its characters one at a time and has a slot for one that it has looked at and
given back. Where a token or the layout ends is seen from the character behind it, which goes back
into the slot. What a scanner reads is what the lexer reads.
-/
namespace Sapling

structure Scanner where
  input : List Char
  /-- The character that has been given back. -/
  pushback : Option Char
  line : Nat
  current : Option Token

namespace Scanner

/-- Why a call ends early: a character is given back into a slot that is taken, or the text is not
made of tokens. -/
inductive Fault where
  | slotTaken
  | refused (e : SyntaxError)
  deriving DecidableEq, Repr

abbrev Result (α : Type) : Type := EStateM.Result Fault Scanner α

abbrev Scan (α : Type) : Type := EStateM Fault Scanner α

def ofString (source : String) : Scanner :=
  ⟨source.toList, none, 1, none⟩

def rest (s : Scanner) : List Char :=
  s.pushback.toList ++ s.input

def toLexer (s : Scanner) : Lexer :=
  ⟨s.rest, s.line, s.current⟩

def next? (s : Scanner) : Option (Char × Scanner) :=
  match s.pushback, s.input with
  | some c, _ => some (c, { s with pushback := none })
  | none, c :: cs => some (c, { s with input := cs })
  | none, [] => none

def next : Scan (Option Char) := fun s =>
  match s.next? with
  | some (c, s) => .ok (some c) s
  | none => .ok none s

/-- Give a character back. There is room for one. -/
def pushBack (c : Char) : Scan Unit := fun s =>
  if s.pushback.isSome then .error .slotTaken s else .ok () { s with pushback := some c }

def nextIs (expected : Char) : Scan Bool := do
  match ← next with
  | some c =>
    if c = expected then return true
    else
      pushBack c
      return false
  | none => return false

def newline (s : Scanner) : Scanner :=
  { s with line := s.line + 1 }

theorem next?_eq_some {s s' : Scanner} {c : Char} (h : s.next? = some (c, s')) :
    s.rest = c :: s'.rest ∧ s'.pushback = none ∧ s'.line = s.line ∧ s'.current = s.current := by
  obtain ⟨input, pushback, line, current⟩ := s
  cases pushback with
  | some d =>
    obtain ⟨rfl, rfl⟩ := Prod.mk.inj (Option.some.inj h)
    exact ⟨rfl, rfl, rfl, rfl⟩
  | none =>
    cases input with
    | nil => simp [next?] at h
    | cons d cs =>
      obtain ⟨rfl, rfl⟩ := Prod.mk.inj (Option.some.inj h)
      exact ⟨rfl, rfl, rfl, rfl⟩

theorem rest_of_next? {s s' : Scanner} {c : Char} (h : s.next? = some (c, s')) :
    s.rest = c :: s'.rest :=
  (next?_eq_some h).1

@[simp] theorem rest_newline (s : Scanner) : s.newline.rest = s.rest := rfl

@[simp] theorem line_newline (s : Scanner) : s.newline.line = s.line + 1 := rfl

@[simp] theorem current_newline (s : Scanner) : s.newline.current = s.current := rfl

def skipComment (s : Scanner) : Scanner :=
  match _h : s.next? with
  | none => s
  | some (c, s') => if c = '\n' then s'.newline else s'.skipComment
termination_by s.rest.length
decreasing_by simp [rest_of_next? _h]

theorem skipComment_length_le (s : Scanner) : s.skipComment.rest.length ≤ s.rest.length := by
  fun_induction skipComment s with
  | case1 s _ => exact Nat.le_refl _
  | case2 s s' h => simp [rest_of_next? h]
  | case3 s c s' h _ ih =>
    rw [rest_of_next? h]
    exact Nat.le_succ_of_le ih

/-- Skip layout. The character behind it goes back into the slot. -/
def skipLayout (s : Scanner) : Result Unit :=
  match _h : s.next? with
  | none => .ok () s
  | some (c, s') =>
    if c = '\n' then skipLayout s'.newline
    else if c = '#' then skipLayout s'.skipComment
    else if Lexer.isBlank c then skipLayout s'
    else pushBack c s'
termination_by s.rest.length
decreasing_by
  · simp [rest_of_next? _h]
  · have := s'.skipComment_length_le
    simp only [rest_of_next? _h, List.length_cons]
    omega
  · simp [rest_of_next? _h]

/-- The rest of a string whose opening quote was on `start`, with the text read so far. -/
def quoted (start : Nat) (read : List Char) (s : Scanner) : Result Token :=
  match _h : s.next? with
  | none => .error (.refused ⟨start, .unterminatedString⟩) s
  | some (c, s') =>
    if c = '"' then .ok (.str (String.ofList read.reverse)) s'
    else if c = '\n' then quoted start (c :: read) s'.newline
    else quoted start (c :: read) s'
termination_by s.rest.length
decreasing_by all_goals simp [rest_of_next? _h]

def string : Scan Token := fun s =>
  quoted s.line [] s

/-- Read on as long as the characters belong to the run. The one behind it goes back into the
slot. -/
def run (belongs : Char → Bool) (read : List Char) (s : Scanner) : Result (List Char) :=
  match _h : s.next? with
  | none => .ok read.reverse s
  | some (c, s') =>
    if belongs c then run belongs (c :: read) s'
    else (do pushBack c; return read.reverse : Scan (List Char)) s'
termination_by s.rest.length
decreasing_by simp [rest_of_next? _h]

def numeral (first : Char) : Scan Token := do
  return .number (Numeral.value (← run Numeral.isPart [first]))

def word (first : Char) : Scan Token := do
  return .ofWord (String.ofList (← run Lexer.isWordPart [first]))

/-- The symbols of one character that begin no other symbol. -/
def singles : List (Char × Token) :=
  [('(', .mark .leftParen), (')', .mark .rightParen), ('\x7b', .mark .leftBrace),
    ('\x7d', .mark .rightBrace), ('+', .operator .add), ('-', .operator .sub),
    ('*', .operator .mul), ('/', .operator .div), ('%', .operator .mod), (';', .mark .semicolon),
    (',', .mark .comma)]

def symbol (first : Char) : Scan (Option Token) := do
  if first = '=' then
    return some (if ← nextIs '=' then .operator .eq else .mark .assign)
  else if first = '<' then
    return some (.operator (if ← nextIs '=' then .le else .lt))
  else if first = '>' then
    return some (.operator (if ← nextIs '=' then .ge else .gt))
  else return singles.lookup first

def unexpected (c : Char) : Scan Token := fun s =>
  .error (.refused ⟨s.line, .unexpectedCharacter c⟩) s

def token (first : Char) : Scan Token := do
  if first = '"' then string
  else if Numeral.isPart first then numeral first
  else if first.isAlpha then word first
  else
    match ← symbol first with
    | some t => return t
    | none => unexpected first

def accept (t : Token) : Scan Bool := fun s =>
  .ok true { s with current := some t }

/-- Move to the next token, or answer `false` at the end. -/
def fetch : Scan Bool := do
  skipLayout
  match ← next with
  | none => return false
  | some c => accept (← token c)

/-- The tokens up to the end or the first fault, each with the line reached, and the state or the
fault at which they end. Every token takes at least one character. -/
def drainFrom : Nat → Scanner → List (Nat × Token) → List (Nat × Token) × Except Fault Scanner
  | 0, s, read => (read.reverse, .ok s)
  | fuel + 1, s, read =>
    match fetch s with
    | .ok true s => drainFrom fuel s (s.current.toList.map (s.line, ·) ++ read)
    | .ok false s => (read.reverse, .ok s)
    | .error fault _ => (read.reverse, .error fault)

def drain (s : Scanner) : List (Nat × Token) × Except Fault Scanner :=
  drainFrom (s.rest.length + 1) s []

def takeCurrent : Scan (Option Token) := fun s =>
  .ok s.current { s with current := none }

def tokenizeFrom : (fuel : Nat) → (read : List Token) → Scan (List Token)
  | 0, read => return read.reverse
  | fuel + 1, read => do
    if ← fetch then
      match ← takeCurrent with
      | some t => tokenizeFrom fuel (t :: read)
      | none => tokenizeFrom fuel read
    else return read.reverse

def tokenize (s : Scanner) : Except Fault (List Token) :=
  match tokenizeFrom (s.rest.length + 1) [] s with
  | .ok ts _ => .ok ts
  | .error fault _ => .error fault

end Scanner
end Sapling
