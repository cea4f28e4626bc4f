import Sapling.Token.Source

/-!
# Parsing with one token of lookahead

A parse reads from a source of tokens that stands on its next token. This module has the state,
the steps on single tokens, and the two kinds of repetition that the grammar needs.
-/
namespace Sapling

structure ParseOptions where
  /-- Refuse a function definition that names a parameter twice. -/
  strictParams : Bool := false
  /-- How many blocks and expressions may nest. -/
  maxDepth : Nat := 256
  deriving DecidableEq, Repr

/-- A source that has fetched the next token, unless it is at its end. -/
structure Lookahead (σ : Type) where
  source : σ
  atEnd : Bool

abbrev Parse (σ α : Type) : Type := EStateM SyntaxError (Lookahead σ) α

variable {σ α : Type} [TokenSource σ]

namespace Lookahead

def token? (s : Lookahead σ) : Option Token :=
  if s.atEnd then none else TokenSource.current s.source

def isAt (kind : Token) (s : Lookahead σ) : Bool :=
  s.token?.any (·.sameKind kind)

def found (s : Lookahead σ) : String :=
  (s.token?.map Token.text).getD "end of input"

def ofSource (source : σ) : Except SyntaxError (Lookahead σ) :=
  match TokenSource.fetch source with
  | .ok more source => .ok ⟨source, !more⟩
  | .error e _ => .error e

end Lookahead

namespace Parse

def peek : Parse σ (Option Token) := fun s =>
  .ok s.token? s

def isNext (kind : Token) : Parse σ Bool := fun s =>
  .ok (s.isAt kind) s

/-- End the parse with an error on the line that the source has reached. -/
def fail (cause : Lookahead σ → Cause) : Parse σ α := fun s =>
  .error ⟨TokenSource.line s.source, cause s⟩ s

def violation (v : Violation) : Parse σ α :=
  fail fun _ => .grammar v

def unexpected (rule : Rule) : Parse σ α :=
  fail fun s => .unexpectedToken rule s.found

def advance : Parse σ Unit := fun s =>
  match TokenSource.fetch s.source with
  | .ok more source => .ok () ⟨source, !more⟩
  | .error e source => .error e ⟨source, s.atEnd⟩

def eat (kind : Token) : Parse σ Unit := do
  if ← isNext kind then advance
  else fail fun s => .expectedToken kind.text s.found

/-- Run `item` as often as `more` holds before it. Every run takes a token, so that no more than
`rounds` runs are possible where `rounds` is the number of tokens left. -/
def repeatWhile (more : Lookahead σ → Bool) (item : Parse σ α) :
    (rounds : Nat) → (read : List α) → Parse σ (List α)
  | 0, read => pure read.reverse
  | rounds + 1, read => do
    if more (← get) then repeatWhile more item rounds ((← item) :: read)
    else pure read.reverse

/-- One or more items with commas between them. An item is told those before it, latest first. -/
def separated (item : List α → Parse σ α) :
    (rounds : Nat) → (read : List α) → Parse σ (List α)
  | 0, read => pure read.reverse
  | rounds + 1, read => do
    let read := (← item read) :: read
    if ← isNext (.mark .comma) then
      advance
      separated item rounds read
    else pure read.reverse

end Parse
end Sapling
