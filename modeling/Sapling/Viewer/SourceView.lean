import Sapling.Viewer.Panes

/-!
# Drawing the source pane

A highlighter goes over the characters of a line, each with the byte at which it begins. It
collects the characters of a word until one that ends the word, and cuts strings and the comment
out of the line between two bytes. What it answers is the highlighted line.

The source pane is drawn into an area of a screen, and brings its scroll offset into the bounds of
the text. Every line in the window is highlighted as it is drawn.
-/
namespace Sapling

/-- Two bytes of a text between which nothing can be cut out of it: one of them is not the first
of a character or the end, or they stand in the wrong order. -/
structure BadCut where
  start : Nat
  stop : Nat
  deriving DecidableEq, Repr

def cut (text : String) (start stop : Nat) : Except BadCut String :=
  if h : String.Pos.Raw.IsValid text ⟨start⟩ ∧ String.Pos.Raw.IsValid text ⟨stop⟩ ∧
      start ≤ stop then
    .ok (text.extract (text.pos _ h.1) (text.pos _ h.2.1))
  else .error ⟨start, stop⟩

/-- Characters, each with the byte at which it begins. -/
def byteOffsets : (start : Nat) → List Char → List (Nat × Char)
  | _, [] => []
  | start, c :: cs => (start, c) :: byteOffsets (start + c.utf8Size) cs

def charsOf (text : String) : Array (Nat × Char) :=
  (byteOffsets 0 text.toList).toArray

structure Highlighter where
  text : String
  chars : Array (Nat × Char)
  /-- The number of the next character. -/
  next : Nat
  spans : Line
  /-- The word that is being read. -/
  word : List Char

namespace Highlighter

/-- Without an outcome, a run does not end. -/
abbrev Run : Type → Type := ExceptT BadCut Option

def ofString (text : String) : Highlighter :=
  ⟨text, charsOf text, 0, [], []⟩

def flush (called : Bool) (h : Highlighter) : Highlighter :=
  if h.word.isEmpty then h
  else { h with spans := h.spans ++ [⟨h.word, Highlight.wordStyle h.word called⟩], word := [] }

/-- Go on behind a span at the character with the given number. -/
def add (span : Span) (next : Nat) (h : Highlighter) : Highlighter :=
  { h with spans := h.spans ++ [span], next }

def push (c : Char) (h : Highlighter) : Highlighter :=
  { h with word := h.word ++ [c], next := h.next + 1 }

/-- The byte at which a character begins, or the end of the text. -/
def byteAt (i : Nat) (h : Highlighter) : Nat :=
  (h.chars[i]?.map (·.1)).getD h.text.utf8ByteSize

def quoteFrom (h : Highlighter) (i : Nat) : Run Nat :=
  match h.chars[i]? with
  | some (_, c) => if c = '"' then return i else h |>.quoteFrom (i + 1)
  | none => return i
partial_fixpoint

/-- Cut out the string whose first quote begins at byte `start`. It ends with the next quote, or
with the line. The number of the character behind it goes with it. -/
def string (start : Nat) (h : Highlighter) : Run (String × Nat) := do
  let quote ← h.quoteFrom (h.next + 1)
  let behind := if quote < h.chars.size then quote + 1 else quote
  return (← cut h.text start (h.byteAt behind), behind)

def scan (h : Highlighter) : Run Line :=
  match h.chars[h.next]? with
  | none => return (h.flush false).spans
  | some (start, c) => do
    if c = '#' then
      let comment ← cut h.text start h.text.utf8ByteSize
      return (h.flush false).spans ++ [.ofString comment { fg := Palette.muted }]
    else if c = '"' then
      let (literal, behind) ← h.string start
      (h.flush false).add (.ofString literal { fg := Palette.string }) behind |>.scan
    else if !Highlight.isWordPart c then
      (h.flush (c == '(')).add ⟨[c], Highlight.symbolStyle c⟩ (h.next + 1) |>.scan
    else h.push c |>.scan
partial_fixpoint

end Highlighter

def highlight (text : String) : Highlighter.Run Line :=
  (Highlighter.ofString text).scan

def Screen.clip (area : Area) (screen : Screen) : Area :=
  area.clip (screen.headD []).length screen.length

namespace SourcePane

def marked (errorLine : Option Nat) (number : Nat) (spans : Line) : Line :=
  if errorLine = some number then
    ⟨gutter number, { fg := Palette.error, bold := true }⟩ ::
      spans.map fun span => { span with style := { span.style with bg := Palette.band } }
  else ⟨gutter number, { fg := Palette.muted }⟩ :: spans

def drawLines (source : String) (errorLine : Option Nat) (height scroll : Nat) :
    Highlighter.Run (List Line) :=
  ((((lines source).zipIdx 1).drop scroll).take (visibleRows height)).mapM fun (text, number) =>
    marked errorLine number <$> highlight (String.ofList text)

/-- The scroll offset inside the bounds, and the screen with the pane. -/
def render (source : String) (errorLine : Option Nat) (focused : Bool) (area : Area)
    (scroll : Nat) (screen : Screen) : Highlighter.Run (Nat × Screen) := do
  let scroll := clamp source area.height scroll
  let lines ← drawLines source errorLine area.height scroll
  let frame : Frame := { title := " Source ", border := borderStyle focused, lines }
  let shown := Screen.clip area screen
  return (scroll, Screen.place shown (frame.draw shown.width shown.height) screen)

end SourcePane
end Sapling
