import Sapling.Outline
import Sapling.Screen
import Sapling.Viewer.Highlight

/-!
# Panes

The source pane shows numbered lines and marks the line of an error; the outline pane shows one
entry per row. Both are windows onto a list of rows, and a scroll offset never leaves empty rows
below the last one while there are rows above the window.
-/
namespace Sapling

/-- The number of a line as it stands before it, at the right edge of at least four columns. -/
def lineNumber (number : Nat) : List Char :=
  let digits := Nat.toDigits 10 number
  List.replicate (4 - digits.length) ' ' ++ digits

/-- The rows of a pane inside its frame; a pane without any counts as having one. -/
def visibleRows (height : Nat) : Nat :=
  max 1 (height - 2)

def clampScroll (scroll total visible : Nat) : Nat :=
  min scroll (total - visible)

def borderStyle (focused : Bool) : Style :=
  if focused then { fg := Palette.focus, bold := true } else { fg := Palette.muted }

namespace SourcePane

/-- The lines of a text. A newline ends a line, together with a carriage return before it. -/
def linesFrom (reversed : List Char) : List Char → List (List Char)
  | [] => if reversed.isEmpty then [] else [reversed.reverse]
  | c :: cs =>
    if c = '\n' then
      (if reversed.head? = some '\r' then reversed.drop 1 else reversed).reverse :: linesFrom [] cs
    else linesFrom (c :: reversed) cs

def lines (source : String) : List (List Char) :=
  linesFrom [] source.toList

def gutter (number : Nat) : List Char :=
  lineNumber number ++ [' ']

/-- A line with its number. The number and the background show whether it is the line in error. -/
def numbered (errorLine : Option Nat) (number : Nat) (text : List Char) : Line :=
  if errorLine = some number then
    ⟨gutter number, { fg := Palette.error, bold := true }⟩ ::
      (Highlight.line text).map fun span =>
        { span with style := { span.style with bg := Palette.band } }
  else ⟨gutter number, { fg := Palette.muted }⟩ :: Highlight.line text

def clamp (source : String) (height scroll : Nat) : Nat :=
  clampScroll scroll (lines source).length (visibleRows height)

/-- The frame with the window that begins at line `scroll`. -/
def frame (source : String) (errorLine : Option Nat) (focused : Bool) (height scroll : Nat) :
    Frame where
  title := " Source "
  border := borderStyle focused
  lines :=
    (((lines source).drop scroll).take (visibleRows height)).zipIdx (scroll + 1) |>.map
      fun (text, number) => numbered errorLine number text

end SourcePane

namespace OutlinePane

def kindStyle (kind : String) : Style :=
  match kind with
  | "Block" => { fg := Palette.muted }
  | "Literal" => { fg := Palette.number }
  | "Variable" | "Assign" => { fg := Palette.plain }
  | "Call" => { fg := Palette.function }
  | "BinaryOp" => { fg := Palette.bracket }
  | _ => { fg := Palette.statement, bold := true }

/-- An entry: the word up to the first blank of its label shows the kind, the rest the detail. -/
def row (entry : Outline.Entry) : Line :=
  let label := entry.label.toList
  let kind := label.takeWhile (· != ' ')
  let detail := (label.dropWhile (· != ' ')).drop 1
  let shown : Line :=
    [⟨List.replicate (entry.depth * 2) ' ', {}⟩, ⟨kind, kindStyle (String.ofList kind)⟩]
  if detail.isEmpty then shown
  else shown ++ [⟨[' '], {}⟩, ⟨detail, { fg := Palette.detail }⟩]

def clamp (entries : Outline) (height scroll : Nat) : Nat :=
  clampScroll scroll entries.length (visibleRows height)

def frame (entries : Outline) (focused : Bool) (height scroll : Nat) : Frame where
  title := " AST (" ++ toString entries.length ++ " nodes) "
  border := borderStyle focused
  lines := ((entries.drop scroll).take (visibleRows height)).map row

end OutlinePane

namespace StatusBar

def left (file message : String) (failed : Bool) : Line :=
  [.ofString (" " ++ file ++ " ")
      ⟨.black, if failed then Palette.error else Palette.bracket, true⟩,
    .ofString " | " ⟨Palette.muted, Palette.band, false⟩,
    .ofString (" " ++ message ++ " ")
      ⟨if failed then Palette.error else Palette.plain, Palette.band, false⟩]

def right : Line :=
  let key : Style := ⟨.black, Palette.muted, false⟩
  let words : Style := ⟨Palette.plain, Palette.band, false⟩
  let separator : Style := ⟨Palette.muted, Palette.band, false⟩
  [.ofString " ⇥ " key, .ofString " focus " words, .ofString "│" separator, .ofString " " words,
    .ofString " ↑/↓ PgUp/PgDn " key, .ofString " scroll " words, .ofString "│" separator,
    .ofString " " words, .ofString "q" key, .ofString " quit " words]

def draw (file message : String) (failed : Bool) (width height : Nat) : Screen :=
  let background : Style := { bg := Palette.band }
  let half := (width + 1) / 2
  let text := (left file message failed).leftAligned half background ++
    right.rightAligned (width - half) background
  (text :: Screen.filled ⟨' ', background⟩ width (height - 1)).take height

end StatusBar
end Sapling
