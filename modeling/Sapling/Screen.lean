import Sapling.Unicode

/-!
# Screens

A screen is a list of rows of cells, from the top. Screens are composed by putting one into
another. A row is read back as its symbols, or as runs of cells that look alike.

A line of styled spans is fitted to a number of cells: it ends before the first character that
has no room, and the cells behind it are filled up. A wide character takes a cell of its own and
the blank cell behind it; newlines take no room and are left out. Lines of text can be framed by a
border with a title. A frame of one row shows its upper border only, and the title takes the place
of the border behind the corner.
-/
namespace Sapling

inductive Color where
  /-- The colour that a terminal uses if none is asked for. -/
  | reset
  | black
  | rgb (red green blue : Fin 256)
  deriving DecidableEq, Repr

def Color.text : Color → String
  | .reset => "reset"
  | .black => "black"
  | .rgb red green blue =>
    let hex (n : Fin 256) := [Nat.digitChar (n.val / 16), Nat.digitChar (n.val % 16)]
    String.ofList ('#' :: (hex red ++ hex green ++ hex blue))

structure Style where
  fg : Color := .reset
  bg : Color := .reset
  bold : Bool := false
  deriving DecidableEq, Repr

/-- A cell that nothing has written to is a blank in the default style. -/
structure Cell where
  symbol : Char := ' '
  style : Style := {}
  deriving DecidableEq, Repr

abbrev Row := List Cell

abbrev Screen := List Row

def Row.symbols (row : Row) : String :=
  String.ofList (row.map (·.symbol))

def Row.runs : Row → List (List Char × Style)
  | [] => []
  | cell :: row =>
    match runs row with
    | (text, style) :: rest =>
      if style = cell.style then (cell.symbol :: text, style) :: rest
      else ([cell.symbol], cell.style) :: (text, style) :: rest
    | [] => [([cell.symbol], cell.style)]

structure Area where
  x : Nat
  y : Nat
  width : Nat
  height : Nat
  deriving DecidableEq, Repr

/-- The part of an area that lies on a screen of the given size. -/
def Area.clip (area : Area) (width height : Nat) : Area :=
  { area with
    width := min area.width (width - area.x)
    height := min area.height (height - area.y) }

namespace Screen

def filled (cell : Cell) (width height : Nat) : Screen :=
  List.replicate height (List.replicate width cell)

def blank (width height : Nat) : Screen :=
  filled {} width height

/-- Apply `f` to a part of a list and keep what is before and behind it. -/
def splice {α : Type} (start count : Nat) (f : List α → List α) (xs : List α) : List α :=
  xs.take start ++ f ((xs.drop start).take count) ++ xs.drop (start + count)

/-- Put `part`, which is as large as `area`, into its place on a screen. -/
def place (area : Area) (part screen : Screen) : Screen :=
  splice area.y area.height
    (fun rows => List.zipWith (fun row cells => splice area.x area.width (fun _ => cells) row)
      rows part) screen

def beside (left right : Screen) : Screen :=
  List.zipWith (· ++ ·) left right

end Screen

structure Span where
  text : List Char
  style : Style := {}
  deriving DecidableEq, Repr

def Span.ofString (text : String) (style : Style := {}) : Span :=
  ⟨text.toList, style⟩

abbrev Line := List Span

namespace Line

def cellsOf (c : Char) (style : Style) : List Cell :=
  if c = '\n' then []
  else if Unicode.isWide c then [⟨c, style⟩, {}]
  else [⟨c, style⟩]

def styled (line : Line) : List (Char × Style) :=
  line.flatMap fun span => span.text.map (·, span.style)

/-- The cells of the text up to the first character that has no room. A character wider than the
whole width is left out. -/
def fitted (width : Nat) : (room : Nat) → List (Char × Style) → List Cell
  | _, [] => []
  | room, (c, style) :: rest =>
    let cells := cellsOf c style
    if width < cells.length then fitted width room rest
    else if room < cells.length then []
    else cells ++ fitted width (room - cells.length) rest

/-- The line from the left edge, with the rest of the width in the style of the background. -/
def leftAligned (width : Nat) (background : Style) (line : Line) : Row :=
  let cells := fitted width width line.styled
  cells ++ List.replicate (width - cells.length) ⟨' ', background⟩

def rightAligned (width : Nat) (background : Style) (line : Line) : Row :=
  let cells := fitted width width line.styled
  List.replicate (width - cells.length) ⟨' ', background⟩ ++ cells

end Line

structure Frame where
  title : String
  border : Style
  lines : List Line

namespace Frame

def edged (frame : Frame) (left right : Char) (width : Nat) (inner : Row) : Row :=
  (⟨left, frame.border⟩ :: (inner ++ [⟨right, frame.border⟩])).take width

def rule (frame : Frame) (width : Nat) (text : List Char) : Row :=
  (text.take width ++ List.replicate (width - text.length) '─').map (⟨·, frame.border⟩)

def top (frame : Frame) (width : Nat) : Row :=
  frame.edged '┌' '┐' width (frame.rule (width - 2) frame.title.toList)

def bottom (frame : Frame) (width : Nat) : Row :=
  frame.edged '└' '┘' width (frame.rule (width - 2) [])

def content (frame : Frame) (width row : Nat) : Row :=
  frame.edged '│' '│' width (((frame.lines[row]?).getD []).leftAligned (width - 2) {})

def draw (frame : Frame) (width height : Nat) : Screen :=
  match height with
  | 0 => []
  | 1 => [frame.top width]
  | rows + 2 => frame.top width :: ((List.range rows).map (frame.content width) ++
      [frame.bottom width])

end Frame

end Sapling
