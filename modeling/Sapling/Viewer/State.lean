import Sapling.Census
import Sapling.Parse.Program
import Sapling.Viewer.Panes

/-!
# Viewer

The viewer shows a source text beside the outline of its program. Keys move the focus and the
scroll offset of the pane in focus; drawing holds both offsets to what the panes can show.
-/
namespace Sapling

inductive Pane where
  | source
  | outline
  deriving DecidableEq, Repr

def Pane.next : Pane → Pane
  | .source => .outline
  | .outline => .source

inductive Key where
  | char (c : Char)
  | escape
  | tab
  | backTab
  | up
  | down
  | left
  | right
  | pageUp
  | pageDown
  | home
  | bottom
  | enter
  deriving DecidableEq, Repr

structure Viewer where
  file : String
  source : String
  outline : Outline
  errorLine : Option Nat
  message : String
  focus : Pane := .source
  sourceScroll : UInt64 := 0
  outlineScroll : UInt64 := 0
  quit : Bool := false

namespace Viewer

/-- The end of the range of scroll offsets. -/
def farthest : UInt64 := .ofNat (UInt64.size - 1)

def page : Int64 := 10

/-- An offset moved by a signed number of rows. A sum that wraps around is recognised by its size
and held to the end that it has passed. -/
def shift (delta : Int64) (offset : UInt64) : UInt64 :=
  let sum := offset + delta.toUInt64
  if sum < offset ↔ delta < 0 then sum
  else if sum < offset then farthest
  else 0

def ofParse (file source : String) : Except SyntaxError Block → Viewer
  | .ok program =>
    let census := Census.ofProgram program
    { file, source
      outline := .ofProgram program
      errorLine := none
      message := toString program.length ++ " statements, " ++ toString census.total ++
        " nodes, " ++ toString census.functions.length ++ " functions" }
  | .error e => { file, source, outline := [], errorLine := some e.line, message := e.message }

def scroll (f : UInt64 → UInt64) (v : Viewer) : Viewer :=
  match v.focus with
  | .source => { v with sourceScroll := f v.sourceScroll }
  | .outline => { v with outlineScroll := f v.outlineScroll }

def press (key : Key) (v : Viewer) : Viewer :=
  match key with
  | .char c => if c = 'q' ∨ c = 'Q' then { v with quit := true } else v
  | .escape => { v with quit := true }
  | .tab | .backTab => { v with focus := v.focus.next }
  | .up => v.scroll (shift (-1))
  | .down => v.scroll (shift 1)
  | .pageUp => v.scroll (shift (-page))
  | .pageDown => v.scroll (shift page)
  | .home => v.scroll fun _ => 0
  | .bottom => v.scroll fun _ => farthest
  | .left | .right | .enter => v

/-- The width of the left of the two columns: 55 parts of a hundred, rounded. -/
def leftColumn (width : Nat) : Nat :=
  (55 * width + 50) / 100

/-- Hold both scroll offsets to the panes on a screen of the given height. The last row of the
screen is the status bar. -/
def settle (height : Nat) (v : Viewer) : Viewer :=
  { v with
    sourceScroll := .ofNat (SourcePane.clamp v.source (height - 1) v.sourceScroll.toNat)
    outlineScroll := .ofNat (OutlinePane.clamp v.outline (height - 1) v.outlineScroll.toNat) }

def screen (width height : Nat) (v : Viewer) : Screen :=
  let rows := height - 1
  let left := leftColumn width
  let source :=
    SourcePane.frame v.source v.errorLine (v.focus = .source) rows v.sourceScroll.toNat
  let outline := OutlinePane.frame v.outline (v.focus = .outline) rows v.outlineScroll.toNat
  Screen.beside (source.draw left rows) (outline.draw (width - left) rows) ++
    StatusBar.draw v.file v.message v.errorLine.isSome width (min height 1)

def draw (width height : Nat) (v : Viewer) : Viewer × Screen :=
  let v := v.settle height
  (v, v.screen width height)

end Viewer
end Sapling
