import Sapling.Screen
import Sapling.Token
import Sapling.Unicode

/-!
# Highlighting

A line of source text is cut into words, strings, a comment and single characters, each in a
style of its own. Any text can be highlighted, also one that holds no tokens. The colours of the
viewer are named for what they show.
-/
namespace Sapling.Palette

def plain : Color := .rgb 205 214 244

def bracket : Color := .rgb 137 180 250

def keyword : Color := .rgb 137 180 250

def number : Color := .rgb 250 179 135

def detail : Color := .rgb 250 179 135

def muted : Color := .rgb 108 112 134

def error : Color := .rgb 243 139 168

def string : Color := .rgb 166 227 161

def function : Color := .rgb 249 226 175

def focus : Color := .rgb 249 226 175

def band : Color := .rgb 50 50 70

def statement : Color := .rgb 148 226 213

end Sapling.Palette

namespace Sapling.Highlight

def isWordPart (c : Char) : Bool :=
  Unicode.isAlphanumeric c || c == '_' || c == '.'

/-- A word is shown as a function if a parenthesis follows it directly. -/
def wordStyle (word : List Char) (called : Bool) : Style :=
  if (Keyword.ofText? (String.ofList word)).isSome then { fg := Palette.keyword, bold := true }
  else if (word.head?).any fun c => c.isDigit || c == '.' then { fg := Palette.number }
  else if called then { fg := Palette.function }
  else { fg := Palette.plain }

def symbolStyle (c : Char) : Style :=
  if c == '{' || c == '}' || c == '(' || c == ')' then { fg := Palette.bracket }
  else { fg := Palette.plain }

def line : List Char → Line
  | [] => []
  | c :: cs =>
    if c = '#' then [⟨c :: cs, { fg := Palette.muted }⟩]
    else if c = '"' then
      let body := cs.takeWhile (· != '"')
      let rest := cs.dropWhile (· != '"')
      ⟨c :: (body ++ rest.take 1), { fg := Palette.string }⟩ :: line (rest.drop 1)
    else if isWordPart c then
      let word := c :: cs.takeWhile isWordPart
      let rest := cs.dropWhile isWordPart
      ⟨word, wordStyle word (rest.head? == some '(')⟩ :: line rest
    else ⟨[c], symbolStyle c⟩ :: line cs
termination_by cs => cs.length
decreasing_by
  · have := (List.dropWhile_sublist (l := cs) (· != '"')).length_le
    simp only [List.length_drop, List.length_cons]
    omega
  · have := (List.dropWhile_sublist (l := cs) isWordPart).length_le
    simp only [List.length_cons]
    omega
  · simp

end Sapling.Highlight
