import Mathlib.Data.List.Basic
import Sapling.Proofs.ScreenCells

/-!
# Text in a number of cells

A line is shown up to the first character that has no room: the longest beginning that fits. The
cells behind it show nothing.
-/
namespace Sapling

def cellWidth (c : Char) : Nat :=
  if Unicode.isWide c then 2 else 1

def cellCount : List Char → Nat
  | [] => 0
  | c :: cs => cellWidth c + cellCount cs

/-- What the cells of a text show. Behind a wide character there is a blank. -/
def cellSymbols (cs : List Char) : List Char :=
  cs.flatMap fun c => if Unicode.isWide c then [c, ' '] else [c]

theorem cellWidth_pos (c : Char) : 0 < cellWidth c := by
  unfold cellWidth
  split <;> decide

theorem cellWidth_le_two (c : Char) : cellWidth c ≤ 2 := by
  unfold cellWidth
  split <;> decide

@[simp] theorem cellCount_nil : cellCount [] = 0 := rfl

@[simp] theorem cellCount_cons (c : Char) (cs : List Char) :
    cellCount (c :: cs) = cellWidth c + cellCount cs := rfl

theorem cellSymbols_append (cs ds : List Char) :
    cellSymbols (cs ++ ds) = cellSymbols cs ++ cellSymbols ds :=
  List.flatMap_append

@[simp] theorem length_cellSymbols (cs : List Char) : (cellSymbols cs).length = cellCount cs := by
  induction cs with
  | nil => rfl
  | cons c cs ih =>
    rw [cellSymbols, List.flatMap_cons, List.length_append, ← cellSymbols, ih, cellCount_cons,
      cellWidth]
    split <;> rfl

/-- The longest beginning of a text that has room in a number of cells. -/
structure LongestFit (room : Nat) (shown text : List Char) : Prop where
  begins : shown <+: text
  fits : cellCount shown ≤ room
  longest : ∀ other, other <+: text → cellCount other ≤ room → other <+: shown

def fit : (room : Nat) → List Char → List Char
  | _, [] => []
  | room, c :: cs => if cellWidth c ≤ room then c :: fit (room - cellWidth c) cs else []

theorem fit_zero (cs : List Char) : fit 0 cs = [] := by
  cases cs with
  | nil => rfl
  | cons c cs => rw [fit, if_neg (Nat.not_le_of_gt (cellWidth_pos c))]

theorem longestFit_fit (room : Nat) (cs : List Char) : LongestFit room (fit room cs) cs := by
  induction cs generalizing room with
  | nil => exact ⟨List.prefix_rfl, Nat.zero_le _, fun other hother _ => hother⟩
  | cons c cs ih =>
    rw [fit]
    split_ifs with hroom
    · obtain ⟨hbegins, hfits, hlongest⟩ := ih (room - cellWidth c)
      refine ⟨List.cons_prefix_cons.mpr ⟨rfl, hbegins⟩, ?_, fun other hother hcount => ?_⟩
      · rw [cellCount_cons]
        omega
      · cases other with
        | nil => exact List.nil_prefix
        | cons d other =>
          obtain ⟨rfl, hrest⟩ := List.cons_prefix_cons.mp hother
          rw [cellCount_cons] at hcount
          exact List.cons_prefix_cons.mpr ⟨rfl, hlongest other hrest (by omega)⟩
    · refine ⟨List.nil_prefix, Nat.zero_le _, fun other hother hcount => ?_⟩
      cases other with
      | nil => exact List.prefix_rfl
      | cons d other =>
        obtain ⟨rfl, -⟩ := List.cons_prefix_cons.mp hother
        rw [cellCount_cons] at hcount
        omega

theorem LongestFit.eq_fit {room : Nat} {shown cs : List Char} (h : LongestFit room shown cs) :
    shown = fit room cs := by
  have hfit := longestFit_fit room cs
  exact (hfit.longest shown h.begins h.fits).eq_of_length_le
    (h.longest _ hfit.begins hfit.fits).length_le

namespace Line

def chars (line : Line) : List Char :=
  line.flatMap Span.text

theorem map_fst_styled (line : Line) : line.styled.map (·.1) = line.chars := by
  rw [styled, chars, List.map_flatMap]
  congr 1
  funext span
  rw [List.map_map]
  exact List.map_id span.text

theorem length_cellsOf {c : Char} (hc : c ≠ '\n') (style : Style) :
    (cellsOf c style).length = cellWidth c := by
  rw [cellsOf, if_neg hc, cellWidth]
  split <;> rfl

theorem map_symbol_cellsOf {c : Char} (hc : c ≠ '\n') (style : Style) :
    (cellsOf c style).map (·.symbol) = cellSymbols [c] := by
  rw [cellsOf, if_neg hc, cellSymbols, List.flatMap_singleton]
  split <;> rfl

theorem fitted_zero {width : Nat} {text : List (Char × Style)} (h : '\n' ∉ text.map (·.1)) :
    fitted width 0 text = [] := by
  induction text with
  | nil => rfl
  | cons first text ih =>
    obtain ⟨c, style⟩ := first
    rw [List.map_cons, List.mem_cons, not_or] at h
    have hpos := cellWidth_pos c
    simp only [fitted, length_cellsOf (Ne.symm h.1)]
    split_ifs
    · exact ih h.2
    · rfl

theorem map_symbol_fitted {width room : Nat} {text : List (Char × Style)}
    (h : '\n' ∉ text.map (·.1)) (hwidth : 2 ≤ width) :
    (fitted width room text).map (·.symbol) = cellSymbols (fit room (text.map (·.1))) := by
  induction text generalizing room with
  | nil => rfl
  | cons first text ih =>
    obtain ⟨c, style⟩ := first
    rw [List.map_cons, List.mem_cons, not_or] at h
    have hle := cellWidth_le_two c
    have hc : c ≠ '\n' := Ne.symm h.1
    simp only [fitted, length_cellsOf hc, List.map_cons, fit]
    rw [if_neg (by omega)]
    split_ifs with hroom hfits
    · omega
    · rfl
    · rw [List.map_append, ih h.2, map_symbol_cellsOf hc, ← cellSymbols_append]
      rfl
    · omega

/-- A text that begins with a narrow character is shown as far as it fits, in any width. -/
theorem map_symbol_fitted_of_narrow (width : Nat) {text : List (Char × Style)}
    (h : '\n' ∉ text.map (·.1)) (hnarrow : ∀ c ∈ (text.map (·.1)).head?, cellWidth c = 1) :
    (fitted width width text).map (·.symbol) = cellSymbols (fit width (text.map (·.1))) := by
  match width, text with
  | _, [] => rfl
  | 0, _ => rw [fitted_zero h, fit_zero]; rfl
  | 1, (c, style) :: text =>
    rw [List.map_cons, List.mem_cons, not_or] at h
    have hc : c ≠ '\n' := Ne.symm h.1
    have hone : cellWidth c = 1 := hnarrow c rfl
    simp only [fitted, length_cellsOf hc, hone, Nat.lt_irrefl, if_false, Nat.sub_self,
      fitted_zero h.2, List.append_nil, map_symbol_cellsOf hc, List.map_cons, fit, Nat.le_refl,
      if_true, fit_zero]
  | width + 2, _ => exact map_symbol_fitted h (Nat.le_add_left 2 width)

theorem length_fitted_le (width room : Nat) (text : List (Char × Style)) :
    (fitted width room text).length ≤ room := by
  induction text generalizing room with
  | nil => exact Nat.zero_le _
  | cons first text ih =>
    obtain ⟨c, style⟩ := first
    simp only [fitted]
    split_ifs with hwide hroom
    · exact ih room
    · exact Nat.zero_le _
    · have hrest := ih (room - (cellsOf c style).length)
      rw [List.length_append]
      omega

@[simp] theorem length_leftAligned (line : Line) (width : Nat) (background : Style) :
    (line.leftAligned width background).length = width := by
  have hle := length_fitted_le width width line.styled
  rw [leftAligned, List.length_append, List.length_replicate]
  omega

section Narrow

variable {line : Line} (h : '\n' ∉ line.chars)
  (hnarrow : ∀ c ∈ line.chars.head?, cellWidth c = 1) (width : Nat) (background : Style)

include h hnarrow

theorem map_symbol_fitted_styled :
    (fitted width width line.styled).map (·.symbol) = cellSymbols (fit width line.chars) := by
  rw [← map_fst_styled] at h hnarrow ⊢
  exact map_symbol_fitted_of_narrow width h hnarrow

theorem length_fitted_styled :
    (fitted width width line.styled).length = cellCount (fit width line.chars) := by
  rw [← length_cellSymbols, ← map_symbol_fitted_styled h hnarrow, List.length_map]

/-- A line that begins with a narrow character is shown as far as it fits, with blanks behind. -/
theorem map_symbol_leftAligned :
    (line.leftAligned width background).map (·.symbol) =
      cellSymbols (fit width line.chars) ++
        List.replicate (width - cellCount (fit width line.chars)) ' ' := by
  rw [leftAligned, List.map_append, map_symbol_fitted_styled h hnarrow, List.map_replicate,
    length_fitted_styled h hnarrow]

theorem getElem?_leftAligned_behind {k : Nat} (hbehind : cellCount (fit width line.chars) ≤ k)
    (hk : k < width) :
    (line.leftAligned width background)[k]? = some ⟨' ', background⟩ := by
  have hlength := length_fitted_styled h hnarrow width
  rw [leftAligned, List.getElem?_append_right (by omega), List.getElem?_replicate_of_lt (by omega)]

end Narrow

end Line

theorem Screen.sameSymbols_of_map {screen screen' : Screen}
    (h : screen.map (List.map (·.symbol)) = screen'.map (List.map (·.symbol))) :
    screen.SameSymbols screen' := by
  have hcell (screen : Screen) (row column : Nat) : (screen.cell? row column).map (·.symbol) =
      (((screen.map (List.map (·.symbol)))[row]?).getD [])[column]? := by
    rw [cell?, List.getElem?_map]
    cases screen[row]? <;> simp
  intro row column
  rw [hcell, hcell, h]

namespace Frame

variable {frame frame' : Frame} {width : Nat}

theorem length_edged (left right : Char) {inner : Row} (hinner : inner.length = width - 2)
    (hwidth : 2 ≤ width) : (frame.edged left right width inner).length = width := by
  simp only [edged, List.length_take, List.length_cons, List.length_append, hinner, List.length_nil]
  omega

theorem length_rule (text : List Char) : (frame.rule width text).length = width := by
  simp only [rule, List.length_map, List.length_append, List.length_take, List.length_replicate]
  omega

theorem hasSize_draw (hwidth : 2 ≤ width) (height : Nat) :
    (frame.draw width height).HasSize width height := by
  have hrule (text : List Char) (left right : Char) :
      (frame.edged left right width (frame.rule (width - 2) text)).length = width :=
    length_edged left right (length_rule text) hwidth
  match height with
  | 0 => exact ⟨rfl, by simp [draw]⟩
  | 1 => exact ⟨rfl, fun row hrow => List.mem_singleton.mp hrow ▸ hrule _ _ _⟩
  | rows + 2 =>
    refine ⟨by simp [draw], fun row hrow => ?_⟩
    rw [draw, List.mem_cons, List.mem_append, List.mem_map, List.mem_singleton] at hrow
    rcases hrow with rfl | ⟨k, -, rfl⟩ | rfl
    · exact hrule _ _ _
    · exact length_edged _ _ (Line.length_leftAligned _ _ _) hwidth
    · exact hrule _ _ _

theorem getElem?_content {k column : Nat} (hcolumn : column < width - 2) :
    (frame.content width k)[column + 1]? =
      (((frame.lines[k]?).getD []).leftAligned (width - 2) {})[column]? := by
  rw [content, edged, List.getElem?_take_of_lt (by omega), List.getElem?_cons_succ,
    List.getElem?_append_left (by rw [Line.length_leftAligned]; exact hcolumn)]

/-- Frames with one title show the same if their lines do. -/
theorem sameSymbols_draw (htitle : frame.title = frame'.title)
    (hlines : ∀ k : Nat, (((frame.lines[k]?).getD []).leftAligned (width - 2) {}).map (·.symbol) =
      (((frame'.lines[k]?).getD []).leftAligned (width - 2) {}).map (·.symbol)) (height : Nat) :
    (frame.draw width height).SameSymbols (frame'.draw width height) := by
  have hrule (text : List Char) (left right : Char) :
      (frame.edged left right width (frame.rule (width - 2) text)).map (·.symbol) =
        (frame'.edged left right width (frame'.rule (width - 2) text)).map (·.symbol) := by
    simp only [edged, rule, List.map_take, List.map_cons, List.map_append, List.map_map,
      Function.comp_def, List.map_nil]
  have hcontent (k : Nat) :
      (frame.content width k).map (·.symbol) = (frame'.content width k).map (·.symbol) := by
    simp only [content, edged, List.map_take, List.map_cons, List.map_append, hlines k,
      List.map_nil]
  apply Screen.sameSymbols_of_map
  match height with
  | 0 => rfl
  | 1 => simp only [draw, top, htitle, hrule, List.map_cons, List.map_nil]
  | rows + 2 =>
    simp only [draw, top, bottom, htitle, hrule, List.map_cons, List.map_append, List.map_map,
      Function.comp_def, hcontent, List.map_nil]

end Frame
end Sapling
