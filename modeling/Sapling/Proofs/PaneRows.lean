import Mathlib.Data.List.Basic
import Sapling.Viewer.Panes

/-!
# Rows of the panes

How many rows a text and an outline have, and which of them a frame shows where.
-/
namespace Sapling

namespace SourcePane

theorem length_linesFrom {reversed : List Char} (cs : List Char) (h : '\n' ∉ reversed) :
    (linesFrom reversed cs).length =
      cs.count '\n' + ((reversed.reverse ++ cs).getLast?.any (· != '\n')).toNat := by
  induction cs generalizing reversed with
  | nil =>
    cases reversed with
    | nil => rfl
    | cons c reversed =>
      have hc : (c != '\n') = true := bne_iff_ne.mpr fun hc => h (hc ▸ List.mem_cons_self)
      simp [linesFrom, hc]
  | cons c cs ih =>
    rw [linesFrom]
    by_cases hc : c = '\n'
    · rw [if_pos hc, List.length_cons, List.getLast?_append_cons, ih List.not_mem_nil, hc,
        List.count_cons_self]
      cases cs with
      | nil => rfl
      | cons d cs =>
        rw [List.getLast?_cons_cons]
        exact Nat.add_right_comm _ _ _
    · have hmem : '\n' ∉ c :: reversed := by simp [Ne.symm hc, h]
      rw [if_neg hc, ih hmem, List.count_cons_of_ne hc]
      simp

/-- There is a row for every newline, and one more for what is behind the last of them. -/
theorem length_lines (source : String) : (lines source).length =
    source.toList.count '\n' + (source.toList.getLast?.any (· != '\n')).toNat :=
  length_linesFrom source.toList List.not_mem_nil

theorem length_lines_le (source : String) : (lines source).length ≤ source.length := by
  rw [length_lines, ← String.length_toList]
  cases hlast : source.toList.getLast? with
  | none => simpa using List.count_le_length
  | some c =>
    obtain ⟨front, hfront⟩ := List.getLast?_eq_some_iff.mp hlast
    have hcount : front.count '\n' ≤ front.length := List.count_le_length
    rw [hfront]
    by_cases hc : c = '\n'
    · simpa [hc] using hcount
    · have hlast : (c != '\n') = true := bne_iff_ne.mpr hc
      simpa [hc, hlast] using hcount

theorem getElem?_frame (source : String) (errorLine : Option Nat) (focused : Bool)
    (height scroll : Nat) {k : Nat} (h : k < visibleRows height) :
    (frame source errorLine focused height scroll).lines[k]? =
      (lines source)[scroll + k]?.map (numbered errorLine (scroll + k + 1)) := by
  simp only [frame, List.getElem?_map, List.getElem?_zipIdx, List.getElem?_take_of_lt h,
    List.getElem?_drop, Option.map_map]
  rw [Nat.add_right_comm]
  rfl

end SourcePane

theorem OutlinePane.getElem?_frame (entries : Outline) (focused : Bool) (height scroll : Nat)
    {k : Nat} (h : k < visibleRows height) :
    (frame entries focused height scroll).lines[k]? = entries[scroll + k]?.map row := by
  simp only [frame, List.getElem?_map, List.getElem?_take_of_lt h, List.getElem?_drop]

namespace Frame

/-- The rows inside a frame stand below its upper border. -/
theorem getElem?_draw (frame : Frame) (width : Nat) {rows k : Nat} (h : k < rows) :
    (frame.draw width (rows + 2))[k + 1]? = some (frame.content width k) := by
  rw [draw, List.getElem?_cons_succ, List.getElem?_append_left (by simpa using h)]
  simp [h]

end Frame

end Sapling
