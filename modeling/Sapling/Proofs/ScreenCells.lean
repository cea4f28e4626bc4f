import Mathlib.Data.List.Basic
import Sapling.Screen

/-!
# Cells of a screen

What is put into an area of a screen fills the cells of the area, and the cells around it stay as
they are.
-/
namespace Sapling

def Area.Contains (area : Area) (row column : Nat) : Prop :=
  (area.y ≤ row ∧ row < area.y + area.height) ∧ area.x ≤ column ∧ column < area.x + area.width

namespace Screen

def cell? (screen : Screen) (row column : Nat) : Option Cell :=
  ((screen[row]?).getD [])[column]?

/-- What the cells of a row show, from a column on. -/
def shown (screen : Screen) (row column count : Nat) : List Char :=
  ((((screen[row]?).getD []).drop column).take count).map (·.symbol)

structure HasSize (screen : Screen) (width height : Nat) : Prop where
  length_eq : screen.length = height
  length_row : ∀ row ∈ screen, row.length = width

theorem getElem?_splice {α : Type} {start count : Nat} {f : List α → List α} {xs : List α}
    (hf : (f ((xs.drop start).take count)).length = count) (hbound : start + count ≤ xs.length)
    (i : Nat) :
    (splice start count f xs)[i]? =
      if start ≤ i ∧ i < start + count then (f ((xs.drop start).take count))[i - start]?
      else xs[i]? := by
  rw [splice, List.append_assoc, List.getElem?_append, List.length_take,
    Nat.min_eq_left (by omega), List.getElem?_append, hf]
  split_ifs with h₁ h₂ h₃ h₄ h₅
  · omega
  · exact List.getElem?_take_of_lt h₁
  · rfl
  · omega
  · omega
  · rw [List.getElem?_drop]
    congr 1
    omega

variable {area : Area} {part screen : Screen} {width height row column : Nat}

theorem HasSize.exists_row (h : screen.HasSize width height) (hrow : row < height) :
    ∃ cells, screen[row]? = some cells ∧ cells.length = width := by
  obtain rfl := h.length_eq
  exact ⟨screen[row], List.getElem?_eq_getElem hrow, h.length_row _ (List.getElem_mem hrow)⟩

theorem hasSize_blank (width height : Nat) : (blank width height).HasSize width height where
  length_eq := List.length_replicate
  length_row row hrow := by
    rw [List.eq_of_mem_replicate hrow, List.length_replicate]

theorem cell?_blank (hrow : row < height) (hcolumn : column < width) :
    (blank width height).cell? row column = some {} := by
  rw [cell?, blank, filled, List.getElem?_replicate_of_lt hrow, Option.getD_some,
    List.getElem?_replicate_of_lt hcolumn]

theorem shown_eq {cells : Row} {count : Nat} (hcells : cells.length = count)
    (h : ∀ k < count, screen.cell? row (column + k) = cells[k]?) :
    screen.shown row column count = cells.map (·.symbol) := by
  have htake : (((screen[row]?).getD []).drop column).take count = cells := by
    refine List.ext_getElem? fun k => ?_
    rw [List.getElem?_take, List.getElem?_drop]
    split_ifs with hk
    · exact h k hk
    · exact (List.getElem?_eq_none (by omega)).symm
  rw [shown, htake]

section Place

variable (hpart : part.HasSize area.width area.height) (hscreen : screen.HasSize width height)
  (hwidth : area.x + area.width ≤ width) (hheight : area.y + area.height ≤ height)

include hpart hscreen hheight

theorem getElem?_place (i : Nat) : (place area part screen)[i]? =
    if area.y ≤ i ∧ i < area.y + area.height then
      (List.zipWith (fun row cells => splice area.x area.width (fun _ => cells) row)
        ((screen.drop area.y).take area.height) part)[i - area.y]?
    else screen[i]? := by
  have hlength := hscreen.length_eq
  refine getElem?_splice ?_ (by omega) i
  rw [List.length_zipWith, List.length_take, List.length_drop, hpart.length_eq]
  omega

theorem exists_row_place (hrow : area.y ≤ row ∧ row < area.y + area.height) :
    ∃ old cells, screen[row]? = some old ∧ part[row - area.y]? = some cells ∧
      old.length = width ∧ cells.length = area.width ∧
      (place area part screen)[row]? = some (splice area.x area.width (fun _ => cells) old) := by
  obtain ⟨cells, hcells, hcount⟩ := hpart.exists_row (by omega : row - area.y < area.height)
  obtain ⟨old, hold, hwide⟩ := hscreen.exists_row (by omega : row < height)
  refine ⟨old, cells, hold, hcells, hwide, hcount, ?_⟩
  rw [getElem?_place hpart hscreen hheight, if_pos hrow, List.getElem?_zipWith_eq_some]
  refine ⟨old, cells, ?_, hcells, rfl⟩
  rw [List.getElem?_take_of_lt (by omega), List.getElem?_drop, Nat.add_sub_cancel' hrow.1, hold]

include hwidth

/-- A cell of a part is found in its place. -/
theorem cell?_place_inside (h : area.Contains row column) :
    (place area part screen).cell? row column = part.cell? (row - area.y) (column - area.x) := by
  obtain ⟨old, cells, -, hcells, hwide, hcount, hplace⟩ :=
    exists_row_place hpart hscreen hheight h.1
  rw [cell?, cell?, hplace, hcells, Option.getD_some, Option.getD_some,
    getElem?_splice hcount (by omega), if_pos h.2]

theorem cell?_place_outside (h : ¬ area.Contains row column) :
    (place area part screen).cell? row column = screen.cell? row column := by
  by_cases hrow : area.y ≤ row ∧ row < area.y + area.height
  · obtain ⟨old, cells, hold, -, hwide, hcount, hplace⟩ :=
      exists_row_place hpart hscreen hheight hrow
    rw [cell?, cell?, hplace, hold, Option.getD_some, Option.getD_some,
      getElem?_splice hcount (by omega), if_neg fun hcolumn => h ⟨hrow, hcolumn⟩]
  · rw [cell?, cell?, getElem?_place hpart hscreen hheight, if_neg hrow]

end Place

/-- Two screens show the same, but for the style. -/
def SameSymbols (screen screen' : Screen) : Prop :=
  ∀ row column, (screen.cell? row column).map (·.symbol) = (screen'.cell? row column).map (·.symbol)

/-- Parts that show the same show the same in one place. -/
theorem SameSymbols.place {part' : Screen} (h : part.SameSymbols part')
    (hpart : part.HasSize area.width area.height) (hpart' : part'.HasSize area.width area.height)
    (hscreen : screen.HasSize width height) (hwidth : area.x + area.width ≤ width)
    (hheight : area.y + area.height ≤ height) :
    (Screen.place area part screen).SameSymbols (Screen.place area part' screen) := by
  intro row column
  by_cases hinside : area.Contains row column
  · rw [cell?_place_inside hpart hscreen hwidth hheight hinside,
      cell?_place_inside hpart' hscreen hwidth hheight hinside]
    exact h _ _
  · rw [cell?_place_outside hpart hscreen hwidth hheight hinside,
      cell?_place_outside hpart' hscreen hwidth hheight hinside]

end Screen
end Sapling
