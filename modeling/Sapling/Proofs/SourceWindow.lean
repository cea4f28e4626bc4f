import Mathlib.Data.List.Basic
import Sapling.Proofs.FittedText
import Sapling.Proofs.HighlightedText
import Sapling.Proofs.PaneRows
import Sapling.Viewer.SourceView

/-!
# The window of the source pane

The rows of the source pane show the lines of the text from the scroll offset on, each behind its
number (`render_window`). Marks and focus change nothing but the style.
-/
namespace Sapling.SourcePane

theorem not_mem_of_mem_linesFrom {reversed cs line : List Char} (h : '\n' ∉ reversed)
    (hline : line ∈ linesFrom reversed cs) : '\n' ∉ line := by
  induction cs generalizing reversed with
  | nil =>
    rw [linesFrom] at hline
    split at hline
    · exact absurd hline List.not_mem_nil
    · rw [List.mem_singleton.mp hline, List.mem_reverse]
      exact h
  | cons c cs ih =>
    rw [linesFrom] at hline
    split at hline
    · rcases List.mem_cons.mp hline with rfl | hline
      · rw [List.mem_reverse]
        split
        · exact fun hmem => h (List.mem_of_mem_drop hmem)
        · exact h
      · exact ih List.not_mem_nil hline
    · next hc => exact ih (List.not_mem_cons_of_ne_of_not_mem (Ne.symm hc) h) hline

theorem not_mem_of_mem_lines {source : String} {line : List Char} (h : line ∈ lines source) :
    '\n' ∉ line :=
  not_mem_of_mem_linesFrom List.not_mem_nil h

theorem eq_blank_or_isDigit_of_mem_gutter {number : Nat} {c : Char} (h : c ∈ gutter number) :
    c = ' ' ∨ c.isDigit := by
  simp only [gutter, lineNumber, List.mem_append, List.mem_singleton, List.mem_replicate] at h
  rcases h with (⟨-, hc⟩ | hc) | hc
  · exact .inl hc
  · exact .inr (Nat.isDigit_of_mem_toDigits (by decide) (by decide) hc)
  · exact .inl hc

theorem cellWidth_of_mem_gutter {number : Nat} {c : Char} (h : c ∈ gutter number) :
    cellWidth c = 1 := by
  have hlow : c.toNat < 0x1100 := by
    rcases eq_blank_or_isDigit_of_mem_gutter h with rfl | hc
    · decide
    · have hle : c.val ≤ 57 := by simp_all [Char.isDigit]
      exact Nat.lt_of_le_of_lt (UInt32.le_iff_toNat_le.mp hle) (by decide)
  have hnarrow : Unicode.isWide c = false := by
    rw [Unicode.isWide, decide_eq_false (by omega), Bool.false_and]
  rw [cellWidth, hnarrow, if_neg Bool.false_ne_true]

theorem chars_marked (errorLine : Option Nat) (number : Nat) (spans : Line) :
    (marked errorLine number spans).chars = gutter number ++ spans.flatMap Span.text := by
  rw [marked]
  split
  · rw [Line.chars, List.flatMap_cons, List.flatMap_map]
  · rw [Line.chars, List.flatMap_cons]

theorem numbered_eq_marked (errorLine : Option Nat) (number : Nat) (text : List Char) :
    numbered errorLine number text = marked errorLine number (Highlight.line text) := rfl

theorem chars_numbered (errorLine : Option Nat) (number : Nat) (text : List Char) :
    (numbered errorLine number text).chars = gutter number ++ text := by
  rw [numbered_eq_marked, chars_marked, Highlight.flatMap_text_line]

variable {source : String} {errorLine : Option Nat} {focused : Bool} {area : Area}
  {screen : Screen} {width height scroll : Nat}

theorem drawLines_eq (source : String) (errorLine : Option Nat) (focused : Bool)
    (height scroll : Nat) : drawLines source errorLine height scroll =
      pure (frame source errorLine focused height scroll).lines := by
  have hline (entry : List Char × Nat) :
      marked errorLine entry.2 <$> highlight (String.ofList entry.1) =
        pure (numbered errorLine entry.2 entry.1) := by
    rw [highlight_eq, map_pure, String.toList_ofList, numbered_eq_marked]
  have hwindow : (((lines source).zipIdx 1).drop scroll).take (visibleRows height) =
      (((lines source).drop scroll).take (visibleRows height)).zipIdx (scroll + 1) := by
    refine List.ext_getElem? fun k => ?_
    simp only [List.getElem?_take, List.getElem?_drop, List.getElem?_zipIdx]
    split
    · rw [show 1 + (scroll + k) = scroll + 1 + k by omega]
    · rfl
  rw [drawLines, hwindow]
  simp only [hline]
  exact List.mapM_pure

/-- The text of a row of the window that begins at line `first`. -/
def rowText (source : String) (first row : Nat) : List Char :=
  (((lines source)[first + row]?).map (gutter (first + row + 1) ++ ·)).getD []

theorem rowText_of_some {first row : Nat} {text : List Char}
    (h : (lines source)[first + row]? = some text) :
    rowText source first row = gutter (first + row + 1) ++ text := by
  rw [rowText, h]
  rfl

theorem rowText_of_le {first row : Nat} (h : (lines source).length ≤ first + row) :
    rowText source first row = [] := by
  rw [rowText, List.getElem?_eq_none h]
  rfl

theorem chars_frame (source : String) (errorLine : Option Nat) (focused : Bool)
    (height first row : Nat) :
    Line.chars (((frame source errorLine focused height first).lines[row]?).getD []) =
      if row < visibleRows height then rowText source first row else [] := by
  split_ifs with hrow
  · rw [getElem?_frame source errorLine focused height first hrow, rowText]
    cases (lines source)[first + row]? with
    | none => rfl
    | some text => exact chars_numbered errorLine _ text
  · rw [List.getElem?_eq_none]
    · rfl
    · simp [frame]
      omega

/-- A row has no newline, and begins with a digit or a blank. -/
theorem rowText_plain (source : String) (first row : Nat) : '\n' ∉ rowText source first row ∧
    ∀ c ∈ (rowText source first row).head?, cellWidth c = 1 := by
  cases hline : (lines source)[first + row]? with
  | none => simp [rowText, hline]
  | some text =>
    have hgutter : gutter (first + row + 1) ≠ [] := by simp [gutter]
    rw [rowText_of_some hline]
    constructor
    · intro hmem
      rcases List.mem_append.mp hmem with hmem | hmem
      · rcases eq_blank_or_isDigit_of_mem_gutter hmem with h | h <;> exact absurd h (by decide)
      · exact not_mem_of_mem_lines (List.mem_of_getElem? hline) hmem
    · intro c hc
      rw [List.head?_append_of_ne_nil _ hgutter] at hc
      exact cellWidth_of_mem_gutter (List.mem_of_mem_head? hc)

theorem chars_frame_plain (source : String) (errorLine : Option Nat) (focused : Bool)
    (height first row : Nat) :
    let line : Line := ((frame source errorLine focused height first).lines[row]?).getD []
    '\n' ∉ line.chars ∧ ∀ c ∈ line.chars.head?, cellWidth c = 1 := by
  intro line
  rw [chars_frame]
  split_ifs
  · exact rowText_plain source first row
  · simp

/-- Frames with one window show the same, however they are marked. -/
theorem sameSymbols_draw_frame (source : String) (errorLine errorLine' : Option Nat)
    (focused focused' : Bool) (height first width rows : Nat) :
    ((frame source errorLine focused height first).draw width rows).SameSymbols
      ((frame source errorLine' focused' height first).draw width rows) := by
  apply Frame.sameSymbols_draw
  · rfl
  intro row
  obtain ⟨hnewline, hnarrow⟩ := chars_frame_plain source errorLine focused height first row
  obtain ⟨hnewline', hnarrow'⟩ := chars_frame_plain source errorLine' focused' height first row
  rw [Line.map_symbol_leftAligned hnewline hnarrow, Line.map_symbol_leftAligned hnewline' hnarrow',
    chars_frame, chars_frame]

theorem render_eq (source : String) (errorLine : Option Nat) (focused : Bool) (area : Area)
    (scroll : Nat) (screen : Screen) :
    render source errorLine focused area scroll screen =
      let first := clamp source area.height scroll
      let shown := Screen.clip area screen
      pure (first, Screen.place shown
        ((frame source errorLine focused area.height first).draw shown.width shown.height)
        screen) := by
  rw [render, drawLines_eq source errorLine focused, pure_bind]
  rfl

theorem clip_eq (hscreen : screen.HasSize width height) (hwidth : area.x + area.width ≤ width)
    (hheight : area.y + area.height ≤ height) (hpos : 0 < area.height) :
    Screen.clip area screen = area := by
  obtain ⟨cells, hcells, hcount⟩ := hscreen.exists_row (by omega : 0 < height)
  have hhead : screen.headD [] = cells := by
    rw [List.headD_eq_head?_getD, List.head?_eq_getElem?, hcells]
    rfl
  rw [Screen.clip, Area.clip, hhead, hcount, hscreen.length_eq, Nat.min_eq_left (by omega),
    Nat.min_eq_left (by omega)]

/-- Cells of a row show a text: the longest beginning of it that has room. Behind it the cells are
as they were, and blank. -/
def ShowsText (before after : Screen) (row column count : Nat) (text : List Char) : Prop :=
  ∃ shown, LongestFit count shown text ∧
    after.shown row column count =
      cellSymbols shown ++ List.replicate (count - cellCount shown) ' ' ∧
    ∀ k, cellCount shown ≤ k → k < count →
      after.cell? row (column + k) = before.cell? row (column + k)

theorem ShowsText.shown_of_nil {before after : Screen} {row column count : Nat}
    (h : ShowsText before after row column count []) :
    after.shown row column count = List.replicate count ' ' := by
  obtain ⟨shown, hfit, hshown, -⟩ := h
  obtain rfl := List.prefix_nil.mp hfit.begins
  exact hshown

section Window

variable (hscreen : screen.HasSize width height) (hwidth : area.x + area.width ≤ width)
  (hheight : area.y + area.height ≤ height) (hcolumns : 2 ≤ area.width)

include hscreen hwidth hheight hcolumns

theorem cell?_place_draw (frame : Frame) {rows k column : Nat} (hrows : area.height = rows + 2)
    (hk : k < rows) (hcolumn : column < area.width - 2) :
    (Screen.place area (frame.draw area.width area.height) screen).cell? (area.y + 1 + k)
        (area.x + 1 + column) =
      (((frame.lines[k]?).getD []).leftAligned (area.width - 2) {})[column]? := by
  have hinside : area.Contains (area.y + 1 + k) (area.x + 1 + column) := by
    refine ⟨?_, ?_⟩ <;> omega
  rw [Screen.cell?_place_inside (Frame.hasSize_draw hcolumns _) hscreen hwidth hheight hinside,
    show area.y + 1 + k - area.y = k + 1 by omega,
    show area.x + 1 + column - area.x = column + 1 by omega, hrows, Screen.cell?,
    Frame.getElem?_draw frame area.width hk, Option.getD_some, Frame.getElem?_content hcolumn]

/-- A row of a frame that is drawn into a blank area shows its line. -/
theorem showsText_place_draw (frame : Frame) {rows k : Nat} (hrows : area.height = rows + 2)
    (hk : k < rows) {line : Line} (hline : (frame.lines[k]?).getD [] = line)
    (hnewline : '\n' ∉ line.chars) (hnarrow : ∀ c ∈ line.chars.head?, cellWidth c = 1)
    (hblank : ∀ row column, area.Contains row column → screen.cell? row column = some {}) :
    ShowsText screen (Screen.place area (frame.draw area.width area.height) screen)
      (area.y + 1 + k) (area.x + 1) (area.width - 2) line.chars := by
  have hcell (column : Nat) (hcolumn : column < area.width - 2) :=
    cell?_place_draw hscreen hwidth hheight hcolumns frame hrows hk hcolumn
  rw [hline] at hcell
  refine ⟨fit (area.width - 2) line.chars, longestFit_fit _ _, ?_, fun column hbehind hcolumn => ?_⟩
  · rw [Screen.shown_eq (Line.length_leftAligned _ _ _) hcell,
      Line.map_symbol_leftAligned hnewline hnarrow]
  · rw [hcell column hcolumn,
      Line.getElem?_leftAligned_behind hnewline hnarrow _ _ hbehind hcolumn, hblank]
    refine ⟨?_, ?_⟩ <;> omega

end Window

/-- The window of the source pane, drawn into blank cells: the scroll offset afterwards is at most
the one that shows the last lines; every row inside the border shows its line behind its number, as
far as there is room, and the rows below the last line are blank; scrolled to the end, a text that
fills the pane does so with its last lines; and nothing outside the area changes. Marks and focus
are not seen in the symbols. -/
theorem render_window (source : String) (errorLine : Option Nat) (focused : Bool) (scroll : Nat)
    (hscreen : screen.HasSize width height) (hwidth : area.x + area.width ≤ width)
    (hheight : area.y + area.height ≤ height) (hcolumns : 2 ≤ area.width) (hrows : 3 ≤ area.height)
    (hblank : ∀ row column, area.Contains row column → screen.cell? row column = some {}) :
    let count := (lines source).length
    let rows := area.height - 2
    let first := min scroll (count - rows)
    ∃ after, (render source errorLine focused area scroll screen).run = some (.ok (first, after)) ∧
      (∀ i < rows, ∀ text, (lines source)[first + i]? = some text →
        ShowsText screen after (area.y + 1 + i) (area.x + 1) (area.width - 2)
          (gutter (first + i + 1) ++ text)) ∧
      (∀ i < rows, count ≤ first + i →
        after.shown (area.y + 1 + i) (area.x + 1) (area.width - 2) =
          List.replicate (area.width - 2) ' ') ∧
      (rows ≤ count → count ≤ scroll + rows → ∀ i < rows, ∃ text,
        (lines source)[count - rows + i]? = some text ∧
          ShowsText screen after (area.y + 1 + i) (area.x + 1) (area.width - 2)
            (gutter (count - rows + i + 1) ++ text)) ∧
      (∀ row column, ¬ area.Contains row column →
        after.cell? row column = screen.cell? row column) ∧
      ∀ errorLine' focused', ∃ after',
        (render source errorLine' focused' area scroll screen).run = some (.ok (first, after')) ∧
          after'.SameSymbols after := by
  intro count rows first
  have hvisible : visibleRows area.height = rows := Nat.max_eq_right (by omega)
  -- What is drawn for a mark and a focus.
  let drawn (errorLine : Option Nat) (focused : Bool) : Screen :=
    (frame source errorLine focused area.height first).draw area.width area.height
  have hsize (errorLine : Option Nat) (focused : Bool) :
      (drawn errorLine focused).HasSize area.width area.height := Frame.hasSize_draw hcolumns _
  have hrender (errorLine : Option Nat) (focused : Bool) :
      (render source errorLine focused area scroll screen).run =
        some (.ok (first, Screen.place area (drawn errorLine focused) screen)) := by
    rw [render_eq, clip_eq hscreen hwidth hheight (by omega), clamp, clampScroll, hvisible]
    rfl
  have hshows (i : Nat) (hi : i < rows) :
      ShowsText screen (Screen.place area (drawn errorLine focused) screen) (area.y + 1 + i)
        (area.x + 1) (area.width - 2) (rowText source first i) := by
    obtain ⟨hnewline, hnarrow⟩ := chars_frame_plain source errorLine focused area.height first i
    have htext := chars_frame source errorLine focused area.height first i
    rw [hvisible, if_pos hi] at htext
    rw [← htext]
    exact showsText_place_draw hscreen hwidth hheight hcolumns _ (by omega : _ = rows + 2) hi rfl
      hnewline hnarrow hblank
  refine ⟨_, hrender errorLine focused, fun i hi text htext => ?_, fun i hi hend => ?_,
    fun hfull hend i hi => ?_, fun row column houtside => ?_, fun errorLine' focused' => ?_⟩
  · rw [← rowText_of_some htext]
    exact hshows i hi
  · have hrow := hshows i hi
    rw [rowText_of_le hend] at hrow
    exact hrow.shown_of_nil
  · have hfirst : count - rows = first := (Nat.min_eq_right (by omega)).symm
    have hlast : first + i < count := by omega
    have htext := List.getElem?_eq_getElem hlast
    rw [hfirst]
    exact ⟨_, htext, rowText_of_some htext ▸ hshows i hi⟩
  · exact Screen.cell?_place_outside (hsize _ _) hscreen hwidth hheight houtside
  · exact ⟨_, hrender errorLine' focused',
      (sameSymbols_draw_frame source _ _ _ _ _ _ _ _).place (hsize _ _) (hsize _ _) hscreen
        hwidth hheight⟩

/-- Scrolled too far, a pane of two rows shows the last two of three lines. -/
theorem render_window_two_rows : ∃ after,
    (render "a\nx = \"世\"\nb" (some 2) true ⟨1, 0, 12, 4⟩ 7 (.blank 20 5)).run =
      some (.ok (1, after)) ∧
    ShowsText (.blank 20 5) after 1 2 10 "   2 x = \"世\"".toList ∧
    ShowsText (.blank 20 5) after 2 2 10 "   3 b".toList := by
  have hlines : lines "a\nx = \"世\"\nb" = [['a'], "x = \"世\"".toList, ['b']] := by
    decide +kernel
  have hblank : ∀ row column, Area.Contains ⟨1, 0, 12, 4⟩ row column →
      (Screen.blank 20 5).cell? row column = some {} := by
    rintro row column ⟨⟨-, hrow⟩, -, hcolumn⟩
    exact Screen.cell?_blank (Nat.lt_trans hrow (by decide)) (Nat.lt_trans hcolumn (by decide))
  obtain ⟨after, hrun, hrows, -⟩ := render_window "a\nx = \"世\"\nb" (some 2) true 7
    (Screen.hasSize_blank 20 5) (by decide) (by decide) (by decide) (by decide) hblank
  rw [hlines] at hrun hrows
  exact ⟨after, hrun, hrows 0 (by decide) _ rfl, hrows 1 (by decide) _ rfl⟩

end Sapling.SourcePane
