import Sapling.Viewer.State

/-!
# Steps of the viewer

What a key and a drawing do to a viewer, with one offset for each pane. A key moves the offset of
the pane in focus, by a sum of integers that is held to 64 bits; a drawing holds both offsets to
the last full window of their panes. Neither touches what the viewer shows.
-/
namespace Sapling

def Key.turns : Key → Bool
  | .tab | .backTab => true
  | _ => false

def Key.quits (key : Key) : Bool :=
  key == .char 'q' || key == .char 'Q' || key == .escape

/-- What a key makes of the offset of the pane in focus. -/
def Key.scrolled : Key → UInt64 → UInt64
  | .up => Viewer.shift (-1)
  | .down => Viewer.shift 1
  | .pageUp => Viewer.shift (-Viewer.page)
  | .pageDown => Viewer.shift Viewer.page
  | .home => fun _ => 0
  | .bottom => fun _ => Viewer.farthest
  | _ => id

theorem Key.quits_iff {key : Key} :
    key.quits = true ↔ key = .char 'q' ∨ key = .char 'Q' ∨ key = .escape := by
  simp [quits, or_assoc]

namespace Viewer

def offset (v : Viewer) : Pane → UInt64
  | .source => v.sourceScroll
  | .outline => v.outlineScroll

/-- The rows that a pane has, in view or not. -/
def rows (v : Viewer) : Pane → Nat
  | .source => (SourcePane.lines v.source).length
  | .outline => v.outline.length

/-- The largest offset that leaves no empty row in a pane that has rows to fill it, on a screen of
the given height. -/
def limit (v : Viewer) (height : Nat) (pane : Pane) : Nat :=
  v.rows pane - visibleRows (height - 1)

/-- Two viewers of one text, with one outline, error line and message. -/
structure SameContents (v w : Viewer) : Prop where
  file : v.file = w.file
  source : v.source = w.source
  outline : v.outline = w.outline
  errorLine : v.errorLine = w.errorLine
  message : v.message = w.message

variable {v w : Viewer}

theorem SameContents.refl (v : Viewer) : v.SameContents v :=
  ⟨rfl, rfl, rfl, rfl, rfl⟩

theorem SameContents.symm (h : v.SameContents w) : w.SameContents v :=
  ⟨h.file.symm, h.source.symm, h.outline.symm, h.errorLine.symm, h.message.symm⟩

theorem SameContents.trans {u : Viewer} (h : u.SameContents v) (g : v.SameContents w) :
    u.SameContents w :=
  ⟨h.file.trans g.file, h.source.trans g.source, h.outline.trans g.outline,
    h.errorLine.trans g.errorLine, h.message.trans g.message⟩

theorem SameContents.rows_eq (h : v.SameContents w) : v.rows = w.rows := by
  funext pane
  cases pane with
  | source => exact congrArg (fun source => (SourcePane.lines source).length) h.source
  | outline => exact congrArg List.length h.outline

theorem SameContents.limit_eq (h : v.SameContents w) : v.limit = w.limit := by
  unfold limit
  rw [h.rows_eq]

theorem SameContents.eq (h : v.SameContents w) (hfocus : v.focus = w.focus)
    (hoffset : ∀ pane, v.offset pane = w.offset pane) (hquit : v.quit = w.quit) : v = w := by
  obtain ⟨_, _, _, _, _, _, _, _, _⟩ := v
  obtain ⟨_, _, _, _, _, _, _, _, _⟩ := w
  obtain ⟨rfl, rfl, rfl, rfl, rfl⟩ := h
  cases hfocus
  cases hquit
  cases hoffset .source
  cases hoffset .outline
  rfl

theorem toInt_eq_toNat_cond (n : Int64) : n.toInt =
    if 2 * n.toUInt64.toNat < UInt64.size then (n.toUInt64.toNat : Int)
    else n.toUInt64.toNat - UInt64.size :=
  BitVec.toInt_eq_toNat_cond n.toBitVec

/-- The sum of an offset and a signed number is exact, up to the ends of the range of offsets. -/
theorem toNat_shift (delta : Int64) (offset : UInt64) :
    ((shift delta offset).toNat : Int) =
      max 0 (min (offset.toNat + delta.toInt) (UInt64.size - 1)) := by
  have hdelta := toInt_eq_toNat_cond delta
  have hsum := UInt64.toNat_add offset delta.toUInt64
  have hoffset := offset.toNat_lt
  have hword := delta.toUInt64.toNat_lt
  have hneg : delta < 0 ↔ delta.toInt < 0 := Int64.lt_iff_toInt_lt
  have hfar : farthest.toNat = UInt64.size - 1 := rfl
  have hzero : (0 : UInt64).toNat = 0 := rfl
  simp only [shift, UInt64.lt_iff_toNat_lt, hneg, UInt64.size] at *
  -- The word of a negative number is its sum with the size of the range.
  split at hdelta <;> split <;> try split
  all_goals omega

example : shift (-page) 3 = 0 ∧ shift page (farthest - 3) = farthest := by decide

theorem toNat_shift_forward (delta : Int64) (offset : UInt64) {n : Nat} (h : delta.toInt = n) :
    (shift delta offset).toNat = min (offset.toNat + n) (UInt64.size - 1) := by
  have hshift := toNat_shift delta offset
  rw [h] at hshift
  omega

theorem toNat_shift_backward (delta : Int64) (offset : UInt64) {n : Nat} (h : delta.toInt = -n) :
    (shift delta offset).toNat = offset.toNat - n := by
  have hshift := toNat_shift delta offset
  have hoffset := offset.toNat_lt
  rw [h] at hshift
  simp only [UInt64.size] at hshift
  omega

theorem offset_scroll (f : UInt64 → UInt64) (v : Viewer) (pane : Pane) :
    (v.scroll f).offset pane = if v.focus = pane then f (v.offset pane) else v.offset pane := by
  cases h : v.focus <;> cases pane <;> simp [scroll, offset, h]

theorem sameContents_scroll (f : UInt64 → UInt64) (v : Viewer) : (v.scroll f).SameContents v := by
  unfold scroll
  cases v.focus <;> exact ⟨rfl, rfl, rfl, rfl, rfl⟩

/-- All that a key does. -/
theorem press_eq (key : Key) (v : Viewer) : v.press key =
    { v.scroll key.scrolled with
      focus := if key.turns then v.focus.next else v.focus
      quit := v.quit || key.quits } := by
  obtain ⟨file, source, outline, errorLine, message, focus, sourceScroll, outlineScroll, quit⟩ := v
  cases key with
  | char c =>
    by_cases h : c = 'q' ∨ c = 'Q'
    · cases focus <;> simp [press, scroll, Key.scrolled, Key.turns, Key.quits, h]
    · cases focus <;> simp_all [press, scroll, Key.scrolled, Key.turns, Key.quits]
  | _ => cases focus <;> simp [press, scroll, Key.scrolled, Key.turns, Key.quits]

theorem focus_press (key : Key) (v : Viewer) :
    (v.press key).focus = if key.turns then v.focus.next else v.focus := by
  rw [press_eq]

theorem quit_press (key : Key) (v : Viewer) :
    (v.press key).quit = (v.quit || key.quits) := by
  rw [press_eq]

theorem offset_press (key : Key) (v : Viewer) (pane : Pane) : (v.press key).offset pane =
    if v.focus = pane then key.scrolled (v.offset pane) else v.offset pane := by
  rw [press_eq, ← offset_scroll]
  cases pane <;> rfl

theorem sameContents_press (key : Key) (v : Viewer) : (v.press key).SameContents v := by
  obtain ⟨hfile, hsource, houtline, herror, hmessage⟩ := sameContents_scroll key.scrolled v
  rw [press_eq]
  exact ⟨hfile, hsource, houtline, herror, hmessage⟩

theorem sameContents_settle (height : Nat) (v : Viewer) : (v.settle height).SameContents v :=
  ⟨rfl, rfl, rfl, rfl, rfl⟩

theorem toNat_ofNat_clampScroll (offset : UInt64) (total visible : Nat) :
    (UInt64.ofNat (clampScroll offset.toNat total visible)).toNat =
      min offset.toNat (total - visible) := by
  apply UInt64.toNat_ofNat_of_lt
  exact Nat.lt_of_le_of_lt (Nat.min_le_left ..) offset.toNat_lt

theorem toNat_offset_settle (height : Nat) (v : Viewer) (pane : Pane) :
    ((v.settle height).offset pane).toNat =
      min (v.offset pane).toNat (v.limit height pane) := by
  cases pane <;> exact toNat_ofNat_clampScroll ..

end Viewer
end Sapling
