import Sapling.Proofs.ViewerSteps

/-!
# Separate panes

A run of keys and drawings, in any order and on screens of one size, is seen from one pane: keys
that are pressed while the other pane is in focus leave no trace in its offset, unless they turn
the focus (`panes_separate`). Two viewers that a pane cannot tell apart stay so under the same
action, and a key for the other pane does not tell them apart.
-/
namespace Sapling

@[simp] theorem Pane.next_next (pane : Pane) : pane.next.next = pane := by
  cases pane <;> rfl

/-- What happens to a viewer. -/
inductive Action where
  | press (key : Key)
  | draw

def Action.turns : Action → Bool
  | .press key => key.turns
  | .draw => false

def Action.quits : Action → Bool
  | .press key => key.quits
  | .draw => false

theorem Action.any_quits_iff {actions : List Action} : actions.any quits = true ↔
    ∃ key, (key = .char 'q' ∨ key = .char 'Q' ∨ key = .escape) ∧ .press key ∈ actions := by
  rw [List.any_eq_true]
  constructor
  · intro h
    obtain ⟨action, hmem, hquits⟩ := h
    cases action with
    | press key => exact ⟨key, Key.quits_iff.mp hquits, hmem⟩
    | draw => cases hquits
  · intro h
    obtain ⟨key, hkey, hmem⟩ := h
    exact ⟨.press key, hmem, Key.quits_iff.mpr hkey⟩

namespace Viewer

/-- Two viewers that differ at most in the offset of another pane, and in whether they are to
end. -/
structure AlikeFor (pane : Pane) (v w : Viewer) : Prop where
  contents : v.SameContents w
  focus : v.focus = w.focus
  offset : v.offset pane = w.offset pane

variable {pane : Pane} {v w : Viewer}

theorem AlikeFor.refl (pane : Pane) (v : Viewer) : v.AlikeFor pane v :=
  ⟨.refl v, rfl, rfl⟩

theorem AlikeFor.press (h : v.AlikeFor pane w) (key : Key) :
    (v.press key).AlikeFor pane (w.press key) where
  contents := (sameContents_press key v).trans (h.contents.trans (sameContents_press key w).symm)
  focus := by rw [focus_press, focus_press, h.focus]
  offset := by rw [offset_press, offset_press, h.focus, h.offset]

theorem AlikeFor.settle (h : v.AlikeFor pane w) (height : Nat) :
    (v.settle height).AlikeFor pane (w.settle height) where
  contents :=
    (sameContents_settle height v).trans (h.contents.trans (sameContents_settle height w).symm)
  focus := h.focus
  offset := by
    apply UInt64.toNat_inj.mp
    rw [toNat_offset_settle, toNat_offset_settle, h.offset, h.contents.limit_eq]

theorem AlikeFor.press_left (h : v.AlikeFor pane w) {key : Key} (hturns : key.turns = false)
    (haway : v.focus ≠ pane) : (v.press key).AlikeFor pane w where
  contents := (sameContents_press key v).trans h.contents
  focus := by rw [focus_press, hturns, if_neg Bool.false_ne_true, h.focus]
  offset := by rw [offset_press, if_neg haway, h.offset]

section Runs

variable (width height : Nat)

def act (v : Viewer) : Action → Viewer
  | .press key => v.press key
  | .draw => (v.draw width height).1

def run (v : Viewer) (actions : List Action) : Viewer :=
  actions.foldl (act width height) v

/-- The actions without the keys that are pressed while another pane is in focus. The keys that
turn the focus stay. -/
def kept (pane : Pane) (v : Viewer) : List Action → List Action
  | [] => []
  | .draw :: actions => .draw :: kept pane (v.act width height .draw) actions
  | .press key :: actions =>
    if key.turns ∨ v.focus = pane then .press key :: kept pane (v.press key) actions
    else kept pane (v.press key) actions

variable {width height}

theorem AlikeFor.run (h : v.AlikeFor pane w) (actions : List Action) :
    (v.run width height actions).AlikeFor pane
      (w.run width height (v.kept width height pane actions)) := by
  induction actions generalizing v w with
  | nil => exact h
  | cons action actions ih =>
    cases action with
    | draw => exact ih (h.settle height)
    | press key =>
      rw [kept]
      by_cases hkept : key.turns ∨ v.focus = pane
      · rw [if_pos hkept]
        exact ih (h.press key)
      · obtain ⟨hturns, haway⟩ := not_or.mp hkept
        rw [if_neg hkept]
        exact ih (h.press_left (Bool.eq_false_iff.mpr hturns) haway)

theorem sameContents_run (v : Viewer) (actions : List Action) :
    (v.run width height actions).SameContents v := by
  induction actions generalizing v with
  | nil => exact .refl v
  | cons action actions ih =>
    have hact : (v.act width height action).SameContents v := by
      cases action with
      | press key => exact sameContents_press key v
      | draw => exact sameContents_settle height v
    exact (ih (v.act width height action)).trans hact

/-- The focus counts the keys that turn it. -/
theorem focus_run (v : Viewer) (actions : List Action) : (v.run width height actions).focus =
    if actions.countP Action.turns % 2 = 0 then v.focus else v.focus.next := by
  induction actions generalizing v with
  | nil => rfl
  | cons action actions ih =>
    have hact : (v.act width height action).focus =
        if action.turns then v.focus.next else v.focus := by
      cases action with
      | press key => exact focus_press key v
      | draw => rfl
    have hrest := ih (v.act width height action)
    rw [hact] at hrest
    refine hrest.trans ?_
    rw [List.countP_cons]
    by_cases hturns : action.turns
    · simp only [hturns, if_true, Pane.next_next]
      split <;> split <;> first | rfl | omega
    · simp [hturns]

theorem quit_run (v : Viewer) (actions : List Action) :
    (v.run width height actions).quit = (v.quit || actions.any Action.quits) := by
  induction actions generalizing v with
  | nil => exact (Bool.or_false _).symm
  | cons action actions ih =>
    have hact : (v.act width height action).quit = (v.quit || action.quits) := by
      cases action with
      | press key => exact quit_press key v
      | draw => exact (Bool.or_false _).symm
    have hrest := ih (v.act width height action)
    rw [hact, Bool.or_assoc] at hrest
    exact hrest

end Runs

/-- What a drawing has settled stays where it is. -/
theorem settle_settle (height : Nat) (v : Viewer) :
    (v.settle height).settle height = v.settle height := by
  have hsame := sameContents_settle height v
  refine SameContents.eq ⟨rfl, rfl, rfl, rfl, rfl⟩ rfl (fun pane => ?_) rfl
  apply UInt64.toNat_inj.mp
  rw [toNat_offset_settle, hsame.limit_eq, toNat_offset_settle]
  omega

theorem draw_draw (width height : Nat) (v : Viewer) :
    (v.draw width height).1.draw width height = v.draw width height := by
  simp only [draw, settle_settle]

/-- A run of keys and drawings of one size, in any order: the focus depends on how often a key has
turned it, the offset of a pane is the same without the keys for the other pane, the viewer is to
end exactly if a key has said so, and what it shows is what it was made with. Drawn twice, the
viewer and the screen are those of one drawing. -/
theorem panes_separate (width height : Nat) (v : Viewer) (actions : List Action) :
    let final := v.run width height actions
    (final.focus = if actions.countP Action.turns % 2 = 0 then v.focus else v.focus.next) ∧
    (∀ pane, final.offset pane =
      (v.run width height (v.kept width height pane actions)).offset pane) ∧
    (final.quit = true ↔ v.quit = true ∨
      ∃ key, (key = .char 'q' ∨ key = .char 'Q' ∨ key = .escape) ∧ .press key ∈ actions) ∧
    final.SameContents v ∧
    (final.draw width height).1.draw width height = final.draw width height := by
  refine ⟨focus_run v actions, fun pane => ?_, ?_, sameContents_run v actions, draw_draw ..⟩
  · exact (AlikeFor.run (.refl pane v) actions).offset
  · rw [quit_run, Bool.or_eq_true, Action.any_quits_iff]

end Viewer
end Sapling
