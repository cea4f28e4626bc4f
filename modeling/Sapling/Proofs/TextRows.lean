import Mathlib.Algebra.BigOperators.Group.List.Basic
import Sapling.Proofs.LexerSteps

/-!
# Texts in rows

A text that is written row by row, with a newline behind each row. Every newline within a row cuts
it, so that the text has one line more, and the lines are the rows only if no row is cut
(`exists_lines_of_rows`). Of the things that rows are made of, names, numbers and symbols have no
newline.
-/
namespace Sapling

/-- The text is made up of these lines, with a newline behind each of them: where it is split at its
newlines, nothing is left behind the last one. -/
def HasLines (text : String) (lines : List String) : Prop :=
  text.toList.splitOn '\n' = lines.map String.toList ++ [[]]

instance (text : String) (lines : List String) : Decidable (HasLines text lines) :=
  inferInstanceAs (Decidable (_ = _))

abbrev newlines (text : String) : Nat :=
  text.toList.count '\n'

def rowsText (rows : List String) : String :=
  String.join (rows.map (· ++ "\n"))

/-- What stands between the newlines of a row. -/
def cutRow (row : String) : List String :=
  (row.toList.splitOn '\n').map String.ofList

theorem length_splitOn (c : Char) (cs : List Char) : (cs.splitOn c).length = cs.count c + 1 := by
  induction cs with
  | nil => rfl
  | cons d cs ih =>
    rw [List.splitOn_cons_eq_if_modifyHead, List.count_cons]
    split
    · rw [List.length_cons, ih]
    · rw [List.length_modifyHead, ih, Nat.add_zero]

theorem HasLines.length_eq {text : String} {lines : List String} (h : HasLines text lines) :
    lines.length = newlines text := by
  have hlength := congrArg List.length h
  rw [length_splitOn, List.length_append, List.length_map, List.length_singleton] at hlength
  exact (Nat.succ.inj hlength).symm

theorem length_cutRow (row : String) : (cutRow row).length = newlines row + 1 := by
  rw [cutRow, List.length_map, length_splitOn, newlines]

theorem cutRow_of_newlines_eq_zero {row : String} (h : newlines row = 0) : cutRow row = [row] := by
  rw [cutRow, List.splitOn_eq_singleton (List.count_eq_zero.mp h), List.map_singleton,
    String.ofList_toList]

theorem splitOn_rows (rows : List (List Char)) :
    (rows.flatMap (· ++ ['\n'])).splitOn '\n' = rows.flatMap (·.splitOn '\n') ++ [[]] := by
  induction rows with
  | nil => rfl
  | cons row rows ih =>
    rw [List.flatMap_cons, List.append_assoc, List.singleton_append,
      List.splitOn_append_cons_self, ih, List.flatMap_cons, List.append_assoc]

/-- The lines of rows are what stands between all newlines. -/
theorem hasLines_rowsText (rows : List String) :
    HasLines (rowsText rows) (rows.flatMap cutRow) := by
  have htext : (rowsText rows).toList = (rows.map String.toList).flatMap (· ++ ['\n']) := by
    simp [rowsText, String.toList_join, List.flatMap_map]
  rw [HasLines, htext, splitOn_rows]
  simp [cutRow, List.flatMap_map, List.map_flatMap, Function.comp_def]

theorem length_cutRows (rows : List String) :
    (rows.flatMap cutRow).length = rows.length + (rows.map newlines).sum := by
  induction rows with
  | nil => rfl
  | cons row rows ih =>
    rw [List.flatMap_cons, List.length_append, length_cutRow, ih, List.length_cons, List.map_cons,
      List.sum_cons]
    omega

theorem cutRows_eq_self {rows : List String} (h : ∀ row ∈ rows, newlines row = 0) :
    rows.flatMap cutRow = rows := by
  have hcut : ∀ row ∈ rows, cutRow row = [row] := fun row hrow =>
    cutRow_of_newlines_eq_zero (h row hrow)
  rw [List.flatMap_congr hcut, List.flatMap_singleton']

/-- Rows with these numbers of newlines make as many lines more. There are as many lines as rows, or
the lines are the rows, under the condition that says when there is no newline in any row. -/
theorem exists_lines_of_rows {rows : List String} {held : List Nat} {uncut : Prop}
    (hheld : rows.map newlines = held) (huncut : (∀ n ∈ held, n = 0) ↔ uncut) :
    ∃ lines, HasLines (rowsText rows) lines ∧ lines = rows.flatMap cutRow ∧
      lines.length = rows.length + held.sum ∧
      (lines.length = rows.length ↔ uncut) ∧ (lines = rows ↔ uncut) := by
  have hlength : (rows.flatMap cutRow).length = rows.length + held.sum := by
    rw [length_cutRows, hheld]
  have hcount : (rows.flatMap cutRow).length = rows.length ↔ uncut := by
    rw [hlength, Nat.add_eq_left, List.sum_eq_zero_iff, huncut]
  refine ⟨_, hasLines_rowsText rows, rfl, hlength, hcount, ?_⟩
  constructor
  · intro hlines
    exact hcount.mp (congrArg List.length hlines)
  · intro h
    rw [← huncut, ← hheld, List.forall_mem_map] at h
    exact cutRows_eq_self h

theorem newlines_eq_zero_iff {s : String} : newlines s = 0 ↔ '\n' ∉ s.toList :=
  List.count_eq_zero

theorem newlines_of_isName {name : String} (h : Lexer.isName name = true) : newlines name = 0 := by
  rw [Lexer.isName, Bool.and_eq_true] at h
  obtain ⟨c, cs, hname, -, hall⟩ := Lexical.exists_cons_of_isWord h.1
  exact Lexical.count_eq_zero_of_all (hname ▸ hall) rfl

theorem newlines_intercalate {separator : String} {ss : List String}
    (hseparator : newlines separator = 0) (h : ∀ s ∈ ss, newlines s = 0) :
    newlines (separator.intercalate ss) = 0 := by
  induction ss with
  | nil => rfl
  | cons s ss ih =>
    rw [List.forall_mem_cons] at h
    cases ss with
    | nil => rw [String.intercalate_singleton, h.1]
    | cons s' ss =>
      have hothers := ih h.2
      rw [String.intercalate_cons_cons]
      simp only [newlines, String.toList_append, List.count_append] at h hseparator hothers ⊢
      omega

@[simp] theorem count_newline_digits (n : Nat) : (Nat.toDigits 10 n).count '\n' = 0 := by
  apply Lexical.count_eq_zero_of_all (p := Char.isDigit) _ rfl
  intro c hc
  exact Nat.isDigit_of_mem_toDigits (by decide) (by decide) hc

@[simp] theorem newlines_symbol (op : Operator) : newlines op.symbol = 0 := by
  cases op <;> rfl

@[simp] theorem newlines_mark (m : Mark) : newlines m.text = 0 := by
  cases m <;> rfl

@[simp] theorem newlines_keyword (word : Keyword) : newlines word.text = 0 := by
  cases word <;> rfl

@[simp] theorem newlines_number (value : Number) : newlines value.text = 0 := by
  cases value with
  | nan => rfl
  | infinite negative => cases negative <;> rfl
  | finite negative rank =>
    have hdigits : newlines (Decimal.shortest .upper rank.val).positional = 0 :=
      Lexical.count_eq_zero_of_all (Decimal.isPart_positional _).2 rfl
    cases negative <;> simp [newlines, Number.text, hdigits]

end Sapling
