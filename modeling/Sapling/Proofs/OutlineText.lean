import Sapling.Proofs.CensusCounts
import Sapling.Proofs.LexicalNodes
import Sapling.Proofs.TextRows

/-!
# The text of an outline

An outline is written row by row, a row for each node. A string literal stands in its label as it is
written in the program, so that each newline in it begins one more line. The text has one line for
each node exactly if no string literal has a newline (`outline_text_lines_iff`).
-/
namespace Sapling

namespace Node

/-- The newlines in the string that a node itself holds. -/
def heldNewlines : Node → Nat
  | .expr (.literal (.str text)) => newlines text
  | _ => 0

theorem newlines_literal (value : Literal) :
    newlines value.text = (Node.expr (.literal value)).heldNewlines := by
  cases value with
  | number value =>
    cases value with
    | infinite negative =>
      rw [Literal.text_infinite, newlines, String.toList_ofList,
        List.count_cons_of_ne (by decide), List.count_replicate, if_neg (by decide)]
      rfl
    | _ => exact newlines_number _
  | str text => simp [newlines, Literal.text_str, heldNewlines]

/-- A label has the newlines of the string that the node holds and no others, if the names that it
holds are such as can be read. -/
theorem newlines_label {node : Node} (h : node.isSpelled = true) :
    newlines node.label = node.heldNewlines := by
  cases node with
  | block stmts => simp [newlines, label, heldNewlines]
  | stmt s =>
    cases s with
    | conditional condition yes no => cases no <;> simp [newlines, label, heldNewlines]
    | define name params body =>
      simp only [isSpelled, Bool.and_eq_true, List.all_eq_true] at h
      have hparams : newlines (", ".intercalate params) = 0 :=
        newlines_intercalate rfl fun name hname => newlines_of_isName (h.2 name hname)
      simp only [newlines, label, heldNewlines, String.toList_append, List.count_append, hparams,
        newlines_of_isName h.1]
      rfl
    | _ => simp [newlines, label, heldNewlines]
  | expr e =>
    cases e with
    | literal value =>
      rw [← newlines_literal]
      simp [newlines, label]
    | binary op left right => simp [newlines, label, heldNewlines]
    | «variable» name => simp [newlines, label, heldNewlines, newlines_of_isName h]
    | assign target value => simp [newlines, label, heldNewlines, newlines_of_isName h]
    | call callee args => simp [newlines, label, heldNewlines, newlines_of_isName h]

end Node

namespace Outline

/-- The blanks for the depth of an entry, and its label. -/
def Entry.row (indent : Nat) (entry : Entry) : String :=
  String.ofList (List.replicate (entry.depth * indent) ' ') ++ entry.label

theorem text_eq (indent : Nat) (entries : Outline) :
    entries.text indent = rowsText (entries.map (Entry.row indent)) := by
  rw [text, rowsText, List.map_map]
  rfl

end Outline

theorem Visit.newlines_row {visit : Visit} (h : visit.node.isSpelled = true) (indent : Nat) :
    newlines (visit.entry.row indent) = visit.node.heldNewlines := by
  rw [← Node.newlines_label h]
  simp [newlines, entry, Outline.Entry.row, List.count_replicate]

section
variable {options : ParseOptions} {source : String} {program : Block}

theorem Visit.isSpelled_of_parse (h : parse options source = .ok program) :
    ∀ visit ∈ (Node.block program).record .depthFirst, visit.node.isSpelled = true := by
  intro visit hvisit
  have hat := (Node.mem_record_of_all fun _ => rfl).mp hvisit
  have hall : (Node.block program).all Node.isWritable = true := Block.isWritable_of_parse h
  exact (Node.isWritable_iff.mp (Node.holds_at? (fun _ => rfl) hall hat)).1

theorem Outline.newlines_rows (h : parse options source = .ok program) (indent : Nat) :
    ((ofProgram program).map (Entry.row indent)).map newlines =
      ((Node.block program).record .depthFirst).map (·.node.heldNewlines) := by
  rw [ofProgram_eq, List.map_map, List.map_map]
  apply List.map_congr_left
  intro visit hvisit
  exact visit.newlines_row (Visit.isSpelled_of_parse h visit hvisit) indent

end

theorem Node.heldNewlines_eq_zero_iff {root : Node} :
    (∀ visit ∈ root.record .depthFirst, visit.node.heldNewlines = 0) ↔
      ∀ path text, root.at? path = some (.expr (.literal (.str text))) → '\n' ∉ text.toList := by
  have hmem (visit : Visit) :
      visit ∈ root.record .depthFirst ↔ root.at? visit.path = some visit.node :=
    mem_record_of_all fun _ => rfl
  constructor
  · intro h path text hat
    exact newlines_eq_zero_iff.mp (h ⟨path, _⟩ ((hmem _).mpr hat))
  · rintro h ⟨path, node⟩ hvisit
    have hat := (hmem _).mp hvisit
    unfold heldNewlines
    split
    · next text hnode => exact newlines_eq_zero_iff.mpr (h path text (hnode ▸ hat))
    · rfl

/-- A program that has been read has as many entries in its outline as it has nodes, and its outline
is written row by row, a row for each entry. The lines of the text are what stands between the
newlines of the rows. So there is one more than there are nodes for each newline in a string
literal, and there are as many lines as nodes, or the lines are the rows, exactly if no string
literal has a newline. -/
theorem outline_text_lines_iff {options : ParseOptions} {source : String} {program : Block}
    (h : parse options source = .ok program) (indent : Nat) :
    let root := Node.block program
    let rows := (Outline.ofProgram program).map (Outline.Entry.row indent)
    let nodes := (root.places fun _ => True).ncard
    rows.length = nodes ∧
    ∃ lines, HasLines ((Outline.ofProgram program).text indent) lines ∧
      lines = rows.flatMap cutRow ∧
      lines.length = nodes + ((root.record .depthFirst).map (·.node.heldNewlines)).sum ∧
      (lines.length = nodes ↔
        ∀ path text, root.at? path = some (.expr (.literal (.str text))) → '\n' ∉ text.toList) ∧
      (lines = rows ↔
        ∀ path text, root.at? path = some (.expr (.literal (.str text))) → '\n' ∉ text.toList) := by
  intro root rows nodes
  have hlength : rows.length = nodes := by
    rw [List.length_map, Outline.ofProgram_eq, List.length_map, ← Census.total_ofProgram,
      (Census.total_eq_ncard program).2]
  obtain ⟨lines, hlines⟩ := exists_lines_of_rows (Outline.newlines_rows h indent)
    (List.forall_mem_map.trans Node.heldNewlines_eq_zero_iff)
  rw [← Outline.text_eq, hlength] at hlines
  exact ⟨hlength, lines, hlines⟩

/-- An absent `else` has no row, and a string on one line none of its own. -/
theorem outline_text_lines_branches :
    ∃ program, parse {} "if (x) \x7b \x7d else y = \"s\";" = .ok program ∧
      HasLines ((Outline.ofProgram program).text 2) ["Block (1)", "  If/else", "    Variable x",
        "    Block (0)", "    Block (1)", "      ExpressionStatement", "        Assign y",
        "          Literal \"s\""] := by
  let program : Block := [.conditional (.variable "x") []
    (some [.expression (.assign "y" (.literal (.str "s")))])]
  have hread : parse {} "if (x) \x7b \x7d else y = \"s\";" = .ok program :=
    parse_eq_ok_of_equals rfl (by decide +kernel)
  obtain ⟨-, lines, hlines, -, -, -, hiff⟩ := outline_text_lines_iff hread 2
  obtain rfl := hiff.mpr (Node.heldNewlines_eq_zero_iff.mp (by decide))
  have hrows : (Outline.ofProgram program).map (Outline.Entry.row 2) =
      ["Block (1)", "  If/else", "    Variable x", "    Block (0)", "    Block (1)",
        "      ExpressionStatement", "        Assign y", "          Literal \"s\""] := by decide
  exact ⟨program, hread, hrows ▸ hlines⟩

/-- Three nodes, but a string literal of two lines. -/
theorem outline_text_string_cut :
    ∃ program, parse {} "\"a\nb\";" = .ok program ∧
      ((Node.block program).places fun _ => True).ncard = 3 ∧
      HasLines ((Outline.ofProgram program).text 2)
        ["Block (1)", "  ExpressionStatement", "    Literal \"a", "b\""] ∧
      ¬∃ lines, HasLines ((Outline.ofProgram program).text 2) lines ∧ lines.length = 3 := by
  let program : Block := [.expression (.literal (.str "a\nb"))]
  have hread : parse {} "\"a\nb\";" = .ok program :=
    parse_eq_ok_of_equals rfl (by decide +kernel)
  refine ⟨program, hread, ?_, by decide, ?_⟩
  · rw [← (Census.total_eq_ncard program).2]
    rfl
  · rintro ⟨lines, hlines, hthree⟩
    have hfour := hlines.length_eq
    rw [hthree] at hfour
    exact absurd hfour (by decide)

end Sapling
