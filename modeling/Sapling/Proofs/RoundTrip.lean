import Sapling.Proofs.EqualTrees
import Sapling.Proofs.PrintedParse
import Sapling.Proofs.Yield

/-!
# Round trips

The printed text of a program is read back as an equal program exactly if the program is printable
and the levels suffice. A program that has been read is writable and obeys the options, so that
its printed text is read back under them unless an assignment is a left operand or the text needs
more levels than the options give.
-/
namespace Sapling

open Grammar

/-- A program fits if its numbers have no sign, no assignment is a left operand, parameters are
different where that is asked for, and there are levels enough. -/
theorem Block.fits_iff {options : ParseOptions} {program : Block} :
    program.Fits options ↔
      (Stmt.allIn Node.isUnsigned program = true ∧ program.noAssignOnLeft = true ∧
        Stmt.allIn (Node.isStrict options.strictParams) program = true) ∧
      program.depth ≤ options.maxDepth := by
  have hstable : Stmt.allIn (Node.isStable options.strictParams) program =
      (Stmt.allIn Node.isUnsigned program && program.noAssignOnLeft &&
        Stmt.allIn (Node.isStrict options.strictParams) program) := by
    rw [Block.noAssignOnLeft, ← Stmt.allIn_and, ← Stmt.allIn_and]
    rfl
  simp only [Block.Fits, Stmt.FitsIn, hstable, Bool.and_eq_true, and_assoc, Block.depth]

theorem Block.isLegible_iff {program : Block} :
    Stmt.allIn Node.isLegible program = true ↔
      Stmt.allIn Node.isSpelled program = true ∧ Stmt.allIn Node.isFaithful program = true := by
  have hand := Stmt.allIn_and Node.isSpelled Node.isFaithful program
  rw [← Bool.and_eq_true, ← hand]
  rfl

theorem Node.isFaithful_of_isUnsigned (n : Node) (h : n.isUnsigned = true) :
    n.isFaithful = true := by
  unfold isFaithful
  split
  · simp [isUnsigned, Number.isUnsigned] at h
  · simpa [isUnsigned, Number.isUnsigned] using h
  · rfl

theorem Block.isStrict_false (program : Block)
    (h : Stmt.allIn Node.isUnsigned program = true) :
    Stmt.allIn (Node.isStrict false) program = true := by
  refine Stmt.allIn_mono (fun n _ => ?_) h
  unfold Node.isStrict
  split <;> rfl

/-- The printed text of a program is read as an equal program exactly if the program is printable
and there are levels enough for the text. -/
theorem parse_print_equals_iff (program : Block) (layout : Layout) (levels : Nat) :
    (∃ read, parse { strictParams := false, maxDepth := levels } (program.print layout) = .ok read ∧
      Block.equals read program = true) ↔
    program.isPrintable = true ∧ program.depth ≤ levels := by
  rw [Block.isPrintable, Bool.and_eq_true]
  constructor
  · rintro ⟨read, hread, hequals⟩
    have hwritable := Block.isWritable_of_parse hread
    have hlegible := Stmt.isLegible_of_equalsAll hequals hwritable
    obtain ⟨hspelled, hfaithful⟩ := Block.isLegible_iff.mp hlegible
    obtain ⟨hfits, rfl⟩ := (parse_print_iff hspelled hfaithful layout).mp hread
    obtain ⟨⟨-, hplain, -⟩, hdepth⟩ := Block.fits_iff.mp hfits
    exact ⟨⟨hwritable, hplain⟩, hdepth⟩
  · rintro ⟨⟨hwritable, hplain⟩, hdepth⟩
    obtain ⟨hspelled, hunsigned⟩ := Block.isWritable_iff.mp hwritable
    have hfaithful := Stmt.allIn_mono Node.isFaithful_of_isUnsigned hunsigned
    have hstrict := Block.isStrict_false program hunsigned
    refine ⟨program, (parse_print_iff hspelled hfaithful layout).mpr ⟨?_, rfl⟩, ?_⟩
    · exact Block.fits_iff.mpr ⟨⟨hunsigned, hplain, hstrict⟩, hdepth⟩
    · exact (Stmt.equalsAll_iff hunsigned hunsigned).mpr rfl

namespace Grammar

variable {strict : Bool}

/-- All definitions of a tree that is read obey the options. -/
theorem Statement.isStrict {expr : Phrase Expr} {block : Phrase Block}
    (hblock : ∀ {ts b rest}, block ts b rest → Stmt.allIn (Node.isStrict strict) b = true)
    {ts rest : List Token} {s : Stmt} (h : Statement strict expr block ts s rest) :
    s.all (Node.isStrict strict) = true := by
  have hexpr : ∀ e : Expr, e.all (Node.isStrict strict) = true :=
    Expr.all_of_forall fun _ => rfl
  cases h with
  | expression | ret => simp [Stmt.all, Node.isStrict, hexpr]
  | loop _ body | conditional _ body _ => simp [Stmt.all, Node.isStrict, hexpr, hblock body]
  | alternative _ taken otherwise =>
    simp [Stmt.all, Node.isStrict, hexpr, hblock taken, hblock otherwise]
  | define items body =>
    have hnodup := nodup_of_listed items
    simp [Stmt.all, Node.isStrict_define.mpr hnodup, hblock body]

theorem Repeated.isStrict {item : Phrase Stmt}
    (hitem : ∀ {ts s rest}, item ts s rest → s.all (Node.isStrict strict) = true)
    {ts rest : List Token} {b : Block} (h : Repeated item ts b rest) :
    Stmt.allIn (Node.isStrict strict) b = true := by
  induction h with
  | nil => rfl
  | cons first _ ih => simp [Stmt.allIn, hitem first, ih]

theorem statementWithin_isStrict (levels : Nat) {ts rest : List Token} {s : Stmt}
    (h : StatementWithin strict levels ts s rest) : s.all (Node.isStrict strict) = true := by
  induction levels generalizing ts s rest with
  | zero => exact Statement.isStrict (fun hb => hb.elim) h
  | succ levels ih =>
    refine Statement.isStrict (fun hb => ?_) h
    cases hb with
    | braces items => exact Repeated.isStrict ih items
    | single _ only => simp [Stmt.allIn, ih only]

end Grammar

/-- The printed text of a program that has been read is read under the same options exactly if no
assignment is a left operand and the text does not need more levels; and only as the program. -/
theorem parse_print_of_parse_iff {options : ParseOptions} {source : String} {program : Block}
    (h : parse options source = .ok program) (layout : Layout) (read : Block) :
    parse options (program.print layout) = .ok read ↔
      program.noAssignOnLeft = true ∧ program.depth ≤ options.maxDepth ∧ read = program := by
  obtain ⟨hspelled, hunsigned⟩ := Block.isWritable_iff.mp (Block.isWritable_of_parse h)
  have hfaithful := Stmt.allIn_mono Node.isFaithful_of_isUnsigned hunsigned
  obtain ⟨ts, -, hprogram⟩ := parseFrom_eq_ok_iff.mp h
  have hstrict := Repeated.isStrict (statementWithin_isStrict _) hprogram
  rw [parse_print_iff hspelled hfaithful, Block.fits_iff]
  simp [hunsigned, hstrict, and_assoc]

/-- Three levels are enough for the printed text of a chain that ends in a tighter operator. -/
theorem parse_print_chain :
    ∃ program, parse { maxDepth := 3 } "a + b * c;" = .ok program ∧
      parse { maxDepth := 3 } (program.print {}) = .ok program := by
  have hread : parse { maxDepth := 3 } "a + b * c;" = .ok [.expression (.binary .add
      (.variable "a") (.binary .mul (.variable "b") (.variable "c")))] :=
    parse_eq_ok_of_equals rfl (by decide +kernel)
  exact ⟨_, hread, (parse_print_of_parse_iff hread {} _).mpr ⟨rfl, by decide, rfl⟩⟩

/-- Two levels are enough for such a chain as it stands, but not for its printed text. -/
theorem parse_print_too_deep :
    ∃ program, parse { maxDepth := 2 } "a + b * c;" = .ok program ∧
      program.noAssignOnLeft = true ∧
      parse { maxDepth := 2 } (program.print {}) ≠ .ok program := by
  refine ⟨[.expression (.binary .add (.variable "a")
    (.binary .mul (.variable "b") (.variable "c")))],
    parse_eq_ok_of_equals rfl (by decide +kernel), rfl, fun h => ?_⟩
  obtain ⟨hfits, -⟩ := (parse_print_iff rfl rfl {}).mp h
  exact absurd hfits.2 (by decide)

end Sapling
