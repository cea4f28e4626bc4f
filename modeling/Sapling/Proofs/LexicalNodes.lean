import Sapling.Proofs.NodePaths
import Sapling.Proofs.PrintedParse
import Sapling.Proofs.Yield

/-!
# What the nodes of a program hold

A test that holds of all statements and expressions of a tree holds of the node at every path
(`Node.holds_at?`). So every node of a program that has been read, however deep it lies, holds
identifiers, strings and numbers of which the lexer can make a token (`parse_lexically_clean`).
-/
namespace Sapling

/-- A letter with letters, digits and underscores behind it that is none of the reserved words. -/
structure IsIdentifier (name : String) : Prop where
  shape : ∃ c cs, name.toList = c :: cs ∧ c.isAlpha = true ∧
    ∀ d ∈ cs, d.isAlphanum = true ∨ d = '_'
  free : ∀ word : Keyword, word.text ≠ name

namespace Lexer

theorem isWord_iff {cs : List Char} : isWord cs = true ↔
    ∃ d ds, cs = d :: ds ∧ d.isAlpha = true ∧ ∀ e ∈ ds, e.isAlphanum = true ∨ e = '_' := by
  cases cs with
  | nil => simp [isWord]
  | cons c cs => simp [isWord, isWordPart]

theorem ofText?_eq_none_iff {word : String} :
    Keyword.ofText? word = none ↔ ∀ k : Keyword, k.text ≠ word := by
  have hall (k : Keyword) : k ∈ Keyword.all := by cases k <;> decide
  simp [Keyword.ofText?, List.find?_eq_none, hall]

theorem isName_iff {name : String} : isName name = true ↔ IsIdentifier name := by
  rw [isName, Bool.and_eq_true, Option.isNone_iff_eq_none, isWord_iff, ofText?_eq_none_iff]
  constructor
  · rintro ⟨hshape, hfree⟩
    exact ⟨hshape, hfree⟩
  · rintro ⟨hshape, hfree⟩
    exact ⟨hshape, hfree⟩

end Lexer

namespace Number

theorem testBit_signBit (negative : Bool) {bits : Nat} (h : bits ≤ magnitudeCount) :
    ((if negative then Nat.pow 2 63 else 0) + bits).testBit 63 = negative := by
  have hmagnitudes : magnitudeCount < 2 ^ 63 := by decide
  have hclear : bits.testBit 63 = false := Nat.testBit_lt_two_pow (h.trans_lt hmagnitudes)
  cases negative with
  | false => rw [if_neg Bool.false_ne_true, Nat.zero_add, hclear]
  | true => rw [if_pos rfl, Nat.pow_eq, Nat.testBit_two_pow_add_eq, hclear, Bool.not_false]

theorem isUnsigned_iff_testBit {value : Number} :
    value.isUnsigned = true ↔ value ≠ .nan ∧ value.toBits.testBit 63 = false := by
  cases value with
  | nan => simp [isUnsigned]
  | infinite negative =>
    have hsign : (toBits (.infinite negative)).testBit 63 = negative :=
      testBit_signBit negative (Nat.le_refl magnitudeCount)
    simp [isUnsigned, hsign]
  | finite negative rank =>
    have hsign : (toBits (.finite negative rank)).testBit 63 = negative :=
      testBit_signBit negative (Nat.le_of_lt rank.isLt)
    simp [isUnsigned, hsign]

end Number

namespace Node

/-- Whether a test holds of all statements and expressions from a node on. -/
def all (p : Node → Bool) : Node → Bool
  | .block stmts => Stmt.allIn p stmts
  | .stmt s => s.all p
  | .expr e => e.all p

variable {p : Node → Bool} {path : List Nat} {root node : Node}

theorem all_iff (hblock : ∀ stmts, p (.block stmts) = true) (node : Node) :
    node.all p = true ↔ p node = true ∧ ∀ child ∈ node.children, child.all p = true := by
  cases node with
  | block stmts => simp [all, children, Stmt.allIn_eq_all, hblock]
  | stmt s =>
    cases s with
    | conditional condition yes no =>
      cases no <;> simp [all, children, Stmt.all, and_assoc]
    | _ => simp [all, children, Stmt.all, and_assoc]
  | expr e =>
    cases e with
    | call callee args => simp [all, children, Expr.all, Expr.allArgs_eq_all]
    | _ => simp [all, children, Expr.all, and_assoc]

theorem all_at? (hblock : ∀ stmts, p (.block stmts) = true) (h : root.all p = true)
    (hat : root.at? path = some node) : node.all p = true := by
  induction path generalizing node with
  | nil =>
    obtain rfl := Option.some.inj hat
    exact h
  | cons i path ih =>
    obtain ⟨parent, hparent, hchild⟩ := Option.bind_eq_some_iff.mp hat
    have hbelow := ((all_iff hblock parent).mp (ih hparent)).2
    exact hbelow node (List.mem_of_getElem? hchild)

/-- A test that holds of all nodes holds of the node at every path. -/
theorem holds_at? (hblock : ∀ stmts, p (.block stmts) = true) (h : root.all p = true)
    (hat : root.at? path = some node) : p node = true :=
  ((all_iff hblock node).mp (all_at? hblock h hat)).1

/-- The names that a node itself holds: of a variable, of what is assigned to or called, or of a
function and its parameters. -/
def names : Node → List String
  | .expr (.variable name) => [name]
  | .expr (.assign target _) => [target]
  | .expr (.call callee _) => [callee]
  | .stmt (.define name params _) => name :: params
  | _ => []

theorem isIdentifier_of_mem_names (h : node.isSpelled = true) {name : String}
    (hname : name ∈ node.names) : IsIdentifier name := by
  rw [← Lexer.isName_iff]
  unfold names at hname
  split at hname
  · rwa [List.mem_singleton.mp hname]
  · rwa [List.mem_singleton.mp hname]
  · rwa [List.mem_singleton.mp hname]
  · simp only [isSpelled, Bool.and_eq_true, List.all_eq_true] at h
    rcases List.mem_cons.mp hname with rfl | hparam
    · exact h.1
    · exact h.2 name hparam
  · exact absurd hname List.not_mem_nil

end Node

/-- A program that has been read is lexically clean. Whatever the text and the options, every node
in it holds only names that are identifiers, a string literal has no quote, and a number literal is
not `nan` and has its sign bit clear. -/
theorem parse_lexically_clean {options : ParseOptions} {source : String} {program : Block}
    (h : parse options source = .ok program) (path : List Nat) (node : Node)
    (hat : (Node.block program).at? path = some node) :
    (∀ name ∈ node.names, IsIdentifier name) ∧
    (∀ text, node = .expr (.literal (.str text)) → '"' ∉ text.toList) ∧
    ∀ value, node = .expr (.literal (.number value)) →
      value ≠ .nan ∧ value.toBits.testBit 63 = false := by
  have hall : (Node.block program).all Node.isWritable = true := Block.isWritable_of_parse h
  have hnode : node.isWritable = true := Node.holds_at? (fun _ => rfl) hall hat
  obtain ⟨hspelled, hunsigned⟩ := Node.isWritable_iff.mp hnode
  refine ⟨fun name => Node.isIdentifier_of_mem_names hspelled, ?_, ?_⟩
  · rintro text rfl
    simpa [Node.isSpelled] using hspelled
  · rintro value rfl
    exact Number.isUnsigned_iff_testBit.mp hunsigned

/-- Deep in a function, with a number that is too large to be finite. -/
theorem parse_lexically_clean_infinite :
    let program : Block := [.define "f" ["n"]
      [.ret (.call "g" [.literal (.str "#"), .literal (.number (.infinite false))])]]
    parse {} (program.print {}) = .ok program ∧
      (Node.block program).at? [1, 0, 0, 0, 0] =
        some (.expr (.literal (.number (.infinite false)))) ∧
      (∀ name ∈ ["f", "n"], IsIdentifier name) ∧ '"' ∉ "#".toList ∧
      Number.infinite false ≠ .nan ∧ (Number.toBits (.infinite false)).testBit 63 = false := by
  intro program
  have hread : parse {} (program.print {}) = .ok program :=
    (parse_print_iff (by decide) (by decide) {}).mpr ⟨⟨by decide, by decide⟩, rfl⟩
  exact ⟨hread, rfl, (parse_lexically_clean hread [0] _ rfl).1,
    (parse_lexically_clean hread [0, 0, 0, 0, 0] _ rfl).2.1 _ rfl,
    (parse_lexically_clean hread [1, 0, 0, 0, 0] _ rfl).2.2 _ rfl⟩

end Sapling
