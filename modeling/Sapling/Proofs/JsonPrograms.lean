import Sapling.Json.Program
import Sapling.Proofs.JsonTexts
import Sapling.Proofs.OutlineTrees

/-!
# Programs from JSON

The JSON value of a program, with `null` for numbers that are not finite, is that of no other
program whose numbers have no sign (`Block.eq_of_written`): a missing `else` is the only `null` in
the place of a block, and infinity without a sign is the only number that is written as `null`. So
programs that have been read are known by their compact and by their pretty texts.
-/
namespace Sapling

namespace Json

@[simp] theorem tagged_inj {tag tag' : String} {value value' : Json} :
    tagged tag value = tagged tag' value' ↔ tag = tag' ∧ value = value' := by
  simp [tagged]

@[simp] theorem written_str (text : String) : (Json.str text).written = .str text := rfl

@[simp] theorem written_null : Json.null.written = .null := rfl

@[simp] theorem written_array (items : List Json) :
    (Json.array items).written = .array (items.map written) := by
  rw [← writtenItems_eq_map]
  rfl

@[simp] theorem written_object (fields : List (String × Json)) :
    (Json.object fields).written = .object (fields.map writtenField) := by
  rw [← writtenFields_eq_map]
  rfl

@[simp] theorem writtenField_eq (key : String) (value : Json) :
    writtenField (key, value) = (key, value.written) := rfl

@[simp] theorem written_tagged (tag : String) (value : Json) :
    (tagged tag value).written = tagged tag value.written := by
  simp [tagged]

end Json

open Json (written)

theorem Literal.eq_of_written {a b : Literal} (ha : Node.isUnsigned (.expr (.literal a)) = true)
    (hb : Node.isUnsigned (.expr (.literal b)) = true)
    (h : a.toJson.written = b.toJson.written) : a = b := by
  cases a with
  | number value =>
    cases b with
    | number value' =>
      have hwritten : (Json.number value).written = (Json.number value').written := by
        simpa [toJson] using h
      obtain rfl | ⟨rank, rfl⟩ := Number.isUnsigned_iff.mp ha
      · obtain rfl | ⟨rank', rfl⟩ := Number.isUnsigned_iff.mp hb
        · rfl
        · cases hwritten
      · obtain rfl | ⟨rank', rfl⟩ := Number.isUnsigned_iff.mp hb
        · cases hwritten
        · cases hwritten
          rfl
    | str text => simp [toJson] at h
  | str text =>
    cases b with
    | number value => simp [toJson] at h
    | str text' => simpa [toJson] using h

namespace Expr

mutual

theorem eq_of_written {a b : Expr} (ha : a.all Node.isUnsigned = true)
    (hb : b.all Node.isUnsigned = true) (h : a.toJson.written = b.toJson.written) : a = b := by
  cases a with
  | literal value =>
    cases b with
    | literal value' => rw [Literal.eq_of_written ha hb (by simpa [toJson] using h)]
    | _ => simp [toJson] at h
  | «variable» name =>
    cases b with
    | «variable» name' => simpa [toJson] using h
    | _ => simp [toJson] at h
  | binary op left right =>
    cases b with
    | binary op' left' right' =>
      simp only [Expr.all, Bool.and_eq_true] at ha hb
      obtain ⟨hop, hleft, hright⟩ : op.name = op'.name ∧
          left.toJson.written = left'.toJson.written ∧
          right.toJson.written = right'.toJson.written := by
        simpa [toJson] using h
      rw [Operator.name_injective hop, eq_of_written ha.1.2 hb.1.2 hleft,
        eq_of_written ha.2 hb.2 hright]
    | _ => simp [toJson] at h
  | assign target value =>
    cases b with
    | assign target' value' =>
      simp only [Expr.all, Bool.and_eq_true] at ha hb
      obtain ⟨rfl, hvalue⟩ : target = target' ∧ value.toJson.written = value'.toJson.written := by
        simpa [toJson] using h
      rw [eq_of_written ha.2 hb.2 hvalue]
    | _ => simp [toJson] at h
  | call callee args =>
    cases b with
    | call callee' args' =>
      simp only [Expr.all, Bool.and_eq_true] at ha hb
      obtain ⟨rfl, hargs⟩ : callee = callee' ∧
          (toJsonAll args).map written = (toJsonAll args').map written := by
        simpa [toJson] using h
      rw [eq_of_writtenAll ha.2 hb.2 hargs]
    | _ => simp [toJson] at h

theorem eq_of_writtenAll {as bs : List Expr} (ha : allArgs Node.isUnsigned as = true)
    (hb : allArgs Node.isUnsigned bs = true)
    (h : (toJsonAll as).map written = (toJsonAll bs).map written) : as = bs := by
  cases as with
  | nil =>
    cases bs with
    | nil => rfl
    | cons b bs => simp [toJsonAll] at h
  | cons a as =>
    cases bs with
    | nil => simp [toJsonAll] at h
    | cons b bs =>
      simp only [allArgs, Bool.and_eq_true] at ha hb
      simp only [toJsonAll, List.map_cons, List.cons.injEq] at h
      rw [eq_of_written ha.1 hb.1 h.1, eq_of_writtenAll ha.2 hb.2 h.2]

end

end Expr

@[simp] theorem Json.written_block (statements : List Json) :
    (Json.block statements).written = .block (statements.map written) := by
  simp [Json.block]

@[simp] theorem Json.block_inj {statements statements' : List Json} :
    Json.block statements = .block statements' ↔ statements = statements' := by
  simp [Json.block]

namespace Stmt

/-- A missing block is written as `null`. -/
def blockJson : Option (List Stmt) → Json
  | none => .null
  | some statements => .block (toJsonAll statements)

def tag : Stmt → String
  | .expression _ => "Expression"
  | .conditional .. => "If"
  | .loop .. => "While"
  | .ret _ => "Return"
  | .define .. => "FunctionDef"

def fields : Stmt → List (String × Json)
  | .expression e => [("expr", e.toJson)]
  | .conditional condition yes no => [("condition", condition.toJson),
      ("then_block", .block (toJsonAll yes)), ("else_block", blockJson no)]
  | .loop condition body => [("condition", condition.toJson), ("body", .block (toJsonAll body))]
  | .ret value => [("value", value.toJson)]
  | .define name params body => [("name", .str name), ("params", .array (params.map .str)),
      ("body", .block (toJsonAll body))]

theorem toJson_eq (s : Stmt) : s.toJson = .tagged s.tag (.object s.fields) := by
  cases s with
  | conditional condition yes no => cases no <;> rfl
  | _ => rfl

mutual

theorem eq_of_written {a b : Stmt} (ha : a.all Node.isUnsigned = true)
    (hb : b.all Node.isUnsigned = true) (h : a.toJson.written = b.toJson.written) : a = b := by
  have hparts : a.tag = b.tag ∧
      a.fields.map Json.writtenField = b.fields.map Json.writtenField := by
    simpa [toJson_eq] using h
  obtain ⟨htag, hfields⟩ := hparts
  cases a with
  | expression e =>
    cases b with
    | expression e' =>
      simp only [Stmt.all, Bool.and_eq_true] at ha hb
      rw [Expr.eq_of_written ha.2 hb.2 (by simpa [fields] using hfields)]
    | _ => simp [tag] at htag
  | ret value =>
    cases b with
    | ret value' =>
      simp only [Stmt.all, Bool.and_eq_true] at ha hb
      rw [Expr.eq_of_written ha.2 hb.2 (by simpa [fields] using hfields)]
    | _ => simp [tag] at htag
  | loop condition body =>
    cases b with
    | loop condition' body' =>
      simp only [Stmt.all, Bool.and_eq_true] at ha hb
      obtain ⟨hcondition, hbody⟩ : condition.toJson.written = condition'.toJson.written ∧
          (toJsonAll body).map written = (toJsonAll body').map written := by
        simpa [fields] using hfields
      rw [Expr.eq_of_written ha.1.2 hb.1.2 hcondition, eq_of_writtenAll ha.2 hb.2 hbody]
    | _ => simp [tag] at htag
  | conditional condition yes no =>
    cases b with
    | conditional condition' yes' no' =>
      obtain ⟨hcondition, hyes, hno⟩ : condition.toJson.written = condition'.toJson.written ∧
          (toJsonAll yes).map written = (toJsonAll yes').map written ∧
          (blockJson no).written = (blockJson no').written := by
        simpa [fields] using hfields
      cases no with
      | none =>
        cases no' with
        | none =>
          simp only [Stmt.all, Bool.and_eq_true] at ha hb
          rw [Expr.eq_of_written ha.1.2 hb.1.2 hcondition, eq_of_writtenAll ha.2 hb.2 hyes]
        | some no' => cases hno
      | some no =>
        cases no' with
        | none => cases hno
        | some no' =>
          simp only [Stmt.all, Bool.and_eq_true] at ha hb
          have hblocks : (toJsonAll no).map written = (toJsonAll no').map written := by
            simpa [blockJson] using hno
          rw [Expr.eq_of_written ha.1.1.2 hb.1.1.2 hcondition,
            eq_of_writtenAll ha.1.2 hb.1.2 hyes, eq_of_writtenAll ha.2 hb.2 hblocks]
    | _ => simp [tag] at htag
  | define name params body =>
    cases b with
    | define name' params' body' =>
      simp only [Stmt.all, Bool.and_eq_true] at ha hb
      obtain ⟨rfl, hparams, hbody⟩ : name = name' ∧ params.map Json.str = params'.map Json.str ∧
          (toJsonAll body).map written = (toJsonAll body').map written := by
        simpa [fields, Function.comp_def] using hfields
      rw [List.map_injective_iff.mpr (fun _ _ => Json.str.inj) hparams,
        eq_of_writtenAll ha.2 hb.2 hbody]
    | _ => simp [tag] at htag

theorem eq_of_writtenAll {as bs : List Stmt} (ha : allIn Node.isUnsigned as = true)
    (hb : allIn Node.isUnsigned bs = true)
    (h : (toJsonAll as).map written = (toJsonAll bs).map written) : as = bs := by
  cases as with
  | nil =>
    cases bs with
    | nil => rfl
    | cons b bs => simp [toJsonAll] at h
  | cons a as =>
    cases bs with
    | nil => simp [toJsonAll] at h
    | cons b bs =>
      simp only [allIn, Bool.and_eq_true] at ha hb
      simp only [toJsonAll, List.map_cons, List.cons.injEq] at h
      rw [eq_of_written ha.1 hb.1 h.1, eq_of_writtenAll ha.2 hb.2 h.2]

end

end Stmt

/-- Programs whose numbers have no sign are known by their compact text. -/
theorem Block.eq_of_compact {p q : Block} (hp : Stmt.allIn Node.isUnsigned p = true)
    (hq : Stmt.allIn Node.isUnsigned q = true) (h : p.toJson.compact = q.toJson.compact) :
    p = q := by
  have hwritten := Json.written_eq_of_compact h
  rw [Block.toJson, Block.toJson, Json.written_block, Json.written_block, Json.block_inj]
    at hwritten
  exact Stmt.eq_of_writtenAll hp hq hwritten

/-- The JSON texts of a program differ in blanks outside of strings only, and both identify it:
programs that have been read, from any texts and under any options, are the same if their compact
texts are, and if their pretty texts are. -/
theorem json_identifies :
    (∀ program : Block, Json.withoutBlanks .outside program.toJson.pretty.toList =
      program.toJson.compact.toList) ∧
    ∀ {options options' : ParseOptions} {source source' : String} {p q : Block},
      parse options source = .ok p → parse options' source' = .ok q →
      p.toJson.compact = q.toJson.compact ∨ p.toJson.pretty = q.toJson.pretty →
      p = q ∧ Block.equals p q = true := by
  refine ⟨fun program => Json.withoutBlanks_pretty program.toJson, ?_⟩
  intro options options' source source' p q hp hq h
  have hleft := (Block.isWritable_iff.mp (Block.isWritable_of_parse hp)).2
  have hright := (Block.isWritable_iff.mp (Block.isWritable_of_parse hq)).2
  have hcompact : p.toJson.compact = q.toJson.compact := by
    rcases h with h | h
    · exact h
    · rw [← String.toList_inj, ← Json.withoutBlanks_pretty, h, Json.withoutBlanks_pretty]
  obtain rfl := Block.eq_of_compact hleft hright hcompact
  exact ⟨rfl, (Stmt.equalsAll_iff hleft hleft).mpr rfl⟩

/-- A string with a backslash and a brace, and an `else` without statements. -/
theorem json_identifies_string :
    ∃ p q, parse {} "if (a) b = f(\"\\\x7b\"); else \x7b\x7d" = .ok p ∧
      parse {} "if ((a)) \x7b b = (f((\"\\\x7b\"))); \x7d else \x7b\x7d" = .ok q ∧
      p.toJson.pretty = q.toJson.pretty ∧ p = q ∧ Block.equals p q = true := by
  let program : Block := [.conditional (.variable "a")
    [.expression (.assign "b" (.call "f" [.literal (.str "\\\x7b")]))] (some [])]
  have hp : parse {} "if (a) b = f(\"\\\x7b\"); else \x7b\x7d" = .ok program :=
    parse_eq_ok_of_equals (by decide +kernel) (by decide +kernel)
  have hq : parse {} "if ((a)) \x7b b = (f((\"\\\x7b\"))); \x7d else \x7b\x7d" = .ok program :=
    parse_eq_ok_of_equals (by decide +kernel) (by decide +kernel)
  exact ⟨program, program, hp, hq, rfl, json_identifies.2 hp hq (.inr rfl)⟩

end Sapling
