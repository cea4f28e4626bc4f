import Mathlib.Data.List.Perm.Basic
import Mathlib.Data.Set.Card
import Sapling.Proofs.OutlineWalk

/-!
# What a census counts

A census counts the nodes of a program exactly: its numbers are the numbers of places in the tree
(`census_exact`). Each key stands in a tally once, so that sorting by key leaves one order only
(`Tally.eq_sorted`), and a report does not depend on the order in which a tally gives its entries
(`Census.report_of_perm`).
-/
namespace Sapling

namespace Tally

variable {α : Type} {tally other : Tally α} {name : α → String}

/-- Every key stands there once, and has been counted at least once. -/
structure Proper (tally : Tally α) : Prop where
  distinct : (tally.map (·.1)).Nodup
  positive : ∀ entry ∈ tally, entry.2 ≠ 0

theorem proper_nil : Proper ([] : Tally α) := ⟨List.nodup_nil, by simp⟩

theorem total_eq_sum (tally : Tally α) : tally.total = (tally.map (·.2)).sum := by
  induction tally with
  | nil => rfl
  | cons entry tally ih => rw [total_cons, ih, List.map_cons, List.sum_cons]

theorem total_of_perm (h : tally.Perm other) : tally.total = other.total := by
  rw [total_eq_sum, total_eq_sum, (h.map _).sum_eq]

theorem pairwise_sorted (name : α → String) (tally : Tally α) :
    (tally.sorted name).Pairwise fun a b => name a.1 ≤ name b.1 := by
  let le (a b : α × Nat) : Bool := decide (name a.1 ≤ name b.1)
  have htrans (a b c : α × Nat) (hab : le a b = true) (hbc : le b c = true) : le a c = true :=
    decide_eq_true (String.le_trans (of_decide_eq_true hab) (of_decide_eq_true hbc))
  have htotal (a b : α × Nat) : (le a b || le b a) = true := by
    simpa [le] using String.le_total (name a.1) (name b.1)
  exact (List.pairwise_mergeSort htrans htotal tally).imp of_decide_eq_true

theorem sorted_perm (name : α → String) (tally : Tally α) : (tally.sorted name).Perm tally :=
  List.mergeSort_perm tally _

/-- Keys with different names can be sorted by name in one way only. -/
theorem eq_sorted (hname : Function.Injective name) (h : tally.Proper) (hperm : other.Perm tally)
    (hsorted : other.Pairwise fun a b => name a.1 ≤ name b.1) : other = tally.sorted name := by
  have hall := hperm.trans (sorted_perm name tally).symm
  refine hall.eq_of_pairwise (fun a b ha hb hab hba => ?_) hsorted (pairwise_sorted name tally)
  have hkeys : a.1 = b.1 := hname (String.le_antisymm hab hba)
  exact List.inj_on_of_nodup_map h.distinct (hperm.mem_iff.mp ha)
    ((sorted_perm name tally).mem_iff.mp hb) hkeys

theorem sorted_of_perm (hname : Function.Injective name) (h : tally.Proper)
    (hperm : other.Perm tally) : other.sorted name = tally.sorted name :=
  eq_sorted hname h ((sorted_perm name other).trans hperm) (pairwise_sorted name other)

theorem Proper.strictly_sorted (h : tally.Proper) (hname : Function.Injective name) :
    (tally.sorted name).Pairwise fun a b => name a.1 < name b.1 := by
  have hdistinct : ((tally.sorted name).map (·.1)).Nodup :=
    ((sorted_perm name tally).map _).nodup_iff.mpr h.distinct
  refine (pairwise_sorted name tally).imp₂ (fun a b hle hne => ?_) (List.pairwise_map.mp hdistinct)
  exact String.not_le.mp fun hge => hne (hname (String.le_antisymm hle hge))

variable [BEq α] [LawfulBEq α]

theorem count_cons (key k : α) (n : Nat) (tally : Tally α) :
    count k ((key, n) :: tally) = if key == k then n else tally.count k := by
  rw [count, List.lookup_cons, Bool.beq_comm]
  cases key == k <;> rfl

theorem count_add (key k : α) (tally : Tally α) :
    (tally.add key).count k = tally.count k + if key == k then 1 else 0 := by
  induction tally with
  | nil =>
    rw [add, count_cons]
    exact (Nat.zero_add _).symm
  | cons entry tally ih =>
    obtain ⟨first, n⟩ := entry
    rw [add, count_cons]
    split
    · next h =>
      rw [← eq_of_beq h, count_cons]
      split <;> rfl
    · next h =>
      rw [count_cons, ih]
      split
      · next h' => rw [← eq_of_beq h', if_neg (by rwa [Bool.beq_comm]), Nat.add_zero]
      · rfl

theorem mem_keys_add {k key : α} :
    k ∈ (tally.add key).map (·.1) ↔ k = key ∨ k ∈ tally.map (·.1) := by
  induction tally with
  | nil => simp [add]
  | cons entry tally ih =>
    rw [add]
    split
    · next h => simp [eq_of_beq h]
    · rw [List.map_cons, List.mem_cons, ih, List.map_cons, List.mem_cons]
      exact or_left_comm

theorem Proper.add (h : tally.Proper) (key : α) : (tally.add key).Proper := by
  induction tally with
  | nil => exact ⟨by simp [Tally.add], by simp [Tally.add]⟩
  | cons entry tally ih =>
    obtain ⟨first, n⟩ := entry
    obtain ⟨hfirst, hdistinct⟩ := List.nodup_cons.mp h.distinct
    obtain ⟨hn, hpositive⟩ := List.forall_mem_cons.mp h.positive
    rw [Tally.add]
    split
    · exact ⟨h.distinct, List.forall_mem_cons.mpr ⟨Nat.succ_ne_zero n, hpositive⟩⟩
    · next hne =>
      have hrest := ih ⟨hdistinct, hpositive⟩
      refine ⟨List.nodup_cons.mpr ⟨?_, hrest.distinct⟩,
        List.forall_mem_cons.mpr ⟨hn, hrest.positive⟩⟩
      rw [mem_keys_add]
      exact not_or.mpr ⟨fun heq => hne (beq_iff_eq.mpr heq), hfirst⟩

def addAll (keys : List α) (tally : Tally α) : Tally α :=
  keys.foldl (fun tally key => tally.add key) tally

theorem count_addAll (keys : List α) (k : α) (tally : Tally α) :
    (tally.addAll keys).count k = tally.count k + keys.count k := by
  induction keys generalizing tally with
  | nil => rfl
  | cons key keys ih =>
    rw [addAll, List.foldl_cons, ← addAll, ih, count_add, List.count_cons]
    omega

theorem count_addAll_nil (keys : List α) (k : α) :
    (addAll keys ([] : Tally α)).count k = keys.count k :=
  (count_addAll keys k []).trans (Nat.zero_add _)

theorem Proper.addAll (h : tally.Proper) (keys : List α) : (tally.addAll keys).Proper := by
  induction keys generalizing tally with
  | nil => exact h
  | cons key keys ih => exact ih (h.add key)

end Tally

namespace Node

/-- The places in a tree with a node that passes a test. -/
def places (root : Node) (p : Node → Prop) : Set (List Nat) :=
  { path | ∃ node, root.at? path = some node ∧ p node }

theorem places_eq (root : Node) (p : Node → Bool) : (root.places fun node => p node = true) =
    ↑(((root.record .depthFirst).filter (p ·.node)).map (·.path)).toFinset := by
  have hall (node : Node) : Strategy.depthFirst.enters node = true := rfl
  ext path
  simp only [places, Set.mem_ofPred_eq, List.coe_toFinset, List.mem_map, List.mem_filter,
    mem_record_of_all hall]
  constructor
  · rintro ⟨node, hat, hp⟩
    exact ⟨⟨path, node⟩, ⟨hat, hp⟩, rfl⟩
  · rintro ⟨visit, ⟨hat, hp⟩, rfl⟩
    exact ⟨visit.node, hat, hp⟩

theorem finite_places (root : Node) (p : Node → Bool) :
    (root.places fun node => p node = true).Finite := by
  rw [places_eq]
  exact Finset.finite_toSet _

/-- A walk that lists every node once has as many of a sort as there are places for them. -/
theorem ncard_places (root : Node) (p : Node → Bool) :
    (root.places fun node => p node = true).ncard =
      ((root.record .depthFirst).map (·.node)).countP p := by
  have hdistinct : (((root.record .depthFirst).filter (p ·.node)).map (·.path)).Nodup :=
    (nodup_record .depthFirst root).sublist (List.filter_sublist.map _)
  rw [places_eq, Set.ncard_coe_finset, List.toFinset_card_of_nodup hdistinct, List.length_map,
    List.countP_map, List.countP_eq_length_filter]
  rfl

def operator? : Node → Option Operator
  | .expr (.binary op _ _) => some op
  | _ => none

def definedName? : Node → Option String
  | .stmt (.define name _ _) => some name
  | _ => none

end Node

namespace Census

open Node (operator? definedName?)

theorem handle_counter (visit : Visit) (census : Census) : counter.handle visit census =
    { kinds := census.kinds.add visit.node.kind
      operators := census.operators.addAll visit.node.operator?.toList
      functions := census.functions ++ visit.node.definedName?.toList } := by
  obtain ⟨path, node⟩ := visit
  cases node with
  | block stmts => simp [Visitor.handle, counter, bump, Tally.addAll, Node.kind, operator?,
      definedName?]
  | stmt s =>
    cases s <;> simp [Visitor.handle, counter, bump, Tally.addAll, Node.kind, Stmt.kind, operator?,
      definedName?]
  | expr e =>
    cases e <;> simp [Visitor.handle, counter, bump, Tally.addAll, Node.kind, Expr.kind, operator?,
      definedName?]

theorem foldl_counter (visits : List Visit) (census : Census) :
    visits.foldl (fun seen visit => counter.handle visit seen) census =
      { kinds := census.kinds.addAll (visits.map (·.node.kind))
        operators := census.operators.addAll (visits.filterMap (·.node.operator?))
        functions := census.functions ++ visits.filterMap (·.node.definedName?) } := by
  induction visits generalizing census with
  | nil => simp [Tally.addAll]
  | cons visit visits ih =>
    rw [List.foldl_cons, ih, handle_counter, List.filterMap_cons, List.filterMap_cons]
    cases visit.node.operator? <;> cases visit.node.definedName? <;> simp [Tally.addAll]

theorem ofProgram_eq (program : Block) :
    let nodes := ((Node.block program).record .depthFirst).map (·.node)
    ofProgram program =
      { kinds := Tally.addAll (nodes.map Node.kind) []
        operators := Tally.addAll (nodes.filterMap operator?) []
        functions := nodes.filterMap definedName? } := by
  intro nodes
  rw [ofProgram, Node.accept_eq_foldl, ← Node.record_eq_visits, foldl_counter]
  simp [nodes, List.filterMap_map, Function.comp_def]

variable {program : Block}

theorem proper_kinds (program : Block) : (ofProgram program).kinds.Proper := by
  rw [ofProgram_eq]
  exact Tally.proper_nil.addAll _

theorem proper_operators (program : Block) : (ofProgram program).operators.Proper := by
  rw [ofProgram_eq]
  exact Tally.proper_nil.addAll _

/-- A kind is counted once for each place with a node of that kind. -/
theorem count_kinds (program : Block) (kind : String) : (ofProgram program).kinds.count kind =
    ((Node.block program).places fun node => node.kind = kind).ncard := by
  have hplaces := Node.ncard_places (.block program) (·.kind == kind)
  simp only [beq_iff_eq] at hplaces
  rw [hplaces, ofProgram_eq, Tally.count_addAll_nil, List.count_eq_countP, List.countP_map]
  rfl

theorem count_operators (program : Block) (op : Operator) :
    (ofProgram program).operators.count op =
      ((Node.block program).places fun node => node.operator? = some op).ncard := by
  have hplaces := Node.ncard_places (.block program) (·.operator? == some op)
  simp only [beq_iff_eq] at hplaces
  rw [hplaces, ofProgram_eq, Tally.count_addAll_nil, List.count_filterMap]

/-- The total is the number of all places. -/
theorem total_eq_ncard (program : Block) : ((Node.block program).places fun _ => True).Finite ∧
    (ofProgram program).total = ((Node.block program).places fun _ => True).ncard := by
  have hfinite := Node.finite_places (.block program) fun _ => true
  have hplaces := Node.ncard_places (.block program) fun _ => true
  simp only at hfinite hplaces
  refine ⟨hfinite, ?_⟩
  rw [total_ofProgram, hplaces, List.countP_true, List.length_map]

theorem sum_count_operators (ops : List Operator) :
    (Operator.all.map fun op => ops.count op).sum = ops.length := by
  induction ops with
  | nil => rfl
  | cons first ops ih =>
    have hone : (Operator.all.map fun op => if first == op then 1 else 0).sum = 1 := by
      cases first <;> rfl
    simp only [List.count_cons, List.sum_map_add, ih, hone, List.length_cons]

theorem isSome_operator? (node : Node) : node.operator?.isSome = (node.kind == "BinaryOp") := by
  cases node with
  | block stmts => rfl
  | stmt s => cases s <;> rfl
  | expr e => cases e <;> rfl

/-- The counts of all operators add up to the number of binary expressions. -/
theorem sum_operators (program : Block) :
    (Operator.all.map fun op => (ofProgram program).operators.count op).sum =
      (ofProgram program).kinds.count "BinaryOp" := by
  rw [ofProgram_eq]
  generalize ((Node.block program).record .depthFirst).map (·.node) = nodes
  have hlength : (nodes.filterMap operator?).length = nodes.countP (·.kind == "BinaryOp") := by
    rw [List.length_filterMap_eq_countP]
    exact congrArg (nodes.countP ·) (funext isSome_operator?)
  simp only [Tally.count_addAll_nil, sum_count_operators, hlength]
  rw [List.count_eq_countP, List.countP_map]
  rfl

theorem isSome_definedName? (node : Node) :
    node.definedName?.isSome = (node.kind == "FunctionDef") := by
  cases node with
  | block stmts => rfl
  | stmt s => cases s <;> rfl
  | expr e => cases e <;> rfl

theorem map_definedName? {root : Node} {visits : List Visit}
    (hat : ∀ visit ∈ visits, root.at? visit.path = some visit.node) :
    ((visits.filter (·.node.kind == "FunctionDef")).map (·.path)).map
        (fun path => (root.at? path).bind definedName?) =
      ((visits.map (·.node)).filterMap definedName?).map some := by
  induction visits with
  | nil => rfl
  | cons visit visits ih =>
    obtain ⟨hvisit, hvisits⟩ := List.forall_mem_cons.mp hat
    rw [List.filter_cons, List.map_cons, List.filterMap_cons, ← isSome_definedName?]
    cases hname : visit.node.definedName? with
    | none => exact ih hvisits
    | some name =>
      simp only [Option.isSome_some, if_true, List.map_cons, ih hvisits]
      rw [hvisit, Option.bind_some, hname]

/-- The names of functions are those at the places of definitions, in pre-order. -/
theorem exists_definitions (program : Block) :
    ∃ definitions : List (List Nat), definitions.Pairwise Order.before.Precedes ∧
      (∀ path, path ∈ definitions ↔
        path ∈ (Node.block program).places fun node => node.kind = "FunctionDef") ∧
      definitions.map (fun path => ((Node.block program).at? path).bind definedName?) =
        (ofProgram program).functions.map some := by
  have hall (node : Node) : Strategy.depthFirst.enters node = true := rfl
  have hat (visit : Visit) : visit ∈ (Node.block program).record .depthFirst ↔
      (Node.block program).at? visit.path = some visit.node := Node.mem_record_of_all hall
  refine ⟨(((Node.block program).record .depthFirst).filter
    (·.node.kind == "FunctionDef")).map (·.path), ?_, fun path => ?_, ?_⟩
  · exact List.pairwise_map.mpr ((Node.pairwise_record .depthFirst _).filter _)
  · simp only [List.mem_map, List.mem_filter, hat, beq_iff_eq]
    constructor
    · rintro ⟨visit, ⟨hvisit, hkind⟩, rfl⟩
      exact ⟨visit.node, hvisit, hkind⟩
    · rintro ⟨node, hnode, hkind⟩
      exact ⟨⟨path, node⟩, ⟨hnode, hkind⟩, rfl⟩
  · rw [ofProgram_eq]
    exact map_definedName? fun visit => (hat visit).mp

/-- A report is the same in whatever order the tallies give their entries. -/
theorem report_of_perm {census other : Census} (hkinds : census.kinds.Proper)
    (hoperators : census.operators.Proper) (hkindsPerm : other.kinds.Perm census.kinds)
    (hoperatorsPerm : other.operators.Perm census.operators)
    (hfunctions : other.functions = census.functions) : other.report = census.report := by
  have htotal : other.total = census.total := Tally.total_of_perm hkindsPerm
  have hsortedKinds : other.sortedKinds = census.sortedKinds :=
    Tally.sorted_of_perm Function.injective_id hkinds hkindsPerm
  have hsorted : other.operators.sorted Operator.symbol = census.operators.sorted Operator.symbol :=
    Tally.sorted_of_perm Operator.symbol_injective hoperators hoperatorsPerm
  rw [report, report, htotal, hsortedKinds, hsorted, hoperatorsPerm.isEmpty_eq, hfunctions]

end Census

/-- A census is exact. Kinds and operators are counted once for each of the finitely many places in
the tree, and no other kind is counted at all; the functions are listed in pre-order, a name as
often as it is defined. The sorted kinds are all kinds that occur, in strictly increasing order.
Whatever the order in which the tallies give their entries, sorting ends in the same order, and the
report is the same. -/
theorem census_exact (program : Block) :
    let census := Census.ofProgram program
    let root := Node.block program
    (∀ kind, census.kinds.count kind = (root.places fun node => node.kind = kind).ncard) ∧
    ((root.places fun _ => True).Finite ∧ census.total = (root.places fun _ => True).ncard) ∧
    (∀ op, census.operators.count op =
      (root.places fun node => node.operator? = some op).ncard) ∧
    (Operator.all.map fun op => census.operators.count op).sum = census.kinds.count "BinaryOp" ∧
    (∃ definitions : List (List Nat), definitions.Pairwise Order.before.Precedes ∧
      (∀ path, path ∈ definitions ↔ path ∈ root.places fun node => node.kind = "FunctionDef") ∧
      definitions.map (fun path => (root.at? path).bind Node.definedName?) =
        census.functions.map some) ∧
    (census.sortedKinds.Perm census.kinds ∧
      census.sortedKinds.Pairwise (fun a b => a.1 < b.1) ∧
      ∀ entry ∈ census.sortedKinds, entry.2 ≠ 0) ∧
    (∀ kinds operators, kinds.Perm census.kinds → operators.Perm census.operators →
      (kinds.Pairwise (fun a b => a.1 ≤ b.1) → kinds = census.sortedKinds) ∧
      (operators.Pairwise (fun a b => a.1.symbol ≤ b.1.symbol) →
        operators = census.operators.sorted Operator.symbol) ∧
      ({ census with kinds, operators } : Census).report = census.report) := by
  intro census root
  have hkinds : census.kinds.Proper := Census.proper_kinds program
  have hoperators : census.operators.Proper := Census.proper_operators program
  have hperm : census.sortedKinds.Perm census.kinds := Tally.sorted_perm id census.kinds
  refine ⟨Census.count_kinds program, Census.total_eq_ncard program,
    Census.count_operators program, Census.sum_operators program,
    Census.exists_definitions program, ⟨hperm, ?_, fun entry hentry => ?_⟩,
    fun kinds operators hkindsPerm hoperatorsPerm => ⟨?_, ?_, ?_⟩⟩
  · exact hkinds.strictly_sorted Function.injective_id
  · exact hkinds.positive entry (hperm.mem_iff.mp hentry)
  · exact Tally.eq_sorted Function.injective_id hkinds hkindsPerm
  · exact Tally.eq_sorted Operator.symbol_injective hoperators hoperatorsPerm
  · exact Census.report_of_perm hkinds hoperators hkindsPerm hoperatorsPerm rfl

end Sapling
