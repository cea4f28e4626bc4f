import Mathlib.Data.List.Chain
import Sapling.Census
import Sapling.Outline
import Sapling.Proofs.WalkRecords

/-!
# Outlines and walks

The writer of outlines goes through a tree by itself and counts how deep it is. It comes to the
nodes in the order of the depth-first walk, and its count is the number of nodes above
(`describe_visits`). So an outline has one entry for every node that a census counts
(`outline_eq_walk`).
-/
namespace Sapling

open Outline (Draft)

/-- The entry of a node on a walk: its path tells how deep it is. -/
def Visit.entry (visit : Visit) : Outline.Entry :=
  ⟨visit.path.length, visit.node.label⟩

namespace Node

variable {path : List Nat} {node : Node}

def describeAll : List Node → Draft → Draft
  | [], draft => draft
  | node :: nodes, draft => describeAll nodes (node.describe draft)

theorem describeAll_map_expr (es : List Expr) :
    describeAll (es.map .expr) = Expr.describeAll es := by
  funext draft
  induction es generalizing draft with
  | nil => rfl
  | cons e es ih => rw [List.map_cons, describeAll, ih, Expr.describeAll, describe]

theorem describeAll_map_stmt (ss : List Stmt) :
    describeAll (ss.map .stmt) = Stmt.describeAll ss := by
  funext draft
  induction ss generalizing draft with
  | nil => rfl
  | cons s ss ih => rw [List.map_cons, describeAll, ih, Stmt.describeAll, describe]

theorem describe_eq (node : Node) :
    node.describe = Draft.describe node (describeAll node.children) := by
  cases node with
  | block stmts => rw [describe, children, describeAll_map_stmt]
  | stmt s =>
    cases s with
    | conditional condition yes no => cases no <;> rfl
    | _ => rfl
  | expr e =>
    cases e with
    | call callee args => rw [describe, Expr.describe, children, describeAll_map_expr]
    | _ => rfl

theorem describeAll_visits {nodes : List Node} (h : ∀ node ∈ nodes, ∀ (path : List Nat) draft,
      draft.depth = path.length → node.describe draft =
        ⟨draft.depth, ((node.visits .depthFirst path).map Visit.entry).reverse ++ draft.reversed⟩)
    (i : Nat) (draft : Draft) (hdepth : draft.depth = path.length + 1) :
    describeAll nodes draft = ⟨draft.depth,
      ((visitsAll .depthFirst path i nodes).map Visit.entry).reverse ++ draft.reversed⟩ := by
  induction nodes generalizing i draft with
  | nil => rfl
  | cons node nodes ih =>
    have hnode := h node List.mem_cons_self (i :: path) draft hdepth
    have hnodes := ih (fun node hnode => h node (List.mem_cons_of_mem _ hnode)) (i + 1)
      (node.describe draft) (by rw [hnode, hdepth])
    rw [describeAll, hnodes, hnode, visitsAll]
    simp

/-- A node is written as the visits from it on, and the depth is left as it was found. -/
theorem describe_visits (node : Node) (path : List Nat) (draft : Draft)
    (hdepth : draft.depth = path.length) : node.describe draft =
      ⟨draft.depth, ((node.visits .depthFirst path).map Visit.entry).reverse ++ draft.reversed⟩ := by
  induction node using induction_on_children generalizing path draft with
  | step node ih =>
    have hdeeper : draft.depth + 1 = path.length + 1 := by rw [hdepth]
    have hbelow := describeAll_visits ih 0 { draft.push node with depth := draft.depth + 1 } hdeeper
    have hvisits : node.visits .depthFirst path =
        ⟨path, node⟩ :: visitsAll .depthFirst path 0 node.children := visits_eq _ path node
    rw [describe_eq, Draft.describe, Draft.nested]
    simp only [Draft.push] at hbelow ⊢
    rw [hbelow, hvisits]
    simp [Visit.entry, hdepth]

end Node

/-- The word that the label of an entry begins with, up to the first blank or slash. -/
def Outline.Entry.word (entry : Outline.Entry) : String :=
  String.ofList (entry.label.toList.takeWhile fun c => c != ' ' && c != '/')

theorem Visit.word_entry (visit : Visit) : visit.entry.word = visit.node.kind := by
  obtain ⟨path, node⟩ := visit
  rw [entry, Outline.Entry.word]
  cases node with
  | block stmts => simp [Node.label, Node.kind]
  | stmt s =>
    cases s with
    | conditional condition yes no => cases no <;> simp [Node.label, Node.kind, Stmt.kind]
    | _ => simp [Node.label, Node.kind, Stmt.kind]
  | expr e => cases e <;> simp [Node.label, Node.kind, Expr.kind]

namespace Tally

variable {α : Type} [BEq α]

omit [BEq α] in
theorem total_cons (entry : α × Nat) (tally : Tally α) :
    total (entry :: tally) = entry.2 + tally.total := by
  have hfrom (n : Nat) : tally.foldl (fun n entry => n + entry.2) n = n + tally.total := by
    induction tally generalizing n with
    | nil => rfl
    | cons entry tally ih =>
      rw [total, List.foldl_cons, List.foldl_cons, ih, ih (0 + entry.2)]
      omega
  rw [total, List.foldl_cons, hfrom]
  omega

/-- Whether the key is new or not, one more is counted. -/
theorem total_add (key : α) (tally : Tally α) : (tally.add key).total = tally.total + 1 := by
  induction tally with
  | nil => rfl
  | cons entry tally ih =>
    obtain ⟨k, n⟩ := entry
    rw [add, total_cons]
    split
    · rw [total_cons]
      omega
    · rw [total_cons, ih]
      omega

end Tally

namespace Census

theorem total_handle (visit : Visit) (census : Census) :
    (counter.handle visit census).total = census.total + 1 := by
  obtain ⟨path, node⟩ := visit
  cases node with
  | block stmts => exact Tally.total_add _ _
  | stmt s => cases s <;> exact Tally.total_add _ _
  | expr e => cases e <;> exact Tally.total_add _ _

/-- A census counts every visit of the walk. -/
theorem total_ofProgram (program : Block) : (ofProgram program).total =
    ((Node.block program).record .depthFirst).length := by
  rw [ofProgram, Node.accept_eq_foldl, Node.record_eq_visits]
  generalize (Node.block program).visits .depthFirst [] = visits
  have hfold (census : Census) :
      (visits.foldl (fun seen visit => counter.handle visit seen) census).total =
        census.total + visits.length := by
    induction visits generalizing census with
    | nil => rfl
    | cons visit visits ih =>
      rw [List.foldl_cons, ih, total_handle, List.length_cons]
      omega
  rw [hfold]
  exact Nat.zero_add _

end Census

theorem Outline.ofProgram_eq (program : Block) : ofProgram program =
    ((Node.block program).record .depthFirst).map Visit.entry := by
  rw [ofProgram, accept_writer, Node.describe_visits _ [] {} rfl, Node.record_eq_visits]
  simp

end Sapling
