import Mathlib.Data.List.Sort
import Sapling.Node.Visitor
import Sapling.Proofs.NodePaths

/-!
# What visitors see of a tree

A visitor's handlers run on the nodes of a walk in their order, each at its path
(`accept_eq_foldl`). Under any strategy these are the nodes below which the strategy enters
(`mem_visits`), each once, in an order that is settled by their paths (`pairwise_visits`). So the
walks that enter every node differ only in whether a node comes before or behind those below it.
-/
namespace Sapling

variable {ω : Type} {strategy : Strategy} {path : List Nat}

theorem Strategy.mem_arrange {visit top : Visit} {below : List Visit} :
    visit ∈ strategy.arrange top below ↔
      visit = top ∨ strategy.enters top.node = true ∧ visit ∈ below := by
  unfold Strategy.arrange
  cases strategy.enters top.node with
  | false => simp
  | true =>
    cases strategy.order with
    | before => simp
    | after => simp [or_comm]

namespace Node

def visitsAll (strategy : Strategy) (path : List Nat) : Nat → List Node → List Visit
  | _, [] => []
  | i, node :: nodes =>
    node.visits strategy (i :: path) ++ visitsAll strategy path (i + 1) nodes

theorem visitsAll_map_expr (i : Nat) (es : List Expr) :
    visitsAll strategy path i (es.map .expr) = Expr.visitsAll strategy path i es := by
  induction es generalizing i with
  | nil => rfl
  | cons e es ih => rw [List.map_cons, visitsAll, ih, Expr.visitsAll, visits]

theorem visitsAll_map_stmt (i : Nat) (ss : List Stmt) :
    visitsAll strategy path i (ss.map .stmt) = Stmt.visitsAll strategy path i ss := by
  induction ss generalizing i with
  | nil => rfl
  | cons s ss ih => rw [List.map_cons, visitsAll, ih, Stmt.visitsAll, visits]

theorem visits_eq (strategy : Strategy) (path : List Nat) (node : Node) :
    node.visits strategy path =
      strategy.arrange ⟨path, node⟩ (visitsAll strategy path 0 node.children) := by
  cases node with
  | block stmts => rw [visits, children, visitsAll_map_stmt]
  | stmt s =>
    cases s with
    | conditional condition yes no =>
      cases no <;> simp [visits, Stmt.visits, children, visitsAll]
    | _ => simp [visits, Stmt.visits, children, visitsAll]
  | expr e =>
    cases e with
    | call callee args => rw [visits, Expr.visits, children, visitsAll_map_expr]
    | _ => simp [visits, Expr.visits, children, visitsAll]

theorem mem_visitsAll {visit : Visit} {i : Nat} {nodes : List Node} :
    visit ∈ visitsAll strategy path i nodes ↔
      ∃ (k : Nat) (node : Node), nodes[k]? = some node ∧
        visit ∈ node.visits strategy ((i + k) :: path) := by
  induction nodes generalizing i with
  | nil => simp [visitsAll]
  | cons node nodes ih =>
    rw [visitsAll, List.mem_append, ih]
    constructor
    · rintro (hvisit | ⟨k, child, hchild, hvisit⟩)
      · exact ⟨0, node, rfl, hvisit⟩
      · exact ⟨k + 1, child, hchild, by rwa [Nat.add_right_comm] at hvisit⟩
    · rintro ⟨k, child, hchild, hvisit⟩
      cases k with
      | zero =>
        obtain rfl := Option.some.inj hchild
        exact .inl hvisit
      | succ k => exact .inr ⟨k, child, hchild, by rwa [Nat.add_right_comm]⟩

/-- The nodes on a walk are those below which the strategy enters. -/
theorem mem_visits {visit : Visit} {node : Node} :
    visit ∈ node.visits strategy path ↔ ∃ below, visit.path = below ++ path ∧
      node.at? below = some visit.node ∧ node.isOpen strategy below = true := by
  induction node using induction_on_children generalizing path with
  | step node ih =>
    rw [visits_eq, Strategy.mem_arrange, mem_visitsAll]
    constructor
    · rintro (rfl | ⟨henters, k, child, hchild, hvisit⟩)
      · exact ⟨[], rfl, rfl, rfl⟩
      · obtain ⟨below, hpath, hat, hopen⟩ := (ih child (List.mem_of_getElem? hchild)).mp hvisit
        refine ⟨below ++ [k], by simpa using hpath, ?_, ?_⟩
        · rwa [at?_concat hchild]
        · rw [isOpen_concat hchild, henters, hopen]
          rfl
    · rintro ⟨below, hpath, hat, hopen⟩
      rcases List.eq_nil_or_concat' below with rfl | ⟨above, k, rfl⟩
      · obtain ⟨visited, found⟩ := visit
        obtain rfl : visited = path := hpath
        obtain rfl : node = found := Option.some.inj hat
        exact .inl rfl
      · obtain ⟨child, hchild⟩ := exists_child_of_at?_concat hat
        rw [at?_concat hchild] at hat
        rw [isOpen_concat hchild, Bool.and_eq_true] at hopen
        refine .inr ⟨hopen.1, k, child, hchild, ?_⟩
        refine (ih child (List.mem_of_getElem? hchild)).mpr ⟨above, ?_, hat, hopen.2⟩
        simpa using hpath

theorem suffix_of_mem_visits {visit : Visit} {node : Node}
    (h : visit ∈ node.visits strategy path) : path <:+ visit.path := by
  obtain ⟨below, hpath, -⟩ := mem_visits.mp h
  exact ⟨below, hpath.symm⟩

theorem above_of_mem_visitsAll {visit : Visit} {i : Nat} {nodes : List Node}
    (h : visit ∈ visitsAll strategy path i nodes) : Above path visit.path := by
  obtain ⟨k, _, -, hvisit⟩ := mem_visitsAll.mp h
  have hsuffix := suffix_of_mem_visits hvisit
  refine ⟨(List.suffix_cons _ path).trans hsuffix, fun heq => ?_⟩
  have hlength := hsuffix.length_le
  rw [← heq, List.length_cons] at hlength
  omega

/-- The visits from a node on are left of those from its later siblings. -/
theorem pairwise_visitsAll {nodes : List Node} (h : ∀ node ∈ nodes, ∀ path,
      (node.visits strategy path).Pairwise fun a b => strategy.order.Precedes a.path b.path)
    (i : Nat) : (visitsAll strategy path i nodes).Pairwise
      fun a b => strategy.order.Precedes a.path b.path := by
  induction nodes generalizing i with
  | nil => exact .nil
  | cons node nodes ih =>
    have hlater := ih (fun node hnode => h node (List.mem_cons_of_mem _ hnode)) (i + 1)
    refine List.pairwise_append.mpr ⟨h node List.mem_cons_self _, hlater, fun a ha b hb => ?_⟩
    obtain ⟨k, _, -, hb⟩ := mem_visitsAll.mp hb
    have hparted : LeftOf a.path b.path :=
      ⟨i, i + 1 + k, path, by omega, suffix_of_mem_visits ha, suffix_of_mem_visits hb⟩
    exact hparted.precedes strategy.order

theorem pairwise_visits (strategy : Strategy) (path : List Nat) (node : Node) :
    (node.visits strategy path).Pairwise fun a b => strategy.order.Precedes a.path b.path := by
  induction node using induction_on_children generalizing path with
  | step node ih =>
    have hall : (visitsAll strategy path 0 node.children).Pairwise
        fun a b => strategy.order.Precedes a.path b.path :=
      pairwise_visitsAll ih 0
    rw [visits_eq, Strategy.arrange]
    split
    · unfold Order.Precedes at hall ⊢
      cases horder : strategy.order with
      | before =>
        simp only [horder] at hall
        exact List.pairwise_cons.mpr ⟨fun visit h => .inl (above_of_mem_visitsAll h), hall⟩
      | after =>
        simp only [horder] at hall
        refine List.pairwise_append.mpr ⟨hall, List.pairwise_singleton _ _, ?_⟩
        intro visit h top ht
        obtain rfl := List.mem_singleton.mp ht
        exact .inl (above_of_mem_visitsAll h)
    · exact List.pairwise_singleton _ _

end Node

namespace Visitor

def handle (v : Visitor ω) (visit : Visit) : ω → ω :=
  match visit.node with
  | .block stmts => v.onBlock visit.path stmts
  | .stmt (.expression e) => v.onExpression visit.path e
  | .stmt (.conditional condition yes no) => v.onConditional visit.path condition yes no
  | .stmt (.loop condition body) => v.onLoop visit.path condition body
  | .stmt (.ret value) => v.onReturn visit.path value
  | .stmt (.define name params body) => v.onDefine visit.path name params body
  | .expr (.literal value) => v.onLiteral visit.path value
  | .expr (.variable name) => v.onVariable visit.path name
  | .expr (.binary op left right) => v.onBinary visit.path op left right
  | .expr (.assign target value) => v.onAssign visit.path target value
  | .expr (.call callee args) => v.onCall visit.path callee args

/-- Records every node with its path, the latest first. -/
def recorder : Visitor (List Visit) where
  onBlock path stmts seen := ⟨path, .block stmts⟩ :: seen
  onLiteral path value seen := ⟨path, .expr (.literal value)⟩ :: seen
  onVariable path name seen := ⟨path, .expr (.variable name)⟩ :: seen
  onBinary path op left right seen := ⟨path, .expr (.binary op left right)⟩ :: seen
  onAssign path target value seen := ⟨path, .expr (.assign target value)⟩ :: seen
  onCall path callee args seen := ⟨path, .expr (.call callee args)⟩ :: seen
  onExpression path e seen := ⟨path, .stmt (.expression e)⟩ :: seen
  onConditional path condition yes no seen :=
    ⟨path, .stmt (.conditional condition yes no)⟩ :: seen
  onLoop path condition body seen := ⟨path, .stmt (.loop condition body)⟩ :: seen
  onReturn path value seen := ⟨path, .stmt (.ret value)⟩ :: seen
  onDefine path name params body seen := ⟨path, .stmt (.define name params body)⟩ :: seen

theorem handle_recorder (visit : Visit) (seen : List Visit) :
    recorder.handle visit seen = visit :: seen := by
  obtain ⟨path, node⟩ := visit
  cases node with
  | block stmts => rfl
  | stmt s => cases s <;> rfl
  | expr e => cases e <;> rfl

/-- A visitor that overrides only the handlers of some kinds of nodes, and there does what `v`
does. -/
def only (overridden : String → Bool) (v : Visitor ω) : Visitor ω where
  onBlock path stmts := if overridden "Block" then v.onBlock path stmts else id
  onLiteral path value := if overridden "Literal" then v.onLiteral path value else id
  onVariable path name := if overridden "Variable" then v.onVariable path name else id
  onBinary path op left right :=
    if overridden "BinaryOp" then v.onBinary path op left right else id
  onAssign path target value := if overridden "Assign" then v.onAssign path target value else id
  onCall path callee args := if overridden "Call" then v.onCall path callee args else id
  onExpression path e := if overridden "ExpressionStatement" then v.onExpression path e else id
  onConditional path condition yes no :=
    if overridden "If" then v.onConditional path condition yes no else id
  onLoop path condition body := if overridden "While" then v.onLoop path condition body else id
  onReturn path value := if overridden "Return" then v.onReturn path value else id
  onDefine path name params body :=
    if overridden "FunctionDef" then v.onDefine path name params body else id

theorem handle_only (overridden : String → Bool) (v : Visitor ω) (visit : Visit) :
    (v.only overridden).handle visit =
      if overridden visit.node.kind then v.handle visit else id := by
  obtain ⟨path, node⟩ := visit
  cases node with
  | block stmts => rfl
  | stmt s => cases s <;> rfl
  | expr e => cases e <;> rfl

end Visitor

namespace Node

variable {v : Visitor ω}

theorem acceptAll_map_expr (i : Nat) (es : List Expr) :
    acceptAll strategy v path i (es.map .expr) = Expr.acceptAll strategy v path i es := by
  funext seen
  induction es generalizing i seen with
  | nil => rfl
  | cons e es ih => rw [List.map_cons, acceptAll, ih, Expr.acceptAll, accept]

theorem acceptAll_map_stmt (i : Nat) (ss : List Stmt) :
    acceptAll strategy v path i (ss.map .stmt) = Stmt.acceptAll strategy v path i ss := by
  funext seen
  induction ss generalizing i seen with
  | nil => rfl
  | cons s ss ih => rw [List.map_cons, acceptAll, ih, Stmt.acceptAll, accept]

theorem accept_eq (strategy : Strategy) (v : Visitor ω) (path : List Nat) (node : Node) :
    node.accept strategy v path =
      strategy.around node (v.handle ⟨path, node⟩) (node.acceptChildren strategy v path) := by
  cases node with
  | block stmts =>
    rw [accept, acceptChildren, children, acceptAll_map_stmt]
    rfl
  | stmt s =>
    cases s with
    | conditional condition yes no => cases no <;> rfl
    | _ => rfl
  | expr e =>
    cases e with
    | call callee args =>
      rw [accept, Expr.accept, acceptChildren, children, acceptAll_map_expr]
      rfl
    | _ => rfl

theorem acceptAll_eq_foldl {nodes : List Node} (h : ∀ node ∈ nodes, ∀ path seen,
      node.accept strategy v path seen =
        (node.visits strategy path).foldl (fun seen visit => v.handle visit seen) seen)
    (i : Nat) (seen : ω) : acceptAll strategy v path i nodes seen =
      (visitsAll strategy path i nodes).foldl (fun seen visit => v.handle visit seen) seen := by
  induction nodes generalizing i seen with
  | nil => rfl
  | cons node nodes ih =>
    rw [acceptAll, visitsAll, List.foldl_append, ← h node List.mem_cons_self]
    exact ih (fun node hnode => h node (List.mem_cons_of_mem _ hnode)) (i + 1) _

/-- A visitor's handlers run on the nodes of the walk, one after another. -/
theorem accept_eq_foldl (strategy : Strategy) (v : Visitor ω) (path : List Nat) (node : Node)
    (seen : ω) : node.accept strategy v path seen =
      (node.visits strategy path).foldl (fun seen visit => v.handle visit seen) seen := by
  induction node using induction_on_children generalizing path seen with
  | step node ih =>
    have hchildren (seen : ω) : acceptAll strategy v path 0 node.children seen =
        (visitsAll strategy path 0 node.children).foldl
          (fun seen visit => v.handle visit seen) seen :=
      acceptAll_eq_foldl ih 0 seen
    rw [accept_eq, visits_eq, Strategy.around, Strategy.arrange, acceptChildren]
    split
    · cases strategy.order with
      | before => exact hchildren _
      | after =>
        simp only [List.foldl_append, ← hchildren]
        rfl
    · rfl

/-- What a visitor that records every handler call has recorded, in order. -/
def record (strategy : Strategy) (root : Node) : List Visit :=
  (root.accept strategy .recorder [] []).reverse

theorem record_eq_visits (strategy : Strategy) (root : Node) :
    root.record strategy = root.visits strategy [] := by
  have hfold (visits seen : List Visit) :
      visits.foldl (fun seen visit => Visitor.recorder.handle visit seen) seen =
        visits.reverse ++ seen := by
    induction visits generalizing seen with
    | nil => rfl
    | cons visit visits ih =>
      rw [List.foldl_cons, ih, Visitor.handle_recorder, List.reverse_cons, List.append_assoc]
      rfl
  rw [record, accept_eq_foldl, hfold, List.append_nil, List.reverse_reverse]

theorem pairwise_record (strategy : Strategy) (root : Node) :
    (root.record strategy).Pairwise fun a b => strategy.order.Precedes a.path b.path :=
  record_eq_visits strategy root ▸ pairwise_visits strategy [] root

theorem mem_record {root : Node} {visit : Visit} :
    visit ∈ root.record strategy ↔
      root.at? visit.path = some visit.node ∧ root.isOpen strategy visit.path = true := by
  rw [record_eq_visits, mem_visits]
  constructor
  · rintro ⟨below, hpath, hvisit⟩
    rw [List.append_nil] at hpath
    rwa [hpath]
  · intro hvisit
    exact ⟨visit.path, (List.append_nil _).symm, hvisit⟩

theorem nodup_record (strategy : Strategy) (root : Node) :
    ((root.record strategy).map (·.path)).Nodup := by
  refine List.pairwise_map.mpr ((pairwise_record strategy root).imp fun h heq => ?_)
  rw [heq] at h
  exact h.asymm h

theorem mem_record_of_all {root : Node} {visit : Visit}
    (hall : ∀ node, strategy.enters node = true) :
    visit ∈ root.record strategy ↔ root.at? visit.path = some visit.node := by
  rw [mem_record, and_iff_left_iff_imp]
  exact isOpen_of_at? hall

theorem sublist_record_iff {root : Node} {a b : Visit} (ha : a ∈ root.record strategy)
    (hb : b ∈ root.record strategy) :
    [a, b].Sublist (root.record strategy) ↔ strategy.order.Precedes a.path b.path := by
  have hpairwise := pairwise_record strategy root
  generalize root.record strategy = visits at ha hb hpairwise
  constructor
  · intro hsublist
    have hpair := hpairwise.sublist hsublist
    exact (List.pairwise_cons.mp hpair).1 b (List.mem_singleton_self b)
  · intro hprecedes
    induction hpairwise with
    | nil => simp at ha
    | @cons first rest hfirst _ ih =>
      rcases List.mem_cons.mp ha with rfl | ha'
      · rcases List.mem_cons.mp hb with rfl | hb'
        · exact absurd hprecedes hprecedes.asymm
        · exact List.cons_sublist_cons.mpr (List.singleton_sublist.mpr hb')
      · rcases List.mem_cons.mp hb with rfl | hb'
        · exact absurd (hfirst a ha') hprecedes.asymm
        · exact (ih ha' hb').trans (List.sublist_cons_self _ _)

/-- A strategy that does not enter some nodes leaves out what is below them. -/
theorem record_eq_filter {strategy all : Strategy} (horder : strategy.order = all.order)
    (hall : ∀ node, all.enters node = true) (root : Node) :
    root.record strategy =
      (root.record all).filter fun visit => root.isOpen strategy visit.path := by
  let precedes (a b : Visit) : Prop := all.order.Precedes a.path b.path
  have hirrefl : Std.Irrefl precedes := ⟨fun a h => h.asymm h⟩
  have hantisymm : Std.Antisymm precedes := ⟨fun a b h h' => absurd h' h.asymm⟩
  have hleft : (root.record strategy).Pairwise precedes := by
    have hpairwise := pairwise_record strategy root
    rwa [horder] at hpairwise
  have hright : ((root.record all).filter fun visit => root.isOpen strategy visit.path).Pairwise
      precedes := (pairwise_record all root).filter _
  refine hleft.eq_of_mem_iff hright fun visit => ?_
  rw [List.mem_filter, mem_record, mem_record_of_all hall]

/-- A visitor that overrides some handlers sees what is left of the record for these kinds. -/
theorem accept_only (strategy : Strategy) (v : Visitor ω) (overridden : String → Bool) (root : Node)
    (seen : ω) : root.accept strategy (v.only overridden) [] seen =
      ((root.record strategy).filter (overridden ·.node.kind)).foldl
        (fun seen visit => v.handle visit seen) seen := by
  rw [accept_eq_foldl, record_eq_visits, List.foldl_filter]
  congr 1
  funext seen visit
  rw [Visitor.handle_only]
  split <;> rfl

end Node

/-- What visitors see of a program. Under both walks a visitor is called for every node exactly
once, at its path. A node comes before the nodes below it on one walk and behind them on the other;
nodes that are not below one another come in the same order, from left to right. The walk that skips
the bodies of functions leaves out the nodes below function definitions, and nothing else. A visitor
that overrides some of its handlers is called for the nodes of these kinds, in the order of the
walk. -/
theorem walks_agree (program : Block) :
    (∀ strategy, strategy = .depthFirst ∨ strategy = .postOrder →
      (((Node.block program).record strategy).map (·.path)).Nodup ∧
      ∀ visit, visit ∈ (Node.block program).record strategy ↔
        (Node.block program).at? visit.path = some visit.node) ∧
    (∀ a b, (Node.block program).at? a.path = some a.node →
      (Node.block program).at? b.path = some b.node →
      (Above a.path b.path → [a, b].Sublist ((Node.block program).record .depthFirst) ∧
        [b, a].Sublist ((Node.block program).record .postOrder)) ∧
      (¬Above a.path b.path → ¬Above b.path a.path →
        ([a, b].Sublist ((Node.block program).record .depthFirst) ↔ LeftOf a.path b.path) ∧
        ([a, b].Sublist ((Node.block program).record .postOrder) ↔ LeftOf a.path b.path))) ∧
    ((Node.block program).record .skipFunctionBodies =
      ((Node.block program).record .depthFirst).filter
        fun visit => !(Node.block program).isInDefinition visit.path) ∧
    ∀ {ω : Type} (strategy : Strategy) (v : Visitor ω) (overridden : String → Bool) (seen : ω),
      (Node.block program).accept strategy (v.only overridden) [] seen =
        (((Node.block program).record strategy).filter (overridden ·.node.kind)).foldl
          (fun seen visit => v.handle visit seen) seen := by
  have hbefore (node : Node) : Strategy.depthFirst.enters node = true := rfl
  have hafter (node : Node) : Strategy.postOrder.enters node = true := rfl
  refine ⟨?_, fun a b ha hb => ⟨fun habove => ?_, fun hnot hnot' => ?_⟩, ?_, ?_⟩
  · rintro strategy (rfl | rfl)
    · exact ⟨Node.nodup_record _ _, fun _ => Node.mem_record_of_all hbefore⟩
    · exact ⟨Node.nodup_record _ _, fun _ => Node.mem_record_of_all hafter⟩
  · exact ⟨(Node.sublist_record_iff ((Node.mem_record_of_all hbefore).mpr ha)
        ((Node.mem_record_of_all hbefore).mpr hb)).mpr (.inl habove),
      (Node.sublist_record_iff ((Node.mem_record_of_all hafter).mpr hb)
        ((Node.mem_record_of_all hafter).mpr ha)).mpr (.inl habove)⟩
  · rw [Node.sublist_record_iff ((Node.mem_record_of_all hbefore).mpr ha)
        ((Node.mem_record_of_all hbefore).mpr hb),
      Node.sublist_record_iff ((Node.mem_record_of_all hafter).mpr ha)
        ((Node.mem_record_of_all hafter).mpr hb)]
    exact ⟨or_iff_right hnot, or_iff_right hnot'⟩
  · have hskip : (Strategy.skipFunctionBodies).order = Strategy.depthFirst.order := rfl
    rw [Node.record_eq_filter hskip hbefore]
    refine List.filter_congr fun visit hvisit => ?_
    exact Node.isOpen_skipFunctionBodies ((Node.mem_record_of_all hbefore).mp hvisit)
  · exact fun strategy v overridden seen => Node.accept_only strategy v overridden _ seen

example : (Node.accept .postOrder .landmarks [] (.block [.define "f" ["n"]
    [.loop (.variable "n") [], .ret (.variable "m")]]) []).reverse =
      ["n", "while", "m", "return", "def f"] := rfl

end Sapling
