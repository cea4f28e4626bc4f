import Sapling.Proofs.WalkRecords
import Sapling.Proofs.Yield

/-!
# The parameter lists of a program

The definitions of a program have their parameter lists, in the order in which a walk comes to them.
The same lists can be seen in the tokens of a definition's head, before there is a tree, and also
where the tokens break off in the middle of a list. The tokens that a program is read from have the
lists of the program in their order (`Grammar.program_lists`).
-/
namespace Sapling

namespace Node

def params? : Node → Option (List String)
  | .stmt (.define _ params _) => some params
  | _ => none

def parameterLists (node : Node) : List (List String) :=
  (node.walk .depthFirst).filterMap params?

theorem map_node_visitsAll {nodes : List Node} (h : ∀ node ∈ nodes, ∀ path,
      (node.visits .depthFirst path).map (·.node) = node.walk .depthFirst) (path : List Nat)
    (i : Nat) : (visitsAll .depthFirst path i nodes).map (·.node) =
      nodes.flatMap (walk .depthFirst) := by
  induction nodes generalizing i with
  | nil => rfl
  | cons node nodes ih =>
    have hnodes := ih (fun node hnode => h node (List.mem_cons_of_mem _ hnode)) (i + 1)
    rw [visitsAll, List.map_append, h node List.mem_cons_self, hnodes, List.flatMap_cons]

theorem map_node_visits (node : Node) (path : List Nat) :
    (node.visits .depthFirst path).map (·.node) = node.walk .depthFirst := by
  induction node using induction_on_children generalizing path with
  | step node ih =>
    have hvisits (path : List Nat) : (node.visits .depthFirst path).map (·.node) =
        node :: node.children.flatMap (walk .depthFirst) := by
      rw [visits_eq, ← map_node_visitsAll ih path 0]
      rfl
    exact (hvisits path).trans (hvisits []).symm

theorem walk_depthFirst (node : Node) :
    node.walk .depthFirst = node :: node.children.flatMap (walk .depthFirst) := by
  have hbelow : (visitsAll .depthFirst [] 0 node.children).map (·.node) = _ :=
    map_node_visitsAll (fun child _ => map_node_visits child) [] 0
  rw [walk, visits_eq, ← hbelow]
  rfl

theorem parameterLists_eq (node : Node) :
    node.parameterLists = node.params?.toList ++ node.children.flatMap parameterLists := by
  rw [parameterLists, walk_depthFirst, List.filterMap_cons, List.filterMap_flatMap]
  cases node.params? <;> rfl

@[simp] theorem parameterLists_expr (e : Expr) : (Node.expr e).parameterLists = [] := by
  have hnone (node : Node) : (∃ e, node = .expr e) → node.parameterLists = [] := by
    induction node using induction_on_children with
    | step node ih =>
      rintro ⟨e, rfl⟩
      refine (parameterLists_eq _).trans (List.flatMap_eq_nil_iff.mpr fun child hchild => ?_)
      refine ih child hchild ?_
      cases e <;> simp [children] at hchild
      case binary => rcases hchild with rfl | rfl <;> exact ⟨_, rfl⟩
      case assign => exact ⟨_, hchild⟩
      case call =>
        obtain ⟨arg, -, rfl⟩ := hchild
        exact ⟨arg, rfl⟩
  exact hnone _ ⟨e, rfl⟩

end Node

/-- The parameter lists of the definitions in a program, in pre-order. -/
def Block.parameterLists (program : Block) : List (List String) :=
  (Node.block program).parameterLists

theorem Node.parameterLists_block (program : Block) :
    (Node.block program).parameterLists = program.flatMap fun s => (Node.stmt s).parameterLists := by
  refine (parameterLists_eq _).trans ?_
  rw [children, List.flatMap_map]
  rfl

namespace Token

/-- The names with commas between them that some tokens begin with. -/
def leadingNames : List Token → List String
  | .ident name :: .mark .comma :: ts => name :: leadingNames ts
  | .ident name :: _ => [name]
  | _ => []

/-- The parameter lists of the definitions that begin in some tokens, as far as the tokens go. -/
def parameterLists : List Token → List (List String)
  | .keyword .defWord :: .ident _ :: .mark .leftParen :: ts => leadingNames ts :: parameterLists ts
  | _ :: ts => parameterLists ts
  | [] => []

@[simp] theorem parameterLists_nil : parameterLists [] = [] := by rw [parameterLists]

theorem parameterLists_cons {t : Token} {ts : List Token} (h : t ≠ .keyword .defWord) :
    parameterLists (t :: ts) = parameterLists ts := by
  rw [parameterLists]
  rintro name us rfl -
  exact h rfl

theorem parameterLists_append {ts us : List Token} (h : .keyword .defWord ∉ ts) :
    parameterLists (ts ++ us) = parameterLists us := by
  induction ts with
  | nil => rfl
  | cons t ts ih =>
    simp only [List.mem_cons, not_or] at h
    rw [List.cons_append, parameterLists_cons (Ne.symm h.1), ih h.2]

end Token

open Token

theorem keyword_notMem_listed {runs : List (List Token)} {k : Keyword}
    (h : ∀ ts ∈ runs, .keyword k ∉ ts) : .keyword k ∉ listed runs := by
  cases runs with
  | nil => exact List.not_mem_nil
  | cons ts runs =>
    rw [Expr.listed_cons, List.mem_append, List.mem_flatMap]
    rintro (hmem | ⟨us, hus, hmem⟩)
    · exact h ts List.mem_cons_self hmem
    · have hin := (List.mem_cons.mp hmem).resolve_left Token.noConfusion
      exact h us (List.mem_cons_of_mem _ hus) hin

mutual

theorem Expr.keyword_notMem_yield (e : Expr) (k : Keyword) : .keyword k ∉ e.yield := by
  cases e with
  | literal value => cases value <;> simp [yield]
  | «variable» name => simp [yield]
  | binary op left right =>
    simp [yield, keyword_notMem_yield left k, keyword_notMem_yield right k]
  | assign target value => simp [yield, keyword_notMem_yield value k]
  | call callee args =>
    have hargs := keyword_notMem_listed (keyword_notMem_yields args k)
    simp [yield, hargs]

theorem Expr.keyword_notMem_yields (args : List Expr) (k : Keyword) :
    ∀ ts ∈ yields args, .keyword k ∉ ts := by
  cases args with
  | nil => simp [yields]
  | cons arg args =>
    intro ts hts
    rcases List.mem_cons.mp hts with rfl | hts
    · exact keyword_notMem_yield arg k
    · exact keyword_notMem_yields args k ts hts

end

namespace Grammar

variable {α : Type}

/-- An expression takes no keywords. -/
theorem exists_taken {levels : Nat} {ts rest : List Token} {e : Expr}
    (h : ExpressionWithin levels ts e rest) :
    ∃ taken, ts = taken ++ rest ∧ ∀ k, .keyword k ∉ taken := by
  obtain ⟨taken, rfl⟩ := (opens_expressionWithin levels).suffix h
  have hyield := expressionWithin_yields levels h
  rw [withoutBrackets_append, List.append_left_inj] at hyield
  refine ⟨taken, rfl, fun k hk => e.keyword_notMem_yield k ?_⟩
  rw [← hyield]
  exact List.mem_filter.mpr ⟨hk, rfl⟩

/-- The parameter lists in the tokens that a phrase takes are those of its tree. -/
def Lists (lists : α → List (List String)) (phrase : Phrase α) : Prop :=
  ∀ ⦃ts : List Token⦄ ⦃a : α⦄ ⦃rest : List Token⦄, phrase ts a rest →
    Token.parameterLists ts = lists a ++ Token.parameterLists rest

theorem expressionWithin_lists (levels : Nat) :
    Lists (fun _ => []) (ExpressionWithin levels) := by
  intro ts e rest h
  obtain ⟨taken, rfl, htaken⟩ := exists_taken h
  exact parameterLists_append (htaken .defWord)

/-- Parameters that are read are the names that lead. -/
theorem Separated.leadingNames {strict : Bool} {before params : List String}
    {ts rest : List Token} (h : Separated (Parameter strict) before ts params rest) :
    Token.leadingNames ts = params ∧ Token.parameterLists ts = Token.parameterLists rest := by
  induction h with
  | last only stop =>
    obtain ⟨rfl, -⟩ := only
    refine ⟨?_, parameterLists_cons nofun⟩
    rw [Token.leadingNames]
    rintro us rfl
    exact stop rfl
  | more first others ih =>
    obtain ⟨rfl, -⟩ := first
    refine ⟨by rw [Token.leadingNames, ih.1], ?_⟩
    simp [parameterLists_cons, ih.2]

theorem Listed.leadingNames {strict : Bool} {params : List String} {ts rest : List Token}
    (h : Listed (Parameter strict) ts params rest) :
    Token.leadingNames ts = params ∧ Token.parameterLists ts = Token.parameterLists rest := by
  cases h with
  | none => exact ⟨rfl, rfl⟩
  | some _ items => exact items.leadingNames

theorem Statement.lists {strict : Bool} {expr : Phrase Expr} {block : Phrase Block}
    (he : Lists (fun _ => []) expr) (hb : Lists (fun b => (Node.block b).parameterLists) block) :
    Lists (fun s => (Node.stmt s).parameterLists) (Statement strict expr block) := by
  intro ts s rest hs
  have hlists := Node.parameterLists_eq (.stmt s)
  cases hs with
  | expression value | ret value =>
    have hvalue := he value
    simpa [hlists, Node.params?, Node.children, parameterLists_cons] using hvalue
  | loop condition body | conditional condition body _ =>
    have hcondition := he condition
    have hbody := hb body
    simpa [hlists, Node.params?, Node.children, parameterLists_cons, hcondition] using hbody
  | alternative condition taken otherwise =>
    have hcondition := he condition
    have htaken := hb taken
    have hotherwise := hb otherwise
    simp [hlists, Node.params?, Node.children, parameterLists_cons, hcondition, htaken, hotherwise]
  | define items body =>
    have hbody := hb body
    obtain ⟨hnames, hitems⟩ := items.leadingNames
    simp [hlists, Node.params?, Node.children, Token.parameterLists, hnames, hitems, hbody]

theorem Repeated.lists {item : Phrase Stmt}
    (h : Lists (fun s => (Node.stmt s).parameterLists) item) :
    Lists (fun b => (Node.block b).parameterLists) (Repeated item) := by
  intro ts as rest hr
  simp only [Node.parameterLists_block]
  induction hr with
  | nil => rfl
  | cons first _ ih => rw [h first, ih, List.flatMap_cons, List.append_assoc]

theorem Body.lists {stmt : Phrase Stmt}
    (h : Lists (fun s => (Node.stmt s).parameterLists) stmt) :
    Lists (fun b => (Node.block b).parameterLists) (Body stmt) := by
  intro ts b rest hb
  cases hb with
  | braces items =>
    have hitems := Repeated.lists h items
    simpa [parameterLists_cons] using hitems
  | single _ only =>
    have honly := h only
    simpa [Node.parameterLists_block] using honly

theorem statementWithin_lists (strict : Bool) (levels : Nat) :
    Lists (fun s => (Node.stmt s).parameterLists) (StatementWithin strict levels) := by
  induction levels with
  | zero => exact Statement.lists (expressionWithin_lists 0) fun _ _ _ hp => hp.elim
  | succ levels ih => exact Statement.lists (expressionWithin_lists _) (Body.lists ih)

/-- The tokens that a program is read from show its parameter lists. -/
theorem program_lists {options : ParseOptions} {ts : List Token} {program : Block}
    (h : Program options ts program) : Token.parameterLists ts = program.parameterLists := by
  have hlists := Repeated.lists (statementWithin_lists _ _) h
  rwa [parameterLists_nil, List.append_nil] at hlists

end Grammar
end Sapling
