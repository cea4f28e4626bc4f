import Sapling.Node.Walk

/-!
# Paths to nodes

The nodes of a tree are its places: each is reached by one path of child positions. Here are
induction over the children of a node, the node at a path, and how two paths can lie to each other:
one above the other, or one to the left of the other (`above_or_leftOf`).
-/
namespace Sapling

namespace Node

theorem sizeOf_lt_of_mem_children {node child : Node} (h : child ∈ node.children) :
    sizeOf child < sizeOf node := by
  unfold children at h
  split at h
  · obtain ⟨s, hs, rfl⟩ := List.mem_map.mp h
    have hlt := List.sizeOf_lt_of_mem hs
    simp only [block.sizeOf_spec, stmt.sizeOf_spec]
    omega
  · obtain rfl := List.mem_singleton.mp h
    simp only [stmt.sizeOf_spec, expr.sizeOf_spec, Stmt.expression.sizeOf_spec]
    omega
  · next condition yes no =>
    simp only [List.mem_cons, List.mem_map, Option.mem_toList] at h
    obtain rfl | rfl | ⟨no, rfl, rfl⟩ := h
    all_goals
      simp only [stmt.sizeOf_spec, expr.sizeOf_spec, block.sizeOf_spec,
        Stmt.conditional.sizeOf_spec, Option.some.sizeOf_spec]
      omega
  · next condition body =>
    simp only [List.mem_cons, List.not_mem_nil, or_false] at h
    obtain rfl | rfl := h
    all_goals
      simp only [stmt.sizeOf_spec, expr.sizeOf_spec, block.sizeOf_spec, Stmt.loop.sizeOf_spec]
      omega
  · obtain rfl := List.mem_singleton.mp h
    simp only [stmt.sizeOf_spec, expr.sizeOf_spec, Stmt.ret.sizeOf_spec]
    omega
  · obtain rfl := List.mem_singleton.mp h
    simp only [stmt.sizeOf_spec, block.sizeOf_spec, Stmt.define.sizeOf_spec]
    omega
  · exact absurd h List.not_mem_nil
  · exact absurd h List.not_mem_nil
  · next op left right =>
    simp only [List.mem_cons, List.not_mem_nil, or_false] at h
    obtain rfl | rfl := h
    all_goals
      simp only [expr.sizeOf_spec, Expr.binary.sizeOf_spec]
      omega
  · obtain rfl := List.mem_singleton.mp h
    simp only [expr.sizeOf_spec, Expr.assign.sizeOf_spec]
    omega
  · obtain ⟨e, he, rfl⟩ := List.mem_map.mp h
    have hlt := List.sizeOf_lt_of_mem he
    simp only [expr.sizeOf_spec, Expr.call.sizeOf_spec]
    omega

theorem induction_on_children {motive : Node → Prop}
    (step : ∀ node : Node, (∀ child ∈ node.children, motive child) → motive node) (node : Node) :
    motive node :=
  step node fun child _ => induction_on_children step child
termination_by sizeOf node
decreasing_by exact sizeOf_lt_of_mem_children ‹_›

/-- The node at a path, which has the last position first as in a visit. -/
def at? (root : Node) : List Nat → Option Node
  | [] => some root
  | i :: path => (root.at? path).bind (·.children[i]?)

/-- Whether a strategy enters every node above a path. -/
def isOpen (strategy : Strategy) (root : Node) : List Nat → Bool
  | [] => true
  | _ :: path => (root.at? path).any strategy.enters && root.isOpen strategy path

def isDefinition : Node → Bool
  | .stmt (.define ..) => true
  | _ => false

/-- Whether there is a function definition above a path. -/
def isInDefinition (root : Node) : List Nat → Bool
  | [] => false
  | _ :: path => (root.at? path).any isDefinition || root.isInDefinition path

variable {strategy : Strategy} {root child : Node} {i : Nat}

theorem at?_concat (h : root.children[i]? = some child) (path : List Nat) :
    root.at? (path ++ [i]) = child.at? path := by
  induction path with
  | nil => simpa [at?] using h
  | cons j path ih => rw [List.cons_append, at?, at?, ih]

theorem isOpen_concat (h : root.children[i]? = some child) (path : List Nat) :
    root.isOpen strategy (path ++ [i]) = (strategy.enters root && child.isOpen strategy path) := by
  induction path with
  | nil => simp [isOpen, at?]
  | cons j path ih =>
    rw [List.cons_append, isOpen, isOpen, ih, at?_concat h]
    exact Bool.and_left_comm _ _ _

theorem exists_child_of_at?_concat {node : Node} {path : List Nat}
    (h : root.at? (path ++ [i]) = some node) : ∃ child, root.children[i]? = some child := by
  induction path generalizing node with
  | nil =>
    obtain ⟨_, heq, hchild⟩ := Option.bind_eq_some_iff.mp h
    obtain rfl := Option.some.inj heq
    exact ⟨node, hchild⟩
  | cons j path ih =>
    obtain ⟨above, habove, -⟩ := Option.bind_eq_some_iff.mp h
    exact ih habove

/-- A strategy that enters every node comes everywhere. -/
theorem isOpen_of_at? (hall : ∀ node, strategy.enters node = true) {node : Node} {path : List Nat}
    (h : root.at? path = some node) : root.isOpen strategy path = true := by
  induction path generalizing node with
  | nil => rfl
  | cons i path ih =>
    obtain ⟨above, habove, -⟩ := Option.bind_eq_some_iff.mp h
    rw [isOpen, habove, ih habove]
    simp [hall]

theorem enters_skipFunctionBodies (node : Node) :
    Strategy.skipFunctionBodies.enters node = !node.isDefinition := by
  cases node with
  | stmt s => cases s <;> rfl
  | block _ => rfl
  | expr _ => rfl

theorem isOpen_skipFunctionBodies {node : Node} {path : List Nat} (h : root.at? path = some node) :
    root.isOpen .skipFunctionBodies path = !root.isInDefinition path := by
  induction path generalizing node with
  | nil => rfl
  | cons i path ih =>
    obtain ⟨above, habove, -⟩ := Option.bind_eq_some_iff.mp h
    rw [isOpen, isInDefinition, habove, ih habove, Option.any_some, Option.any_some,
      enters_skipFunctionBodies, Bool.not_or]

end Node

variable {p q : List Nat}

/-- The node at the first path is a proper ancestor of the one at the second. -/
def Above (p q : List Nat) : Prop :=
  p <:+ q ∧ p ≠ q

/-- Below some node, the first path goes on to an earlier child than the second. -/
def LeftOf (p q : List Nat) : Prop :=
  ∃ i j rest, i < j ∧ i :: rest <:+ p ∧ j :: rest <:+ q

namespace LeftOf

theorem eq_of_cons_suffix {i j : Nat} {rest : List Nat} (h : i :: rest <:+ p)
    (h' : j :: rest <:+ p) : i = j :=
  (List.cons.inj ((List.suffix_of_suffix_length_le h h' (Nat.le_refl _)).eq_of_length rfl)).1

theorem not_suffix (h : LeftOf p q) : ¬p <:+ q ∧ ¬q <:+ p := by
  obtain ⟨i, j, rest, hlt, hp, hq⟩ := h
  exact ⟨fun hle => Nat.ne_of_lt hlt (eq_of_cons_suffix (hp.trans hle) hq),
    fun hle => Nat.ne_of_lt hlt (eq_of_cons_suffix hp (hq.trans hle))⟩

theorem asymm (h : LeftOf p q) : ¬LeftOf q p := by
  obtain ⟨i, j, rest, hlt, hp, hq⟩ := h
  rintro ⟨j', i', rest', hlt', hq', hp'⟩
  have hrest : rest <:+ p := (List.suffix_cons i rest).trans hp
  have hrest' : rest' <:+ p := (List.suffix_cons i' rest').trans hp'
  rcases Nat.lt_trichotomy rest.length rest'.length with hshort | hsame | hlong
  · have hi : i :: rest <:+ rest' := List.suffix_of_suffix_length_le hp hrest' hshort
    have hj : j :: rest <:+ rest' :=
      List.suffix_of_suffix_length_le hq ((List.suffix_cons j' rest').trans hq') hshort
    exact Nat.ne_of_lt hlt (eq_of_cons_suffix hi hj)
  · obtain rfl : rest = rest' :=
      (List.suffix_of_suffix_length_le hrest hrest' (Nat.le_of_eq hsame)).eq_of_length hsame
    have hi : i = i' := eq_of_cons_suffix hp hp'
    have hj : j = j' := eq_of_cons_suffix hq hq'
    omega
  · have hi : i' :: rest' <:+ rest := List.suffix_of_suffix_length_le hp' hrest hlong
    have hj : j' :: rest' <:+ rest :=
      List.suffix_of_suffix_length_le hq' ((List.suffix_cons j rest).trans hq) hlong
    exact Nat.ne_of_lt hlt' (eq_of_cons_suffix hj hi)

end LeftOf

theorem Above.asymm (h : Above p q) : ¬Above q p :=
  fun h' => h.2 (List.IsSuffix.eq_of_length h.1 (Nat.le_antisymm h.1.length_le h'.1.length_le))

/-- Which of two nodes comes first on a walk. -/
def Order.Precedes : Order → List Nat → List Nat → Prop
  | .before, p, q => Above p q ∨ LeftOf p q
  | .after, p, q => Above q p ∨ LeftOf p q

theorem LeftOf.precedes (h : LeftOf p q) (order : Order) : order.Precedes p q := by
  cases order with
  | before => exact .inr h
  | after => exact .inr h

theorem Order.Precedes.asymm {order : Order} (h : order.Precedes p q) : ¬order.Precedes q p := by
  cases order with
  | before =>
    rcases h with habove | hleft
    · rintro (habove' | hleft')
      · exact habove.asymm habove'
      · exact hleft'.not_suffix.2 habove.1
    · rintro (habove' | hleft')
      · exact hleft.not_suffix.2 habove'.1
      · exact hleft.asymm hleft'
  | after =>
    rcases h with habove | hleft
    · rintro (habove' | hleft')
      · exact habove.asymm habove'
      · exact hleft'.not_suffix.1 habove.1
    · rintro (habove' | hleft')
      · exact hleft.not_suffix.1 habove'.1
      · exact hleft.asymm hleft'

end Sapling
