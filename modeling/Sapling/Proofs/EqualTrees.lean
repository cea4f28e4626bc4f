import Sapling.Proofs.Printable

/-!
# Trees that are equal by value

Trees that are equal by value are equal if their numbers have no sign. A tree that is equal by
value to a writable one has the same names and strings, and its numbers differ from those at most
in the sign of a zero.
-/
namespace Sapling

theorem Number.equals_iff {a b : Number} (ha : a.isUnsigned = true) (hb : b.isUnsigned = true) :
    a.equals b = true ↔ a = b := by
  rcases isUnsigned_iff.mp ha with rfl | ⟨rank, rfl⟩ <;>
    rcases isUnsigned_iff.mp hb with rfl | ⟨rank', rfl⟩ <;> simp [equals]

theorem Literal.equals_iff {a b : Literal} (ha : Node.isUnsigned (.expr (.literal a)) = true)
    (hb : Node.isUnsigned (.expr (.literal b)) = true) : a.equals b = true ↔ a = b := by
  cases a with
  | number value =>
    cases b with
    | number value' => simpa [equals] using Number.equals_iff ha hb
    | str => simp [equals]
  | str text => cases b <;> simp [equals]

mutual

theorem Expr.equals_iff {a b : Expr} (ha : a.all Node.isUnsigned = true)
    (hb : b.all Node.isUnsigned = true) : a.equals b = true ↔ a = b := by
  cases a with
  | literal value =>
    cases b with
    | literal value' => simpa [Expr.equals] using Literal.equals_iff ha hb
    | _ => simp [Expr.equals]
  | «variable» name => cases b <;> simp [Expr.equals]
  | binary op left right =>
    cases b with
    | binary op' left' right' =>
      simp only [Expr.all, Bool.and_eq_true] at ha hb
      simp [Expr.equals, Expr.equals_iff ha.1.2 hb.1.2, Expr.equals_iff ha.2 hb.2, and_assoc]
    | _ => simp [Expr.equals]
  | assign target value =>
    cases b with
    | assign target' value' =>
      simp only [Expr.all, Bool.and_eq_true] at ha hb
      simp [Expr.equals, Expr.equals_iff ha.2 hb.2]
    | _ => simp [Expr.equals]
  | call callee args =>
    cases b with
    | call callee' args' =>
      simp only [Expr.all, Bool.and_eq_true] at ha hb
      simp [Expr.equals, Expr.equalsAll_iff ha.2 hb.2]
    | _ => simp [Expr.equals]

theorem Expr.equalsAll_iff {as bs : List Expr} (ha : Expr.allArgs Node.isUnsigned as = true)
    (hb : Expr.allArgs Node.isUnsigned bs = true) : Expr.equalsAll as bs = true ↔ as = bs := by
  cases as with
  | nil => cases bs <;> simp [Expr.equalsAll]
  | cons a as =>
    cases bs with
    | nil => simp [Expr.equalsAll]
    | cons b bs =>
      simp only [Expr.allArgs, Bool.and_eq_true] at ha hb
      simp [Expr.equalsAll, Expr.equals_iff ha.1 hb.1, Expr.equalsAll_iff ha.2 hb.2]

end

mutual

theorem Stmt.equals_iff {a b : Stmt} (ha : a.all Node.isUnsigned = true)
    (hb : b.all Node.isUnsigned = true) : a.equals b = true ↔ a = b := by
  cases a with
  | expression e =>
    cases b with
    | expression e' =>
      simp only [Stmt.all, Bool.and_eq_true] at ha hb
      simp [Stmt.equals, Expr.equals_iff ha.2 hb.2]
    | _ => simp [Stmt.equals]
  | ret value =>
    cases b with
    | ret value' =>
      simp only [Stmt.all, Bool.and_eq_true] at ha hb
      simp [Stmt.equals, Expr.equals_iff ha.2 hb.2]
    | _ => simp [Stmt.equals]
  | loop condition body =>
    cases b with
    | loop condition' body' =>
      simp only [Stmt.all, Bool.and_eq_true] at ha hb
      simp [Stmt.equals, Expr.equals_iff ha.1.2 hb.1.2, Stmt.equalsAll_iff ha.2 hb.2]
    | _ => simp [Stmt.equals]
  | conditional condition yes no =>
    cases b with
    | conditional condition' yes' no' =>
      cases no with
      | none =>
        cases no' with
        | none =>
          simp only [Stmt.all, Bool.and_eq_true] at ha hb
          simp [Stmt.equals, Expr.equals_iff ha.1.2 hb.1.2, Stmt.equalsAll_iff ha.2 hb.2]
        | some no' => simp [Stmt.equals]
      | some no =>
        cases no' with
        | none => simp [Stmt.equals]
        | some no' =>
          simp only [Stmt.all, Bool.and_eq_true] at ha hb
          simp [Stmt.equals, Expr.equals_iff ha.1.1.2 hb.1.1.2,
            Stmt.equalsAll_iff ha.1.2 hb.1.2, Stmt.equalsAll_iff ha.2 hb.2, and_assoc]
    | _ => cases no <;> simp [Stmt.equals]
  | define name params body =>
    cases b with
    | define name' params' body' =>
      simp only [Stmt.all, Bool.and_eq_true] at ha hb
      simp [Stmt.equals, Stmt.equalsAll_iff ha.2 hb.2, and_assoc]
    | _ => simp [Stmt.equals]

theorem Stmt.equalsAll_iff {as bs : List Stmt} (ha : Stmt.allIn Node.isUnsigned as = true)
    (hb : Stmt.allIn Node.isUnsigned bs = true) : Stmt.equalsAll as bs = true ↔ as = bs := by
  cases as with
  | nil => cases bs <;> simp [Stmt.equalsAll]
  | cons a as =>
    cases bs with
    | nil => simp [Stmt.equalsAll]
    | cons b bs =>
      simp only [Stmt.allIn, Bool.and_eq_true] at ha hb
      simp [Stmt.equalsAll, Stmt.equals_iff ha.1 hb.1, Stmt.equalsAll_iff ha.2 hb.2]

end

theorem Number.isFaithful_of_equals {a b : Number} (h : a.equals b = true)
    (ha : a.isUnsigned = true) : Node.isFaithful (.expr (.literal (.number b))) = true := by
  cases b with
  | nan => cases a <;> simp [equals] at h
  | infinite negative =>
    rcases isUnsigned_iff.mp ha with rfl | ⟨rank, rfl⟩
    · simpa [equals, Node.isFaithful] using h
    · simp [equals] at h
  | finite negative rank => rfl

/-- What is asked of a tree so that a tree of its tokens can be equal to it. -/
def Node.isLegible (n : Node) : Bool :=
  n.isSpelled && n.isFaithful

theorem Node.isLegible_iff {n : Node} :
    n.isLegible = true ↔ n.isSpelled = true ∧ n.isFaithful = true := by
  simp [isLegible]

theorem Literal.isLegible_of_equals {a b : Literal} (h : a.equals b = true)
    (ha : Node.isWritable (.expr (.literal a)) = true) :
    Node.isLegible (.expr (.literal b)) = true := by
  rw [Node.isWritable_iff] at ha
  cases a with
  | number value =>
    cases b with
    | number value' => exact Node.isLegible_iff.mpr ⟨rfl, Number.isFaithful_of_equals h ha.2⟩
    | str => simp [equals] at h
  | str text =>
    cases b with
    | number => simp [equals] at h
    | str text' =>
      obtain rfl : text = text' := by simpa [equals] using h
      exact Node.isLegible_iff.mpr ⟨ha.1, rfl⟩

mutual

theorem Expr.isLegible_of_equals {a b : Expr} (h : a.equals b = true)
    (ha : a.all Node.isWritable = true) : b.all Node.isLegible = true := by
  cases a with
  | literal value =>
    cases b with
    | literal value' => exact Literal.isLegible_of_equals h ha
    | _ => simp [Expr.equals] at h
  | «variable» name =>
    cases b with
    | «variable» name' =>
      obtain rfl : name = name' := by simpa [Expr.equals] using h
      exact Node.isLegible_iff.mpr ⟨(Node.isWritable_iff.mp ha).1, rfl⟩
    | _ => simp [Expr.equals] at h
  | binary op left right =>
    cases b with
    | binary op' left' right' =>
      simp only [Expr.equals, Bool.and_eq_true] at h
      simp only [Expr.all, Bool.and_eq_true] at ha ⊢
      exact ⟨⟨rfl, Expr.isLegible_of_equals h.1.2 ha.1.2⟩, Expr.isLegible_of_equals h.2 ha.2⟩
    | _ => simp [Expr.equals] at h
  | assign target value =>
    cases b with
    | assign target' value' =>
      simp only [Expr.equals, Bool.and_eq_true, beq_iff_eq] at h
      simp only [Expr.all, Bool.and_eq_true] at ha ⊢
      obtain ⟨rfl, hvalue⟩ := h
      exact ⟨Node.isLegible_iff.mpr ⟨(Node.isWritable_iff.mp ha.1).1, rfl⟩,
        Expr.isLegible_of_equals hvalue ha.2⟩
    | _ => simp [Expr.equals] at h
  | call callee args =>
    cases b with
    | call callee' args' =>
      simp only [Expr.equals, Bool.and_eq_true, beq_iff_eq] at h
      simp only [Expr.all, Bool.and_eq_true] at ha ⊢
      obtain ⟨rfl, hargs⟩ := h
      exact ⟨Node.isLegible_iff.mpr ⟨(Node.isWritable_iff.mp ha.1).1, rfl⟩,
        Expr.isLegible_of_equalsAll hargs ha.2⟩
    | _ => simp [Expr.equals] at h

theorem Expr.isLegible_of_equalsAll {as bs : List Expr} (h : Expr.equalsAll as bs = true)
    (ha : Expr.allArgs Node.isWritable as = true) : Expr.allArgs Node.isLegible bs = true := by
  cases as with
  | nil =>
    cases bs with
    | nil => rfl
    | cons => simp [Expr.equalsAll] at h
  | cons a as =>
    cases bs with
    | nil => rfl
    | cons b bs =>
      simp only [Expr.equalsAll, Bool.and_eq_true] at h
      simp only [Expr.allArgs, Bool.and_eq_true] at ha ⊢
      exact ⟨Expr.isLegible_of_equals h.1 ha.1, Expr.isLegible_of_equalsAll h.2 ha.2⟩

end

mutual

theorem Stmt.isLegible_of_equals {a b : Stmt} (h : a.equals b = true)
    (ha : a.all Node.isWritable = true) : b.all Node.isLegible = true := by
  cases a with
  | expression e =>
    cases b with
    | expression e' =>
      simp only [Stmt.equals] at h
      simp only [Stmt.all, Bool.and_eq_true] at ha ⊢
      exact ⟨rfl, Expr.isLegible_of_equals h ha.2⟩
    | _ => simp [Stmt.equals] at h
  | ret value =>
    cases b with
    | ret value' =>
      simp only [Stmt.equals] at h
      simp only [Stmt.all, Bool.and_eq_true] at ha ⊢
      exact ⟨rfl, Expr.isLegible_of_equals h ha.2⟩
    | _ => simp [Stmt.equals] at h
  | loop condition body =>
    cases b with
    | loop condition' body' =>
      simp only [Stmt.equals, Bool.and_eq_true] at h
      simp only [Stmt.all, Bool.and_eq_true] at ha ⊢
      exact ⟨⟨rfl, Expr.isLegible_of_equals h.1 ha.1.2⟩, Stmt.isLegible_of_equalsAll h.2 ha.2⟩
    | _ => simp [Stmt.equals] at h
  | conditional condition yes no =>
    cases b with
    | conditional condition' yes' no' =>
      cases no with
      | none =>
        cases no' with
        | none =>
          simp only [Stmt.equals, Bool.and_eq_true] at h
          simp only [Stmt.all, Bool.and_eq_true] at ha ⊢
          exact ⟨⟨rfl, Expr.isLegible_of_equals h.1 ha.1.2⟩,
            Stmt.isLegible_of_equalsAll h.2 ha.2⟩
        | some no' => simp [Stmt.equals] at h
      | some no =>
        cases no' with
        | none => simp [Stmt.equals] at h
        | some no' =>
          simp only [Stmt.equals, Bool.and_eq_true] at h
          simp only [Stmt.all, Bool.and_eq_true] at ha ⊢
          exact ⟨⟨⟨rfl, Expr.isLegible_of_equals h.1.1 ha.1.1.2⟩,
            Stmt.isLegible_of_equalsAll h.1.2 ha.1.2⟩, Stmt.isLegible_of_equalsAll h.2 ha.2⟩
    | _ => cases no <;> simp [Stmt.equals] at h
  | define name params body =>
    cases b with
    | define name' params' body' =>
      simp only [Stmt.equals, Bool.and_eq_true, beq_iff_eq] at h
      simp only [Stmt.all, Bool.and_eq_true] at ha ⊢
      obtain ⟨⟨rfl, rfl⟩, hbody⟩ := h
      exact ⟨Node.isLegible_iff.mpr ⟨(Node.isWritable_iff.mp ha.1).1, rfl⟩,
        Stmt.isLegible_of_equalsAll hbody ha.2⟩
    | _ => simp [Stmt.equals] at h

theorem Stmt.isLegible_of_equalsAll {as bs : List Stmt} (h : Stmt.equalsAll as bs = true)
    (ha : Stmt.allIn Node.isWritable as = true) : Stmt.allIn Node.isLegible bs = true := by
  cases as with
  | nil =>
    cases bs with
    | nil => rfl
    | cons => simp [Stmt.equalsAll] at h
  | cons a as =>
    cases bs with
    | nil => rfl
    | cons b bs =>
      simp only [Stmt.equalsAll, Bool.and_eq_true] at h
      simp only [Stmt.allIn, Bool.and_eq_true] at ha ⊢
      exact ⟨Stmt.isLegible_of_equals h.1 ha.1, Stmt.isLegible_of_equalsAll h.2 ha.2⟩

end

end Sapling
