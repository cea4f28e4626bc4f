import Sapling.Parse.Program
import Sapling.Proofs.ParseSteps

/-!
# Parses under different limits of nesting

A parse with fewer levels does what one with more levels does, up to where it finds that nesting is
too deep and ends. Every rule of the grammar keeps this.
-/
namespace Sapling.Parse

variable {σ α β : Type}

/-- The first parse does what the second one does unless it ends because nesting is too deep. -/
def Limits (p q : Parse σ α) : Prop :=
  ∀ s, p s = q s ∨ ∃ line s', p s = .error ⟨line, .grammar .nesting⟩ s'

@[refl] theorem Limits.refl (p : Parse σ α) : Limits p p := fun _ => .inl rfl

theorem Limits.bind {p q : Parse σ α} {f g : α → Parse σ β} (hp : Limits p q)
    (hf : ∀ a, Limits (f a) (g a)) : Limits (p >>= f) (q >>= g) := by
  intro s
  simp only [Bind.bind, EStateM.bind]
  rcases hp s with heq | ⟨line, s', hnesting⟩
  · rw [heq]
    cases q s with
    | ok a s' => exact hf a s'
    | error e s' => exact .inl rfl
  · rw [hnesting]
    exact .inr ⟨line, s', rfl⟩

theorem Limits.after (p : Parse σ α) {f g : α → Parse σ β} (hf : ∀ a, Limits (f a) (g a)) :
    Limits (p >>= f) (p >>= g) :=
  (Limits.refl p).bind hf

theorem Limits.before {p q : Parse σ α} (f : α → Parse σ β) (hp : Limits p q) :
    Limits (p >>= f) (q >>= f) :=
  hp.bind fun a => .refl (f a)

theorem Limits.ite {p q p' q' : Parse σ α} {c : Prop} [Decidable c] (hp : Limits p q)
    (hp' : Limits p' q') : Limits (if c then p else p') (if c then q else q') := by
  split
  · exact hp
  · exact hp'

theorem Limits.repeatWhile {more : Lookahead σ → Bool} {item item' : Parse σ α}
    (h : Limits item item') (rounds : Nat) (read : List α) :
    Limits (repeatWhile more item rounds read) (repeatWhile more item' rounds read) := by
  induction rounds generalizing read with
  | zero => rfl
  | succ rounds ih => exact .after _ fun s => .ite (h.bind fun a => ih _) (.refl _)

variable [TokenSource σ] {rounds levels levels' room room' : Nat} {strict : Bool}

theorem limits_nesting (q : Parse σ α) : Limits (violation .nesting) q :=
  fun s => .inr ⟨TokenSource.line s.source, s, rfl⟩

theorem Limits.separated {item item' : List α → Parse σ α}
    (h : ∀ before, Limits (item before) (item' before)) (rounds : Nat) (read : List α) :
    Limits (separated item rounds read) (separated item' rounds read) := by
  induction rounds generalizing read with
  | zero => rfl
  | succ rounds ih =>
    exact (h read).bind fun a => .after _ fun comma => .ite (.after _ fun _ => ih _) (.refl _)

section
variable {expr expr' : Parse σ Expr} (hexpr : Limits expr expr')
include hexpr

theorem Limits.parenthesized : Limits (parenthesized expr) (parenthesized expr') :=
  .after _ fun _ => hexpr.before _

theorem Limits.arguments : Limits (arguments rounds expr) (arguments rounds expr') :=
  .after _ fun _ => .ite (.refl _) (.separated (fun _ => hexpr) rounds [])

theorem Limits.afterName (name : String) :
    Limits (afterName rounds expr name) (afterName rounds expr' name) := by
  refine .after _ fun next => ?_
  split
  · exact .after _ fun _ => hexpr.before _
  · exact .after _ fun _ => hexpr.arguments.before _
  · rfl

theorem Limits.primary : Limits (primary rounds expr) (primary rounds expr') := by
  refine .after _ fun next => ?_
  split
  · exact .after _ fun _ => hexpr.afterName _
  · rfl
  · rfl
  · exact hexpr.parenthesized
  · rfl

end

theorem Limits.absorb {climb climb' : Nat → Expr → Parse σ Expr}
    (h : ∀ least left, Limits (climb least left) (climb' least left)) (least tiers : Nat)
    (right : Expr) : Limits (absorb climb least tiers right) (absorb climb' least tiers right) := by
  induction tiers generalizing right with
  | zero => rfl
  | succ tiers ih =>
    refine .after _ fun next => ?_
    split
    · rfl
    · exact (h _ _).bind fun middle => ih middle

section
variable {operand operand' : Parse σ Expr} (hoperand : Limits operand operand')
include hoperand

theorem Limits.chain {climb climb' : Nat → Expr → Parse σ Expr}
    (h : ∀ least left, Limits (climb least left) (climb' least left)) (hroom : room ≤ room')
    (least : Nat) (left : Expr) :
    Limits (chain operand climb least room left) (chain operand' climb' least room' left) := by
  induction room generalizing room' left with
  | zero =>
    cases room' with
    | zero => rfl
    | succ room' =>
      refine .after _ fun next => ?_
      split
      · rfl
      · exact limits_nesting _
  | succ room ih =>
    obtain ⟨room', rfl⟩ := Nat.exists_eq_add_one_of_ne_zero (n := room') (by omega)
    refine .after _ fun next => ?_
    split
    · rfl
    · refine .after _ fun _ => hoperand.bind fun first => (Limits.absorb h _ _ first).bind ?_
      exact fun right => ih (Nat.le_of_succ_le_succ hroom) _

theorem Limits.climb (hroom : room ≤ room') (tiers least : Nat) (left : Expr) :
    Limits (climb operand room tiers least left) (climb operand' room' tiers least left) := by
  induction tiers generalizing least left with
  | zero => rfl
  | succ tiers ih => exact hoperand.chain ih hroom least left

end

theorem limits_expression (hlevels : levels ≤ levels') :
    Limits (expression rounds levels : Parse σ Expr) (expression rounds levels') := by
  induction levels generalizing levels' with
  | zero => exact limits_nesting _
  | succ levels ih =>
    obtain ⟨levels', rfl⟩ := Nat.exists_eq_add_one_of_ne_zero (n := levels') (by omega)
    have hprimary : Limits (primary rounds (expression rounds levels) : Parse σ Expr)
        (primary rounds (expression rounds levels')) :=
      (ih (Nat.le_of_succ_le_succ hlevels)).primary
    exact hprimary.bind fun first =>
      .ite (.refl _) (hprimary.climb (Nat.le_of_succ_le_succ hlevels) _ _ _)

section
variable {expr expr' : Parse σ Expr} {block block' : Parse σ Block} (hexpr : Limits expr expr')
  (hblock : Limits block block')

include hblock in
theorem Limits.definition : Limits (definition rounds strict block)
    (definition rounds strict block') := by
  refine .after _ fun _ => .after _ fun name => .after _ fun paren => ?_
  split
  · exact .after _ fun _ => .after _ fun params => .after _ fun _ => hblock.before _
  · exact .after _ fun _ => .after _ fun params => .after _ fun _ => hblock.before _

include hexpr hblock in
theorem Limits.whileLoop : Limits (whileLoop expr block) (whileLoop expr' block') :=
  .after _ fun _ => hexpr.parenthesized.bind fun _ => hblock.before _

include hexpr hblock in
theorem Limits.conditional : Limits (conditional expr block) (conditional expr' block') :=
  .after _ fun _ => hexpr.parenthesized.bind fun _ => hblock.bind fun _ =>
    .before _ (.after _ fun _ => .ite (.after _ fun _ => hblock.before _) (.refl _))

include hexpr hblock in
theorem Limits.statement :
    Limits (statement rounds strict expr block) (statement rounds strict expr' block') := by
  refine .after _ fun next => ?_
  split
  · exact hexpr.whileLoop hblock
  · exact hexpr.conditional hblock
  · exact .after _ fun _ => hexpr.before _
  · exact hblock.definition
  · exact hexpr.before _
  · rfl

end

theorem Limits.blockOf {stmt stmt' : Parse σ Stmt} (h : Limits stmt stmt') :
    Limits (blockOf rounds stmt) (blockOf rounds stmt') :=
  .after _ fun _ => .ite (.after _ fun _ => .before _ (h.repeatWhile rounds [])) (h.before _)

theorem limits_block (hlevels : levels ≤ levels') :
    Limits (block rounds strict levels : Parse σ Block) (block rounds strict levels') := by
  induction levels generalizing levels' with
  | zero => exact limits_nesting _
  | succ levels ih =>
    obtain ⟨levels', rfl⟩ := Nat.exists_eq_add_one_of_ne_zero (n := levels') (by omega)
    have hle := Nat.le_of_succ_le_succ hlevels
    exact ((limits_expression hle).statement (ih hle)).blockOf

theorem limits_program (strict : Bool) (hlevels : levels ≤ levels') :
    Limits (program { strictParams := strict, maxDepth := levels } : Parse σ Block)
      (program { strictParams := strict, maxDepth := levels' }) :=
  .after _ fun _ =>
    ((limits_expression hlevels).statement (limits_block hlevels)).repeatWhile _ []

end Sapling.Parse
