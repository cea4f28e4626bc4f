import Sapling.Parse.Program
import Sapling.Proofs.ParseSteps

/-!
# Two parses that have some tokens in common

Two parses of any two sources do the same as long as their tokens are the same: they give the same
trees, and the same errors on lines that correspond. Where a comparison has a place behind which the
tokens may differ, this holds as long as the token at that place has not been taken. Here are the
relation between two parses, `InStep`, and the steps and repetitions that keep it.
-/
namespace Sapling

variable {σ τ α β : Type}

theorem Lookahead.Holds.unique [TokenSource σ] {s : Lookahead σ} {ts us : List Token}
    {failure failure' : Option SyntaxError} (h : s.Holds ts failure) (h' : s.Holds us failure') :
    ts = us := by
  induction h generalizing us with
  | done ends =>
    have hus := h'.atEnd_eq
    rw [ends] at hus
    exact (List.isEmpty_iff.mp hus.symm).symm
  | more step _ ih =>
    obtain ⟨us, rfl, hrest⟩ := h'.of_step step
    rw [ih hrest]
  | broken token fails =>
    cases h' with
    | done ends => simp [token?_of_atEnd ends] at token
    | more step _ => simp [step.2] at fails
    | broken token' _ => rw [Option.some.inj (token.symm.trans token')]

namespace Parse

theorem repeatWhile_of_not {more : Lookahead σ → Bool} {item : Parse σ α} {s : Lookahead σ}
    (h : more s = false) (rounds : Nat) (read : List α) :
    repeatWhile more item rounds read s = .ok read.reverse s := by
  cases rounds with
  | zero => rfl
  | succ rounds =>
    rw [repeatWhile, get_bind, h]
    rfl

/-- How a parse can end that begins at a state: it takes tokens one by one, until it answers, or
finds an error, or meets one behind the token that it takes. -/
inductive Reached [TokenSource σ] :
    Lookahead σ → EStateM.Result SyntaxError (Lookahead σ) α → Prop
  | ok {s : Lookahead σ} {a : α} : Reached s (.ok a s)
  | error {s : Lookahead σ} {e : SyntaxError} : Reached s (.error e s)
  | broken {s s' : Lookahead σ} {t : Token} {e : SyntaxError} (token : s.token? = some t)
      (fails : advance s = .error e s') : Reached s (.error e s')
  | step {s s' : Lookahead σ} {t : Token} {result : EStateM.Result SyntaxError (Lookahead σ) α}
      (step : s.Step t s') (rest : Reached s' result) : Reached s result

/-- The same of a parse that tries to take the token at the state. -/
inductive Beyond [TokenSource σ] (s : Lookahead σ) :
    EStateM.Result SyntaxError (Lookahead σ) α → Prop
  | broken {s' : Lookahead σ} {e : SyntaxError} (fails : advance s = .error e s') :
      Beyond s (.error e s')
  | step {s' : Lookahead σ} {t : Token} {result : EStateM.Result SyntaxError (Lookahead σ) α}
      (step : s.Step t s') (rest : Reached s' result) : Beyond s result

/-- A parse that begins at `next` takes nothing but tokens. -/
def Steady [TokenSource σ] (next : Option Token) (p : Parse σ α) : Prop :=
  ∀ s, s.token? = next → Reached s (p s)

section
variable [TokenSource σ] {s s' : Lookahead σ} {next : Option Token} {p : Parse σ α}
  {f : α → Parse σ β}

theorem Reached.bind (h : Reached s (p s')) (hf : ∀ a next, Steady next (f a)) :
    Reached s ((p >>= f) s') := by
  simp only [Bind.bind, EStateM.bind]
  generalize p s' = result at h
  induction h with
  | ok => exact hf _ _ _ rfl
  | error => exact .error
  | broken token fails => exact .broken token fails
  | step step _ ih => exact .step step ih

theorem Beyond.bind (h : Beyond s (p s')) (hf : ∀ a next, Steady next (f a)) :
    Beyond s ((p >>= f) s') := by
  generalize hresult : p s' = result at h
  cases h with
  | broken fails =>
    simp only [Bind.bind, EStateM.bind, hresult]
    exact .broken fails
  | step step rest => exact .step step (Reached.bind (hresult ▸ rest) hf)

theorem Steady.bind (hp : Steady next p) (hf : ∀ a next, Steady next (f a)) :
    Steady next (p >>= f) :=
  fun s hs => (hp s hs).bind hf

theorem steady_pure (a : α) : Steady next (pure a : Parse σ α) := fun _ _ => .ok

theorem steady_fail (cause : Lookahead σ → Cause) : Steady next (fail cause : Parse σ α) :=
  fun _ _ => .error

theorem Steady.ite {p' : Parse σ α} {c : Prop} [Decidable c] (h : Steady next p)
    (h' : Steady next p') : Steady next (if c then p else p') := by
  split
  · exact h
  · exact h'

theorem Steady.peek {f : Option Token → Parse σ β} (h : Steady next (f next)) :
    Steady next (peek >>= f) := by
  intro s hs
  rw [peek_bind, hs]
  exact h s hs

theorem Steady.isNext {kind : Token} {f : Bool → Parse σ β}
    (htrue : ∀ t, next = some t → Steady next (f true)) (hfalse : Steady next (f false)) :
    Steady next (isNext kind >>= f) := by
  intro s hs
  rw [isNext_bind, Lookahead.isAt, hs]
  cases hany : next.any (·.sameKind kind) with
  | false => exact hfalse s hs
  | true =>
    obtain ⟨t, ht, -⟩ := (Option.any_eq_true _ _).mp hany
    exact htrue t ht s hs

theorem steady_advance (t : Token) : Steady (some t) (advance : Parse σ Unit) := by
  intro s hs
  cases hadvance : advance s with
  | ok _ s' => exact .step ⟨hs, hadvance⟩ .ok
  | error e s' => exact .broken hs hadvance

theorem Steady.when {more : Lookahead σ → Bool} {p' : Parse σ α} (h : Steady next p)
    (h' : Steady next p') : Steady next (do if more (← get) then p else p') := by
  intro s hs
  rw [get_bind]
  split
  · exact h s hs
  · exact h' s hs

theorem Steady.repeatWhile {more : Lookahead σ → Bool} {item : Parse σ α}
    (hitem : ∀ next, Steady next item) (rounds : Nat) (read : List α) (next : Option Token) :
    Steady next (repeatWhile more item rounds read) := by
  induction rounds generalizing read next with
  | zero => exact steady_pure _
  | succ rounds ih => exact .when ((hitem next).bind fun a next => ih _ next) (steady_pure _)

theorem Steady.separated {item : List α → Parse σ α}
    (hitem : ∀ read next, Steady next (item read)) (rounds : Nat) (read : List α)
    (next : Option Token) : Steady next (separated item rounds read) := by
  induction rounds generalizing read next with
  | zero => exact steady_pure _
  | succ rounds ih =>
    refine (hitem read next).bind fun a next => .isNext ?_ (steady_pure _)
    rintro t rfl
    exact (steady_advance t).bind fun _ next => ih _ next

end

/-- How two parses are compared: which lines correspond, and the place on either side behind which
the tokens may differ. -/
structure Comparison (σ τ : Type) where
  lines : Nat → Nat → Prop
  left : Lookahead σ → Prop
  right : Lookahead τ → Prop

/-- Two states that look the same, on lines that correspond. -/
structure Level [TokenSource σ] [TokenSource τ] (d : Comparison σ τ) (s : Lookahead σ)
    (s' : Lookahead τ) : Prop where
  atEnd : s.atEnd = s'.atEnd
  token : s.token? = s'.token?
  line : d.lines (TokenSource.line s.source) (TokenSource.line s'.source)

/-- Two states with the same tokens, at most `n`, to their ends, to an error behind a token, or to
and including the token at the place where the comparison ends. -/
inductive Abreast [TokenSource σ] [TokenSource τ] (d : Comparison σ τ) :
    Nat → Lookahead σ → Lookahead τ → Prop
  | ended {n : Nat} {s : Lookahead σ} {s' : Lookahead τ} (level : Level d s s')
      (ends : s.atEnd = true) : Abreast d n s s'
  | parted {n : Nat} {s : Lookahead σ} {s' : Lookahead τ} {t : Token} (level : Level d s s')
      (token : s.token? = some t) (left : d.left s) (right : d.right s') : Abreast d (n + 1) s s'
  | broken {n : Nat} {s s₁ : Lookahead σ} {s' s₁' : Lookahead τ} {t : Token} {e e' : SyntaxError}
      (level : Level d s s') (token : s.token? = some t) (left : advance s = .error e s₁)
      (right : advance s' = .error e' s₁') (cause : e.cause = e'.cause)
      (line : d.lines e.line e'.line) : Abreast d (n + 1) s s'
  | step {n : Nat} {s s₁ : Lookahead σ} {s' s₁' : Lookahead τ} {t : Token} (level : Level d s s')
      (before : ¬ d.left s) (left : s.Step t s₁) (right : advance s' = .ok () s₁')
      (rest : Abreast d n s₁ s₁') : Abreast d (n + 1) s s'

/-- How parses from such states end: alike, with at least `taken` tokens taken where they succeed,
or both behind the place where the comparison ends. -/
inductive Together [TokenSource σ] [TokenSource τ] (d : Comparison σ τ) (n taken : Nat) :
    EStateM.Result SyntaxError (Lookahead σ) α → EStateM.Result SyntaxError (Lookahead τ) α → Prop
  | ok {a : α} {s : Lookahead σ} {s' : Lookahead τ} {m : Nat} (length : m + taken ≤ n)
      (abreast : Abreast d m s s') : Together d n taken (.ok a s) (.ok a s')
  | error {e e' : SyntaxError} {s : Lookahead σ} {s' : Lookahead τ} (cause : e.cause = e'.cause)
      (line : d.lines e.line e'.line) : Together d n taken (.error e s) (.error e' s')
  | past {s : Lookahead σ} {s' : Lookahead τ} {result : EStateM.Result SyntaxError (Lookahead σ) α}
      {result' : EStateM.Result SyntaxError (Lookahead τ) α} (left : d.left s) (right : d.right s')
      (beyond : Beyond s result) (beyond' : Beyond s' result') : Together d n taken result result'

/-- Two parses that begin at `next` end together when they have at most `n` tokens in common. -/
structure InStep [TokenSource σ] [TokenSource τ] (d : Comparison σ τ) (n taken : Nat)
    (next : Option Token) (p : Parse σ α) (q : Parse τ α) : Prop where
  left : Steady next p
  right : Steady next q
  together : ∀ {m : Nat} {s : Lookahead σ} {s' : Lookahead τ}, m ≤ n → Abreast d m s s' →
    s.token? = next → Together d m taken (p s) (q s')

variable [TokenSource σ] [TokenSource τ] {d : Comparison σ τ} {n taken : Nat}
  {next : Option Token} {p : Parse σ α} {q : Parse τ α} {s : Lookahead σ} {s' : Lookahead τ}

theorem Abreast.level (h : Abreast d n s s') : Level d s s' := by
  cases h with
  | ended level _ | parted level _ _ _ | broken level _ _ _ _ _ | step level _ _ _ _ => exact level

theorem Abreast.mono {m : Nat} (h : Abreast d m s s') (hle : m ≤ n) : Abreast d n s s' := by
  induction h generalizing n with
  | ended level ends => exact .ended level ends
  | parted level token left right =>
    obtain ⟨n, rfl⟩ := Nat.exists_eq_add_one_of_ne_zero (Nat.ne_zero_of_lt hle)
    exact .parted level token left right
  | broken level token left right cause line =>
    obtain ⟨n, rfl⟩ := Nat.exists_eq_add_one_of_ne_zero (Nat.ne_zero_of_lt hle)
    exact .broken level token left right cause line
  | step level before left right _ ih =>
    obtain ⟨n, rfl⟩ := Nat.exists_eq_add_one_of_ne_zero (Nat.ne_zero_of_lt hle)
    exact .step level before left right (ih (Nat.le_of_succ_le_succ hle))

theorem Abreast.atEnd_of_zero (h : Abreast d 0 s s') : s.atEnd = true ∧ s'.atEnd = true := by
  cases h with
  | ended level ends => exact ⟨ends, level.atEnd.symm.trans ends⟩

theorem Together.mono {taken' : Nat} {result : EStateM.Result SyntaxError (Lookahead σ) α}
    {result' : EStateM.Result SyntaxError (Lookahead τ) α} {n' : Nat}
    (h : Together d n taken result result') (hle : n + taken' ≤ n' + taken) :
    Together d n' taken' result result' := by
  cases h with
  | ok length abreast => exact .ok (by omega) abreast
  | error cause line => exact .error cause line
  | past left right beyond beyond' => exact .past left right beyond beyond'

theorem InStep.mono {n' taken' : Nat} (h : InStep d n taken next p q) (hn : n' ≤ n)
    (htaken : taken' ≤ taken) : InStep d n' taken' next p q where
  left := h.left
  right := h.right
  together hm habreast hnext :=
    (h.together (Nat.le_trans hm hn) habreast hnext).mono (Nat.add_le_add_left htaken _)

theorem InStep.weaken (h : InStep d n taken next p q) : InStep d n 0 next p q :=
  h.mono (Nat.le_refl n) (Nat.zero_le taken)

theorem InStep.zero {t : Token} (hp : Steady (some t) p) (hq : Steady (some t) q) :
    InStep d 0 taken (some t) p q where
  left := hp
  right := hq
  together hm habreast hnext := by
    have hend := (habreast.mono hm).atEnd_of_zero.1
    simp [Lookahead.token?_of_atEnd hend] at hnext

theorem inStep_pure (a : α) : InStep d n 0 next (pure a : Parse σ α) (pure a : Parse τ α) where
  left := steady_pure a
  right := steady_pure a
  together _ habreast _ := .ok (Nat.le_refl _) habreast

theorem inStep_fail {cause : Lookahead σ → Cause} {cause' : Lookahead τ → Cause}
    (hcause : ∀ s s', s.token? = s'.token? → cause s = cause' s') :
    InStep d n taken next (fail cause : Parse σ α) (fail cause') where
  left := steady_fail cause
  right := steady_fail cause'
  together {_ s s'} _ habreast _ :=
    .error (hcause s s' habreast.level.token) habreast.level.line

theorem inStep_violation (v : Violation) :
    InStep d n taken next (violation v : Parse σ α) (violation v : Parse τ α) :=
  inStep_fail fun _ _ _ => rfl

theorem found_congr {s : Lookahead σ} {s' : Lookahead τ} (h : s.token? = s'.token?) :
    s.found = s'.found := by
  rw [Lookahead.found, Lookahead.found, h]

theorem inStep_unexpected (rule : Rule) :
    InStep d n taken next (unexpected rule : Parse σ α) (unexpected rule : Parse τ α) :=
  inStep_fail fun s s' h => by rw [found_congr h]

/-- One parse after another. The second has fewer tokens in common where the first takes some. -/
theorem InStep.bind {m taken' : Nat} {f : α → Parse σ β} {g : α → Parse τ β}
    (hp : InStep d n taken next p q) (hm : n ≤ m + taken)
    (hf : ∀ a next, InStep d m taken' next (f a) (g a)) :
    InStep d n (taken + taken') next (p >>= f) (q >>= g) where
  left := hp.left.bind fun a next => (hf a next).left
  right := hp.right.bind fun a next => (hf a next).right
  together {k s s'} hk habreast hnext := by
    have hfirst := hp.together hk habreast hnext
    generalize hresult : p s = result, hresult' : q s' = result' at hfirst
    cases hfirst with
    | @ok a s₁ s₁' m' length abreast =>
      have hsecond := (hf a _).together (by omega) abreast rfl
      rw [bind_of_ok hresult, bind_of_ok hresult']
      exact hsecond.mono (by omega)
    | error cause line =>
      simp only [Bind.bind, EStateM.bind, hresult, hresult']
      exact .error cause line
    | past left right beyond beyond' =>
      exact .past left right (Beyond.bind (hresult ▸ beyond) fun a next => (hf a next).left)
        (Beyond.bind (hresult' ▸ beyond') fun a next => (hf a next).right)

theorem InStep.then {f : α → Parse σ β} {g : α → Parse τ β} (hp : InStep d n taken next p q)
    (hf : ∀ a next, InStep d n 0 next (f a) (g a)) : InStep d n taken next (p >>= f) (q >>= g) :=
  hp.bind (Nat.le_add_right n taken) hf

theorem InStep.ite {p' : Parse σ α} {q' : Parse τ α} {c : Prop} [Decidable c]
    (h : InStep d n taken next p q) (h' : InStep d n taken next p' q') :
    InStep d n taken next (if c then p else p') (if c then q else q') := by
  split
  · exact h
  · exact h'

theorem InStep.peek {f : Option Token → Parse σ β} {g : Option Token → Parse τ β}
    (h : InStep d n taken next (f next) (g next)) :
    InStep d n taken next (peek >>= f) (peek >>= g) where
  left := .peek h.left
  right := .peek h.right
  together {m s s'} hm habreast hnext := by
    rw [peek_bind, peek_bind, ← habreast.level.token, hnext]
    exact h.together hm habreast hnext

theorem InStep.isNext {kind : Token} {f : Bool → Parse σ β} {g : Bool → Parse τ β}
    (htrue : ∀ t, next = some t → InStep d n taken next (f true) (g true))
    (hfalse : InStep d n taken next (f false) (g false)) :
    InStep d n taken next (isNext kind >>= f) (isNext kind >>= g) where
  left := .isNext (fun t ht => (htrue t ht).left) hfalse.left
  right := .isNext (fun t ht => (htrue t ht).right) hfalse.right
  together {m s s'} hm habreast hnext := by
    rw [isNext_bind, isNext_bind, Lookahead.isAt, Lookahead.isAt, ← habreast.level.token, hnext]
    cases hany : next.any (·.sameKind kind) with
    | false => exact hfalse.together hm habreast hnext
    | true =>
      obtain ⟨t, ht, -⟩ := (Option.any_eq_true _ _).mp hany
      exact (htrue t ht).together hm habreast hnext

theorem inStep_advance (t : Token) :
    InStep d n 1 (some t) (advance : Parse σ Unit) (advance : Parse τ Unit) where
  left := steady_advance t
  right := steady_advance t
  together {m s s'} _ habreast hnext := by
    cases habreast with
    | ended _ ends => simp [Lookahead.token?_of_atEnd ends] at hnext
    | parted level _ left right =>
      have hbeyond {ρ : Type} [TokenSource ρ] {s : Lookahead ρ} (hs : s.token? = some t) :
          Beyond s (advance s) := by
        cases hadvance : advance s with
        | ok _ s' => exact .step ⟨hs, hadvance⟩ .ok
        | error e s' => exact .broken hadvance
      exact .past left right (hbeyond hnext) (hbeyond (level.token.symm.trans hnext))
    | broken _ _ left right cause line =>
      rw [left, right]
      exact .error cause line
    | step _ _ left right rest =>
      rw [left.2, right]
      exact .ok (Nat.le_refl _) rest

theorem inStep_eat (kind : Token) :
    InStep d n 1 next (eat kind : Parse σ Unit) (eat kind : Parse τ Unit) := by
  refine .isNext ?_ (inStep_fail fun s s' h => by rw [found_congr h])
  rintro t rfl
  exact inStep_advance t

theorem InStep.when {more : Lookahead σ → Bool} {more' : Lookahead τ → Bool} {p' : Parse σ α}
    {q' : Parse τ α} (hmore : ∀ (s : Lookahead σ) (s' : Lookahead τ), s.atEnd = s'.atEnd →
      s.token? = s'.token? → more s = more' s')
    (h : InStep d n taken next p q) (h' : InStep d n taken next p' q') :
    InStep d n taken next (do if more (← get) then p else p')
      (do if more' (← get) then q else q') where
  left := .when h.left h'.left
  right := .when h.right h'.right
  together {m s s'} hm habreast hnext := by
    rw [get_bind, get_bind, hmore s s' habreast.level.atEnd habreast.level.token]
    split
    · exact h.together hm habreast hnext
    · exact h'.together hm habreast hnext

/-- Every item takes a token, so that neither parse runs out of rounds while tokens are left. -/
theorem InStep.repeatWhile {more : Lookahead σ → Bool} {more' : Lookahead τ → Bool}
    {item : Parse σ α} {item' : Parse τ α} (hmore : ∀ (s : Lookahead σ) (s' : Lookahead τ),
      s.atEnd = s'.atEnd → s.token? = s'.token? → more s = more' s')
    (hend : ∀ s : Lookahead σ, s.atEnd = true → more s = false)
    (hend' : ∀ s : Lookahead τ, s.atEnd = true → more' s = false)
    (hitem : ∀ next, InStep d n 1 next item item') {rounds rounds' : Nat} (hrounds : n ≤ rounds)
    (hrounds' : n ≤ rounds') (read : List α) (next : Option Token) :
    InStep d n 0 next (repeatWhile more item rounds read)
      (repeatWhile more' item' rounds' read) := by
  have hzero (rounds rounds' : Nat) (read : List α) (next : Option Token) : InStep d 0 0 next
      (Parse.repeatWhile more item rounds read) (Parse.repeatWhile more' item' rounds' read) := by
    refine ⟨.repeatWhile (fun next => (hitem next).left) rounds read next,
      .repeatWhile (fun next => (hitem next).right) rounds' read next, ?_⟩
    intro m s s' hm habreast _
    obtain ⟨hs, hs'⟩ := (habreast.mono hm).atEnd_of_zero
    rw [repeatWhile_of_not (hend s hs), repeatWhile_of_not (hend' s' hs')]
    exact .ok (Nat.le_refl _) habreast
  induction n generalizing rounds rounds' read next with
  | zero => exact hzero rounds rounds' read next
  | succ n ih =>
    obtain ⟨rounds, rfl⟩ := Nat.exists_eq_add_one_of_ne_zero (Nat.ne_zero_of_lt hrounds)
    obtain ⟨rounds', rfl⟩ := Nat.exists_eq_add_one_of_ne_zero (Nat.ne_zero_of_lt hrounds')
    have hothers (read : List α) (next : Option Token) : InStep d n 0 next
        (Parse.repeatWhile more item rounds read) (Parse.repeatWhile more' item' rounds' read) :=
      ih (fun next => (hitem next).mono (Nat.le_succ n) (Nat.le_refl 1))
        (Nat.le_of_succ_le_succ hrounds) (Nat.le_of_succ_le_succ hrounds') read next
    refine .when hmore ?_ (inStep_pure _)
    exact ((hitem next).bind (Nat.le_refl _) fun a next => hothers (a :: read) next).weaken

theorem InStep.separated {item : List α → Parse σ α} {item' : List α → Parse τ α}
    (hitem : ∀ read next, InStep d n 1 next (item read) (item' read)) {rounds rounds' : Nat}
    (hrounds : n ≤ rounds + 1) (hrounds' : n ≤ rounds' + 1) (read : List α)
    (next : Option Token) :
    InStep d n 1 next (separated item (rounds + 1) read) (separated item' (rounds' + 1) read) := by
  induction n using Nat.strongRecOn generalizing rounds rounds' read next with
  | ind n ih =>
    have hrest (a : α) (next : Option Token) : InStep d (n - 1) 0 next
        (do
          if ← Parse.isNext (.mark .comma) then
            advance
            Parse.separated item rounds (a :: read)
          else pure (a :: read).reverse)
        (do
          if ← Parse.isNext (.mark .comma) then
            advance
            Parse.separated item' rounds' (a :: read)
          else pure (a :: read).reverse) := by
      refine .isNext ?_ (inStep_pure _)
      rintro t rfl
      by_cases hn : n ≤ 1
      · have hothers (read : List α) : Steady (some t) (do
              advance
              Parse.separated item rounds read) :=
          (steady_advance t).bind fun _ =>
            .separated (fun read next => (hitem read next).left) rounds read
        have hothers' (read : List α) : Steady (some t) (do
              advance
              Parse.separated item' rounds' read) :=
          (steady_advance t).bind fun _ =>
            .separated (fun read next => (hitem read next).right) rounds' read
        rw [Nat.sub_eq_zero_of_le hn]
        exact .zero (hothers _) (hothers' _)
      · obtain ⟨rounds, rfl⟩ := Nat.exists_eq_add_one_of_ne_zero (n := rounds) (by omega)
        obtain ⟨rounds', rfl⟩ := Nat.exists_eq_add_one_of_ne_zero (n := rounds') (by omega)
        have hothers (next : Option Token) : InStep d (n - 2) 1 next
            (Parse.separated item (rounds + 1) (a :: read))
            (Parse.separated item' (rounds' + 1) (a :: read)) :=
          ih (n - 2) (by omega)
            (fun read next => (hitem read next).mono (Nat.sub_le n 2) (Nat.le_refl 1)) (by omega)
            (by omega) (a :: read) next
        exact ((inStep_advance t).bind (m := n - 2) (by omega) fun _ => hothers).weaken
    exact (hitem read next).bind (by omega) hrest

end Parse
end Sapling
