import Sapling.Parse.Basic
import Sapling.Proofs.TokenReading

/-!
# The steps of a parse

How a parse that succeeds is put together, and what its steps on single tokens do on the tokens
that it holds.
-/
namespace Sapling.Parse

variable {σ α β : Type} {s s' s'' : Lookahead σ}

theorem bind_eq_ok {p : Parse σ α} {f : α → Parse σ β} {b : β} :
    (p >>= f) s = .ok b s'' ↔ ∃ a s', p s = .ok a s' ∧ f a s' = .ok b s'' := by
  simp only [bind, EStateM.bind]
  cases p s with
  | ok a s' => simp [and_assoc]
  | error e s' => simp

theorem bind_of_ok {p : Parse σ α} {f : α → Parse σ β} {a : α} (h : p s = .ok a s') :
    (p >>= f) s = f a s' := by
  simp only [bind, EStateM.bind, h]

theorem pure_eq_ok {a b : α} : (pure a : Parse σ α) s = .ok b s' ↔ a = b ∧ s = s' := by
  simp [pure, EStateM.pure]

@[simp] theorem get_bind (f : Lookahead σ → Parse σ β) :
    (get >>= f : Parse σ β) s = f s s := rfl

variable [TokenSource σ]

@[simp] theorem peek_bind (f : Option Token → Parse σ β) : (peek >>= f) s = f s.token? s := rfl

@[simp] theorem isNext_bind (kind : Token) (f : Bool → Parse σ β) :
    (isNext kind >>= f) s = f (s.isAt kind) s := rfl

@[simp] theorem fail_ne_ok (cause : Lookahead σ → Cause) (a : α) : fail cause s ≠ .ok a s' :=
  nofun

@[simp] theorem violation_ne_ok (v : Violation) (a : α) : violation v s ≠ .ok a s' := nofun

@[simp] theorem unexpected_ne_ok (rule : Rule) (a : α) : unexpected rule s ≠ .ok a s' := nofun

variable {t : Token} {ts : List Token} {failure : Option SyntaxError}

theorem sameKind_mark {m : Mark} : t.sameKind (.mark m) = true ↔ t = .mark m := by
  cases t <;> simp [Token.sameKind]

theorem sameKind_keyword {k : Keyword} : t.sameKind (.keyword k) = true ↔ t = .keyword k := by
  cases t <;> simp [Token.sameKind]

theorem isAt_mark (hs : s.Holds ts failure) (m : Mark) :
    s.isAt (.mark m) = true ↔ ts.head? = some (.mark m) := by
  rw [Lookahead.isAt, hs.token?_eq]
  cases ts <;> simp [sameKind_mark]

theorem isAt_keyword (hs : s.Holds ts failure) (k : Keyword) :
    s.isAt (.keyword k) = true ↔ ts.head? = some (.keyword k) := by
  rw [Lookahead.isAt, hs.token?_eq]
  cases ts <;> simp [sameKind_keyword]

theorem advance_sound (hs : s.Holds (t :: ts) failure) (h : advance s = .ok () s') :
    s'.Holds ts failure := by
  obtain ⟨rest, heq, hrest⟩ := hs.of_step ⟨hs.token?_eq, h⟩
  rwa [(List.cons.inj heq).2]

/-- What can be taken as a token of a kind is the kind itself, for kinds that hold nothing. -/
theorem eat_sound {kind : Token} (hkind : ∀ t : Token, t.sameKind kind = true → t = kind)
    (hs : s.Holds ts failure) (h : eat kind s = .ok () s') :
    ∃ rest, ts = kind :: rest ∧ s'.Holds rest failure := by
  simp only [eat, isNext_bind] at h
  split at h
  · next hat =>
    rw [Lookahead.isAt, hs.token?_eq] at hat
    cases ts with
    | nil => simp at hat
    | cons t rest =>
      obtain rfl := hkind t (by simpa using hat)
      exact ⟨rest, rfl, advance_sound hs h⟩
  · simp at h

theorem eat_mark_sound {m : Mark} (hs : s.Holds ts failure) (h : eat (.mark m) s = .ok () s') :
    ∃ rest, ts = .mark m :: rest ∧ s'.Holds rest failure :=
  eat_sound (fun _ => sameKind_mark.mp) hs h

theorem eat_keyword_sound {k : Keyword} (hs : s.Holds ts failure)
    (h : eat (.keyword k) s = .ok () s') :
    ∃ rest, ts = .keyword k :: rest ∧ s'.Holds rest failure :=
  eat_sound (fun _ => sameKind_keyword.mp) hs h

theorem exists_eat {kind : Token} (hkind : kind.sameKind kind = true)
    (hs : s.Holds (kind :: ts) none) : ∃ s', eat kind s = .ok () s' ∧ s'.Holds ts none := by
  obtain ⟨s', hadvance, hs'⟩ := hs.exists_advance
  have hat : s.isAt kind = true := by simp [Lookahead.isAt, hs.token?_eq, hkind]
  exact ⟨s', by simp [eat, hat, hadvance], hs'⟩

theorem exists_eat_mark {m : Mark} (hs : s.Holds (.mark m :: ts) none) :
    ∃ s', eat (.mark m) s = .ok () s' ∧ s'.Holds ts none :=
  exists_eat (sameKind_mark.mpr rfl) hs

theorem exists_eat_keyword {k : Keyword} (hs : s.Holds (.keyword k :: ts) none) :
    ∃ s', eat (.keyword k) s = .ok () s' ∧ s'.Holds ts none :=
  exists_eat (sameKind_keyword.mpr rfl) hs

end Sapling.Parse
