import Sapling.Parse.Basic

/-!
# What a source still holds

`TokenSource.Supplies source ts` says that a source hands out the tokens `ts` and then ends.
`Lookahead.Holds s ts failure` says the same of a parse in the middle of its source, whose tokens
may also break off with an error. Every parse that has begun holds some tokens
(`Lookahead.exists_holds`), and each of the steps on single tokens takes the first of them.
-/
namespace Sapling

variable {σ α β : Type} [TokenSource σ]

/-- The source hands out these tokens one after another and then ends. -/
inductive TokenSource.Supplies : σ → List Token → Prop
  | done {source source' : σ} (ends : fetch source = .ok false source') : Supplies source []
  | more {source source' : σ} {t : Token} {ts : List Token}
      (fetched : fetch source = .ok true source') (token : current source' = some t)
      (rest : Supplies source' ts) : Supplies source (t :: ts)

open TokenSource

theorem TokenSource.Supplies.of_fetch_eq {source source' : σ} {ts : List Token}
    (h : Supplies source' ts) (heq : fetch source = fetch source') : Supplies source ts := by
  cases h with
  | done ends => exact .done (heq.trans ends)
  | more fetched token rest => exact .more (heq.trans fetched) token rest

theorem TokenSource.Supplies.unique {source : σ} {ts us : List Token} (ht : Supplies source ts)
    (hu : Supplies source us) : ts = us := by
  induction ht generalizing us with
  | done ends =>
    cases hu with
    | done _ => rfl
    | more fetched _ _ => simp [ends] at fetched
  | more fetched token _ ih =>
    cases hu with
    | done ends => simp [ends] at fetched
    | more fetched' token' rest' =>
      obtain rfl := (EStateM.Result.ok.inj (fetched.symm.trans fetched')).2
      obtain rfl := Option.some.inj (token.symm.trans token')
      rw [ih rest']

def Feed.ofTokens (ts : List Token) : Feed :=
  .ofEntries (ts.map fun t => ⟨1, .ok t⟩)

theorem Feed.supplies_ofTokens (ts : List Token) : Supplies (Feed.ofTokens ts) ts := by
  have hrest (feed : Feed) (h : feed.rest = ts.map fun t => ⟨1, .ok t⟩) : Supplies feed ts := by
    induction ts generalizing feed with
    | nil => exact .done (by simp [TokenSource.fetch, Feed.fetch, h]; rfl)
    | cons t ts ih =>
      have hfetch : TokenSource.fetch feed = .ok true
          { feed with rest := ts.map fun t => ⟨1, .ok t⟩, line := 1, current := some t } := by
        simp [TokenSource.fetch, Feed.fetch, h]
      exact .more hfetch rfl (ih _ rfl)
  exact hrest _ rfl

namespace Lookahead

/-- The next token is `t`, and taking it leads to `s'`. -/
def Step (s : Lookahead σ) (t : Token) (s' : Lookahead σ) : Prop :=
  s.token? = some t ∧ Parse.advance s = .ok () s'

/-- The tokens from the next one on, with the error at which they break off if they do. -/
inductive Holds : Lookahead σ → List Token → Option SyntaxError → Prop
  | done {s : Lookahead σ} (ends : s.atEnd = true) : Holds s [] none
  | more {s s' : Lookahead σ} {t : Token} {ts : List Token} {failure : Option SyntaxError}
      (step : s.Step t s') (rest : Holds s' ts failure) : Holds s (t :: ts) failure
  | broken {s s' : Lookahead σ} {t : Token} {e : SyntaxError} (token : s.token? = some t)
      (fails : Parse.advance s = .error e s') : Holds s [t] (some e)

variable {s s' : Lookahead σ} {t : Token} {ts : List Token} {failure : Option SyntaxError}

theorem token?_of_atEnd (h : s.atEnd = true) : s.token? = none := by simp [token?, h]

theorem atEnd_of_token? (h : s.token? = some t) : s.atEnd = false := by
  cases hs : s.atEnd with
  | false => rfl
  | true => simp [token?_of_atEnd hs] at h

theorem Holds.token?_eq (h : s.Holds ts failure) : s.token? = ts.head? := by
  cases h with
  | done ends => exact token?_of_atEnd ends
  | more step _ => exact step.1
  | broken token _ => exact token

theorem Holds.atEnd_eq (h : s.Holds ts failure) : s.atEnd = ts.isEmpty := by
  cases h with
  | done ends => exact ends
  | more step _ => exact atEnd_of_token? step.1
  | broken token _ => exact atEnd_of_token? token

theorem Holds.eq_none (h : s.Holds [] failure) : failure = none := by
  cases h with
  | done _ => rfl

theorem Holds.of_step (h : s.Holds ts failure) (step : s.Step t s') :
    ∃ rest, ts = t :: rest ∧ s'.Holds rest failure := by
  cases h with
  | done ends => simp [Step, token?_of_atEnd ends] at step
  | more step' rest =>
    obtain rfl := Option.some.inj (step'.1.symm.trans step.1)
    obtain rfl := (EStateM.Result.ok.inj (step'.2.symm.trans step.2)).2
    exact ⟨_, rfl, rest⟩
  | broken _ fails => simp [Step, fails] at step

theorem Holds.exists_advance (h : s.Holds (t :: ts) none) :
    ∃ s', Parse.advance s = .ok () s' ∧ s'.Holds ts none := by
  cases h with
  | more step rest => exact ⟨_, step.2, rest⟩

theorem ofSource_eq_ok_iff {source : σ} :
    ofSource source = .ok s ↔
      ∃ more, fetch source = .ok more s.source ∧ s.atEnd = !more := by
  unfold ofSource
  constructor
  · intro h
    split at h
    · next more source' hfetch =>
      obtain rfl := Except.ok.inj h
      exact ⟨more, hfetch, rfl⟩
    · simp at h
  · rintro ⟨more, hfetch, hend⟩
    simp only [hfetch, ← hend]

/-- Between two tokens a parse fetches from its source as it does at the beginning. -/
theorem advance_eq_ok_iff : Parse.advance s = .ok () s' ↔ ofSource s.source = .ok s' := by
  unfold Parse.advance ofSource
  split <;> simp

theorem exists_advance_error_iff {e : SyntaxError} :
    (∃ s', Parse.advance s = .error e s') ↔ ofSource s.source = .error e := by
  unfold Parse.advance ofSource
  split <;> simp

theorem current_of_ofSource {source : σ} (h : ofSource source = .ok s) :
    s.atEnd = true ∨
      s.atEnd = false ∧ (current s.source).isSome ∧ bound s.source < bound source := by
  obtain ⟨more, hfetch, hend⟩ := ofSource_eq_ok_iff.mp h
  cases more with
  | false => exact .inl hend
  | true => exact .inr ⟨hend, current_isSome hfetch, bound_lt hfetch⟩

theorem Holds.length_le (h : s.Holds ts failure) : ts.length ≤ bound s.source + 1 := by
  induction h with
  | done _ => exact Nat.zero_le _
  | more step rest ih =>
    rcases current_of_ofSource (advance_eq_ok_iff.mp step.2) with hend | ⟨-, -, hlt⟩
    · have := rest.atEnd_eq
      simp_all
    · simp only [List.length_cons]
      omega
  | broken _ _ => simp

theorem exists_holds_of_current (h : s.atEnd = true ∨ (current s.source).isSome) :
    ∃ ts failure, s.Holds ts failure := by
  -- The bound of the source falls with every token, so that the tokens come to an end.
  induction hn : bound s.source using Nat.strongRecOn generalizing s with
  | ind n ih =>
    cases hend : s.atEnd with
    | true => exact ⟨[], none, .done hend⟩
    | false =>
      obtain ⟨t, ht⟩ := Option.isSome_iff_exists.mp (h.resolve_left (by simp [hend]))
      have htoken : s.token? = some t := by simp [token?, hend, ht]
      cases hadvance : Parse.advance s with
      | error e s' => exact ⟨[t], some e, .broken htoken hadvance⟩
      | ok _ s' =>
        have step : s.Step t s' := ⟨htoken, hadvance⟩
        rcases current_of_ofSource (advance_eq_ok_iff.mp hadvance) with hend' | ⟨-, hcurrent, hlt⟩
        · exact ⟨[t], none, .more step (.done hend')⟩
        · obtain ⟨ts, failure, hts⟩ := ih _ (hn ▸ hlt) (.inr hcurrent) rfl
          exact ⟨t :: ts, failure, .more step hts⟩

theorem exists_holds {source : σ} (h : ofSource source = .ok s) :
    ∃ ts failure, s.Holds ts failure := by
  apply exists_holds_of_current
  rcases current_of_ofSource h with hend | ⟨-, hcurrent, -⟩
  · exact .inl hend
  · exact .inr hcurrent

theorem Holds.supplies {source : σ} (h : s.Holds ts failure) (hf : failure = none)
    (hs : ofSource source = .ok s) : Supplies source ts := by
  induction h generalizing source with
  | done ends =>
    obtain ⟨more, hfetch, hend⟩ := ofSource_eq_ok_iff.mp hs
    obtain rfl : more = false := by simpa [hend] using ends
    exact .done hfetch
  | more step rest ih =>
    obtain ⟨more, hfetch, hend⟩ := ofSource_eq_ok_iff.mp hs
    obtain rfl : more = true := by simpa [hend] using atEnd_of_token? step.1
    have htoken := step.1
    simp only [token?, hend] at htoken
    exact .more hfetch htoken (ih hf (advance_eq_ok_iff.mp step.2))
  | broken _ _ => simp at hf

theorem exists_ofSource {source : σ} (h : Supplies source ts) :
    ∃ s, ofSource source = .ok s ∧ s.Holds ts none := by
  induction h with
  | @done source source' ends =>
    exact ⟨⟨source', true⟩, by simp [ofSource, ends], .done rfl⟩
  | @more source source' t ts fetched token _ ih =>
    obtain ⟨s', hs', hrest⟩ := ih
    have step : Step ⟨source', false⟩ t s' := ⟨by simpa [token?] using token,
      advance_eq_ok_iff.mpr hs'⟩
    exact ⟨⟨source', false⟩, by simp [ofSource, fetched], .more step hrest⟩

end Lookahead
end Sapling
