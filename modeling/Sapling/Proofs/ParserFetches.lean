import Sapling.Proofs.TokenStreams

/-!
# What a parser fetches

`Reads p entries outcome` says that a call which begins at `p` fetches these entries and has this
outcome, and that it fetches only to take a token that it has looked at. So nothing is fetched
behind the end or an error of the stream, and the depth is left as it was found.
-/
namespace Sapling

/-- Whether an error is found in a text before any grammar is asked. -/
def Cause.isLexical : Cause → Bool
  | .unexpectedCharacter _ => true
  | .unterminatedString => true
  | _ => false

namespace Parser

open TokenStream

variable {σ τ α β : Type}

/-- How a call can end that begins at a parser, with what it fetches: it takes tokens one by one,
until it answers, or finds an error of the grammar on the line that the stream has reached, or meets
one of the stream behind the token that it takes. -/
inductive Reads [TokenStream σ] : Parser σ → List Fetched → Outcome σ α → Prop
  | ok {p : Parser σ} {a : α} : Reads p [] (.ok a, p)
  | error {p : Parser σ} {e : SyntaxError} (own : e.cause.isLexical = false)
      (line : e.line = TokenStream.line p.stream) : Reads p [] (.error e, p)
  | broken {p q : Parser σ} {t : Token} {e : SyntaxError} (token : p.token? = some t)
      (fails : advance p = some (.error e, q)) : Reads p [fetched p.stream] (.error e, q)
  | step {p q : Parser σ} {t : Token} {entries : List Fetched} {outcome : Outcome σ α}
      (token : p.token? = some t) (taken : advance p = some (.ok (), q))
      (rest : Reads q entries outcome) : Reads p (fetched p.stream :: entries) outcome

section
variable [TokenStream σ] {p q : Parser σ} {t : Token} {e : SyntaxError}
  {entries more : List Fetched} {outcome : Outcome σ α}

theorem atEnd_of_token? (h : p.token? = some t) : p.atEnd = false := by
  cases hend : p.atEnd with
  | false => rfl
  | true => simp [token?, hend] at h

theorem advance_of_fetched (p : Parser σ) :
    (∃ line t, fetched p.stream = .token line t ∧
      advance p = some (.ok (), { p with stream := behind p.stream, atEnd := false }) ∧
      current (behind p.stream) = t ∧ TokenStream.line (behind p.stream) = line) ∨
    (∃ line, fetched p.stream = .ended line ∧
      advance p = some (.ok (), { p with stream := behind p.stream, atEnd := true }) ∧
      TokenStream.line (behind p.stream) = line) ∨
    ∃ e, fetched p.stream = .failed e ∧
      advance p = some (.error e, { p with stream := behind p.stream }) := by
  unfold fetched advance behind
  cases hfetch : fetch p.stream with
  | ok more next =>
    cases more with
    | true => exact .inl ⟨_, _, rfl, rfl, rfl, rfl⟩
    | false => exact .inr (.inl ⟨_, rfl, rfl, rfl⟩)
  | error e next => exact .inr (.inr ⟨e, rfl, rfl⟩)

theorem advance_ok (h : advance p = some (.ok (), q)) :
    q.stream = behind p.stream ∧ q.depth = p.depth ∧ q.options = p.options ∧
      ((∃ line t, fetched p.stream = .token line t ∧ q.atEnd = false ∧
        current q.stream = t) ∨
      ∃ line, fetched p.stream = .ended line ∧ q.atEnd = true) := by
  rcases advance_of_fetched p with ⟨line, t, hf, ha, ht, -⟩ | ⟨line, hf, ha, -⟩ | ⟨e, -, ha⟩
  · rw [ha] at h
    obtain ⟨-, rfl⟩ := Prod.mk.inj (Option.some.inj h)
    exact ⟨rfl, rfl, rfl, .inl ⟨line, t, hf, rfl, ht⟩⟩
  · rw [ha] at h
    obtain ⟨-, rfl⟩ := Prod.mk.inj (Option.some.inj h)
    exact ⟨rfl, rfl, rfl, .inr ⟨line, hf, rfl⟩⟩
  · simp [ha] at h

theorem advance_error (h : advance p = some (.error e, q)) :
    fetched p.stream = .failed e ∧ q = { p with stream := behind p.stream } := by
  rcases advance_of_fetched p with ⟨_, _, -, ha, -⟩ | ⟨_, -, ha, -⟩ | ⟨e', hf, ha⟩
  · simp [ha] at h
  · simp [ha] at h
  · rw [ha] at h
    obtain ⟨he, rfl⟩ := Prod.mk.inj (Option.some.inj h)
    obtain rfl := Except.error.inj he
    exact ⟨hf, rfl⟩

theorem fetched_ne_failed (taken : advance p = some (.ok (), q)) (e : SyntaxError) :
    fetched p.stream ≠ .failed e := by
  rcases (advance_ok taken).2.2.2 with ⟨line, t, hf, -⟩ | ⟨line, hf, -⟩
  · simp [hf]
  · simp [hf]

theorem fetched_of_token? {u : Token} (taken : advance p = some (.ok (), q))
    (hu : q.token? = some u) : ∃ line, fetched p.stream = .token line (some u) := by
  have hend := atEnd_of_token? hu
  rcases (advance_ok taken).2.2.2 with ⟨line, t', hf, -, hcurrent⟩ | ⟨line, -, hend'⟩
  · have ht : t' = some u := by
      rw [← hcurrent, ← hu, token?, hend]
      rfl
    exact ⟨line, by rw [hf, ht]⟩
  · simp [hend] at hend'

namespace Reads

theorem depth_eq (h : Reads p entries outcome) : outcome.2.depth = p.depth := by
  induction h with
  | ok => rfl
  | error _ _ => rfl
  | broken _ fails => rw [(advance_error fails).2]
  | step _ taken _ ih => exact ih.trans (advance_ok taken).2.1

theorem options_eq (h : Reads p entries outcome) : outcome.2.options = p.options := by
  induction h with
  | ok => rfl
  | error _ _ => rfl
  | broken _ fails => rw [(advance_error fails).2]
  | step _ taken _ ih => exact ih.trans (advance_ok taken).2.2.1

theorem yields (h : Reads p entries outcome) : Yields p.stream entries outcome.2.stream := by
  induction h with
  | ok => exact .nil
  | error _ _ => exact .nil
  | broken _ fails =>
    rw [(advance_error fails).2]
    exact .cons .nil
  | step _ taken _ ih =>
    rw [(advance_ok taken).1] at ih
    exact .cons ih

theorem exists_token (h : Reads p entries outcome) (hne : entries ≠ []) :
    ∃ t, p.token? = some t := by
  cases h with
  | ok => exact absurd rfl hne
  | error _ _ => exact absurd rfl hne
  | broken token _ => exact ⟨_, token⟩
  | step token _ _ => exact ⟨_, token⟩

theorem token_of_mem_dropLast_cons (h : Reads q entries outcome)
    (taken : advance p = some (.ok (), q))
    (htokens : ∀ entry ∈ entries.dropLast, ∃ line t, entry = .token line (some t)) :
    ∀ entry ∈ (fetched p.stream :: entries).dropLast, ∃ line t, entry = .token line (some t) := by
  intro entry hentry
  have hne : entries ≠ [] := by
    rintro rfl
    simp at hentry
  rw [List.dropLast_cons_of_ne_nil hne] at hentry
  rcases List.mem_cons.mp hentry with rfl | hentry
  · obtain ⟨u, hu⟩ := h.exists_token hne
    obtain ⟨line, hline⟩ := fetched_of_token? taken hu
    exact ⟨line, u, hline⟩
  · exact htokens entry hentry

/-- A fetch that does not give a token is the last one. -/
theorem token_of_mem_dropLast (h : Reads p entries outcome) :
    ∀ entry ∈ entries.dropLast, ∃ line t, entry = .token line (some t) := by
  induction h with
  | ok => simp
  | error _ _ => simp
  | broken _ _ => simp
  | step _ taken rest ih => exact rest.token_of_mem_dropLast_cons taken ih

/-- An error of the stream ends the call, and is its error. -/
theorem error_of_failed (h : Reads p entries outcome) (hfailed : .failed e ∈ entries) :
    outcome.1 = .error e := by
  induction h with
  | ok => simp at hfailed
  | error _ _ => simp at hfailed
  | broken _ fails =>
    rw [(advance_error fails).1, List.mem_singleton] at hfailed
    rw [Fetched.failed.inj hfailed]
  | step _ taken _ ih =>
    rcases List.mem_cons.mp hfailed with heq | hrest
    · exact absurd heq.symm (fetched_ne_failed taken e)
    · exact ih hrest

theorem own_of_error (h : Reads p entries outcome) (he : outcome.1 = .error e) :
    e.cause.isLexical = false ∨ entries.getLast? = some (.failed e) := by
  induction h with
  | ok => simp at he
  | error own _ =>
    obtain rfl := Except.error.inj he
    exact .inl own
  | broken _ fails =>
    obtain rfl := Except.error.inj he
    exact .inr (by rw [(advance_error fails).1]; rfl)
  | step _ _ _ ih =>
    rcases ih he with hown | hlast
    · exact .inl hown
    · exact .inr (by rw [List.getLast?_cons, hlast]; rfl)

theorem line_cons {line : Nat} (taken : advance p = some (.ok (), q))
    (h : (entries = [] ∧ line = TokenStream.line q.stream) ∨
      ∃ entry, entries.getLast? = some entry ∧ line = entry.line) :
    ∃ entry, (fetched p.stream :: entries).getLast? = some entry ∧ line = entry.line := by
  rcases h with ⟨rfl, hline⟩ | ⟨entry, hlast, hline⟩
  · refine ⟨fetched p.stream, rfl, ?_⟩
    rcases advance_of_fetched p with ⟨_, _, hf, ha, -, hl⟩ | ⟨_, hf, ha, hl⟩ | ⟨_, -, ha⟩
    · rw [(advance_ok taken).1, hl] at hline
      rw [hf, hline, Fetched.line]
    · rw [(advance_ok taken).1, hl] at hline
      rw [hf, hline, Fetched.line]
    · simp [taken] at ha
  · exact ⟨entry, by rw [List.getLast?_cons, hlast]; rfl, hline⟩

/-- An error is on the line of the last fetch before it. -/
theorem line_of_error (h : Reads p entries outcome) (he : outcome.1 = .error e) :
    (entries = [] ∧ e.line = TokenStream.line p.stream) ∨
      ∃ entry, entries.getLast? = some entry ∧ e.line = entry.line := by
  induction h with
  | ok => simp at he
  | error _ line =>
    obtain rfl := Except.error.inj he
    exact .inl ⟨rfl, line⟩
  | broken _ fails =>
    obtain rfl := Except.error.inj he
    exact .inr ⟨_, rfl, (congrArg Fetched.line (advance_error fails).1).symm⟩
  | step _ taken _ ih => exact .inr (line_cons taken (ih he))

theorem ended_cons (taken : advance p = some (.ok (), q))
    (h : (entries = [] ∧ q.atEnd = true) ∨ ∃ line, entries.getLast? = some (.ended line)) :
    ∃ line, (fetched p.stream :: entries).getLast? = some (.ended line) := by
  rcases h with ⟨rfl, hq⟩ | ⟨line, hlast⟩
  · rcases (advance_ok taken).2.2.2 with ⟨_, _, -, hmore, -⟩ | ⟨line, hf, -⟩
    · simp [hq] at hmore
    · exact ⟨line, by rw [hf]; rfl⟩
  · exact ⟨line, by rw [List.getLast?_cons, hlast]; rfl⟩

/-- A call that succeeds is at the end only if its last fetch, or one before it, was the end. -/
theorem ended_of_ok {a : α} (h : Reads p entries outcome) (hok : outcome.1 = .ok a)
    (hend : outcome.2.atEnd = true) :
    (entries = [] ∧ p.atEnd = true) ∨ ∃ line, entries.getLast? = some (.ended line) := by
  induction h with
  | ok => exact .inl ⟨rfl, hend⟩
  | error _ _ => simp at hok
  | broken _ _ => simp at hok
  | step _ taken _ ih => exact .inr (ended_cons taken (ih hok hend))

theorem append {a : α} {next : Outcome σ β} (h : Reads p entries outcome)
    (hok : outcome.1 = .ok a) (h' : Reads outcome.2 more next) :
    Reads p (entries ++ more) next := by
  induction h with
  | ok => exact h'
  | error _ _ => simp at hok
  | broken _ _ => simp at hok
  | step token taken _ ih => exact .step token taken (ih hok h')

theorem of_error (h : Reads p entries outcome) (he : outcome.1 = .error e) :
    Reads p entries ((.error e, outcome.2) : Outcome σ β) := by
  induction h with
  | ok => simp at he
  | error own line =>
    obtain rfl := Except.error.inj he
    exact .error own line
  | broken token fails =>
    obtain rfl := Except.error.inj he
    exact .broken token fails
  | step token taken _ ih => exact .step token taken (ih he)

theorem at_depth (h : Reads p entries outcome) (depth : Nat) :
    Reads { p with depth } entries (outcome.1, { outcome.2 with depth }) := by
  have hadvance {p q : Parser σ} {result : Except SyntaxError Unit}
      (h : advance p = some (result, q)) :
      advance { p with depth } = some (result, { q with depth }) := by
    unfold advance at h ⊢
    cases hfetch : fetch p.stream with
    | ok more next =>
      rw [hfetch] at h
      obtain ⟨rfl, rfl⟩ := Prod.mk.inj (Option.some.inj h)
      rfl
    | error e next =>
      rw [hfetch] at h
      obtain ⟨rfl, rfl⟩ := Prod.mk.inj (Option.some.inj h)
      rfl
  induction h with
  | ok => exact .ok
  | error own line => exact .error own line
  | broken token fails => exact .broken token (hadvance fails)
  | step token taken _ ih => exact .step token (hadvance taken) ih

end Reads

end
end Parser
end Sapling
