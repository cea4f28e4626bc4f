import Sapling.Proofs.DepthThreshold
import Sapling.Proofs.ParserRuns

/-!
# Prepared tokens

A text that is parsed while it is read gives what its tokens give when they are prepared beforehand,
with their lines, and with the error or the line at which they end (`parse_eq_replay`). An error of
the text is reported exactly if the parser finds none before it asks for what is behind the last
token.
-/
namespace Sapling

open TokenStream

namespace Lexer

/-- How the fetches end that a drain makes. -/
def stopOf : Except SyntaxError Lexer → Fetched
  | .ok last => .ended last.line
  | .error e => .failed e

theorem stopOf_ne_token (result : Except SyntaxError Lexer) (line : Nat) (t : Option Token) :
    stopOf result ≠ .token line t := by
  cases result <;> simp [stopOf]

theorem isLexical_of_fetch {lexer lexer' : Lexer} {e : SyntaxError}
    (h : Lexer.fetch lexer = .error e lexer') : e.cause.isLexical = true := by
  simp only [Lexer.fetch] at h
  split at h
  · simp at h
  · rcases cause_of_readToken h with hcause | hcause
    · rw [hcause]
      rfl
    · rw [hcause]
      rfl

theorem yields_drainFrom {fuel : Nat} {lexer : Lexer} (read : List (Nat × Token))
    (hfuel : lexer.rest.length < fuel) :
    ∃ tokens result last, drainFrom fuel lexer read = (read.reverse ++ tokens, result) ∧
      Yields lexer (entriesOf tokens ++ [stopOf result]) last ∧
      ∀ e, result = .error e → e.cause.isLexical = true := by
  induction fuel generalizing lexer read with
  | zero => exact absurd hfuel (Nat.not_lt_zero _)
  | succ fuel ih =>
    rw [drainFrom]
    cases hfetch : Lexer.fetch lexer with
    | ok more next =>
      cases more with
      | true =>
        obtain ⟨hfetched, hbehind⟩ := fetched_of_more (σ := Lexer) hfetch
        obtain ⟨hcurrent, hlength⟩ := fetch_eq_ok hfetch
        obtain ⟨t, ht⟩ := Option.isSome_iff_exists.mp hcurrent
        obtain ⟨tokens, result, last, hdrain, hyields, hlexical⟩ :=
          ih ((next.line, t) :: read) (Nat.lt_of_lt_of_le hlength (Nat.le_of_lt_succ hfuel))
        have htoken : fetched lexer = .token next.line (some t) := ht ▸ hfetched
        rw [← hbehind] at hyields
        refine ⟨(next.line, t) :: tokens, result, last, ?_, ?_, hlexical⟩
        · simpa [ht] using hdrain
        · exact yields_cons_iff.mpr ⟨htoken, hyields⟩
      | false =>
        obtain ⟨hfetched, hbehind⟩ := fetched_of_ended (σ := Lexer) hfetch
        exact ⟨[], .ok next, next, by simp, yields_cons_iff.mpr ⟨hfetched, hbehind ▸ .nil⟩, by simp⟩
    | error e next =>
      obtain ⟨hfetched, hbehind⟩ := fetched_of_failed (σ := Lexer) hfetch
      refine ⟨[], .error e, next, by simp, yields_cons_iff.mpr ⟨hfetched, hbehind ▸ .nil⟩, ?_⟩
      intro e' he'
      rw [← Except.error.inj he']
      exact isLexical_of_fetch hfetch

theorem delivers_drain (lexer : Lexer) :
    Delivers lexer lexer.drain.1 (stopOf lexer.drain.2) := by
  obtain ⟨tokens, result, last, hdrain, hyields, -⟩ :=
    yields_drainFrom [] (Nat.lt_succ_self lexer.rest.length)
  have heq : lexer.drain = (tokens, result) := hdrain
  rw [heq]
  exact ⟨stopOf_ne_token result, last, hyields⟩

theorem isLexical_of_drain {lexer : Lexer} {e : SyntaxError} (h : lexer.drain.2 = .error e) :
    e.cause.isLexical = true := by
  obtain ⟨tokens, result, last, hdrain, -, hlexical⟩ :=
    yields_drainFrom [] (Nat.lt_succ_self lexer.rest.length)
  have heq : lexer.drain = (tokens, result) := hdrain
  rw [heq] at h
  exact hlexical e h

theorem toFeed_eq_replaying (lexer : Lexer) :
    lexer.toFeed = Feed.replaying lexer.drain.1 (stopOf lexer.drain.2) := by
  unfold toFeed Feed.replaying
  generalize lexer.drain = drained
  obtain ⟨tokens, result⟩ := drained
  cases result with
  | ok last => rfl
  | error e => rfl

theorem delivers_toFeed (lexer : Lexer) :
    Delivers lexer.toFeed lexer.drain.1 (stopOf lexer.drain.2) := by
  rw [toFeed_eq_replaying]
  exact Feed.delivers_replaying (stopOf_ne_token _)

end Lexer

namespace Parser

variable {σ τ : Type} [TokenStream σ] [TokenStream τ] {options : ParseOptions}
  {tokens : List (Nat × Token)} {stop : Fetched} {outcome : Except SyntaxError Block}

/-- Streams that hand out the same are read alike. -/
theorem run_of_delivers_alike {stream : σ} {other : τ} {last : Recorded σ}
    (h : Delivers stream tokens stop) (hother : Delivers other tokens stop)
    (hrun : run options (Recorded.ofStream stream) = some (outcome, last)) :
    ∃ last', run options (Recorded.ofStream other) = some (outcome, last') ∧
      last'.record = last.record := by
  obtain ⟨hyields, hdemands, -⟩ := run_recorded (τ := σ) hrun
  obtain ⟨lastOther, hyields'⟩ := hother.exists_yields (h.isPrefix hyields hdemands.tokens)
  exact ⟨_, run_recorded_of_yields hrun hyields', rfl⟩

/-- Where a stream fails, the failure is the outcome unless the parser finds an error before. -/
theorem error_iff_of_failed {stream : σ} {last : Recorded σ} {e : SyntaxError}
    (h : Delivers stream tokens (.failed e)) (hlexical : e.cause.isLexical = true)
    (hrun : run options (Recorded.ofStream stream) = some (outcome, last)) :
    outcome = .error e ↔ ¬∃ own, outcome = .error own ∧ own.cause.isLexical = false ∧
      last.record <+: entriesOf tokens := by
  obtain ⟨hyields, hdemands, -⟩ := run_recorded (τ := σ) hrun
  constructor
  · rintro rfl ⟨own, heq, hown, -⟩
    rw [← Except.error.inj heq, hlexical] at hown
    simp at hown
  · intro hnone
    rcases List.prefix_concat_iff.mp (h.isPrefix hyields hdemands.tokens) with hall | hbefore
    · exact hdemands.failed (by rw [hall]; simp)
    · -- The last fetch is of a token, so that it is neither the end nor an error.
      have hlast {entry : Fetched} (hentry : last.record.getLast? = some entry) :
          ∃ line t, entry = .token line (some t) := by
        have hmem := hbefore.subset (List.mem_of_getLast? hentry)
        obtain ⟨⟨line, t⟩, -, ht⟩ := List.mem_map.mp hmem
        exact ⟨line, t, ht.symm⟩
      cases outcome with
      | ok program =>
        obtain ⟨line, hline⟩ := hdemands.ended rfl
        obtain ⟨_, _, heq⟩ := hlast hline
        simp at heq
      | error own =>
        rcases hdemands.own rfl with hown | hfailed
        · exact absurd ⟨own, rfl, hown, hbefore⟩ hnone
        · obtain ⟨_, _, heq⟩ := hlast hfailed
          simp at heq

/-- Reading a text ends as reading its tokens from any stream that replays them does, with the same
fetches, and so do the tokens that the text is prepared as. If the text has an error, it is reported
exactly if the parser finds no error of its own before it fetches behind the last token. -/
theorem parse_eq_replay (options : ParseOptions) (source : String) :
    ∃ last, run options (Recorded.ofStream (Lexer.ofString source)) =
        some (parse options source, last) ∧
      (∀ {τ : Type} [TokenStream τ] (replay : τ),
        Delivers replay (Lexer.ofString source).drain.1
          (Lexer.stopOf (Lexer.ofString source).drain.2) →
        ∃ last', run options (Recorded.ofStream replay) = some (parse options source, last') ∧
          last'.record = last.record) ∧
      (∃ last', run options (Recorded.ofStream (Lexer.ofString source).toFeed) =
          some (parse options source, last') ∧ last'.record = last.record) ∧
      ∀ e, (Lexer.ofString source).drain.2 = .error e →
        (parse options source = .error e ↔
          ¬∃ own, parse options source = .error own ∧ own.cause.isLexical = false ∧
            last.record <+: entriesOf (Lexer.ofString source).drain.1) := by
  have hlexer := Lexer.delivers_drain (Lexer.ofString source)
  obtain ⟨outcome, last, hrun, -⟩ := run_of_delivers hlexer options
  obtain ⟨last', hparse⟩ := run_eq options (Lexer.ofString source)
  obtain rfl : outcome = parse options source :=
    (Prod.mk.inj (Option.some.inj ((run_of_recorded hrun).symm.trans hparse))).1
  refine ⟨last, hrun, fun replay hreplay => run_of_delivers_alike hlexer hreplay hrun,
    run_of_delivers_alike hlexer (Lexer.delivers_toFeed _) hrun, fun e he => ?_⟩
  rw [he] at hlexer
  exact error_iff_of_failed hlexer (Lexer.isLexical_of_drain he) hrun

end Parser
end Sapling
