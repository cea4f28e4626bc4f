import Mathlib.Data.Nat.Find
import Sapling.Proofs.LexerTokens
import Sapling.Proofs.NestingLimit
import Sapling.Proofs.ViablePrefix

/-!
# The limit of nesting is a threshold

With more levels than tokens a source is never found to nest too deep. With fewer levels it gives
the same program or error down to some number of levels (`exists_depth_threshold`), and below that
number it is always found to nest too deep.
-/
namespace Sapling

open TokenSource

theorem Lookahead.fetch_of_advance_eq_error {σ : Type} [TokenSource σ] {s s' : Lookahead σ}
    {e : SyntaxError} (h : Parse.advance s = .error e s') :
    ∃ source' : σ, fetch s.source = .error e source' := by
  unfold Parse.advance at h
  split at h
  · simp at h
  · next source' hfetch =>
    obtain ⟨rfl, -⟩ := EStateM.Result.error.inj h
    exact ⟨source', hfetch⟩

theorem Lookahead.fetch_of_ofSource_eq_error {σ : Type} [TokenSource σ] {source : σ}
    {e : SyntaxError} (h : ofSource source = .error e) :
    ∃ source' : σ, fetch source = .error e source' := by
  unfold ofSource at h
  split at h
  · simp at h
  · next source' hfetch =>
    obtain rfl := Except.error.inj h
    exact ⟨source', hfetch⟩

theorem Lookahead.Holds.exists_fetch {σ : Type} [TokenSource σ] {s : Lookahead σ}
    {ts : List Token} {failure : Option SyntaxError} {e : SyntaxError}
    (hs : s.Holds ts failure) (he : failure = some e) :
    ∃ source source' : σ, fetch source = .error e source' := by
  induction hs with
  | done _ => simp at he
  | more _ _ ih => exact ih he
  | @broken s s' t e' _ fails =>
    obtain rfl := Option.some.inj he
    obtain ⟨source', hfetch⟩ := fetch_of_advance_eq_error fails
    exact ⟨s.source, source', hfetch⟩

namespace Lexer

variable {lexer lexer' : Lexer}

theorem cause_of_readToken {c : Char} {cs : List Char} {e : SyntaxError}
    (h : readToken lexer c cs = .error e lexer') :
    e.cause = .unterminatedString ∨ e.cause = .unexpectedCharacter c := by
  simp only [readToken] at h
  split at h
  · split at h
    · rw [← (EStateM.Result.error.inj h).1]
      exact .inl rfl
    · simp at h
  · split at h
    · simp at h
    · split at h
      · simp at h
      · split at h
        · simp at h
        · rw [← (EStateM.Result.error.inj h).1]
          exact .inr rfl

/-- Reading a text does not find that nesting is too deep. -/
theorem cause_ne_nesting {e : SyntaxError} (h : fetch lexer = .error e lexer') :
    e.cause ≠ .grammar .nesting := by
  simp only [fetch] at h
  split at h
  · simp at h
  · rcases cause_of_readToken h with hcause | hcause
    · simp [hcause]
    · simp [hcause]

theorem fetch_of_token? {s : Lookahead Lexer} {t : Token} (h : Lookahead.ofSource lexer = .ok s)
    (ht : s.token? = some t) : fetch lexer = .ok true s.source ∧ s.source.current = some t := by
  obtain ⟨more, hfetch, hend⟩ := Lookahead.ofSource_eq_ok_iff.mp h
  have hat := Lookahead.atEnd_of_token? ht
  obtain rfl : more = true := by simpa [hat] using hend
  have hcurrent : TokenSource.current s.source = some t := by simpa [Lookahead.token?, hat] using ht
  exact ⟨hfetch, hcurrent⟩

theorem length_drainFrom {s : Lookahead Lexer} {ts : List Token} {failure : Option SyntaxError}
    (hs : s.Holds ts failure) (h : Lookahead.ofSource lexer = .ok s) {fuel : Nat}
    (read : List (Nat × Token)) (hfuel : lexer.rest.length < fuel) :
    (drainFrom fuel lexer read).1.length = read.length + ts.length := by
  induction hs generalizing lexer fuel read with
  | @done s ends =>
    obtain ⟨fuel, rfl⟩ := Nat.exists_eq_add_one_of_ne_zero (Nat.ne_zero_of_lt hfuel)
    obtain ⟨more, hfetch, hend⟩ := Lookahead.ofSource_eq_ok_iff.mp h
    obtain rfl : more = false := by simpa [ends] using hend
    have hfetch' : fetch lexer = .ok false s.source := hfetch
    simp [drainFrom, hfetch']
  | @more s s' t ts _ step _ ih =>
    obtain ⟨fuel, rfl⟩ := Nat.exists_eq_add_one_of_ne_zero (Nat.ne_zero_of_lt hfuel)
    obtain ⟨hfetch, hcurrent⟩ := fetch_of_token? h step.1
    have hlength := (fetch_eq_ok hfetch).2
    simp only [drainFrom, hfetch, hcurrent]
    rw [ih (Lookahead.advance_eq_ok_iff.mp step.2) _ (by omega)]
    simp
    omega
  | @broken s s' t e token fails =>
    obtain ⟨fuel, rfl⟩ := Nat.exists_eq_add_one_of_ne_zero (Nat.ne_zero_of_lt hfuel)
    obtain ⟨hfetch, hcurrent⟩ := fetch_of_token? h token
    have hlength := (fetch_eq_ok hfetch).2
    obtain ⟨fuel, rfl⟩ := Nat.exists_eq_add_one_of_ne_zero (n := fuel) (by omega)
    obtain ⟨lexer', hfails⟩ := Lookahead.fetch_of_advance_eq_error fails
    have hfails' : fetch s.source = .error e lexer' := hfails
    simp [drainFrom, hfetch, hcurrent, hfails']

end Lexer

namespace Parse

variable {source : String} {strict : Bool} {levels levels' : Nat}

/-- Fewer levels change nothing or end the parse because nesting is too deep. -/
theorem parse_limits (source : String) (strict : Bool) (hlevels : levels ≤ levels') :
    parse ⟨strict, levels⟩ source = parse ⟨strict, levels'⟩ source ∨
      ∃ line, parse ⟨strict, levels⟩ source = .error ⟨line, .grammar .nesting⟩ := by
  unfold parse parseFrom
  cases Lookahead.ofSource (Lexer.ofString source) with
  | error e => exact .inl rfl
  | ok s =>
    rcases limits_program strict hlevels s with heq | ⟨line, s', hnesting⟩
    · simp only [heq]
      exact .inl trivial
    · simp only [hnesting]
      exact .inr ⟨line, rfl⟩

/-- More levels than tokens are enough. -/
theorem parse_ne_nesting (hlevels : (Lexer.ofString source).drain.1.length < levels) (line : Nat) :
    parse ⟨strict, levels⟩ source ≠ .error ⟨line, .grammar .nesting⟩ := by
  intro h
  cases hs : Lookahead.ofSource (Lexer.ofString source) with
  | error e =>
    obtain rfl : e = ⟨line, .grammar .nesting⟩ := by simpa [parse, parseFrom, hs] using h
    obtain ⟨_, hfetch⟩ := Lookahead.fetch_of_ofSource_eq_error hs
    exact Lexer.cause_ne_nesting hfetch rfl
  | ok s =>
    obtain ⟨ts, failure, hts⟩ := Lookahead.exists_holds hs
    have hdrain : (Lexer.ofString source).drain.1.length = ts.length := by
      simpa [Lexer.drain] using Lexer.length_drainFrom hts hs [] (Nat.lt_succ_self _)
    rw [hdrain] at hlevels
    obtain ⟨s', herror⟩ := (parseFrom_eq_error_iff_program hs).mp h
    rcases cause_of_program_error hts hlevels herror with hfailure | hcause
    · obtain ⟨_, _, hfetch⟩ := hts.exists_fetch hfailure
      exact Lexer.cause_ne_nesting hfetch rfl
    · exact hcause rfl

end Parse

/-- Every text has a number of levels, at most one more than its tokens, from which on its program
or error stays the same and below which it nests too deep. -/
theorem exists_depth_threshold (source : String) (strict : Bool) :
    ∃ m ≤ (Lexer.ofString source).drain.1.length + 1, ∃ result : Except SyntaxError Block,
      parse ⟨strict, (Lexer.ofString source).drain.1.length + 1⟩ source = result ∧
      (∀ line, result ≠ .error ⟨line, .grammar .nesting⟩) ∧
      (∀ d, m ≤ d → parse ⟨strict, d⟩ source = result) ∧
      ∀ d < m, ∃ line, parse ⟨strict, d⟩ source = .error ⟨line, .grammar .nesting⟩ := by
  classical
  obtain ⟨n, hn⟩ : ∃ n, n = (Lexer.ofString source).drain.1.length := ⟨_, rfl⟩
  obtain ⟨result, hresult⟩ : ∃ result, parse ⟨strict, n + 1⟩ source = result := ⟨_, rfl⟩
  have hne : ∀ line, result ≠ .error ⟨line, .grammar .nesting⟩ :=
    hresult ▸ Parse.parse_ne_nesting (hn ▸ Nat.lt_succ_self n)
  -- The threshold is the least number of levels that gives the result.
  have hex : ∃ m, parse ⟨strict, m⟩ source = result := ⟨n + 1, hresult⟩
  have hleast := Nat.find_spec hex
  have hle := Nat.find_min' hex hresult
  refine ⟨Nat.find hex, hn ▸ hle, result, hn ▸ hresult, hne, fun d hd => ?_, fun d hd => ?_⟩
  · rcases Parse.parse_limits source strict hd with heq | ⟨line, h⟩
    · exact heq.symm.trans hleast
    · exact absurd (hleast.symm.trans h) (hne line)
  · rcases Parse.parse_limits source strict (Nat.le_trans (Nat.le_of_lt hd) hle) with heq | hnesting
    · exact absurd (heq.trans hresult) (Nat.find_min hex hd)
    · exact hnesting

end Sapling
