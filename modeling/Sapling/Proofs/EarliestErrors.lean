import Sapling.Proofs.NestingLimit
import Sapling.Proofs.ProgramInStep
import Sapling.Proofs.ViablePrefix

/-!
# Errors are found at the earliest token

The tokens that a failing parse has taken are the beginning of a program, but no program begins with
them and the token behind them (`parseFrom_error_earliest`). The first half holds of every rule of
the grammar. For the second half, a parse of any tokens that go on differently behind that token
fails in step with the first one.
-/
namespace Sapling

open TokenSource

/-- Some limit of nesting lets a parse of these tokens succeed. -/
def Accepted (ts : List Token) : Prop :=
  ∃ levels program, parseFrom { strictParams := false, maxDepth := levels } (Feed.ofTokens ts) =
    .ok program

theorem accepted_of_isProgram {ts : List Token} (h : Parse.IsProgram ts) : Accepted ts := by
  obtain ⟨program, hprogram⟩ := h
  obtain ⟨settled, hsettled⟩ := hprogram.exists_settled
  have hgrammar := hsettled.grammar (Nat.le_refl ts.length)
  exact ⟨ts.length, settled,
    parseFrom_eq_ok_iff.mpr ⟨ts, Feed.supplies_ofTokens ts, hgrammar⟩⟩

namespace Parse

variable {σ τ : Type} [TokenSource σ] [TokenSource τ] {s s' : Lookahead σ} {strict : Bool}
  {levels levels' : Nat} {program : Block} {e : SyntaxError}

theorem program_ok_of_le (hle : levels ≤ levels')
    (h : Parse.program { strictParams := strict, maxDepth := levels } s = .ok program s') :
    Parse.program { strictParams := strict, maxDepth := levels' } s = .ok program s' := by
  rcases limits_program strict hle s with heq | ⟨line, s'', hnesting⟩
  · exact heq.symm.trans h
  · simp [hnesting] at h

theorem program_error_of_le {ts : List Token} (hs : s.Holds ts none) (hlevels : ts.length < levels)
    (hle : levels ≤ levels')
    (h : Parse.program { strictParams := strict, maxDepth := levels } s = .error e s') :
    Parse.program { strictParams := strict, maxDepth := levels' } s = .error e s' := by
  rcases limits_program strict hle s with heq | ⟨line, s'', hnesting⟩
  · exact heq.symm.trans h
  · rcases cause_of_program_error hs hlevels hnesting with hfailure | hcause
    · simp at hfailure
    · exact absurd rfl hcause

/-- Where a parse fails at `t`, one that goes on differently behind `t` does not succeed. -/
theorem program_ne_ok_of_error {options : ParseOptions} {s₁ s₁' : Lookahead τ}
    {before us vs : List Token} {t : Token} (hs : s.Holds (before ++ t :: us) none)
    (hs₁ : s₁.Holds (before ++ t :: vs) none) (h : Parse.program options s = .error e s')
    (hs' : s'.Holds (t :: us) none) : Parse.program options s₁ ≠ .ok program s₁' := by
  intro hok
  obtain ⟨last, hleads, hlast⟩ := exists_leads hs₁
  have hlimit := hs.length_le
  have hlimit₁ := hs₁.length_le
  simp only [List.length_append, List.length_cons] at hlimit hlimit₁
  have hend := program_together (abreast_upTo hs hleads hlast.token?_eq) (by omega) (by omega)
    options
  rw [h, hok] at hend
  cases hend with
  | past left _ beyond _ =>
    obtain ⟨rest, hsuffix, hrest⟩ := beyond.holds left
    have hlength := hsuffix.length_le
    rw [← hs'.unique hrest, List.length_cons] at hlength
    omega

end Parse

theorem not_accepted_of_error {σ : Type} [TokenSource σ] {s s' : Lookahead σ}
    {before us : List Token} {t : Token} (hs : s.Holds (before ++ t :: us) none) {levels : Nat}
    (hlevels : (before ++ t :: us).length < levels) {e : SyntaxError}
    (h : Parse.program { strictParams := false, maxDepth := levels } s = .error e s')
    (hs' : s'.Holds (t :: us) none) (vs : List Token) : ¬ Accepted (before ++ t :: vs) := by
  rintro ⟨levels', program, hparse⟩
  obtain ⟨s₁, hofSource₁, hs₁⟩ :=
    Lookahead.exists_ofSource (Feed.supplies_ofTokens (before ++ t :: vs))
  obtain ⟨s₁', hok⟩ := (parseFrom_eq_ok_iff_program hofSource₁).mp hparse
  -- Both parses are compared under the larger of the two limits, which changes neither of them.
  have herror' := Parse.program_error_of_le hs hlevels (Nat.le_max_left levels levels') h
  have hok' := Parse.program_ok_of_le (Nat.le_max_right levels levels') hok
  exact Parse.program_ne_ok_of_error hs hs₁ herror' hs' hok'

/-- The tokens before an error are the beginning of a program, those up to and including the one at
which it is found are not, and that one is what the error names. -/
theorem parseFrom_error_earliest {σ : Type} [TokenSource σ] {source : σ} {ts : List Token}
    (hts : Supplies source ts) {levels : Nat} (hlevels : ts.length < levels) {e : SyntaxError}
    (h : parseFrom { strictParams := false, maxDepth := levels } source = .error e) :
    ∃ k ≤ ts.length,
      (∃ s s' : Lookahead σ, Lookahead.ofSource source = .ok s ∧
        Parse.program { strictParams := false, maxDepth := levels } s = .error e s' ∧
        s'.Holds (ts.drop k) none) ∧
      (∃ us, Accepted (ts.take k ++ us)) ∧
      (k < ts.length → ∀ us, ¬ Accepted (ts.take (k + 1) ++ us)) ∧
      (∀ rule found, e.cause = .unexpectedToken rule found →
        found = (ts[k]?.map Token.text).getD "end of input") ∧
      ∀ kind found, e.cause = .expectedToken kind found →
        found = (ts[k]?.map Token.text).getD "end of input" := by
  obtain ⟨s, hofSource, hs⟩ := Lookahead.exists_ofSource hts
  obtain ⟨s', herror⟩ := (parseFrom_eq_error_iff_program hofSource).mp h
  have houtcome :=
    Parse.viable_program { strictParams := false, maxDepth := levels } hs hlevels
  rw [herror] at houtcome
  rcases houtcome with hfailure | ⟨taken, rest, rfl, hs', hmeets, _, us, hus⟩
  · simp at hfailure
  have hfound : nextText rest =
      ((taken ++ rest)[taken.length]?.map Token.text).getD "end of input" := by
    rw [nextText, List.getElem?_append_right (Nat.le_refl _), Nat.sub_self, List.head?_eq_getElem?]
  refine ⟨taken.length, by simp, ⟨s, s', hofSource, herror, by simpa using hs'⟩,
    ⟨us, by simpa using accepted_of_isProgram hus⟩, ?_, ?_, ?_⟩
  · intro hk others haccepted
    obtain ⟨t, rest, rfl⟩ := List.exists_cons_of_length_pos (l := rest) (by simpa using hk)
    have htake : (taken ++ t :: rest).take (taken.length + 1) ++ others = taken ++ t :: others := by
      simp [List.take_append]
    rw [htake] at haccepted
    exact not_accepted_of_error hs hlevels herror hs' others haccepted
  · intro rule found hcause
    rw [hcause] at hmeets
    exact hmeets.trans hfound
  · intro kind found hcause
    rw [hcause] at hmeets
    exact hmeets.trans hfound

/-- In `while (x y) z;` the error is found at `y`. -/
theorem parse_error_at_second_name :
    let ts : List Token := [.keyword .whileWord, .mark .leftParen, .ident "x", .ident "y",
      .mark .rightParen, .ident "z", .mark .semicolon]
    Supplies (Feed.ofTokens ts) ts ∧ ts.length < 20 ∧
      parseFrom { strictParams := false, maxDepth := 20 } (Feed.ofTokens ts) =
        .error ⟨1, .expectedToken "')'" "identifier 'y'"⟩ ∧
      (∃ us, Accepted (ts.take 3 ++ us)) ∧ ∀ us, ¬ Accepted (ts.take 4 ++ us) := by
  intro ts
  have hlength : ts.length < 20 := by decide
  have hts := Feed.supplies_ofTokens ts
  have hparse : parseFrom { strictParams := false, maxDepth := 20 } (Feed.ofTokens ts) =
      .error ⟨1, .expectedToken "')'" "identifier 'y'"⟩ := rfl
  obtain ⟨k, hk, -, haccepted, hrefused, -, hfound⟩ := parseFrom_error_earliest hts hlength hparse
  have hplace : ∀ k ≤ 7,
      "identifier 'y'" = (ts[k]?.map Token.text).getD "end of input" → k = 3 := by
    decide
  obtain rfl := hplace k hk (hfound _ _ rfl)
  exact ⟨hts, hlength, hparse, haccepted, hrefused (by decide)⟩

end Sapling
