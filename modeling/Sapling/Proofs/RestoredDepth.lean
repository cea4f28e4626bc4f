import Sapling.Proofs.AlikeStreams

/-!
# The depth between programs

Every rule of the grammar leaves the depth as it found it, whether it succeeds, finds an error or
meets one of the stream (`Agree.depth_eq`). So a parser that has read a program is at depth 0 again,
and reading on is the same as creating a parser where it stands
(`programs_eq_freshPrograms`).
-/
namespace Sapling.Parser

variable {σ α : Type} [TokenStream σ] {p : Parser σ} {outcome : Outcome σ α}

theorem Agree.depth_eq {f : Parser σ → Option (Outcome σ α)} (h : Agree f f)
    (hcall : f p = some outcome) : outcome.2.depth = p.depth := by
  obtain ⟨entries, hreads, -⟩ := h p.token? p outcome rfl hcall
  exact hreads.depth_eq

theorem Agree.options_eq {f : Parser σ → Option (Outcome σ α)} (h : Agree f f)
    (hcall : f p = some outcome) : outcome.2.options = p.options := by
  obtain ⟨entries, hreads, -⟩ := h p.token? p outcome rfl hcall
  exact hreads.options_eq

/-- Whatever comes of a program, the parser is left as a new one is made where it stands. -/
theorem eq_start_of_program {options : ParseOptions} {stream : σ} {atEnd : Bool} {q : Parser σ}
    {result : Except SyntaxError Block}
    (h : (start options stream atEnd).program = some (result, q)) :
    q = start options q.stream q.atEnd := by
  have hdepth : q.depth = 0 := agree_program.depth_eq h
  have hoptions : q.options = options := agree_program.options_eq h
  obtain ⟨stream', atEnd', depth', options'⟩ := q
  obtain rfl : depth' = 0 := hdepth
  obtain rfl : options' = options := hoptions
  rfl

/-- Programs read one after another, each by a parser of its own that is made where the last one
stopped, and the place where the last of them stops. -/
def freshPrograms (options : ParseOptions) :
    (times : Nat) → σ → (atEnd : Bool) → Option (List (Except SyntaxError Block) × σ × Bool)
  | 0, stream, atEnd => some ([], stream, atEnd)
  | times + 1, stream, atEnd => do
    let (result, p) ← (start options stream atEnd).program
    let (results, stream, atEnd) ← freshPrograms options times p.stream p.atEnd
    return (result :: results, stream, atEnd)

/-- One parser reads what parsers of their own read, whatever its calls have come to, and is at
depth 0 behind each of them. -/
theorem programs_eq_freshPrograms (options : ParseOptions) (times : Nat) (stream : σ)
    (atEnd : Bool) :
    (start options stream atEnd).programs times =
      (freshPrograms options times stream atEnd).map fun (results, stream, atEnd) =>
        (results, start options stream atEnd) := by
  induction times generalizing stream atEnd with
  | zero => rfl
  | succ times ih =>
    rw [programs, freshPrograms]
    cases hprogram : (start options stream atEnd).program with
    | none => rfl
    | some outcome =>
      obtain ⟨result, p⟩ := outcome
      have hrest := ih p.stream p.atEnd
      rw [← eq_start_of_program hprogram] at hrest
      simp only [Option.bind_eq_bind, Option.bind_some, hrest]
      cases freshPrograms options times p.stream p.atEnd with
      | none => rfl
      | some last => rfl

end Sapling.Parser
