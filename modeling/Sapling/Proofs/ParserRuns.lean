import Sapling.Proofs.EndingCalls

/-!
# What a run asks of a stream

A parser that is created on a stream and reads one program fetches the entries of the stream one by
one, and stops at the end or at an error if not before (`Demands`). On a stream that hands out
finitely many tokens the run ends, and what it fetched settles the outcome
(`run_of_delivers`). A recorded stream shows every fetch.
-/
namespace Sapling

open TokenStream

variable {σ τ : Type}

/-- The feed that hands out these tokens, each on its line, and then ends or fails like this. -/
def Feed.replaying (tokens : List (Nat × Token)) (stop : Fetched) : Feed :=
  let entries : List Feed.Entry := tokens.map fun (line, t) => ⟨line, .ok t⟩
  match stop with
  | .token _ _ => { rest := entries }
  | .ended line => { rest := entries, endLine := some line }
  | .failed e => { rest := entries ++ [⟨e.line, .error e.cause⟩] }

theorem Feed.delivers_of_rest {tokens : List (Nat × Token)} {stop : Fetched} {feed : Feed}
    {behind : List Feed.Entry} (hstop : ∀ line t, stop ≠ .token line t)
    (hrest : feed.rest = tokens.map (fun (line, t) => ⟨line, .ok t⟩) ++ behind)
    (hbehind : ∀ line current,
      fetched ({ feed with rest := behind, line, current } : Feed) = stop) :
    Delivers feed tokens stop := by
  refine ⟨hstop, ?_⟩
  induction tokens generalizing feed with
  | nil =>
    have hfeed : ({ feed with rest := behind, line := feed.line, current := feed.current } : Feed) =
        feed := by
      rw [List.map_nil, List.nil_append] at hrest
      rw [← hrest]
    have hfetched : fetched feed = stop := hfeed ▸ hbehind feed.line feed.current
    exact ⟨_, yields_cons_iff.mpr ⟨hfetched, .nil⟩⟩
  | cons entry tokens ih =>
    obtain ⟨line, t⟩ := entry
    let next : Feed := { feed with
      rest := tokens.map (fun (line, t) => ⟨line, .ok t⟩) ++ behind, line, current := some t }
    have hfetch : TokenStream.fetch feed = .ok true next := by
      show Feed.fetch feed = _
      rw [Feed.fetch, hrest]
      rfl
    obtain ⟨hfetched, hnext⟩ := fetched_of_more hfetch
    have hnextRest : next.rest = tokens.map (fun (line, t) => ⟨line, .ok t⟩) ++ behind := rfl
    obtain ⟨last, hlast⟩ := ih hnextRest hbehind
    rw [← hnext] at hlast
    exact ⟨last, yields_cons_iff.mpr ⟨hfetched, hlast⟩⟩

theorem Feed.delivers_replaying {tokens : List (Nat × Token)} {stop : Fetched}
    (hstop : ∀ line t, stop ≠ .token line t) :
    Delivers (Feed.replaying tokens stop) tokens stop := by
  cases stop with
  | token line t => exact absurd rfl (hstop line t)
  | ended line => exact delivers_of_rest hstop (List.append_nil _).symm fun _ _ => rfl
  | failed e => exact delivers_of_rest hstop rfl fun _ _ => rfl

namespace TokenStream.Delivers

variable [TokenStream σ] {stream last : σ} {tokens : List (Nat × Token)} {stop : Fetched}
  {entries : List Fetched}

theorem exists_yields (h : Delivers stream tokens stop)
    (hinitial : entries <+: entriesOf tokens ++ [stop]) : ∃ last, Yields stream entries last := by
  obtain ⟨more, hmore⟩ := hinitial
  obtain ⟨last, hlast⟩ := h.2
  rw [← hmore] at hlast
  obtain ⟨middle, hmiddle, -⟩ := hlast.split
  exact ⟨middle, hmiddle⟩

theorem isPrefix (h : Delivers stream tokens stop) (hyields : Yields stream entries last)
    (htokens : ∀ entry ∈ entries.dropLast, ∃ line t, entry = .token line (some t)) :
    entries <+: entriesOf tokens ++ [stop] := by
  obtain ⟨hstop, end_, hend⟩ := h
  rcases hyields.prefix_or_prefix hend with hle | ⟨more, hmore⟩
  · exact hle
  · cases more with
    | nil => exact ⟨[], by simpa using hmore.symm⟩
    | cons entry more =>
      have hmem : stop ∈ entries.dropLast := by
        rw [← hmore, List.dropLast_append_of_ne_nil (List.cons_ne_nil entry more)]
        simp
      obtain ⟨line, t, ht⟩ := htokens stop hmem
      exact absurd ht (hstop line _)

theorem eq_of_ended {line : Nat} (hinitial : entries <+: entriesOf tokens ++ [stop])
    (hlast : entries.getLast? = some (.ended line)) :
    stop = .ended line ∧ entries = entriesOf tokens ++ [stop] := by
  rcases List.prefix_concat_iff.mp hinitial with heq | hle
  · rw [heq, List.getLast?_concat] at hlast
    exact ⟨Option.some.inj hlast, heq⟩
  · have hmem := hle.subset (List.mem_of_getLast? hlast)
    simp [entriesOf] at hmem

end TokenStream.Delivers

namespace Parser

/-- Fetches of a run with this outcome. All but the last one give tokens. An error of the stream is
the outcome, and any other error is the parser's own; it is on the line of the last fetch. A program
is read to the end. -/
structure Demands (entries : List Fetched) (outcome : Except SyntaxError Block) : Prop where
  tokens : ∀ entry ∈ entries.dropLast, ∃ line t, entry = .token line (some t)
  failed : ∀ {e}, .failed e ∈ entries → outcome = .error e
  own : ∀ {e}, outcome = .error e → e.cause.isLexical = false ∨ entries.getLast? = some (.failed e)
  line : ∀ {e}, outcome = .error e → ∃ entry, entries.getLast? = some entry ∧ e.line = entry.line
  ended : ∀ {b}, outcome = .ok b → ∃ line, entries.getLast? = some (.ended line)

variable [TokenStream σ] [TokenStream τ] {options : ParseOptions} {stream last : σ}
  {outcome : Except SyntaxError Block}

theorem create_cases (options : ParseOptions) (stream : σ) :
    (∃ e, fetched stream = .failed e ∧ create options stream = .error (e, behind stream)) ∨
      ∃ p, advance (start options stream true) = some (.ok (), p) ∧
        create options stream = .ok p := by
  unfold create advance fetched behind start
  cases fetch stream with
  | ok more next => exact .inr ⟨_, rfl, rfl⟩
  | error e next => exact .inl ⟨e, rfl, rfl⟩

theorem atEnd_of_program {p q : Parser σ} {b : Block} (h : p.program = some (.ok b, q)) :
    q.atEnd = true := by
  have hfrom := programFrom.partial_correctness (σ := σ)
    (fun _ _ outcome => ∀ b, outcome.1 = .ok b → outcome.2.atEnd = true) (by
      intro more hmore read p outcome houtcome b hb
      replace houtcome : (do
          if !(← get).atEnd then more ((← statement) :: read)
          else return read.reverse : Call σ Block) p = some outcome := houtcome
      rw [when_apply] at houtcome
      cases hend : p.atEnd with
      | true =>
        simp only [hend, Bool.not_true, Bool.false_eq_true, if_false] at houtcome
        obtain rfl := Option.some.inj houtcome
        exact hend
      | false =>
        simp only [hend, Bool.not_false, if_true, bind_apply] at houtcome
        obtain ⟨⟨result, p₁⟩, -, houtcome⟩ := Option.bind_eq_some_iff.mp houtcome
        cases result with
        | ok stmt => exact hmore _ _ _ houtcome b hb
        | error e =>
          obtain rfl := Option.some.inj houtcome
          simp at hb)
  exact hfrom [] p (.ok b, q) h b rfl

theorem program_of_atEnd {p : Parser σ} (h : p.atEnd = true) : p.program = some (.ok [], p) := by
  have hprogram : p.program = (do
      if !(← get).atEnd then programFrom ((← statement) :: [])
      else return [].reverse : Call σ Block) p := programFrom.eq_1 [] p
  rw [hprogram, when_apply, h]
  rfl

theorem create_alike (options : ParseOptions) {stream : σ} {other : τ}
    (h : fetched other = fetched stream) :
    (∃ e, fetched stream = .failed e ∧ create options stream = .error (e, behind stream) ∧
      create options other = .error (e, behind other)) ∨
    ∃ p q, create options stream = .ok p ∧ create options other = .ok q ∧
      q.stream = behind other ∧ Alike p q := by
  rcases advance_alike (p := start options stream true) (q := start options other true) rfl rfl h
    with ⟨e, p, q, hp, hq, -⟩ | ⟨p, q, hp, hq, hlast, halike⟩
  · have hfailed : fetched stream = .failed e := (advance_error hp).1
    rcases create_cases options stream with ⟨e₁, he₁, hcreate⟩ | ⟨p₁, hp₁, -⟩
    · rcases create_cases options other with ⟨e₂, he₂, hcreate'⟩ | ⟨q₁, hq₁, -⟩
      · obtain rfl := Fetched.failed.inj (hfailed.symm.trans he₁)
        obtain rfl := Fetched.failed.inj (hfailed.symm.trans (h.symm.trans he₂))
        exact .inl ⟨e, hfailed, hcreate, hcreate'⟩
      · simp [hq] at hq₁
    · simp [hp] at hp₁
  · rcases create_cases options stream with ⟨e₁, he₁, -⟩ | ⟨p₁, hp₁, hcreate⟩
    · exact absurd he₁ (fetched_ne_failed hp e₁)
    · rcases create_cases options other with ⟨e₂, he₂, -⟩ | ⟨q₁, hq₁, hcreate'⟩
      · exact absurd he₂ (fetched_ne_failed hq e₂)
      · obtain rfl := (Prod.mk.inj (Option.some.inj (hp.symm.trans hp₁))).2
        obtain rfl := (Prod.mk.inj (Option.some.inj (hq.symm.trans hq₁))).2
        exact .inr ⟨p, q, hcreate, hcreate', hlast, halike⟩

theorem demands_failed (e : SyntaxError) : Demands [.failed e] (.error e) where
  tokens := by simp
  failed he := by rw [Fetched.failed.inj (List.mem_singleton.mp he)]
  own he := by
    rw [Except.error.inj he]
    exact .inr rfl
  line he := by
    rw [← Except.error.inj he]
    exact ⟨_, rfl, rfl⟩
  ended hb := by simp at hb

theorem demands_of_reads {p q : Parser σ} {entries : List Fetched}
    (hadvance : advance (start options stream true) = some (.ok (), p))
    (hprogram : p.program = some (outcome, q)) (hreads : Reads p entries (outcome, q)) :
    Demands (fetched stream :: entries) outcome where
  tokens := hreads.token_of_mem_dropLast_cons hadvance hreads.token_of_mem_dropLast
  failed {e} he := by
    rcases List.mem_cons.mp he with heq | he
    · exact absurd heq.symm (fetched_ne_failed hadvance e)
    · exact hreads.error_of_failed he
  own he := by
    rcases hreads.own_of_error he with hown | hlast
    · exact .inl hown
    · exact .inr (by rw [List.getLast?_cons, hlast]; rfl)
  line he := Reads.line_cons hadvance (hreads.line_of_error he)
  ended {b} hb := by
    obtain rfl : outcome = .ok b := hb
    exact Reads.ended_cons hadvance (hreads.ended_of_ok rfl (atEnd_of_program hprogram))

/-- A run that ends has fetched entries that settle it: the run on another stream that gives the
same entries ends in the same way. -/
theorem run_reads (h : run options stream = some (outcome, last)) :
    ∃ entries, Yields stream entries last ∧ Demands entries outcome ∧
      ∀ other lastOther : τ, Yields other entries lastOther →
        run options other = some (outcome, lastOther) := by
  rcases create_cases options stream with ⟨e, hfetched, hcreate⟩ | ⟨p, hadvance, hcreate⟩
  · rw [run, hcreate] at h
    obtain ⟨rfl, rfl⟩ := Prod.mk.inj (Option.some.inj h)
    refine ⟨[.failed e], yields_cons_iff.mpr ⟨hfetched, .nil⟩, demands_failed e, ?_⟩
    intro other lastOther hyields
    obtain ⟨hother, hnil⟩ := yields_cons_iff.mp hyields
    cases hnil
    rcases create_alike options (hother.trans hfetched.symm) with
      ⟨e', he', -, hcreate'⟩ | ⟨_, _, hcreate', -⟩
    · rw [hfetched] at he'
      rw [run, hcreate', Fetched.failed.inj he']
    · simp [hcreate] at hcreate'
  · rw [run, hcreate] at h
    obtain ⟨⟨result, q⟩, hprogram, heq⟩ := Option.bind_eq_some_iff.mp h
    obtain ⟨rfl, rfl⟩ := Prod.mk.inj (Option.some.inj heq)
    obtain ⟨entries, hreads, hagree⟩ := agree_program (τ := τ) _ p (result, q) rfl hprogram
    have hyields := hreads.yields
    rw [(advance_ok hadvance).1] at hyields
    refine ⟨fetched stream :: entries, .cons hyields, demands_of_reads hadvance hprogram hreads, ?_⟩
    intro other lastOther hother
    obtain ⟨hfetched, hrest⟩ := yields_cons_iff.mp hother
    rcases create_alike options hfetched with ⟨_, -, hfailed, -⟩ | ⟨p', q', hp', hq', hnext, halike⟩
    · simp [hcreate] at hfailed
    · obtain rfl := Except.ok.inj (hcreate.symm.trans hp')
      obtain ⟨q'', hrun, rfl, -⟩ := hagree q' lastOther halike (hnext ▸ hrest)
      rw [run, hq']
      simp only [hrun]
      rfl

theorem run_recorded {last : Recorded σ}
    (h : run options (Recorded.ofStream stream) = some (outcome, last)) :
    Yields stream last.record last.stream ∧ Demands last.record outcome ∧
      ∀ other lastOther : τ, Yields other last.record lastOther →
        run options other = some (outcome, lastOther) := by
  obtain ⟨entries, hyields, hdemands, hother⟩ := run_reads (τ := τ) h
  obtain rfl : last.record = entries := Recorded.record_of_yields hyields
  exact ⟨Recorded.yields_stream hyields, hdemands, hother⟩

theorem run_recorded_of_yields {other lastOther : τ} {last : Recorded σ}
    (h : run options (Recorded.ofStream stream) = some (outcome, last))
    (hother : Yields other last.record lastOther) :
    run options (Recorded.ofStream other) = some (outcome, ⟨lastOther, last.record⟩) :=
  (run_recorded h).2.2 _ _ (Recorded.exists_yields hother [])

/-- On a stream that hands out some tokens and then stops, the run ends, and it fetches no more than
that. -/
theorem run_of_delivers {tokens : List (Nat × Token)} {stop : Fetched}
    (h : Delivers stream tokens stop) (options : ParseOptions) :
    ∃ outcome last, run options (Recorded.ofStream stream) = some (outcome, last) ∧
      last.record <+: entriesOf tokens ++ [stop] := by
  obtain ⟨last, hrun⟩ := run_eq options (Feed.replaying tokens stop)
  obtain ⟨entries, hyields, hdemands, hother⟩ := run_reads (τ := Recorded σ) hrun
  have hinitial := (Feed.delivers_replaying h.1).isPrefix hyields hdemands.tokens
  obtain ⟨lastOther, hyields'⟩ := h.exists_yields hinitial
  refine ⟨_, _, hother _ _ (Recorded.exists_yields hyields' []), ?_⟩
  simpa using hinitial

theorem run_of_recorded {last : Recorded σ}
    (h : run options (Recorded.ofStream stream) = some (outcome, last)) :
    run options stream = some (outcome, last.stream) :=
  (run_recorded h).2.2 stream last.stream (run_recorded (τ := σ) h).1

/-- On a stream that hands out `n` tokens and then ends or fails, creating a parser and reading one
program ends after at most `n + 1` fetches, none of them behind the end or the failure. What has
been fetched settles the result. A program is read only where the last fetch has found the end, and
then another call reads the empty program and fetches nothing. -/
theorem run_fetches_once {tokens : List (Nat × Token)} {stop : Fetched}
    (h : Delivers stream tokens stop) (options : ParseOptions) :
    ∃ outcome last, run options (Recorded.ofStream stream) = some (outcome, last) ∧
      last.record <+: entriesOf tokens ++ [stop] ∧ last.record.length ≤ tokens.length + 1 ∧
      (∀ {τ : Type} [TokenStream τ] (other lastOther : τ), Yields other last.record lastOther →
        run options (Recorded.ofStream other) = some (outcome, ⟨lastOther, last.record⟩)) ∧
      ∀ program, outcome = .ok program →
        (∃ line, stop = .ended line) ∧ last.record = entriesOf tokens ++ [stop] ∧
        ∃ p q, create options (Recorded.ofStream stream) = .ok p ∧
          p.program = some (.ok program, q) ∧ q.stream = last ∧ q.program = some (.ok [], q) := by
  obtain ⟨outcome, last, hrun, hinitial⟩ := run_of_delivers h options
  refine ⟨outcome, last, hrun, hinitial, ?_, fun other lastOther => run_recorded_of_yields hrun, ?_⟩
  · simpa [entriesOf] using hinitial.length_le
  · rintro b rfl
    obtain ⟨line, hline⟩ := (run_recorded (τ := σ) hrun).2.1.ended rfl
    obtain ⟨hstop, hrecord⟩ := Delivers.eq_of_ended hinitial hline
    refine ⟨⟨line, hstop⟩, hrecord, ?_⟩
    unfold run at hrun
    cases hcreate : create options (Recorded.ofStream stream) with
    | error failure => simp [hcreate] at hrun
    | ok p =>
      rw [hcreate] at hrun
      obtain ⟨⟨result, q⟩, hprogram, heq⟩ := Option.bind_eq_some_iff.mp hrun
      obtain ⟨rfl, rfl⟩ := Prod.mk.inj (Option.some.inj heq)
      exact ⟨p, q, rfl, hprogram, rfl, program_of_atEnd (atEnd_of_program hprogram)⟩

/-- A statement on two lines, and the end on a third. -/
theorem run_fetches_once_statement :
    ∃ last, run {} (Recorded.ofStream
        (Feed.replaying [(1, .ident "a"), (2, .mark .semicolon)] (.ended 3))) =
          some (.ok [.expression (.variable "a")], last) ∧
      last.record =
        [.token 1 (some (.ident "a")), .token 2 (some (.mark .semicolon)), .ended 3] := by
  have hfeed : Delivers (Feed.replaying [(1, .ident "a"), (2, .mark .semicolon)] (.ended 3))
      [(1, .ident "a"), (2, .mark .semicolon)] (.ended 3) := Feed.delivers_replaying nofun
  have hparse : parseFrom {} (Feed.replaying [(1, .ident "a"), (2, .mark .semicolon)] (.ended 3)) =
      .ok [.expression (.variable "a")] := rfl
  obtain ⟨outcome, last, hrun, -, -, -, hread⟩ := run_fetches_once hfeed {}
  obtain ⟨other, hother⟩ :=
    run_eq {} (Feed.replaying [(1, .ident "a"), (2, .mark .semicolon)] (.ended 3))
  obtain ⟨rfl, -⟩ := Prod.mk.inj (Option.some.inj ((run_of_recorded hrun).symm.trans hother))
  obtain ⟨-, hrecord, -⟩ := hread _ hparse
  exact ⟨last, hparse ▸ hrun, hrecord⟩

end Parser
end Sapling
