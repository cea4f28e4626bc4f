import Sapling.Proofs.ReplayedTokens
import Sapling.Proofs.StrictParameters

/-!
# What strict parsing refuses

A text is parsed strictly as it is leniently, but for the first parameter that repeats one in its
list (`parse_strict`). Where there is another error, the refused parameter has been read before it:
the strict run fetches some first part of what the lenient run fetches.
-/
namespace Sapling

open TokenStream

variable {σ α : Type}

def Fetched.token? : Fetched → Option Token
  | token _ t => t
  | _ => none

def Recorded.tokens (s : Recorded σ) : List Token :=
  s.record.filterMap Fetched.token?

section
variable [TokenSource σ]

/-- A recorded source hands out what the source itself does. -/
instance : TokenSource (Recorded σ) where
  fetch := TokenStream.fetch
  current s := TokenSource.current s.stream
  line s := TokenSource.line s.stream
  bound s := TokenSource.bound s.stream
  current_isSome {s s'} h := by
    simp only [TokenStream.fetch] at h
    split at h
    · next hfetch =>
      obtain ⟨rfl, rfl⟩ := EStateM.Result.ok.inj h
      exact TokenSource.current_isSome hfetch
    · simp at h
  bound_lt {s s'} h := by
    simp only [TokenStream.fetch] at h
    split at h
    · next hfetch =>
      obtain ⟨rfl, rfl⟩ := EStateM.Result.ok.inj h
      exact TokenSource.bound_lt hfetch
    · simp at h

namespace Parse

variable {s s' last : Lookahead (Recorded σ)} {ts : List Token}

theorem advance_recorded (s : Lookahead (Recorded σ)) :
    advance s = match TokenStream.fetch s.source.stream with
      | .ok more next => .ok () ⟨⟨next, s.source.record ++ [fetched s.source.stream]⟩, !more⟩
      | .error e next => .error e ⟨⟨next, s.source.record ++ [fetched s.source.stream]⟩, s.atEnd⟩ := by
  simp only [advance, TokenSource.fetch, TokenStream.fetch]
  cases TokenSource.fetch s.source.stream <;> rfl

theorem record_of_advance (h : advance s = .ok () s') :
    ∃ entry, s'.source.record = s.source.record ++ [entry] ∧ entry.token? = s'.token? := by
  rw [advance_recorded] at h
  refine ⟨fetched s.source.stream, ?_⟩
  cases hfetch : TokenStream.fetch s.source.stream with
  | ok more next =>
    rw [hfetch] at h
    obtain rfl := (EStateM.Result.ok.inj h).2
    refine ⟨rfl, ?_⟩
    cases more with
    | true => rw [(fetched_of_more hfetch).1]; rfl
    | false => rw [(fetched_of_ended hfetch).1]; rfl
  | error e next => simp [hfetch] at h

theorem record_of_advance_error {e : SyntaxError} (h : advance s = .error e s') :
    ∃ entry, s'.source.record = s.source.record ++ [entry] := by
  rw [advance_recorded] at h
  refine ⟨fetched s.source.stream, ?_⟩
  cases hfetch : TokenStream.fetch s.source.stream with
  | ok more next => simp [hfetch] at h
  | error e' next =>
    rw [hfetch] at h
    obtain rfl := (EStateM.Result.error.inj h).2
    rfl

theorem Reached.record {result : EStateM.Result SyntaxError (Lookahead (Recorded σ)) α}
    (h : Reached s result) : s.source.record <+: (final result).source.record := by
  induction h with
  | ok | error => exact List.prefix_refl _
  | broken _ fails =>
    obtain ⟨entry, hentry⟩ := record_of_advance_error fails
    exact ⟨[entry], hentry.symm⟩
  | step step _ ih =>
    obtain ⟨entry, hentry, -⟩ := record_of_advance step.2
    exact (hentry ▸ List.prefix_append _ [entry]).trans ih

theorem Beyond.record {result : EStateM.Result SyntaxError (Lookahead (Recorded σ)) α}
    (h : Beyond s result) :
    ∃ more, more ≠ [] ∧ (final result).source.record = s.source.record ++ more := by
  cases h with
  | broken fails =>
    obtain ⟨entry, hentry⟩ := record_of_advance_error fails
    exact ⟨[entry], List.cons_ne_nil _ _, hentry⟩
  | step step rest =>
    obtain ⟨entry, hentry, -⟩ := record_of_advance step.2
    obtain ⟨more, hmore⟩ := rest.record
    exact ⟨entry :: more, List.cons_ne_nil _ _, by simp [← hmore, hentry]⟩

theorem Leads.tokens {before : List Token} (h : Leads s ts last)
    (hs : s.source.tokens = before ++ s.token?.toList) :
    last.source.tokens = before ++ ts ++ last.token?.toList := by
  induction h generalizing before with
  | nil => rw [hs, List.append_nil]
  | @cons s s' last t ts step _ ih =>
    obtain ⟨entry, hentry, htoken⟩ := record_of_advance step.2
    have hnext : s'.source.tokens = (before ++ [t]) ++ s'.token?.toList := by
      rw [step.1] at hs
      rw [Recorded.tokens, hentry, List.filterMap_append, ← Recorded.tokens, hs]
      cases hnext : s'.token? <;> simp [htoken, hnext]
    rw [ih hnext, List.append_assoc before, List.singleton_append]

theorem tokens_of_ofSource {source : σ} (h : Lookahead.ofSource (Recorded.ofStream source) = .ok s) :
    s.source.tokens = [] ++ s.token?.toList := by
  have hadvance : advance ⟨Recorded.ofStream source, true⟩ = .ok () s :=
    Lookahead.advance_eq_ok_iff.mpr h
  obtain ⟨entry, hentry, htoken⟩ := record_of_advance hadvance
  rw [Recorded.tokens, hentry]
  cases hnext : s.token? <;> simp [Recorded.ofStream, htoken, hnext]

end Parse
end

namespace Parser

variable [TokenSource σ] {options : ParseOptions} {source : σ}

/-- A run on a source ends as the parse does, where the parse ends. -/
theorem run_of_ofSource {s : Lookahead σ} (hs : Lookahead.ofSource source = .ok s) :
    run options source = some (match Parse.program options s with
      | .ok b last => (.ok b, last.source)
      | .error e last => (.error e, last.source)) := by
  rcases create_eq options source with ⟨e, -, -, herror⟩ | ⟨s', hcreate, hs'⟩
  · simp [hs] at herror
  · obtain rfl := Except.ok.inj (hs.symm.trans hs')
    rw [run, hcreate]
    simp only [program_eq]
    cases Parse.program options s <;> rfl

/-- Recording a source does not change what is parsed from it. -/
theorem parseFrom_recorded (options : ParseOptions) (source : σ) :
    parseFrom options (Recorded.ofStream source) = parseFrom options source := by
  obtain ⟨last, hlast⟩ := run_eq options (Recorded.ofStream source)
  obtain ⟨last', hlast'⟩ := run_eq options source
  have hrun : run options source = _ := run_of_recorded hlast
  exact (Prod.mk.inj (Option.some.inj (hrun.symm.trans hlast'))).1

theorem atEnd_of_program_eq {s s' : Lookahead σ} {b : Block}
    (h : Parse.program options s = .ok b s') : s'.atEnd = true := by
  have hprogram := program_eq options s
  rw [h] at hprogram
  exact atEnd_of_program hprogram

end Parser

theorem Parser.eq_parse_of_run {options : ParseOptions} {source : String}
    {outcome : Except SyntaxError Block} {last : Recorded Lexer}
    (h : run options (Recorded.ofStream (Lexer.ofString source)) = some (outcome, last)) :
    parse options source = outcome := by
  obtain ⟨last', hlast', -⟩ := parse_eq_replay options source
  exact (Prod.mk.inj (Option.some.inj (hlast'.symm.trans h))).1

def SyntaxError.IsRepeated (e : SyntaxError) (name : String) : Prop :=
  e.cause = .grammar (.repeatedParameter name) ∧
    e.cause.text = "duplicate parameter '" ++ name ++ "' in function definition"

/-- The strict run refuses a parameter: it is the first to repeat one in the tokens that the run has
fetched, and the lenient run fetches more. -/
def Refuses (maxDepth : Nat) (source name : String) : Prop :=
  ∃ e last outcome last' more, e.IsRepeated name ∧
    Parser.run { strictParams := true, maxDepth } (Recorded.ofStream (Lexer.ofString source)) =
      some (.error e, last) ∧
    Parser.run { strictParams := false, maxDepth } (Recorded.ofStream (Lexer.ofString source)) =
      some (outcome, last') ∧
    last'.record = last.record ++ more ∧ more ≠ [] ∧
    FirstRepeat name (Token.parameterLists last.tokens)

/-- A text is parsed strictly as it is leniently, or a parameter is refused. -/
theorem parse_strict_cases (maxDepth : Nat) (source : String) :
    (parse { strictParams := true, maxDepth } source =
        parse { strictParams := false, maxDepth } source ∧
      ∀ program, parse { strictParams := false, maxDepth } source = .ok program →
        ∀ params ∈ program.parameterLists, params.Nodup) ∨
      ∃ name, Refuses maxDepth source name ∧
        ∀ program, parse { strictParams := false, maxDepth } source = .ok program →
          FirstRepeat name program.parameterLists := by
  have hparse (strict : Bool) : parse { strictParams := strict, maxDepth } source =
      parseFrom { strictParams := strict, maxDepth } (Recorded.ofStream (Lexer.ofString source)) :=
    (Parser.parseFrom_recorded _ _).symm
  simp only [hparse]
  cases hs : Lookahead.ofSource (Recorded.ofStream (Lexer.ofString source)) with
  | error e => exact .inl ⟨by simp only [parseFrom, hs], by simp [parseFrom, hs]⟩
  | ok s =>
    obtain ⟨ts, failure, hts⟩ := Lookahead.exists_holds hs
    have hprogram (strict : Bool) {program : Block} {s' : Lookahead (Recorded Lexer)}
        (h : Parse.program { strictParams := strict, maxDepth } s = .ok program s') :
        Token.parameterLists ts = program.parameterLists :=
      Grammar.program_lists (Parse.program_sound hts h).2
    have hrun (strict : Bool) :=
      @Parser.run_of_ofSource _ _ { strictParams := strict, maxDepth } _ _ hs
    have hcompared := Parse.compared_program hts maxDepth
    simp only [parseFrom, hs]
    generalize hstrict : Parse.program { strictParams := true, maxDepth } s = strict,
      hlenient : Parse.program { strictParams := false, maxDepth } s = lenient at hcompared
    cases hcompared with
    | error => exact .inl ⟨rfl, by simp⟩
    | @ok program s' us read fresh =>
      obtain ⟨rest, rfl, hrest⟩ := read.of_holds hts
      obtain rfl : rest = [] :=
        List.isEmpty_iff.mp (hrest.atEnd_eq.symm.trans (Parser.atEnd_of_program_eq hstrict))
      obtain ⟨lists, hlists, hus⟩ := fresh
      have hall : lists ++ [] = program.parameterLists := (hus []).symm.trans (hprogram true hstrict)
      rw [List.append_nil] at hall
      refine .inl ⟨rfl, fun program' h => ?_⟩
      rw [← Except.ok.inj h, ← hall]
      exact hlists
    | @refused name s' us _ read repeats token beyond =>
      obtain ⟨rest, rfl, hrest⟩ := read.of_holds hts
      obtain ⟨rest, rfl⟩ := List.head?_eq_some_iff.mp (hrest.token?_eq.symm.trans token)
      have hends := hrun true
      have hbefore := hrun false
      rw [hstrict] at hends
      rw [hlenient] at hbefore
      have hfirst : FirstRepeat name (Token.parameterLists s'.source.tokens) := by
        rw [read.tokens (Parse.tokens_of_ofSource hs), token]
        exact repeats.firstRepeat []
      obtain ⟨more, hmore, hrecord⟩ := beyond.record
      cases lenient with
      | error e last =>
        exact .inr ⟨name, ⟨_, _, _, _, more, ⟨rfl, rfl⟩, hends, hbefore, hrecord, hmore, hfirst⟩,
          by simp⟩
      | ok program last =>
        refine .inr ⟨name, ⟨_, _, _, _, more, ⟨rfl, rfl⟩, hends, hbefore, hrecord, hmore, hfirst⟩,
          fun program' h => ?_⟩
        rw [← Except.ok.inj h, ← hprogram false hlenient]
        exact repeats.firstRepeat rest

/-- Parsing strictly only refuses repeated parameters. A program without any is read as it is, and
with some the first to repeat one is refused. A text that is no program leniently has the same error
strictly, unless a parameter that has been read before is refused. -/
theorem parse_strict (maxDepth : Nat) (source : String) :
    let lenient : ParseOptions := { strictParams := false, maxDepth }
    let strict : ParseOptions := { strictParams := true, maxDepth }
    (∀ program, parse lenient source = .ok program →
      (∀ params ∈ program.parameterLists, params.Nodup) → parse strict source = .ok program) ∧
    (∀ program, parse lenient source = .ok program →
      (∃ params ∈ program.parameterLists, ¬ params.Nodup) →
      ∃ e name, parse strict source = .error e ∧ e.IsRepeated name ∧
        FirstRepeat name program.parameterLists) ∧
    ∀ e, parse lenient source = .error e → parse strict source = .error e ∨
      ∃ e' name last last' more, parse strict source = .error e' ∧ e'.IsRepeated name ∧
        Parser.run strict (Recorded.ofStream (Lexer.ofString source)) = some (.error e', last) ∧
        Parser.run lenient (Recorded.ofStream (Lexer.ofString source)) = some (.error e, last') ∧
        last'.record = last.record ++ more ∧ more ≠ [] ∧
        FirstRepeat name (Token.parameterLists last.tokens) := by
  intro lenient strict
  rcases parse_strict_cases maxDepth source with ⟨hsame, hnodup⟩ | ⟨name, hrefuses, hfirst⟩
  · refine ⟨fun program h _ => hsame.trans h, fun program h hrepeated => ?_,
      fun e h => .inl (hsame.trans h)⟩
    obtain ⟨params, hparams, hnot⟩ := hrepeated
    exact absurd (hnodup program h params hparams) hnot
  · obtain ⟨e, last, outcome, last', more, he, hstrict, hlenient, hread⟩ := hrefuses
    have hparse := Parser.eq_parse_of_run hstrict
    refine ⟨fun program h hnodup => ?_, fun program h _ => ?_, fun e' h => .inr ?_⟩
    · obtain ⟨params, hparams, hnot⟩ := (hfirst program h).not_nodup
      exact absurd (hnodup params hparams) hnot
    · exact ⟨e, name, hparse, he, hfirst program h⟩
    · obtain rfl := (Parser.eq_parse_of_run hlenient).symm.trans h
      exact ⟨e, name, last, last', more, hparse, he, hstrict, hlenient, hread⟩

end Sapling
