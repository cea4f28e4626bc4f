import Sapling.Proofs.JoinedTexts
import Sapling.Proofs.PhraseExtension
import Sapling.Proofs.ProgramComplete
import Sapling.Proofs.Yield

/-!
# One program behind another

In front of a token other than `else` the statements of a program are read as they are alone
(`program_front`). Behind them a parse goes on as from the beginning (`program_behind`), so that
programs compose (`parse_append`).
-/
namespace Sapling

open Grammar TokenSource

namespace Parse

variable {σ τ α : Type}

theorem repeatWhile_append {more : Lookahead σ → Bool} {item : Parse σ α} (rounds : Nat)
    (read before : List α) : repeatWhile more item rounds (read ++ before) =
      (before.reverse ++ ·) <$> repeatWhile more item rounds read := by
  induction rounds generalizing read with
  | zero => simp [repeatWhile]
  | succ rounds ih =>
    simp only [repeatWhile, map_bind]
    congr 1
    funext s
    split
    · simp only [map_bind, ← ih, List.cons_append]
    · simp

variable [TokenSource σ] [TokenSource τ] {options : ParseOptions} {t u : Token} {ts : List Token}

theorem statements_of_read (rounds turns : Nat) (read : Block) :
    (statements rounds turns options read : Parse σ Block) =
      (read.reverse ++ ·) <$> statements rounds turns options [] := by
  rw [statements, statements, ← repeatWhile_append, List.nil_append]

theorem Abreast.eq_of_holds {n : Nat} {s : Lookahead σ} {s' x : Lookahead τ}
    (h : Abreast (upTo [u] x) n s s') (hs : s.Holds [u] none) : s' = x := by
  cases h with
  | ended _ ends => simp [hs.atEnd_eq] at ends
  | parted _ _ _ right => exact right
  | broken _ _ left _ _ _ =>
    obtain ⟨s₁, hadvance, -⟩ := hs.exists_advance
    simp [left] at hadvance
  | step _ before _ _ _ => exact absurd hs before

theorem exists_topStatement {n rounds : Nat} {us : List Token} {a : Stmt} {s : Lookahead σ}
    {s' x : Lookahead τ}
    (h : StatementWithin options.strictParams options.maxDepth (ts ++ [u]) a (us ++ [u]))
    (hs : s.Holds (ts ++ [u]) none) (habreast : Abreast (upTo [u] x) n s s')
    (hn : n ≤ rounds + 1) (hrounds : ts.length ≤ rounds) :
    ∃ (s₁ : Lookahead σ) (s₁' : Lookahead τ), topStatement (rounds + 1) options s' = .ok a s₁' ∧
      s₁.Holds (us ++ [u]) none ∧ Abreast (upTo [u] x) n s₁ s₁' := by
  obtain ⟨s₁, hstatement, hs₁⟩ := statementWithin_accepts (Nat.le_refl (rounds + 1)) _ _ hs
    (by simpa using hrounds) h
  have htogether : Together (upTo [u] x) n 1 (topStatement (rounds + 1) options s)
      (topStatement (rounds + 1) options s') :=
    (inStep_topStatement hn hn options _).together (Nat.le_refl n) habreast rfl
  rw [topStatement, hstatement] at htogether
  generalize topStatement (rounds + 1) options s' = result' at htogether
  cases htogether with
  | ok length abreast => exact ⟨s₁, _, rfl, hs₁, abreast.mono (Nat.le_of_succ_le length)⟩
  | past left _ beyond _ =>
    obtain ⟨rest, hsuffix, hrest⟩ := beyond.holds left
    have hlength := congrArg List.length (hs₁.unique hrest)
    rw [List.suffix_nil.mp hsuffix] at hlength
    simp at hlength

/-- The statements of a program take their turns, and the others are left for what is behind. -/
theorem statements_front {n rounds turns : Nat} {x : Lookahead τ} {program : Block}
    (h : Grammar.Program options ts program) (hu : u ≠ .keyword .elseWord) {s : Lookahead σ}
    {s' : Lookahead τ} (hs : s.Holds (ts ++ [u]) none) (habreast : Abreast (upTo [u] x) n s s')
    (hn : n ≤ rounds + 1) (hrounds : ts.length ≤ rounds) (read : Block) :
    statements (rounds + 1) (program.length + turns) options read s' =
      statements (rounds + 1) turns options (program.reverse ++ read) x := by
  rw [Grammar.Program] at h
  generalize hend : ([] : List Token) = rest at h
  induction h generalizing s s' read with
  | nil =>
    subst hend
    rw [habreast.eq_of_holds hs, List.length_nil, Nat.zero_add, List.reverse_nil, List.nil_append]
  | @cons ts us rest a as begins others ih =>
    subst hend
    have hends : EndsBefore [u] us := fun _ helse => hu (Option.some.inj helse)
    obtain ⟨s₁, s₁', hstatement, hs₁, habreast₁⟩ := exists_topStatement
      (extends_statementWithin _ _ begins hends) hs habreast hn hrounds
    have hlength := ((opens_statementWithin _ _).suffix begins).length_le
    have hmore : s'.atEnd = false := by
      rw [← habreast.level.atEnd, hs.atEnd_eq]
      simp
    have hothers := ih hs₁ habreast₁ (by omega) (a :: read) rfl
    rw [statements] at hothers ⊢
    rw [List.length_cons, Nat.add_right_comm, repeatWhile, get_bind, hmore, Bool.not_false,
      if_pos rfl, bind_of_ok hstatement, hothers]
    simp

theorem length_le_of_program {program : Block} (h : Grammar.Program options ts program) :
    program.length ≤ ts.length := by
  rw [Grammar.Program] at h
  generalize ([] : List Token) = rest at h
  induction h with
  | nil => exact Nat.zero_le _
  | cons begins _ ih =>
    have hlt := (opens_statementWithin _ _).length_lt begins
    rw [List.length_cons]
    omega

/-- In front of a token other than `else`, the statements of a program are read first. -/
theorem program_front {s x : Lookahead τ} {program : Block}
    (h : Grammar.Program options ts program) (hleads : Leads s ts x) (hx : x.token? = some u)
    (hu : u ≠ .keyword .elseWord) :
    ∃ rounds turns, bound x.source ≤ rounds ∧ bound x.source + 1 ≤ turns ∧
      Parse.program options s =
        ((program ++ ·) <$> statements (rounds + 1) turns options [] : Parse τ Block) x := by
  obtain ⟨s₀, -, hs₀⟩ := Lookahead.exists_ofSource (Feed.supplies_ofTokens (ts ++ [u]))
  have hbound := (hleads.bound_le (Lookahead.atEnd_of_token? hx)).2
  have hlength := length_le_of_program h
  obtain ⟨turns, hturns⟩ : ∃ turns, bound s.source + 1 = program.length + turns :=
    Nat.exists_eq_add_of_le (by omega)
  refine ⟨bound s.source, turns, by omega, by omega, ?_⟩
  have hrun := @statements_front _ _ _ _ options u ts _ (bound s.source) turns x program h hu s₀ s
    hs₀ (abreast_upTo hs₀ hleads hx) (by omega) (by omega) []
  rw [← hturns] at hrun
  rw [program_eq_statements, hrun, List.append_nil, statements_of_read, List.reverse_reverse]

theorem program_behind {k : Nat} {y s x : Lookahead Lexer} {program : Block} {us : List Token}
    {failure : Option SyntaxError} (h : Grammar.Program options ts program)
    (hleads : Leads s ts x) (hbelow : y.Below k x) (hy : y.Holds (u :: us) failure)
    (hu : u ≠ .keyword .elseWord) :
    (∀ program' y', Parse.program options y = .ok program' y' →
        ∃ s', Parse.program options s = .ok (program ++ program') s') ∧
      ∀ e y', Parse.program options y = .error e y' →
        ∃ s', Parse.program options s = .error ⟨e.line + k, e.cause⟩ s' := by
  obtain ⟨rounds, turns, hrounds, hturns, hfront⟩ :=
    program_front h hleads (hbelow.token.symm.trans hy.token?_eq) hu
  have hbound : bound x.source = bound y.source := congrArg List.length hbelow.source.rest
  rw [hbound] at hrounds hturns
  have htogether : Together (Lookahead.Below.comparison k) (bound y.source + 1) 0
      (Parse.program options y) (statements (rounds + 1) turns options [] x) := by
    have habreast := (hbelow.abreast hy).mono hy.length_le
    rw [program_eq_statements]
    exact (inStep_statements (Nat.le_refl _) (by omega) (Nat.le_refl _) hturns options []
      _).together (Nat.le_refl _) habreast rfl
  rw [hfront]
  generalize hresult : statements (rounds + 1) turns options [] x = result at htogether
  constructor
  · intro program' y' hok
    rw [hok] at htogether
    cases htogether with
    | @ok _ _ s' _ _ _ => exact ⟨s', by simp only [Functor.map, EStateM.map, hresult]⟩
    | past left _ _ _ => exact left.elim
  · intro e y' herror
    rw [herror] at htogether
    cases htogether with
    | @error _ e' _ s' cause line =>
      obtain ⟨_, _⟩ := e'
      obtain ⟨rfl, rfl⟩ : e.cause = _ ∧ _ = e.line + k := ⟨cause, line⟩
      exact ⟨s', by simp only [Functor.map, EStateM.map, hresult]⟩
    | past left _ _ _ => exact left.elim

theorem program_broken {s x x' : Lookahead τ} {program : Block} {e : SyntaxError}
    (h : Grammar.Program options (ts ++ [t]) program) (hleads : Leads s ts x)
    (hx : x.token? = some t) (hfails : advance x = .error e x') :
    ∃ s', Parse.program options s = .error e s' := by
  obtain ⟨s₀, -, hs₀⟩ := Lookahead.exists_ofSource (Feed.supplies_ofTokens (ts ++ [t]))
  obtain ⟨s₀', hok⟩ := program_complete hs₀ h
  have hs := hleads.holds (.broken hx hfails)
  have hlength := hs₀.length_le
  have hlength' := hs.length_le
  simp only [List.length_append, List.length_singleton] at hlength hlength'
  have htogether := program_together (abreast_upTo hs₀ hleads hx) hlength hlength' options
  rw [hok] at htogether
  generalize hresult : Parse.program options s = result at htogether
  cases htogether with
  | ok _ _ => simpa using (program_sound hs hresult).1
  | past _ right _ beyond =>
    subst right
    cases beyond with
    | broken fails =>
      obtain ⟨rfl, -⟩ := EStateM.Result.error.inj (fails.symm.trans hfails)
      exact ⟨_, rfl⟩
    | step step _ =>
      have hok := step.2
      simp [hfails] at hok

theorem ne_else_of_program {program : Block} (h : Grammar.Program options (u :: ts) program) :
    u ≠ .keyword .elseWord := by
  rw [Grammar.Program] at h
  rintro rfl
  cases h with
  | cons begins _ =>
    obtain ⟨t, us, heq, hopens, -⟩ := opens_statementWithin _ _ begins
    obtain ⟨rfl, -⟩ := List.cons.inj heq
    simp [opensStatement] at hopens

end Parse

section
variable {σ : Type} [TokenSource σ] {options : ParseOptions} {source last : σ} {ts : List Token}
  {program : Block}

theorem parseFrom_of_ended (hpasses : Passes source ts last)
    (h : Grammar.Program options ts program) (hlast : Supplies last []) :
    parseFrom options source = .ok program := by
  have hsupplies := hpasses.supplies hlast
  rw [List.append_nil] at hsupplies
  exact parseFrom_eq_ok_iff.mpr ⟨ts, hsupplies, h⟩

theorem parseFrom_of_broken (hpasses : Passes source ts last)
    (h : Grammar.Program options ts program) {e : SyntaxError}
    (he : Lookahead.ofSource last = .error e) : parseFrom options source = .error e := by
  rcases List.eq_nil_or_concat ts with rfl | ⟨ts, t, rfl⟩
  · obtain ⟨same⟩ := hpasses
    rw [parseFrom, Lookahead.ofSource_congr same, he]
  · rw [List.concat_eq_append] at hpasses h
    obtain ⟨s, x, hs, hleads, hx, x', hfails⟩ := hpasses.exists_broken he
    exact (parseFrom_eq_error_iff_program hs).mpr (Parse.program_broken h hleads hx hfails)

end

/-- What is behind a program is parsed as it is on its own, a number of lines above, if it does
not begin with `else`. -/
theorem parseFrom_behind {options : ParseOptions} {k : Nat} {source last lexer : Lexer}
    {ts : List Token} {program : Block} (hpasses : Passes source ts last)
    (h : Grammar.Program options ts program) (hbelow : lexer.Below k last) :
    (∀ program', parseFrom options lexer = .ok program' →
        parseFrom options source = .ok (program ++ program')) ∧
      ∀ e, parseFrom options lexer = .error e →
        lexer.drain.1.head?.map (·.2) ≠ some (.keyword .elseWord) →
        parseFrom options source = .error ⟨e.line + k, e.cause⟩ := by
  cases hfirst : Lookahead.ofSource lexer with
  | error e =>
    have hparse : parseFrom options lexer = .error e := by rw [parseFrom, hfirst]
    rw [hparse]
    refine ⟨fun _ hok => by simp at hok, fun e' he _ => ?_⟩
    obtain rfl := Except.error.inj he
    exact parseFrom_of_broken hpasses h (Lookahead.ofSource_below_error hbelow hfirst)
  | ok y =>
    obtain ⟨x, hx, hbelow'⟩ := Lookahead.exists_ofSource_below hbelow hfirst
    obtain ⟨us, failure, hy⟩ := Lookahead.exists_holds hfirst
    cases us with
    | nil =>
      have hparse : parseFrom options lexer = .ok [] :=
        parseFrom_eq_ok_iff.mpr ⟨[], hy.supplies hy.eq_none hfirst, .nil⟩
      rw [hparse]
      refine ⟨fun program' hok => ?_, fun _ herror => by simp at herror⟩
      obtain rfl := Except.ok.inj hok
      have hend : x.atEnd = true := hbelow'.atEnd.symm.trans hy.atEnd_eq
      rw [List.append_nil]
      exact parseFrom_of_ended hpasses h ((Lookahead.Holds.done hend).supplies rfl hx)
    | cons u us =>
      obtain ⟨s, hs, hleads⟩ := hpasses.exists_ofSource hx
      rw [Lookahead.head?_drain hfirst, hy.token?_eq]
      constructor
      · intro program' hok
        obtain ⟨y', hprogram⟩ := (parseFrom_eq_ok_iff_program hfirst).mp hok
        have hu := Parse.ne_else_of_program (Parse.program_sound hy hprogram).2
        have hbehind := (Parse.program_behind h hleads hbelow' hy hu).1 program' y' hprogram
        exact (parseFrom_eq_ok_iff_program hs).mpr hbehind
      · intro e herror helse
        obtain ⟨y', hprogram⟩ := (parseFrom_eq_error_iff_program hfirst).mp herror
        have hu : u ≠ .keyword .elseWord := fun heq => helse (congrArg some heq)
        have hbehind := (Parse.program_behind h hleads hbelow' hy hu).2 e y' hprogram
        exact (parseFrom_eq_error_iff_program hs).mpr hbehind

open Lexical

theorem exists_split_of_parse {options : ParseOptions} {source : String} {program : Block}
    (h : parse options source = .ok program) :
    ∃ pieces final, Split source.toList pieces (.finished final) ∧
      Grammar.Program options (pieces.map Piece.token) program := by
  obtain ⟨ts, hts, hprogram⟩ := parseFrom_eq_ok_iff.mp h
  obtain ⟨pieces, final, hsplit, rfl⟩ :=
    Lexer.exists_split_of_tokenize (Lexer.tokenize_of_supplies hts)
  exact ⟨pieces, final, hsplit, hprogram⟩

/-- Programs compose: a program in front of a newline and another program is read as both, and in
front of a text with an error, which does not begin with `else`, as that error on a lower line. -/
theorem parse_append {options : ParseOptions} {first second : String} {program : Block}
    (h : parse options first = .ok program) :
    (∀ program', parse options second = .ok program' →
        parse options (first ++ "\n" ++ second) = .ok (program ++ program')) ∧
      ∀ e, parse options second = .error e →
        (Lexer.ofString second).drain.1.head?.map (·.2) ≠ some (.keyword .elseWord) →
        parse options (first ++ "\n" ++ second) =
          .error ⟨e.line + (1 + first.toList.count '\n'), e.cause⟩ := by
  obtain ⟨pieces, final, hsplit, hprogram⟩ := exists_split_of_parse h
  obtain ⟨current, hpasses⟩ := Lexer.passes_of_split hsplit 1 none second.toList
  have hjoined : Lexer.ofString (first ++ "\n" ++ second) =
      ⟨first.toList ++ '\n' :: second.toList, 1, none⟩ := by
    simp [Lexer.ofString]
  have hbelow : (Lexer.ofString second).Below (1 + first.toList.count '\n')
      ⟨second.toList, 1 + (1 + first.toList.count '\n'), current⟩ := ⟨rfl, rfl⟩
  rw [← hjoined] at hpasses
  exact parseFrom_behind hpasses hprogram hbelow

/-- An `if` without `else` and a comment come to the end of the first text. -/
theorem parse_append_open_if :
    let first := "a;\nif (b) c; # d"
    let program : Block := [.expression (.variable "a"),
      .conditional (.variable "b") [.expression (.variable "c")] none]
    let program' : Block := [.expression (.variable "e")]
    parse {} first = .ok program ∧ parse {} "e;" = .ok program' ∧
      parse {} (first ++ "\n" ++ "e;") = .ok (program ++ program') ∧
      parse {} "e\nf;" = .error ⟨2, .expectedToken "';'" "identifier 'f'"⟩ ∧
      parse {} (first ++ "\n" ++ "e\nf;") = .error ⟨4, .expectedToken "';'" "identifier 'f'"⟩ := by
  intro first program program'
  have hfirst : parse {} first = .ok program := parse_eq_ok_of_equals rfl (by decide +kernel)
  have hok : parse {} "e;" = .ok program' := parse_eq_ok_of_equals rfl (by decide +kernel)
  have herror : parse {} "e\nf;" = .error ⟨2, .expectedToken "';'" "identifier 'f'"⟩ := by rfl
  have helse : (Lexer.ofString "e\nf;").drain.1.head?.map (·.2) ≠ some (.keyword .elseWord) := by
    decide
  have hlines : first.toList.count '\n' = 1 := by decide
  have hrefused := (parse_append hfirst).2 _ herror helse
  rw [hlines] at hrefused
  exact ⟨hfirst, hok, (parse_append hfirst).1 program' hok, herror, hrefused⟩

end Sapling
