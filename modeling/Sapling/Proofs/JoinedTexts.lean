import Sapling.Proofs.ProgramInStep
import Sapling.Proofs.WrittenTokens

/-!
# One text behind another

In front of a newline and more text the lexer hands out the same tokens as without them
(`Lexer.passes_of_split`), and what is behind is read as if it stood alone, on lower lines
(`Lookahead.Below`).
-/
namespace Sapling

open TokenSource

variable {σ : Type} [TokenSource σ] {t : Token} {ts us : List Token}

/-- The source hands out these tokens one after another and then goes on as `last` does. -/
inductive TokenSource.Passes : σ → List Token → σ → Prop
  | nil {source last : σ} (same : fetch source = fetch last) : Passes source [] last
  | cons {source source' last : σ} {t : Token} {ts : List Token}
      (fetched : fetch source = .ok true source') (token : current source' = some t)
      (rest : Passes source' ts last) : Passes source (t :: ts) last

theorem Lookahead.ofSource_congr {source source' : σ} (h : fetch source = fetch source') :
    ofSource source = ofSource source' := by
  rw [ofSource, ofSource, h]

theorem Lookahead.ofSource_of_fetch {source source' : σ} (h : fetch source = .ok true source') :
    ofSource source = .ok ⟨source', false⟩ :=
  ofSource_eq_ok_iff.mpr ⟨true, h, rfl⟩

namespace TokenSource.Passes

variable {source last : σ}

theorem supplies (h : Passes source ts last) (hlast : Supplies last us) :
    Supplies source (ts ++ us) := by
  induction h with
  | nil same => exact hlast.of_fetch_eq same
  | cons fetched token _ ih => exact .more fetched token (ih hlast)

theorem exists_ofSource (h : Passes source ts last) {x : Lookahead σ}
    (hx : Lookahead.ofSource last = .ok x) :
    ∃ s, Lookahead.ofSource source = .ok s ∧ Parse.Leads s ts x := by
  induction h with
  | nil same => exact ⟨x, (Lookahead.ofSource_congr same).trans hx, .nil⟩
  | cons fetched token _ ih =>
    obtain ⟨s', hs', hleads⟩ := ih hx
    exact ⟨_, Lookahead.ofSource_of_fetch fetched,
      .cons ⟨token, Lookahead.advance_eq_ok_iff.mpr hs'⟩ hleads⟩

theorem exists_broken (h : Passes source (ts ++ [t]) last) {e : SyntaxError}
    (he : Lookahead.ofSource last = .error e) :
    ∃ s x, Lookahead.ofSource source = .ok s ∧ Parse.Leads s ts x ∧ x.token? = some t ∧
      ∃ x', Parse.advance x = .error e x' := by
  induction ts generalizing source with
  | nil =>
    obtain _ | ⟨fetched, token, rest⟩ := h
    obtain ⟨same⟩ := rest
    exact ⟨_, _, Lookahead.ofSource_of_fetch fetched, .nil, token,
      Lookahead.exists_advance_error_iff.mpr ((Lookahead.ofSource_congr same).trans he)⟩
  | cons u ts ih =>
    obtain _ | ⟨fetched, token, rest⟩ := h
    obtain ⟨s', x, hs', hleads, hx⟩ := ih rest
    exact ⟨_, x, Lookahead.ofSource_of_fetch fetched,
      .cons ⟨token, Lookahead.advance_eq_ok_iff.mpr hs'⟩ hleads, hx⟩

end TokenSource.Passes

namespace Lexical

variable {cs : List Char}

theorem IsFinalLayout.newline {layout : List Char} (h : IsFinalLayout layout) :
    IsLayout (layout ++ ['\n']) := by
  cases h with
  | closed all => exact all.append (.space rfl .nil)
  | @comment layout body before line =>
    rw [List.append_assoc]
    exact before.append (.comment line .nil)

theorem Stops.newline {rest : List Char} (h : Stops t rest) : Stops t (rest ++ '\n' :: cs) := by
  intro c hc
  cases rest with
  | nil =>
    obtain rfl := Option.some.inj hc
    exact goesOn_of_layout (.inl rfl)
  | cons d rest => exact h c hc

end Lexical

namespace Lexer

open Lexical

variable {cs : List Char} {pieces : List Piece} {final : List Char}

/-- Layout in front of a text moves it to a lower line. -/
theorem fetch_layout {layout : List Char} (h : IsLayout layout) (line : Nat)
    (current : Option Token) : fetch ⟨layout ++ cs, line, current⟩ =
      fetch ⟨cs, line + layout.count '\n', current⟩ := by
  simp only [fetch, skipLayout_layout h]

/-- A text without an error is read in front of a newline and more text as it is read alone. -/
theorem passes_of_split (h : Split cs pieces (.finished final)) (line : Nat)
    (current : Option Token) (behind : List Char) :
    ∃ current', Passes (⟨cs ++ '\n' :: behind, line, current⟩ : Lexer) (pieces.map Piece.token)
      ⟨behind, line + (1 + cs.count '\n'), current'⟩ := by
  generalize hstop : Stop.finished final = stop at h
  induction h generalizing line current with
  | stop valid =>
    subst hstop
    have hfetch := @fetch_layout behind _ (IsFinalLayout.newline valid) line current
    rw [List.append_assoc, List.count_append, List.count_singleton_self, Nat.add_comm _ 1] at hfetch
    exact ⟨current, .nil hfetch⟩
  | @token piece pieces stop rest layout longest _ ih =>
    obtain ⟨current', hpasses⟩ := ih (line + (piece.layout ++ piece.lexeme).count '\n')
      (some piece.token) hstop
    have hstops : Stops piece.token (rest ++ '\n' :: behind) := longest.stops.newline
    have hfetch := fetch_token layout (longest.reads.longest hstops) line current
    refine ⟨current', ?_⟩
    rw [List.append_assoc, List.append_assoc]
    refine .cons hfetch rfl ?_
    simpa [Nat.add_assoc, Nat.add_left_comm] using hpasses

/-- A lexer at the same text as another one, a number of lines below it. -/
structure Below (k : Nat) (lexer lexer' : Lexer) : Prop where
  rest : lexer'.rest = lexer.rest
  line : lexer'.line = lexer.line + k

inductive FetchedBelow (k : Nat) :
    EStateM.Result SyntaxError Lexer Bool → EStateM.Result SyntaxError Lexer Bool → Prop
  | ok {more : Bool} {lexer lexer' : Lexer} (below : Below k lexer lexer')
      (current : more = true → lexer.current = lexer'.current) :
      FetchedBelow k (.ok more lexer) (.ok more lexer')
  | error {e : SyntaxError} {lexer lexer' : Lexer} :
      FetchedBelow k (.error e lexer) (.error ⟨e.line + k, e.cause⟩ lexer')

theorem Below.fetch {k : Nat} {lexer lexer' : Lexer} (h : Below k lexer lexer') :
    FetchedBelow k (Lexer.fetch lexer) (Lexer.fetch lexer') := by
  obtain ⟨cs, line, current⟩ := lexer
  obtain ⟨cs', line', current'⟩ := lexer'
  obtain ⟨rfl, rfl⟩ : cs = cs' ∧ line + k = line' := ⟨h.rest.symm, h.line.symm⟩
  rcases exists_step cs with
    ⟨stop, hvalid, rfl⟩ | ⟨layout, lexeme, t, others, hlayout, hlongest, rfl⟩
  · rw [fetch_stop hvalid, fetch_stop hvalid]
    have hbelow : Below k ⟨stop.left, line + stop.taken.count '\n', current⟩
        ⟨stop.left, line + k + stop.taken.count '\n', current'⟩ := ⟨rfl, by simp only; omega⟩
    cases stop with
    | finished _ => exact .ok hbelow nofun
    | unterminated _ _ | unexpected _ _ _ =>
      simp only [Stop.error?, stopped, Nat.add_right_comm line k]
      exact .error
  · rw [fetch_token hlayout hlongest, fetch_token hlayout hlongest]
    exact .ok ⟨rfl, by simp only; omega⟩ fun _ => rfl

end Lexer

namespace Lookahead

open Lexical Parse

/-- A parse at the same tokens of the same text as another one, a number of lines below it. -/
structure Below (k : Nat) (s s' : Lookahead Lexer) : Prop where
  source : s.source.Below k s'.source
  atEnd : s.atEnd = s'.atEnd
  token : s.token? = s'.token?

variable {k : Nat} {lexer lexer' : Lexer} {s s' : Lookahead Lexer}

theorem exists_ofSource_below (h : lexer.Below k lexer') (hs : ofSource lexer = .ok s) :
    ∃ s', ofSource lexer' = .ok s' ∧ s.Below k s' := by
  obtain ⟨more, hfetch, hend⟩ := ofSource_eq_ok_iff.mp hs
  have hfetched := h.fetch
  rw [show Lexer.fetch lexer = .ok more s.source from hfetch] at hfetched
  generalize hfetch' : Lexer.fetch lexer' = result' at hfetched
  cases hfetched with
  | @ok _ _ last below current =>
    refine ⟨⟨last, !more⟩, ofSource_eq_ok_iff.mpr ⟨more, hfetch', rfl⟩, below, hend, ?_⟩
    cases more with
    | false => rw [token?_of_atEnd hend, token?_of_atEnd rfl]
    | true =>
      simp only [token?, hend]
      exact current rfl

theorem ofSource_below_error (h : lexer.Below k lexer') {e : SyntaxError}
    (he : ofSource lexer = .error e) : ofSource lexer' = .error ⟨e.line + k, e.cause⟩ := by
  have hfetched := h.fetch
  simp only [ofSource, TokenSource.fetch] at he ⊢
  generalize Lexer.fetch lexer = result, Lexer.fetch lexer' = result' at he hfetched
  cases hfetched with
  | ok below _ => simp at he
  | error =>
    obtain rfl := Except.error.inj he
    rfl

theorem head?_drain {lexer : Lexer} {s : Lookahead Lexer}
    (h : ofSource lexer = .ok s) : lexer.drain.1.head?.map (·.2) = s.token? := by
  obtain ⟨cs, line, current⟩ := lexer
  obtain ⟨pieces, stop, hsplit⟩ := exists_split cs
  obtain ⟨last, -, hdrain⟩ := @Lexer.drain_of_split _ _ ⟨cs, line, current⟩ hsplit
  obtain ⟨more, hfetch, hend⟩ := ofSource_eq_ok_iff.mp h
  have hfetch' : Lexer.fetch ⟨cs, line, current⟩ = .ok more s.source := hfetch
  rw [hdrain]
  cases hsplit with
  | stop valid =>
    rw [fetch_stop valid] at hfetch'
    have hmore : more = false := by
      cases herror : stop.error? line <;> simp_all [stopped]
    rw [token?_of_atEnd (by simp [hend, hmore])]
    rfl
  | token layout longest _ =>
    rw [fetch_token layout longest] at hfetch'
    obtain ⟨rfl, hsource⟩ := EStateM.Result.ok.inj hfetch'
    have hcurrent := congrArg Lexer.current hsource
    simp only [numbered, token?, hend]
    exact hcurrent

/-- The comparison of all tokens, on lines that differ by this number. -/
def Below.comparison (k : Nat) : Comparison Lexer Lexer where
  lines line line' := line' = line + k
  left _ := False
  right _ := False

theorem Below.level (h : s.Below k s') : Level (comparison k) s s' :=
  ⟨h.atEnd, h.token, h.source.line⟩

theorem Below.abreast {failure : Option SyntaxError} (h : s.Below k s') (hs : s.Holds ts failure) :
    Abreast (comparison k) ts.length s s' := by
  induction hs generalizing s' with
  | done ends => exact .ended h.level ends
  | more step _ ih =>
    obtain ⟨s₁', hs₁', hbelow⟩ := exists_ofSource_below h.source (advance_eq_ok_iff.mp step.2)
    exact .step h.level not_false step (advance_eq_ok_iff.mpr hs₁') (ih hbelow)
  | broken token fails =>
    obtain ⟨s₁', hfails⟩ := exists_advance_error_iff.mpr
      (ofSource_below_error h.source (exists_advance_error_iff.mp ⟨_, fails⟩))
    exact .broken h.level token fails hfails rfl rfl

end Lookahead
end Sapling
