import Sapling.Proofs.ScannerSteps

/-!
# A run of the scanner

What every call of a scanner takes of the text and what it leaves, whatever the calls before it
answered. A call that does not answer the end takes something, so that a run that goes on behind
errors comes to the end.
-/
namespace Sapling.Scanner

open Lexical

variable {s : Scanner} {result : Result Bool}

/-- The scanner after a call, whatever the call answers. -/
def after (s : Scanner) : Scanner :=
  match fetch s with
  | .ok _ s' => s'
  | .error _ s' => s'

/-- The scanner of a text after some calls. -/
def state (source : String) : Nat → Scanner
  | 0 => ofString source
  | n + 1 => (state source n).after

def Answers (s : Scanner) (more : Bool) : Prop :=
  ∃ s', fetch s = .ok more s'

/-- The call reads the longest lexeme behind layout as this token. -/
def Reads (s : Scanner) (t : Token) : Prop :=
  ∃ layout lexeme s', fetch s = .ok true s' ∧ IsLayout layout ∧
    Longest lexeme t (lexeme ++ s'.rest) ∧ s.rest = layout ++ (lexeme ++ s'.rest)

/-- The token of the last of the first `n` calls that read one. -/
def LastRead (source : String) (n : Nat) : Option Token → Prop
  | none => ∀ m < n, ¬ Answers (state source m) true
  | some t => ∃ m < n, Reads (state source m) t ∧
      ∀ k, m < k → k < n → ¬ Answers (state source k) true

inductive Call (s : Scanner) : Result Bool → Prop
  | read {layout lexeme : List Char} {t : Token} {s' : Scanner} (separated : IsLayout layout)
      (longest : Longest lexeme t (lexeme ++ s'.rest))
      (taken : s.rest = layout ++ (lexeme ++ s'.rest))
      (line : s'.line = s.line + (layout ++ lexeme).count '\n') (current : s'.current = some t) :
      Call s (.ok true s')
  | stop {stop : Stop} {s' : Scanner} (valid : stop.Valid) (text : s.rest = stop.text)
      (left : s'.rest = stop.left) (line : s'.line = s.line + stop.taken.count '\n')
      (current : s'.current = s.current) : Call s (stopped (stop.error? s.line) s')

theorem fetch_call (s : Scanner) : Call s (fetch s) := by
  rcases exists_step s.rest with ⟨stop, hvalid, htext⟩ | ⟨layout, lexeme, t, rest, hlayout, h, hs⟩
  · obtain ⟨s', hfetch, hs'⟩ := fetch_stop htext hvalid
    obtain ⟨hrest, hline, hcurrent⟩ := Lexer.mk.inj hs'
    rw [hfetch]
    exact .stop hvalid htext hrest hline hcurrent
  · obtain ⟨s', hfetch, hs'⟩ := fetch_token hs hlayout h
    obtain ⟨rfl, hline, hcurrent⟩ := Lexer.mk.inj hs'
    rw [hfetch]
    exact .read hlayout h hs hline hcurrent

theorem after_of_fetch_eq {error : Option SyntaxError} {s' : Scanner}
    (h : fetch s = stopped error s') : s.after = s' := by
  rw [after, h]
  cases error <;> rfl

theorem not_answers_true {error : Option SyntaxError} {s' : Scanner}
    (h : fetch s = stopped error s') : ¬ Answers s true := by
  rintro ⟨s'', hfetch⟩
  rw [hfetch] at h
  cases error <;> simp [stopped] at h

theorem exists_taken (s : Scanner) :
    ∃ taken, s.rest = taken ++ s.after.rest ∧ s.after.line = s.line + taken.count '\n' ∧
      (¬ Answers s false → taken ≠ []) := by
  have hcall := fetch_call s
  generalize hfetch : fetch s = result at hcall
  cases hcall with
  | @read layout lexeme t s' _ longest taken line _ =>
    have hafter : s.after = s' := by rw [after, hfetch]
    obtain ⟨c, cs, hlexeme⟩ := longest.reads.exists_cons
    exact ⟨layout ++ lexeme, by simpa [hafter] using taken, by rw [hafter, line], by simp [hlexeme]⟩
  | @stop stop s' _ text left line _ =>
    have hafter := after_of_fetch_eq hfetch
    refine ⟨stop.taken, ?_, by rw [hafter, line], fun hends => ?_⟩
    · rw [hafter, left, stop.taken_append_left, text]
    · cases stop with
      | finished _ => exact absurd ⟨s', hfetch⟩ hends
      | unterminated _ _ | unexpected _ _ _ => simp [Stop.taken]

theorem length_rest_after_lt (h : ¬ Answers s false) : s.after.rest.length < s.rest.length := by
  obtain ⟨taken, htaken, -, hne⟩ := exists_taken s
  have hpos := List.length_pos_iff.mpr (hne h)
  rw [htaken, List.length_append]
  omega

theorem length_rest_lt_of_ok {s' : Scanner} (h : fetch s = .ok true s') :
    s'.rest.length < s.rest.length := by
  have hafter : s.after = s' := by rw [after, h]
  rw [← hafter]
  exact length_rest_after_lt fun ⟨_, hends⟩ => by simp [h] at hends

theorem length_rest_lt_of_error {s' : Scanner} {fault : Fault} (h : fetch s = .error fault s') :
    s'.rest.length < s.rest.length := by
  have hafter : s.after = s' := by rw [after, h]
  rw [← hafter]
  exact length_rest_after_lt fun ⟨_, hends⟩ => by simp [h] at hends

theorem exists_consumed (source : String) (n : Nat) :
    ∃ consumed, consumed ++ (state source n).rest = source.toList ∧
      (state source n).line = 1 + consumed.count '\n' := by
  induction n with
  | zero => exact ⟨[], rfl, rfl⟩
  | succ n ih =>
    obtain ⟨consumed, hconsumed, hline⟩ := ih
    obtain ⟨taken, htaken, hline', -⟩ := exists_taken (state source n)
    refine ⟨consumed ++ taken, ?_, ?_⟩
    · rw [state, List.append_assoc, ← htaken, hconsumed]
    · rw [state, hline', hline, List.count_append, Nat.add_assoc]

theorem lastRead_current (source : String) (n : Nat) :
    LastRead source n (state source n).current := by
  induction n with
  | zero => exact fun m hm => absurd hm (Nat.not_lt_zero m)
  | succ n ih =>
    have hcall := fetch_call (state source n)
    generalize hfetch : fetch (state source n) = result at hcall
    cases hcall with
    | @read layout lexeme t s' separated longest taken _ current =>
      have hafter : state source (n + 1) = s' := by rw [state, after, hfetch]
      rw [hafter, current]
      exact ⟨n, Nat.lt_succ_self n, ⟨layout, lexeme, s', hfetch, separated, longest, taken⟩,
        fun k hk hk' => by omega⟩
    | stop _ _ _ _ current =>
      have hnot := not_answers_true hfetch
      have hlt {k : Nat} (hk : k < n + 1) (h : k < n → ¬ Answers (state source k) true) :
          ¬ Answers (state source k) true := by
        rcases Nat.lt_succ_iff_lt_or_eq.mp hk with hlt | rfl
        · exact h hlt
        · exact hnot
      rw [state, after_of_fetch_eq hfetch, current]
      cases hcurrent : (state source n).current with
      | none =>
        rw [hcurrent] at ih
        exact fun m hm => hlt hm (ih m)
      | some t =>
        rw [hcurrent] at ih
        obtain ⟨m, hm, hreads, hbetween⟩ := ih
        exact ⟨m, Nat.lt_succ_of_lt hm, hreads, fun k hk hk' => hlt hk' (hbetween k hk)⟩

/-- Every call takes at least one character until one answers the end. -/
theorem length_rest_add_le {source : String} {n : Nat}
    (h : ∀ m < n, ¬ Answers (state source m) false) :
    (state source n).rest.length + n ≤ source.length := by
  induction n with
  | zero => exact Nat.le_of_eq String.length_toList
  | succ n ih =>
    have hle := ih fun m hm => h m (Nat.lt_succ_of_lt hm)
    have hlt := length_rest_after_lt (h n (Nat.lt_succ_self n))
    rw [state]
    omega

theorem exists_answers_false (source : String) :
    ∃ m ≤ source.length, Answers (state source m) false := by
  by_contra hnone
  have hle := @length_rest_add_le source (source.length + 1) fun m hm hends =>
    hnone ⟨m, Nat.le_of_lt_succ hm, hends⟩
  omega

/-- At the end nothing changes any more. -/
theorem state_of_rest_eq_nil {source : String} {n : Nat} (h : (state source n).rest = []) {k : Nat}
    (hk : n ≤ k) : state source k = state source n := by
  induction k, hk using Nat.le_induction with
  | base => rfl
  | succ k _ ih =>
    have hfetch := fetch_of_rest_eq_nil h
    rw [state, ih, after, hfetch]

/-- After any number of calls, whatever they answered: what has been taken, what is in the slot and
what is left of the input make up the text; the line counts the newlines that have been taken; the
current token is the one that was read last; no call finds the slot taken; a call that reads a
token or meets an error takes at least one character, and behind a character that begins nothing
the run goes on; and at the end, which is reached, nothing changes any more. -/
theorem run_invariant (source : String) (n : Nat) :
    (∃ consumed,
      consumed ++ ((state source n).pushback.toList ++ (state source n).input) = source.toList ∧
        (state source n).line = 1 + consumed.count '\n') ∧
      LastRead source n (state source n).current ∧
      (match fetch (state source n) with
      | .ok true s' =>
        s'.rest.length < (state source n).rest.length ∧
          ∃ t, Reads (state source n) t ∧ s'.current = some t
      | .ok false s' =>
        s'.current = (state source n).current ∧
          ∀ k > n, state source k = s' ∧ fetch (state source k) = .ok false s'
      | .error (.refused e) s' =>
        s'.current = (state source n).current ∧
          s'.rest.length < (state source n).rest.length ∧
          ((∃ layout c, e.cause = .unexpectedCharacter c ∧ IsLayout layout ∧
            (state source n).rest = layout ++ c :: s'.rest) ∨
            e.cause = .unterminatedString ∧ s'.rest = [])
      | .error .slotTaken _ => False) ∧
      ∃ m ≤ source.length, Answers (state source m) false := by
  refine ⟨exists_consumed source n, lastRead_current source n, ?_, exists_answers_false source⟩
  have hcall := fetch_call (state source n)
  generalize hfetch : fetch (state source n) = result at hcall
  cases hcall with
  | @read layout lexeme t s' separated longest taken _ current =>
    exact ⟨length_rest_lt_of_ok hfetch, t,
      ⟨layout, lexeme, s', hfetch, separated, longest, taken⟩, current⟩
  | @stop stop s' valid text left _ current =>
    cases stop with
    | finished layout =>
      have hnext : state source (n + 1) = s' := after_of_fetch_eq hfetch
      refine ⟨current, fun k hk => ?_⟩
      have hstate := state_of_rest_eq_nil (hnext ▸ left) (Nat.succ_le_of_lt hk)
      rw [hstate, hnext]
      exact ⟨rfl, fetch_of_rest_eq_nil left⟩
    | unterminated layout text' =>
      exact ⟨current, length_rest_lt_of_error hfetch, .inr ⟨rfl, left⟩⟩
    | unexpected layout c rest =>
      have hsplit : (state source n).rest = layout ++ c :: s'.rest := by
        rw [text, left]
        rfl
      exact ⟨current, length_rest_lt_of_error hfetch, .inl ⟨layout, c, rfl, valid.1, hsplit⟩⟩

end Sapling.Scanner
