import Sapling.Proofs.LexerSteps
import Sapling.Scanner

/-!
# The scanner follows the lexer

What a scanner still has to read is the character in its slot and the input behind it, and each of
its loops does there what the lexer does on the whole text: `fetch_agrees`. A character goes back
into the slot only right after one has been taken, so that the slot is never taken.
-/
namespace Sapling.Scanner

open Lexical

variable {α β : Type} {s s' : Scanner} {c : Char}

/-- The answers of a scanner and of a lexer that say the same and leave the same. -/
inductive Agrees : Result α → EStateM.Result SyntaxError Lexer α → Prop
  | ok {a : α} {s : Scanner} : Agrees (.ok a s) (.ok a s.toLexer)
  | error {e : SyntaxError} {s : Scanner} : Agrees (.error (.refused e) s) (.error e s.toLexer)

theorem Agrees.of_ok {a : α} {result : Result α} {lexer : Lexer}
    (h : ∃ s', result = .ok a s' ∧ s'.toLexer = lexer) : Agrees result (.ok a lexer) := by
  obtain ⟨s', rfl, rfl⟩ := h
  exact .ok

theorem Agrees.of_error {e : SyntaxError} {result : Result α} {lexer : Lexer}
    (h : ∃ s', result = .error (.refused e) s' ∧ s'.toLexer = lexer) :
    Agrees result (.error e lexer) := by
  obtain ⟨s', rfl, rfl⟩ := h
  exact .error

theorem Agrees.exists_ok {a : α} {result : Result α} {lexer : Lexer}
    (h : Agrees result (.ok a lexer)) : ∃ s', result = .ok a s' ∧ s'.toLexer = lexer := by
  cases h with
  | ok => exact ⟨_, rfl, rfl⟩

theorem Agrees.exists_error {e : SyntaxError} {result : Result α} {lexer : Lexer}
    (h : Agrees result (.error e lexer)) :
    ∃ s', result = .error (.refused e) s' ∧ s'.toLexer = lexer := by
  cases h with
  | error => exact ⟨_, rfl, rfl⟩

theorem bind_of_ok {p : Scan α} {f : α → Scan β} {a : α} (h : p s = .ok a s') :
    (p >>= f) s = f a s' := by
  simp only [bind, EStateM.bind, h]

theorem bind_of_error {p : Scan α} {f : α → Scan β} {fault : Fault} (h : p s = .error fault s') :
    (p >>= f) s = .error fault s' := by
  simp only [bind, EStateM.bind, h]

theorem rest_of_next?_eq_none (h : s.next? = none) : s.rest = [] := by
  obtain ⟨input, pushback, line, current⟩ := s
  cases pushback with
  | some d => simp [next?] at h
  | none =>
    cases input with
    | nil => rfl
    | cons d cs => simp [next?] at h

theorem toLexer_of_next? (h : s.next? = some (c, s')) :
    s.toLexer = ⟨c :: s'.rest, s'.line, s'.current⟩ := by
  obtain ⟨hrest, -, hline, hcurrent⟩ := next?_eq_some h
  rw [toLexer, hrest, hline, hcurrent]

theorem pushBack_of_next? (h : s.next? = some (c, s')) :
    ∃ s'', pushBack c s' = .ok () s'' ∧ s''.toLexer = s.toLexer := by
  obtain ⟨hrest, hslot, hline, hcurrent⟩ := next?_eq_some h
  refine ⟨{ s' with pushback := some c }, by simp [pushBack, hslot], ?_⟩
  rw [toLexer_of_next? h]
  simp [toLexer, rest, hslot]

theorem next_of_none (h : s.next? = none) : next s = .ok none s := by
  simp only [next, h]

theorem next_of_some (h : s.next? = some (c, s')) : next s = .ok (some c) s' := by
  simp only [next, h]

theorem nextIs_of_eq {cs : List Char} (hs : s.rest = c :: cs) :
    ∃ s', nextIs c s = .ok true s' ∧ s'.toLexer = ⟨cs, s.line, s.current⟩ := by
  cases h : s.next? with
  | none => simp [rest_of_next?_eq_none h] at hs
  | some taken =>
    obtain ⟨d, s'⟩ := taken
    obtain ⟨hrest, -, hline, hcurrent⟩ := next?_eq_some h
    obtain ⟨rfl, rfl⟩ := List.cons.inj (hrest.symm.trans hs)
    refine ⟨s', ?_, by rw [toLexer, hline, hcurrent]⟩
    rw [nextIs, bind_of_ok (next_of_some h)]
    simp [pure, EStateM.pure]

theorem nextIs_of_ne (hs : s.rest.head? ≠ some c) :
    ∃ s', nextIs c s = .ok false s' ∧ s'.toLexer = s.toLexer := by
  cases h : s.next? with
  | none => exact ⟨s, by rw [nextIs, bind_of_ok (next_of_none h)]; rfl, rfl⟩
  | some taken =>
    obtain ⟨d, s'⟩ := taken
    have hd : d ≠ c := by simpa [rest_of_next? h] using hs
    obtain ⟨s'', hback, hs''⟩ := pushBack_of_next? h
    refine ⟨s'', ?_, hs''⟩
    rw [nextIs, bind_of_ok (next_of_some h)]
    simp only [hd, if_false]
    rw [bind_of_ok hback]
    rfl

theorem toLexer_skipComment (s : Scanner) :
    s.skipComment.current = s.current ∧
      Lexer.skipLayout true s.line s.rest =
        Lexer.skipLayout false s.skipComment.line s.skipComment.rest := by
  fun_induction skipComment s with
  | case1 s h => simp [rest_of_next?_eq_none h, Lexer.skipLayout]
  | case2 s s' h =>
    obtain ⟨hrest, -, hline, hcurrent⟩ := next?_eq_some h
    exact ⟨hcurrent, by simp [hrest, Lexer.skipLayout, newline, hline]; rfl⟩
  | case3 s c s' h hc ih =>
    obtain ⟨hrest, -, hline, hcurrent⟩ := next?_eq_some h
    refine ⟨ih.1.trans hcurrent, ?_⟩
    rw [hrest, Lexer.skipLayout, if_neg hc, if_pos rfl, ← hline, ih.2]

theorem skipLayout_eq (s : Scanner) :
    ∃ s', skipLayout s = .ok () s' ∧ s'.current = s.current ∧
      (s'.line, s'.rest) = Lexer.skipLayout false s.line s.rest := by
  fun_induction skipLayout s with
  | case1 s h =>
    exact ⟨s, rfl, rfl, by simp [rest_of_next?_eq_none h, Lexer.skipLayout]⟩
  | case2 s s' h ih =>
    obtain ⟨hrest, -, hline, hcurrent⟩ := next?_eq_some h
    obtain ⟨s'', hskip, hcurrent', hlexer⟩ := ih
    refine ⟨s'', hskip, hcurrent'.trans hcurrent, hlexer.trans ?_⟩
    rw [hrest, Lexer.skipLayout, if_pos rfl, ← hline]
    rfl
  | case3 s s' h hc ih =>
    obtain ⟨hrest, -, hline, hcurrent⟩ := next?_eq_some h
    obtain ⟨s'', hskip, hcurrent', hlexer⟩ := ih
    obtain ⟨hcomment, hskip'⟩ := toLexer_skipComment s'
    refine ⟨s'', hskip, hcurrent'.trans (hcomment.trans hcurrent), hlexer.trans ?_⟩
    rw [hrest, Lexer.skipLayout, if_neg hc, if_neg Bool.false_ne_true, if_pos rfl, ← hline, hskip']
  | case4 s c s' h hc hcomment hblank ih =>
    obtain ⟨hrest, -, hline, hcurrent⟩ := next?_eq_some h
    obtain ⟨s'', hskip, hcurrent', hlexer⟩ := ih
    refine ⟨s'', hskip, hcurrent'.trans hcurrent, hlexer.trans ?_⟩
    rw [hrest, Lexer.skipLayout, if_neg hc, if_neg Bool.false_ne_true, if_neg hcomment,
      if_pos hblank, ← hline]
  | case5 s c s' h hc hcomment hblank =>
    obtain ⟨s'', hback, hs''⟩ := pushBack_of_next? h
    obtain ⟨hrest', hline', hcurrent'⟩ := Lexer.mk.inj hs''
    refine ⟨s'', hback, hcurrent', ?_⟩
    rw [hrest', hline', rest_of_next? h, Lexer.skipLayout, if_neg hc, if_neg Bool.false_ne_true,
      if_neg hcomment, if_neg hblank]

/-- A run ends in front of the first character that does not belong to it. -/
theorem run_eq (belongs : Char → Bool) (read : List Char) (s : Scanner) :
    ∃ s', run belongs read s = .ok (read.reverse ++ s.rest.takeWhile belongs) s' ∧
      s'.toLexer = ⟨s.rest.dropWhile belongs, s.line, s.current⟩ := by
  fun_induction run belongs read s with
  | case1 read s h =>
    have hrest := rest_of_next?_eq_none h
    exact ⟨s, by simp [hrest], by simp [toLexer, hrest]⟩
  | case2 read s c s' h hc ih =>
    obtain ⟨hrest, -, hline, hcurrent⟩ := next?_eq_some h
    obtain ⟨s'', hrun, hlexer⟩ := ih
    exact ⟨s'', by simp [hrun, hrest, hc], by simp [hlexer, hrest, hc, hline, hcurrent]⟩
  | case3 read s c s' h hc =>
    obtain ⟨s'', hback, hs''⟩ := pushBack_of_next? h
    refine ⟨s'', ?_, ?_⟩
    · rw [bind_of_ok hback, rest_of_next? h]
      simp [hc, pure, EStateM.pure]
    · rw [hs'', toLexer, rest_of_next? h, List.dropWhile_cons_of_neg hc]

/-- A string ends at the first quote, and is an error when there is none. -/
theorem quoted_agrees (start : Nat) (read : List Char) (s : Scanner) :
    Agrees (quoted start read s)
      (match s.rest.dropWhile (· != '"') with
      | [] => .error ⟨start, .unterminatedString⟩
          ⟨[], s.line + (s.rest.takeWhile (· != '"')).count '\n', s.current⟩
      | _ :: rest => .ok (.str (String.ofList (read.reverse ++ s.rest.takeWhile (· != '"'))))
          ⟨rest, s.line + (s.rest.takeWhile (· != '"')).count '\n', s.current⟩) := by
  fun_induction quoted start read s with
  | case1 read s h =>
    rw [rest_of_next?_eq_none h]
    exact .of_error ⟨s, rfl, by simp [toLexer, rest_of_next?_eq_none h]⟩
  | case2 read s s' h =>
    obtain ⟨hrest, -, hline, hcurrent⟩ := next?_eq_some h
    rw [hrest, List.dropWhile_cons_of_neg (by simp)]
    exact .of_ok ⟨s', by simp, by simp [toLexer, hline, hcurrent]⟩
  | case3 read s s' h hc ih =>
    obtain ⟨hrest, -, hline, hcurrent⟩ := next?_eq_some h
    rw [hrest, List.dropWhile_cons_of_pos (by simp), List.takeWhile_cons_of_pos (by simp)]
    simpa [hline, hcurrent, Nat.add_assoc, Nat.add_comm 1] using ih
  | case4 read s c s' h hc hc' ih =>
    obtain ⟨hrest, -, hline, hcurrent⟩ := next?_eq_some h
    rw [hrest, List.dropWhile_cons_of_pos (by simpa using hc),
      List.takeWhile_cons_of_pos (by simpa using hc)]
    simpa [hline, hcurrent, hc'] using ih

/-- Where two symbols differ by an `=` at the end, the longer one is taken if it is there. -/
theorem symbol_pair {first : Char} {t : Bool → Token}
    (hlong : ∀ cs, Lexer.symbol? (first :: '=' :: cs) = some (t true, cs))
    (hshort : ∀ cs : List Char, cs.head? ≠ some '=' →
      Lexer.symbol? (first :: cs) = some (t false, cs)) (s : Scanner) :
    ∃ more s',
      (do return some (t (← nextIs '=')) : Scan (Option Token)) s = .ok (some (t more)) s' ∧
      s'.line = s.line ∧ s'.current = s.current ∧
      Lexer.symbol? (first :: s.rest) = some (t more, s'.rest) := by
  by_cases h : s.rest.head? = some '='
  · obtain ⟨cs, hcs⟩ := List.head?_eq_some_iff.mp h
    obtain ⟨s', hnext, hs'⟩ := nextIs_of_eq hcs
    obtain ⟨rfl, hline, hcurrent⟩ := Lexer.mk.inj hs'
    exact ⟨true, s', bind_of_ok hnext, hline, hcurrent, by rw [hcs, hlong]⟩
  · obtain ⟨s', hnext, hs'⟩ := nextIs_of_ne h
    obtain ⟨hrest, hline, hcurrent⟩ := Lexer.mk.inj hs'
    exact ⟨false, s', bind_of_ok hnext, hline, hcurrent, by rw [hshort _ h, hrest]⟩

/-- These symbols are found whatever is behind them. -/
theorem symbol?_of_mem_singles : ∀ entry ∈ singles, ∀ cs,
    Lexer.symbol? (entry.1 :: cs) = some (entry.2, cs) := by
  intro entry hentry cs
  simp only [singles, List.mem_cons, List.not_mem_nil, or_false] at hentry
  rcases hentry with rfl | rfl | rfl | rfl | rfl | rfl | rfl | rfl | rfl | rfl | rfl <;> rfl

theorem symbols_head : ∀ entry ∈ Lexer.symbols, ∀ c ∈ entry.1.head?,
    c = '=' ∨ c = '<' ∨ c = '>' ∨ (singles.lookup c).isSome := by
  have hall : ∀ entry ∈ Lexer.symbols, entry.1.head?.all (fun c =>
      c == '=' || (c == '<' || (c == '>' || (singles.lookup c).isSome))) = true := by
    decide
  simpa only [Option.all_eq_true, Bool.or_eq_true, beq_iff_eq, Option.mem_def] using hall

theorem symbol?_single {first : Char} (h : first ≠ '=') (h' : first ≠ '<') (h'' : first ≠ '>')
    (cs : List Char) :
    Lexer.symbol? (first :: cs) = (singles.lookup first).map (·, cs) := by
  cases hlookup : singles.lookup first with
  | some t =>
    obtain ⟨before, behind, hsingles, -⟩ := List.lookup_eq_some_iff.mp hlookup
    exact symbol?_of_mem_singles (first, t) (by simp [hsingles]) cs
  | none =>
    rw [Lexer.symbol?, Option.map_none, Option.map_eq_none_iff, List.find?_eq_none]
    intro entry hentry hpre
    have hne := (Lexical.symbols_parts entry hentry).1
    obtain ⟨c, text, htext⟩ := List.exists_cons_of_ne_nil hne
    rw [htext] at hpre
    obtain ⟨rfl, -⟩ := List.cons_prefix_cons.mp (List.isPrefixOf_iff_prefix.mp hpre)
    have := symbols_head entry hentry c (by simp [htext])
    simp [h, h', h'', hlookup] at this

theorem symbol_eq (first : Char) (s : Scanner) :
    ∃ t? s', symbol first s = .ok t? s' ∧ s'.line = s.line ∧ s'.current = s.current ∧
      Lexer.symbol? (first :: s.rest) = t?.map (·, s'.rest) ∧ (t? = none → s' = s) := by
  rw [symbol]
  split
  · next h =>
    subst h
    obtain ⟨more, s', hrun, hline, hcurrent, hsymbol⟩ :=
      @symbol_pair '=' (if · then .operator .eq else .mark .assign) (fun _ => rfl)
        (fun _ hcs => (Lexical.symbol?_equals hcs).1) s
    exact ⟨_, s', hrun, hline, hcurrent, hsymbol, nofun⟩
  · split
    · next h =>
      subst h
      obtain ⟨more, s', hrun, hline, hcurrent, hsymbol⟩ :=
        @symbol_pair '<' (.operator <| if · then .le else .lt) (fun _ => rfl)
          (fun _ hcs => (Lexical.symbol?_equals hcs).2.1) s
      exact ⟨_, s', hrun, hline, hcurrent, hsymbol, nofun⟩
    · split
      · next h =>
        subst h
        obtain ⟨more, s', hrun, hline, hcurrent, hsymbol⟩ :=
          @symbol_pair '>' (.operator <| if · then .ge else .gt) (fun _ => rfl)
            (fun _ hcs => (Lexical.symbol?_equals hcs).2.2) s
        exact ⟨_, s', hrun, hline, hcurrent, hsymbol, nofun⟩
      · next h h' h'' =>
        exact ⟨_, s, rfl, rfl, rfl, symbol?_single h h' h'' s.rest, fun _ => rfl⟩

theorem accept_of_ok {p : Scan Token} {t : Token} {lexer : Lexer}
    (h : ∃ s', p s = .ok t s' ∧ s'.toLexer = lexer) :
    Agrees ((p >>= accept) s) (.ok true { lexer with current := some t }) := by
  obtain ⟨s', hp, rfl⟩ := h
  rw [bind_of_ok hp]
  exact .of_ok ⟨_, rfl, rfl⟩

theorem accept_of_error {p : Scan Token} {e : SyntaxError} {lexer : Lexer}
    (h : ∃ s', p s = .error (.refused e) s' ∧ s'.toLexer = lexer) :
    Agrees ((p >>= accept) s) (.error e lexer) := by
  obtain ⟨s', hp, rfl⟩ := h
  rw [bind_of_error hp]
  exact .error

theorem token_agrees (c : Char) (s : Scanner) :
    Agrees ((token c >>= accept) s)
      (Lexer.readToken ⟨c :: s.rest, s.line, s.current⟩ c s.rest) := by
  by_cases hquote : c = '"'
  · rw [token, Lexer.readToken, if_pos hquote, if_pos hquote]
    have hquoted := quoted_agrees s.line [] s
    cases hrest : s.rest.dropWhile (· != '"') with
    | nil =>
      rw [hrest] at hquoted
      exact accept_of_error hquoted.exists_error
    | cons _ rest =>
      rw [hrest] at hquoted
      exact accept_of_ok hquoted.exists_ok
  · rw [token, Lexer.readToken, if_neg hquote, if_neg hquote]
    by_cases hpart : Numeral.isPart c = true
    · rw [if_pos hpart, if_pos hpart]
      obtain ⟨s', hrun, hlexer⟩ := run_eq Numeral.isPart [c] s
      rw [List.takeWhile_cons_of_pos hpart, List.dropWhile_cons_of_pos hpart]
      refine accept_of_ok ⟨s', ?_, hlexer⟩
      rw [numeral, bind_of_ok hrun]
      rfl
    · rw [if_neg hpart, if_neg hpart]
      by_cases halpha : c.isAlpha = true
      · have hword : Lexer.isWordPart c = true := by
          simp [Lexer.isWordPart, Char.isAlphanum, halpha]
        rw [if_pos halpha, if_pos halpha]
        obtain ⟨s', hrun, hlexer⟩ := run_eq Lexer.isWordPart [c] s
        rw [List.takeWhile_cons_of_pos hword, List.dropWhile_cons_of_pos hword]
        refine accept_of_ok ⟨s', ?_, hlexer⟩
        rw [word, bind_of_ok hrun]
        rfl
      · rw [if_neg halpha, if_neg halpha]
        obtain ⟨t?, s', hsymbol, hline, hcurrent, heq, hsame⟩ := symbol_eq c s
        rw [heq]
        cases t? with
        | some t =>
          refine accept_of_ok ⟨s', ?_, by rw [toLexer, hline, hcurrent]⟩
          rw [bind_of_ok hsymbol]
          rfl
        | none =>
          obtain rfl := hsame rfl
          refine accept_of_error ⟨s', ?_, rfl⟩
          rw [bind_of_ok hsymbol]
          rfl

/-- A scanner fetches what the lexer fetches. -/
theorem fetch_agrees (s : Scanner) : Agrees (fetch s) (Lexer.fetch s.toLexer) := by
  obtain ⟨s', hskip, hcurrent, hlexer⟩ := skipLayout_eq s
  rw [fetch, bind_of_ok hskip, Lexer.fetch]
  simp only [toLexer, ← hlexer]
  cases h : s'.next? with
  | none =>
    rw [bind_of_ok (next_of_none h), rest_of_next?_eq_none h]
    exact .of_ok ⟨s', rfl, by rw [toLexer, rest_of_next?_eq_none h, hcurrent]⟩
  | some taken =>
    obtain ⟨c, s''⟩ := taken
    obtain ⟨hrest, -, hline, hcurrent'⟩ := next?_eq_some h
    rw [bind_of_ok (next_of_some h), hrest, ← hline, ← hcurrent, ← hcurrent']
    exact token_agrees c s''

theorem eq_of_rest_eq_nil (h : s.rest = []) : s = ⟨[], none, s.line, s.current⟩ := by
  obtain ⟨input, pushback, line, current⟩ := s
  obtain ⟨hslot, rfl⟩ := List.append_eq_nil_iff.mp h
  cases pushback with
  | none => rfl
  | some c => simp at hslot

theorem fetch_of_rest_eq_nil (h : s.rest = []) : fetch s = .ok false s := by
  have hagrees := fetch_agrees s
  rw [toLexer, h] at hagrees
  obtain ⟨s', hfetch, hs'⟩ := hagrees.exists_ok
  obtain ⟨hrest, hline, hcurrent⟩ := Lexer.mk.inj hs'
  rw [hfetch, eq_of_rest_eq_nil hrest, eq_of_rest_eq_nil h, hline, hcurrent]

/-- A fetch takes the layout and the longest lexeme behind it. -/
theorem fetch_token {layout lexeme rest : List Char} {t : Token}
    (hs : s.rest = layout ++ (lexeme ++ rest)) (hlayout : IsLayout layout)
    (h : Longest lexeme t (lexeme ++ rest)) :
    ∃ s', fetch s = .ok true s' ∧
      s'.toLexer = ⟨rest, s.line + (layout ++ lexeme).count '\n', some t⟩ := by
  have hagrees := fetch_agrees s
  rw [toLexer, hs, Lexical.fetch_token hlayout h] at hagrees
  exact hagrees.exists_ok

def stopped (error : Option SyntaxError) (s : Scanner) : Result Bool :=
  match error with
  | none => .ok false s
  | some e => .error (.refused e) s

theorem fetch_stop {stop : Stop} (hs : s.rest = stop.text) (h : stop.Valid) :
    ∃ s', fetch s = stopped (stop.error? s.line) s' ∧
      s'.toLexer = ⟨stop.left, s.line + stop.taken.count '\n', s.current⟩ := by
  have hagrees := fetch_agrees s
  rw [toLexer, hs, Lexical.fetch_stop h] at hagrees
  cases herror : stop.error? s.line with
  | none =>
    rw [herror] at hagrees
    exact hagrees.exists_ok
  | some e =>
    rw [herror] at hagrees
    exact hagrees.exists_error

end Sapling.Scanner
