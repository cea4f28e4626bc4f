import Sapling.Proofs.ScannerSteps

/-!
# Maximal munch

A drain takes a text apart as its split does: one token for each piece, on the line that the piece
ends on, and at the stop either the end or its error.
-/
namespace Sapling

open Lexical

/-- The tokens of pieces, each with the line on which it ends. -/
def Lexical.numbered (line : Nat) : List Piece → List (Nat × Token)
  | [] => []
  | piece :: pieces =>
    (line + piece.text.count '\n', piece.token) :: numbered (line + piece.text.count '\n') pieces

/-- The line behind pieces. -/
def Lexical.lineBehind (line : Nat) (pieces : List Piece) : Nat :=
  line + (pieces.flatMap Piece.text).count '\n'

theorem Lexical.lineBehind_cons (line : Nat) (piece : Piece) (pieces : List Piece) :
    lineBehind line (piece :: pieces) = lineBehind (line + piece.text.count '\n') pieces := by
  simp [lineBehind, Nat.add_assoc]

theorem Lexical.map_numbered (line : Nat) (pieces : List Piece) :
    (numbered line pieces).map (·.2) = pieces.map Piece.token := by
  induction pieces generalizing line with
  | nil => rfl
  | cons piece pieces ih => simp [numbered, ih]

variable {cs : List Char} {pieces : List Piece} {stop : Stop}

namespace Lexer

theorem drainFrom_of_split (h : Split cs pieces stop) (line : Nat) (current : Option Token)
    {fuel : Nat} (hfuel : cs.length < fuel) (read : List (Nat × Token)) :
    ∃ last, last.rest = stop.left ∧ drainFrom fuel ⟨cs, line, current⟩ read =
      (read.reverse ++ numbered line pieces,
        match stop.error? (lineBehind line pieces) with
        | none => .ok last
        | some e => .error e) := by
  induction h generalizing line current fuel read with
  | @stop stop valid =>
    obtain ⟨fuel, rfl⟩ := Nat.exists_eq_add_one_of_ne_zero (Nat.ne_zero_of_lt hfuel)
    refine ⟨⟨stop.left, line + stop.taken.count '\n', current⟩, rfl, ?_⟩
    simp only [drainFrom, fetch_stop valid, lineBehind, List.flatMap_nil, List.count_nil,
      Nat.add_zero, numbered, List.append_nil]
    cases stop.error? line <;> rfl
  | @token piece pieces stop rest layout longest _ ih =>
    obtain ⟨fuel, rfl⟩ := Nat.exists_eq_add_one_of_ne_zero (Nat.ne_zero_of_lt hfuel)
    obtain ⟨c, lexeme, hlexeme⟩ := longest.reads.exists_cons
    have hlt : rest.length < fuel := by
      simp only [hlexeme, List.length_append, List.length_cons] at hfuel
      omega
    obtain ⟨last, hlast, hdrain⟩ := ih (line + piece.text.count '\n') (some piece.token) hlt
      ((line + piece.text.count '\n', piece.token) :: read)
    refine ⟨last, hlast, ?_⟩
    have hfetch : fetch ⟨piece.layout ++ (piece.lexeme ++ rest), line, current⟩ =
        .ok true ⟨rest, line + piece.text.count '\n', some piece.token⟩ :=
      fetch_token layout longest line current
    simp only [drainFrom, hfetch, Option.toList_some, List.map_cons, List.map_nil]
    rw [lineBehind_cons]
    simpa [numbered] using hdrain

theorem drain_of_split {lexer : Lexer} (h : Split lexer.rest pieces stop) :
    ∃ last, last.rest = stop.left ∧ lexer.drain =
      (numbered lexer.line pieces,
        match stop.error? (lineBehind lexer.line pieces) with
        | none => .ok last
        | some e => .error e) :=
  drainFrom_of_split h lexer.line lexer.current (Nat.lt_succ_self _) []

theorem tokenize_of_split {lexer : Lexer} (h : Split lexer.rest pieces stop) :
    lexer.tokenize =
      match stop.error? (lineBehind lexer.line pieces) with
      | none => .ok (pieces.map Piece.token)
      | some e => .error e := by
  obtain ⟨last, -, hdrain⟩ := drain_of_split h
  rw [tokenize, hdrain]
  cases stop.error? (lineBehind lexer.line pieces) with
  | none => simp only [map_numbered]
  | some e => rfl

theorem exists_split_of_tokenize {text : String} {ts : List Token}
    (h : (ofString text).tokenize = .ok ts) : ∃ pieces last,
      Split text.toList pieces (.finished last) ∧ ts = pieces.map Piece.token := by
  obtain ⟨pieces, stop, hsplit⟩ := exists_split text.toList
  rw [@tokenize_of_split _ _ (ofString text) hsplit] at h
  cases stop with
  | finished last => exact ⟨pieces, last, hsplit, (Except.ok.inj h).symm⟩
  | unterminated _ _ | unexpected _ _ _ => simp [Stop.error?] at h

end Lexer

namespace Scanner

theorem tokenizeFrom_of_split {s : Scanner} (h : Split cs pieces stop) (hs : s.rest = cs)
    {fuel : Nat} (hfuel : cs.length < fuel) (read : List Token) :
    ∃ last, tokenizeFrom fuel read s =
        match stop.error? (lineBehind s.line pieces) with
        | none => .ok (read.reverse ++ pieces.map Piece.token) last
        | some e => .error (.refused e) last := by
  induction h generalizing s fuel read with
  | @stop stop valid =>
    obtain ⟨fuel, rfl⟩ := Nat.exists_eq_add_one_of_ne_zero (Nat.ne_zero_of_lt hfuel)
    obtain ⟨s', hfetch, -⟩ := fetch_stop hs valid
    refine ⟨s', ?_⟩
    simp only [lineBehind, List.flatMap_nil, List.count_nil, Nat.add_zero, List.map_nil,
      List.append_nil]
    cases herror : stop.error? s.line with
    | none =>
      rw [herror] at hfetch
      rw [tokenizeFrom, bind_of_ok hfetch]
      rfl
    | some e =>
      rw [herror] at hfetch
      rw [tokenizeFrom, bind_of_error hfetch]
  | @token piece pieces stop rest layout longest _ ih =>
    obtain ⟨fuel, rfl⟩ := Nat.exists_eq_add_one_of_ne_zero (Nat.ne_zero_of_lt hfuel)
    obtain ⟨c, lexeme, hlexeme⟩ := longest.reads.exists_cons
    have hlt : rest.length < fuel := by
      simp only [hlexeme, List.length_append, List.length_cons] at hfuel
      omega
    obtain ⟨s', hfetch, hs'⟩ := fetch_token hs layout longest
    obtain ⟨hrest, hline, hcurrent⟩ := Lexer.mk.inj hs'
    rw [← Piece.text] at hline
    have htake : takeCurrent s' = .ok (some piece.token) { s' with current := none } := by
      rw [takeCurrent, hcurrent]
    obtain ⟨last, hlast⟩ := @ih { s' with current := none } hrest fuel hlt (piece.token :: read)
    refine ⟨last, ?_⟩
    rw [tokenizeFrom, bind_of_ok hfetch, if_pos rfl, bind_of_ok htake]
    simpa [hline, lineBehind_cons] using hlast

theorem tokenize_of_split {s : Scanner} (h : Split s.rest pieces stop) :
    s.tokenize =
      match stop.error? (lineBehind s.line pieces) with
      | none => .ok (pieces.map Piece.token)
      | some e => .error (.refused e) := by
  obtain ⟨last, hlast⟩ := tokenizeFrom_of_split h rfl (Nat.lt_succ_self _) []
  rw [tokenize, hlast]
  cases stop.error? (lineBehind s.line pieces) <;> rfl

theorem drainFrom_toLexer (fuel : Nat) (s : Scanner) (read : List (Nat × Token)) :
    (drainFrom fuel s read).1 = (Lexer.drainFrom fuel s.toLexer read).1 ∧
      (drainFrom fuel s read).2.map toLexer =
        (Lexer.drainFrom fuel s.toLexer read).2.mapError .refused := by
  induction fuel generalizing s read with
  | zero => exact ⟨rfl, rfl⟩
  | succ fuel ih =>
    have hfetch := fetch_agrees s
    rw [drainFrom, Lexer.drainFrom]
    generalize fetch s = result, Lexer.fetch s.toLexer = result' at hfetch
    cases hfetch with
    | @ok more s' =>
      cases more with
      | true => exact ih s' _
      | false => exact ⟨rfl, rfl⟩
    | error => exact ⟨rfl, rfl⟩

/-- A scanner is drained of what the lexer is drained of. -/
theorem drain_toLexer (s : Scanner) :
    s.drain.1 = s.toLexer.drain.1 ∧
      s.drain.2.map toLexer = s.toLexer.drain.2.mapError .refused :=
  drainFrom_toLexer (s.rest.length + 1) s []

theorem exists_drain_ok {s : Scanner} {last : Lexer} (h : s.toLexer.drain.2 = .ok last) :
    ∃ last', s.drain.2 = .ok last' ∧ last'.toLexer = last := by
  have hend := (drain_toLexer s).2
  rw [h] at hend
  cases hresult : s.drain.2 with
  | ok last' =>
    rw [hresult] at hend
    exact ⟨last', rfl, Except.ok.inj hend⟩
  | error fault => simp [hresult, Except.map, Except.mapError] at hend

theorem drain_error {s : Scanner} {e : SyntaxError} (h : s.toLexer.drain.2 = .error e) :
    s.drain.2 = .error (.refused e) := by
  have hend := (drain_toLexer s).2
  rw [h] at hend
  cases hresult : s.drain.2 with
  | ok last => simp [hresult, Except.map, Except.mapError] at hend
  | error fault =>
    rw [hresult] at hend
    rw [Except.error.inj hend]

theorem tokenize_toLexer (s : Scanner) : s.tokenize = s.toLexer.tokenize.mapError .refused := by
  obtain ⟨pieces, stop, hsplit⟩ := exists_split s.rest
  have hline : s.toLexer.line = s.line := rfl
  rw [tokenize_of_split hsplit, @Lexer.tokenize_of_split _ _ s.toLexer hsplit, hline]
  cases stop.error? (lineBehind s.line pieces) <;> rfl

/-- For every text, a drain takes the pieces of the one way to split it into layout, longest
lexemes and a stop. It ends when the stop is the end of the text, and with the error of the stop
otherwise. -/
theorem drain_maximal_munch (source : String) :
    ∃ pieces stop, Split source.toList pieces stop ∧
      (∀ pieces' stop', Split source.toList pieces' stop' → pieces' = pieces ∧ stop' = stop) ∧
      source.toList = pieces.flatMap Piece.text ++ stop.text ∧
      (ofString source).drain.1 = numbered 1 pieces ∧
      match stop.error? (lineBehind 1 pieces) with
      | none =>
        (∃ last, (ofString source).drain.2 = .ok last ∧ last.rest = [] ∧
          fetch last = .ok false last) ∧
          (ofString source).tokenize = .ok (pieces.map Piece.token)
      | some e =>
        (ofString source).drain.2 = .error (.refused e) ∧
          (ofString source).tokenize = .error (.refused e) := by
  obtain ⟨pieces, stop, hsplit⟩ := exists_split source.toList
  refine ⟨pieces, stop, hsplit, fun _ _ h => h.unique hsplit, hsplit.flatten, ?_⟩
  have htokenize := @tokenize_of_split _ _ (ofString source) hsplit
  obtain ⟨last, hleft, hdrain⟩ := @Lexer.drain_of_split _ _ (ofString source).toLexer hsplit
  have hend := congrArg Prod.snd hdrain
  have hline : (ofString source).toLexer.line = 1 := rfl
  have hline' : (ofString source).line = 1 := rfl
  rw [hline] at hend
  rw [hline'] at htokenize
  refine ⟨(drain_toLexer _).1.trans (congrArg Prod.fst hdrain), ?_⟩
  cases herror : stop.error? (lineBehind 1 pieces) with
  | none =>
    rw [herror] at hend htokenize
    obtain ⟨s, hresult, rfl⟩ := exists_drain_ok hend
    have hrest : s.rest = [] := hleft.trans (Stop.left_of_error?_eq_none herror)
    exact ⟨⟨s, hresult, hrest, fetch_of_rest_eq_nil hrest⟩, htokenize⟩
  | some e =>
    rw [herror] at hend htokenize
    exact ⟨drain_error hend, htokenize⟩

end Scanner

end Sapling
