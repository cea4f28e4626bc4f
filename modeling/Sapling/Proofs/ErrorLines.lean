import Sapling.Proofs.ParserRuns
import Sapling.Proofs.LexerSteps
import Sapling.Proofs.PaneRows
import Sapling.Viewer.State

/-!
# The lines of errors

The lexer counts newlines as it goes. Wherever it hands out a token or an error it is on a line that
has some other character, so that the source pane has a row for this line; only at the end of the
text it can be behind the last newline, where the pane has no row (`line_of_yields`). An error of a
parse is on the line of the last fetch, which tells what the viewer can mark
(`errorLine_le_lines_iff`).
-/
namespace Sapling

open TokenStream

namespace Lexical

variable {cs before lexeme : List Char} {t : Token} {first line : Nat}

/-- Some character other than a newline stands on this line of a text, the lines of which are
counted from `first`. -/
def Occupied (first : Nat) (cs : List Char) (line : Nat) : Prop :=
  ∃ before c behind, cs = before ++ c :: behind ∧ c ≠ '\n' ∧ line = first + before.count '\n'

theorem Occupied.append_right (h : Occupied first before line) (cs : List Char) :
    Occupied first (before ++ cs) line := by
  obtain ⟨front, c, behind, rfl, hc, hline⟩ := h
  exact ⟨front, c, behind ++ cs, by simp, hc, hline⟩

theorem Occupied.append_left (h : Occupied (first + before.count '\n') cs line) :
    Occupied first (before ++ cs) line := by
  obtain ⟨front, c, behind, rfl, hc, hline⟩ := h
  refine ⟨before ++ front, c, behind, by simp, hc, ?_⟩
  rw [hline, List.count_append, Nat.add_assoc]

theorem exists_concat_of_all {p : Char → Bool} (hp : p '\n' = false) (hne : cs ≠ [])
    (hall : ∀ c ∈ cs, p c = true) : ∃ front c, cs = front ++ [c] ∧ c ≠ '\n' := by
  refine ⟨cs.dropLast, cs.getLast hne, (List.dropLast_concat_getLast hne).symm, fun hc => ?_⟩
  have hlast := hall _ (List.getLast_mem hne)
  rw [hc, hp] at hlast
  exact Bool.false_ne_true hlast

theorem Lexeme.exists_concat (h : Lexeme lexeme t) : ∃ front c, lexeme = front ++ [c] ∧ c ≠ '\n' := by
  cases h.kind with
  | numeral some all => exact exists_concat_of_all (by decide) some all
  | word shape =>
    obtain ⟨c, cs, rfl, -, hall⟩ := exists_cons_of_isWord shape
    exact exists_concat_of_all (by decide) (List.cons_ne_nil c cs) hall
  | symbol mem =>
    exact exists_concat_of_all (by decide) (symbols_parts _ mem).1 (symbols_parts _ mem).2
  | @quoted text _ => exact ⟨'"' :: text, '"', rfl, by decide⟩

/-- An error at a stop is on a line of the text. -/
theorem Stop.Valid.occupied {stop : Stop} {e : SyntaxError} (h : stop.Valid)
    (he : stop.error? first = some e) : Occupied first stop.text e.line := by
  cases stop with
  | finished _ => simp [Stop.error?] at he
  | unterminated layout text =>
    obtain rfl := Option.some.inj he
    exact ⟨layout, '"', text, rfl, by decide, rfl⟩
  | unexpected layout c rest =>
    obtain rfl := Option.some.inj he
    refine ⟨layout, c, rest, rfl, ?_, rfl⟩
    rintro rfl
    exact h.2 (.inl rfl)

end Lexical

open Lexical

namespace Lexer

/-- Where a fetch leaves the lexer: behind a token that ends on the line, at the end of the text, or
at an error that is on a line of the text. -/
theorem fetched_cases (lexer : Lexer) :
    (∃ taken t, fetched lexer = .token (behind lexer).line (some t) ∧
      lexer.rest = taken ++ (behind lexer).rest ∧
      (behind lexer).line = lexer.line + taken.count '\n' ∧
      Occupied lexer.line taken (behind lexer).line) ∨
    fetched lexer = .ended (lexer.line + lexer.rest.count '\n') ∨
    ∃ e, fetched lexer = .failed e ∧ Occupied lexer.line lexer.rest e.line := by
  obtain ⟨cs, line, current⟩ := lexer
  rcases exists_step cs with ⟨stop, hvalid, rfl⟩ | ⟨layout, lexeme, t, rest, hlayout, h, rfl⟩
  · have hfetch := fetch_stop hvalid line current
    cases herror : stop.error? line with
    | none =>
      rw [herror] at hfetch
      have htaken := stop.taken_append_left
      rw [Stop.left_of_error?_eq_none herror, List.append_nil] at htaken
      rw [htaken] at hfetch
      exact .inr (.inl (fetched_of_ended (σ := Lexer) hfetch).1)
    | some e =>
      rw [herror] at hfetch
      exact .inr (.inr ⟨e, (fetched_of_failed (σ := Lexer) hfetch).1, hvalid.occupied herror⟩)
  · obtain ⟨hfetched, hbehind⟩ :=
      fetched_of_more (σ := Lexer) (fetch_token hlayout h line current)
    obtain ⟨front, c, rfl, hc⟩ := h.reads.exists_concat
    refine .inl ⟨layout ++ (front ++ [c]), t, ?_, ?_, ?_, ?_⟩
    · rw [hfetched, hbehind]
      rfl
    · rw [hbehind]
      simp
    · rw [hbehind]
    · rw [hbehind]
      refine ⟨layout ++ front, c, [], by simp, hc, ?_⟩
      simp [hc]

/-- The last of some fetches that give tokens has found the end behind all newlines, or is on a line
of the text. -/
theorem line_of_yields {lexer last : Lexer} {entries : List Fetched} {entry : Fetched}
    (h : Yields lexer entries last)
    (htokens : ∀ entry ∈ entries.dropLast, ∃ line t, entry = .token line (some t))
    (hlast : entries.getLast? = some entry) :
    entry = .ended (lexer.line + lexer.rest.count '\n') ∨
      (∀ line, entry ≠ .ended line) ∧ Occupied lexer.line lexer.rest entry.line := by
  induction h with
  | nil => simp at hlast
  | @cons lexer last entries rest ih =>
    by_cases hentries : entries = []
    · subst hentries
      obtain rfl := Option.some.inj hlast
      rcases lexer.fetched_cases with ⟨taken, t, hf, hrest, -, hline⟩ | hf | ⟨e, hf, hline⟩
      · rw [hf, hrest]
        exact .inr ⟨nofun, hline.append_right _⟩
      · exact .inl hf
      · rw [hf]
        exact .inr ⟨nofun, hline⟩
    · rw [List.dropLast_cons_of_ne_nil hentries] at htokens
      rw [List.getLast?_cons_of_ne_nil hentries] at hlast
      have hnext := ih (fun entry hentry => htokens entry (List.mem_cons_of_mem _ hentry)) hlast
      obtain ⟨line, t, htoken⟩ := htokens _ List.mem_cons_self
      rcases lexer.fetched_cases with ⟨taken, t, -, hrest, hcount, -⟩ | hf | ⟨e, hf, -⟩
      · rw [hcount] at hnext
        rw [hrest, List.count_append, ← Nat.add_assoc]
        exact hnext.imp_right (.imp_right Occupied.append_left)
      · simp [hf] at htoken
      · simp [hf] at htoken

end Lexer

namespace SourcePane

theorem le_length_lines {source : String} {line : Nat} (h : Occupied 1 source.toList line) :
    1 ≤ line ∧ line ≤ (lines source).length := by
  obtain ⟨before, c, behind, hsource, hc, rfl⟩ := h
  have hcount : source.toList.count '\n' = before.count '\n' + behind.count '\n' := by
    rw [hsource, List.count_append, List.count_cons_of_ne hc]
  have hlines := length_lines source
  by_cases hmem : '\n' ∈ behind
  · have hpos := List.count_pos_iff.mpr hmem
    omega
  · have hlast : source.toList.getLast?.any (· != '\n') = true := by
      have hne : (c :: behind).getLast (List.cons_ne_nil c behind) ≠ '\n' := by
        intro heq
        have := heq ▸ List.getLast_mem (List.cons_ne_nil c behind)
        simp [Ne.symm hc, hmem] at this
      rw [hsource, List.getLast?_append, List.getLast?_eq_some_getLast (List.cons_ne_nil c behind)]
      simpa using hne
    rw [hlast, Bool.toNat_true] at hlines
    omega

end SourcePane

theorem parse_empty (options : ParseOptions) : parse options "" = .ok [] := rfl

/-- The viewer's line of an error has a row in the source pane, unless the text ends with a newline
and the last fetch of the parser has found the end of the text. Then it is the line behind the last
row. -/
theorem errorLine_le_lines_iff {options : ParseOptions} {source : String} {e : SyntaxError}
    (h : parse options source = .error e) (file : String) :
    (Viewer.ofParse file source (parse options source)).errorLine = some e.line ∧
    1 ≤ e.line ∧ e.line ≤ (SourcePane.lines source).length + 1 ∧
    ∃ last, Parser.run options (Recorded.ofStream (Lexer.ofString source)) =
        some (.error e, last) ∧
      (e.line ≤ (SourcePane.lines source).length ↔ ¬(source.toList.getLast? = some '\n' ∧
        ∃ line, last.record.getLast? = some (.ended line))) := by
  obtain ⟨last, hrun⟩ := Parser.run_eq options (Lexer.ofString source)
  have hparse : parseFrom options (Lexer.ofString source) = .error e := h
  rw [hparse] at hrun
  obtain ⟨entries, hyields, hdemands, hrecorded⟩ := Parser.run_reads (τ := Recorded Lexer) hrun
  have hrecord := hrecorded _ _ (Recorded.exists_yields hyields [])
  obtain ⟨entry, hentry, hline⟩ := hdemands.line rfl
  have hlines := SourcePane.length_lines source
  refine ⟨by rw [h]; rfl, ?_⟩
  rcases Lexer.line_of_yields hyields hdemands.tokens hentry with hend | ⟨hne, hoccupied⟩
  · have htotal : e.line = 1 + source.toList.count '\n' := by rw [hline, hend]; rfl
    have hended : ∃ line, ([] ++ entries).getLast? = some (.ended line) := ⟨_, hend ▸ hentry⟩
    refine ⟨by omega, by omega, _, hrecord, ?_⟩
    cases hlast : source.toList.getLast? with
    | none =>
      obtain rfl : source = "" := String.toList_eq_nil_iff.mp (List.getLast?_eq_none_iff.mp hlast)
      rw [parse_empty] at h
      simp at h
    | some c =>
      rw [hlast, Option.any_some] at hlines
      by_cases hc : c = '\n'
      · rw [hc, bne_self_eq_false, Bool.toNat_false] at hlines
        exact iff_of_false (by omega) fun hnot => hnot ⟨by rw [hc], hended⟩
      · rw [bne_iff_ne.mpr hc, Bool.toNat_true] at hlines
        exact iff_of_true (by omega) fun hnot => hc (Option.some.inj hnot.1)
  · rw [← hline] at hoccupied
    obtain ⟨hpos, hle⟩ := SourcePane.le_length_lines hoccupied
    refine ⟨hpos, by omega, _, hrecord, iff_of_true hle ?_⟩
    rintro ⟨-, line, hlast⟩
    exact hne line (Option.some.inj (hentry.symm.trans hlast))

/-- A name where the semicolon is missed, on the last line: this line has a row. -/
theorem errorLine_le_lines_second_name :
    (Viewer.ofParse "bad.toy" "x\ny" (parse {} "x\ny")).errorLine = some 2 ∧
      2 ≤ (SourcePane.lines "x\ny").length := by
  have hread : parse {} "x\ny" = .error ⟨2, .expectedToken "';'" "identifier 'y'"⟩ := by rfl
  obtain ⟨hline, -, -, last, -, hiff⟩ := errorLine_le_lines_iff hread "bad.toy"
  refine ⟨hline, hiff.mpr ?_⟩
  rintro ⟨hnewline, -⟩
  exact absurd hnewline (by decide)

/-- A name alone, with its line ended: the semicolon is missed on the next line, without a row. -/
theorem errorLine_behind_lines :
    (Viewer.ofParse "bad.toy" "x\n" (parse {} "x\n")).errorLine = some 2 ∧
      (SourcePane.lines "x\n").length < 2 := by
  have hread : parse {} "x\n" = .error ⟨2, .expectedToken "';'" "end of input"⟩ := by rfl
  exact ⟨by rw [hread]; rfl, by decide⟩

end Sapling
