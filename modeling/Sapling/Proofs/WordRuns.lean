import Sapling.Proofs.HighlightedText
import Sapling.Proofs.MaximalMunch

/-!
# Runs of word characters

A run is made of letters, digits, underscores and points, stands outside strings and comments, and
does not go on to either side. Where the lexer reads every run as a single token, it reads no token
that is a part of a run (`Longest.ends_run`), and this stays so behind a token
(`Longest.runs_behind`).
-/
namespace Sapling

inductive Region where
  | code
  | string
  | comment
  deriving DecidableEq

def Region.next : Region → Char → Region
  | .code, c => if c = '"' then .string else if c = '#' then .comment else .code
  | .string, c => if c = '"' then .code else .string
  | .comment, _ => .comment

/-- The region that is behind the beginning of a line. -/
def Region.behind (front : List Char) : Region :=
  front.foldl next .code

/-- A run of letters, digits, underscores and points outside strings and comments that does not go
on to either side. -/
structure IsRun (front run behind : List Char) : Prop where
  outside : Region.behind front = .code
  ne_nil : run ≠ []
  parts : ∀ c ∈ run, Highlight.isWordPart c = true
  begins : ∀ c ∈ front.getLast?, Highlight.isWordPart c = false
  ends : ∀ c ∈ behind.head?, Highlight.isWordPart c = false

/-- A text is a single token. -/
def IsToken (text : List Char) : Prop :=
  ∃ t, (Lexer.ofString (String.ofList text)).tokenize = .ok [t]

def RunsAreTokens (line : List Char) : Prop :=
  ∀ front run behind, line = front ++ (run ++ behind) → IsRun front run behind → IsToken run

theorem isRun_iff (front run behind : List Char) : IsRun front run behind ↔
    Region.behind front = .code ∧ run ≠ [] ∧ run.all Highlight.isWordPart = true ∧
      front.getLast?.all (!Highlight.isWordPart ·) = true ∧
      behind.head?.all (!Highlight.isWordPart ·) = true := by
  simp only [List.all_eq_true, Option.all_eq_true, Bool.not_eq_true']
  constructor
  · rintro ⟨outside, ne_nil, parts, begins, ends⟩
    exact ⟨outside, ne_nil, parts, begins, ends⟩
  · rintro ⟨outside, ne_nil, parts, begins, ends⟩
    exact ⟨outside, ne_nil, parts, begins, ends⟩

instance (front run behind : List Char) : Decidable (IsRun front run behind) :=
  decidable_of_iff' _ (isRun_iff front run behind)

instance (text : List Char) : Decidable (IsToken text) :=
  match h : (Lexer.ofString (String.ofList text)).tokenize with
  | .ok [t] => .isTrue ⟨t, h⟩
  | .ok [] | .ok (_ :: _ :: _) | .error _ => .isFalse fun ⟨_, ht⟩ => by simp [h] at ht

theorem runsAreTokens_iff (line : List Char) : RunsAreTokens line ↔
    ∀ i ≤ line.length, ∀ j ≤ line.length,
      IsRun (line.take i) ((line.drop i).take j) ((line.drop i).drop j) →
        IsToken ((line.drop i).take j) := by
  constructor
  · intro h i _ j _
    exact h _ _ _ (by rw [List.take_append_drop, List.take_append_drop])
  · rintro h front run behind rfl hrun
    have hplace := h front.length (by simp) run.length (by simp; omega)
    rw [List.take_left, List.drop_left, List.take_left, List.drop_left] at hplace
    exact hplace hrun

instance (line : List Char) : Decidable (RunsAreTokens line) :=
  decidable_of_iff _ (runsAreTokens_iff line).symm

def Token.isSymbol : Token → Bool
  | .operator _ | .mark _ => true
  | _ => false

namespace Highlight

def isOther (c : Char) : Bool :=
  !isWordPart c && c != '"' && c != '#'

theorem isOther_iff {c : Char} : isOther c = true ↔ isWordPart c = false ∧ c ≠ '"' ∧ c ≠ '#' := by
  simp only [isOther, Bool.and_eq_true, Bool.not_eq_true', bne_iff_ne, and_assoc]

theorem not_isWordPart_of_isOther {c : Char} (h : isOther c = true) : isWordPart c = false :=
  (isOther_iff.mp h).1

theorem isWordPart_of_isAlphanum {c : Char} (h : c.isAlphanum = true) : isWordPart c = true := by
  have hbound {d : Char} (hd : d.toNat < 128) (hle : c.val ≤ d.val) : c.toNat < 128 :=
    Nat.lt_of_le_of_lt (UInt32.le_iff_toNat_le.mp hle) hd
  have hlow : c.toNat < 128 := by
    rcases Bool.or_eq_true_iff.mp h with halpha | hdigit
    · rcases Bool.or_eq_true_iff.mp halpha with hupper | hlower
      · exact @hbound 'Z' (by decide) (of_decide_eq_true hupper).2
      · exact @hbound 'z' (by decide) (of_decide_eq_true (Bool.and_eq_true_iff.mp hlower).2)
    · exact @hbound '9' (by decide) (of_decide_eq_true (Bool.and_eq_true_iff.mp hdigit).2)
  rw [isWordPart, Unicode.isAlphanumeric, if_pos hlow, h, Bool.true_or, Bool.true_or]

theorem isWordPart_of_isPart {c : Char} (h : Numeral.isPart c = true) : isWordPart c = true := by
  rcases Bool.or_eq_true_iff.mp h with hdigit | hpoint
  · exact isWordPart_of_isAlphanum (by simp [Char.isAlphanum, hdigit])
  · simp [isWordPart, hpoint]

theorem isWordPart_of_lexer {c : Char} (h : Lexer.isWordPart c = true) : isWordPart c = true := by
  rcases Bool.or_eq_true_iff.mp h with halpha | hunderscore
  · exact isWordPart_of_isAlphanum halpha
  · simp [isWordPart, hunderscore]

theorem isOther_of_isSpace {c : Char} (h : Lexical.isSpace c = true) : isOther c = true := by
  have hc : c = ' ' ∨ c = '\t' ∨ c = '\n' ∨ c = '\x0c' ∨ c = '\r' := by
    simpa [Lexical.isSpace, or_assoc] using h
  rcases hc with rfl | rfl | rfl | rfl | rfl <;> decide

theorem isOther_of_mem_symbols : ∀ entry ∈ Lexer.symbols, ∀ c ∈ entry.1, isOther c = true := by
  have hall : ∀ entry ∈ Lexer.symbols, entry.1.all isOther = true := by decide
  simpa only [List.all_eq_true] using hall

end Highlight

namespace Region

variable {cs : List Char}

theorem behind_append (front cs : List Char) :
    behind (front ++ cs) = cs.foldl next (behind front) :=
  List.foldl_append

theorem foldl_code (h : ∀ c ∈ cs, c ≠ '"' ∧ c ≠ '#') : cs.foldl next .code = .code := by
  induction cs with
  | nil => rfl
  | cons c cs ih =>
    obtain ⟨hquote, hcomment⟩ := h c List.mem_cons_self
    rw [List.foldl_cons, next, if_neg hquote, if_neg hcomment]
    exact ih fun d hd => h d (List.mem_cons_of_mem c hd)

theorem foldl_string (h : '"' ∉ cs) : cs.foldl next .string = .string := by
  induction cs with
  | nil => rfl
  | cons c cs ih =>
    rw [List.mem_cons, not_or] at h
    rw [List.foldl_cons, next, if_neg (Ne.symm h.1)]
    exact ih h.2

theorem foldl_others (h : ∀ c ∈ cs, Highlight.isOther c = true) :
    cs.foldl next .code = .code :=
  foldl_code fun c hc => (Highlight.isOther_iff.mp (h c hc)).2

theorem foldl_word (h : ∀ c ∈ cs, Highlight.isWordPart c = true) :
    cs.foldl next .code = .code :=
  foldl_code fun c hc => (Highlight.ne_of_isWordPart (h c hc)).symm

theorem foldl_quoted (h : '"' ∉ cs) : ('"' :: (cs ++ ['"'])).foldl next .code = .code := by
  rw [List.foldl_cons, List.foldl_append]
  change [_].foldl next (cs.foldl next .string) = .code
  rw [foldl_string h]
  rfl

end Region

/-- The runs behind the beginning of a text are runs of the text, if none is cut. -/
theorem RunsAreTokens.behind {first rest : List Char} (h : RunsAreTokens (first ++ rest))
    (hcode : Region.behind first = .code)
    (hends : (∀ c ∈ first.getLast?, Highlight.isWordPart c = false) ∨
      ∀ c ∈ rest.head?, Highlight.isWordPart c = false) : RunsAreTokens rest := by
  rintro front run behind rfl hrun
  refine h (first ++ front) run behind (by rw [List.append_assoc])
    ⟨?_, hrun.ne_nil, hrun.parts, fun c hc => ?_, hrun.ends⟩
  · rw [Region.behind_append, hcode]
    exact hrun.outside
  · cases front with
    | nil =>
      rw [List.append_nil] at hc
      rcases hends with hlast | hhead
      · exact hlast c hc
      · obtain ⟨d, ds, rfl⟩ := List.exists_cons_of_ne_nil hrun.ne_nil
        exact absurd (hrun.parts d List.mem_cons_self) (by simp [hhead d rfl])
    | cons d front =>
      rw [List.getLast?_append_cons] at hc
      exact hrun.begins c hc

namespace Lexical

open Lexer

variable {cs lexeme rest layout : List Char} {t : Token}

theorem isOther_of_layout (h : IsLayout layout) (hnewline : '\n' ∉ layout) :
    ∀ c ∈ layout, Highlight.isOther c = true := by
  induction h with
  | nil => exact fun c hc => absurd hc List.not_mem_nil
  | space hspace _ ih =>
    rw [List.mem_cons, not_or] at hnewline
    rintro d (_ | ⟨_, hd⟩)
    · exact Highlight.isOther_of_isSpace hspace
    · exact ih hnewline.2 d hd
  | comment _ _ _ => simp at hnewline

theorem IsLayout.eq_nil (h : IsLayout layout)
    (hparts : ∀ c ∈ layout, Highlight.isWordPart c = true) : layout = [] := by
  cases h with
  | nil => rfl
  | @space c _ hspace _ =>
    have hc := Highlight.not_isWordPart_of_isOther (Highlight.isOther_of_isSpace hspace)
    exact absurd (hparts c List.mem_cons_self) (by simp [hc])
  | comment _ _ => exact absurd (hparts '#' List.mem_cons_self) (by decide)

theorem IsFinalLayout.eq_nil (h : IsFinalLayout layout)
    (hparts : ∀ c ∈ layout, Highlight.isWordPart c = true) : layout = [] := by
  cases h with
  | closed all => exact all.eq_nil hparts
  | comment _ _ => exact absurd (hparts '#' (by simp)) (by decide)

theorem lexeme_of_tokenize {run : List Char}
    (hparts : ∀ c ∈ run, Highlight.isWordPart c = true)
    (h : (ofString (String.ofList run)).tokenize = .ok [t]) : Lexeme run t := by
  obtain ⟨pieces, last, hsplit, htokens⟩ := exists_split_of_tokenize h
  obtain ⟨piece, rfl, rfl⟩ := List.map_eq_singleton_iff.mp htokens.symm
  have hrun := hsplit.flatten
  rw [String.toList_ofList, List.flatMap_singleton, Piece.text, Stop.text] at hrun
  rw [hrun] at hparts
  simp only [List.mem_append] at hparts
  generalize (String.ofList run).toList = text at hsplit
  cases hsplit with
  | token layout longest others =>
    have hlayout := layout.eq_nil fun c hc => hparts c (.inl (.inl hc))
    have hlast := IsFinalLayout.eq_nil others.valid fun c hc => hparts c (.inr hc)
    rw [hrun, hlayout, hlast, List.nil_append, List.append_nil]
    exact longest.reads

/-- A lexeme of word characters is a whole run. -/
theorem Longest.ends_run (h : Longest lexeme t (lexeme ++ rest))
    (hruns : RunsAreTokens (layout ++ (lexeme ++ rest)))
    (hlayout : ∀ c ∈ layout, Highlight.isOther c = true)
    (hparts : ∀ c ∈ lexeme, Highlight.isWordPart c = true) :
    ∀ c ∈ rest.head?, Highlight.isWordPart c = false := by
  have hrun : IsRun layout (lexeme ++ rest.takeWhile Highlight.isWordPart)
      (rest.dropWhile Highlight.isWordPart) := by
    obtain ⟨c, cs, hlexeme⟩ := h.reads.exists_cons
    refine ⟨Region.foldl_others hlayout, by simp [hlexeme], fun d hd => ?_, fun d hd => ?_,
      fun d hd => ?_⟩
    · rcases List.mem_append.mp hd with hd | hd
      · exact hparts d hd
      · exact List.mem_takeWhile_imp hd
    · exact Highlight.not_isWordPart_of_isOther (hlayout d (List.mem_of_mem_getLast? hd))
    · have hnot := List.head?_dropWhile_not Highlight.isWordPart rest
      rwa [Option.mem_def.mp hd] at hnot
  obtain ⟨t', ht'⟩ := hruns _ _ _ (by rw [List.append_assoc, List.takeWhile_append_dropWhile]) hrun
  have hle := h.longest _ _ (lexeme_of_tokenize hrun.parts ht')
    ((List.prefix_append_right_inj lexeme).mpr (List.takeWhile_prefix _))
  rw [List.length_append] at hle
  intro c hc
  obtain ⟨rest, rfl⟩ := List.head?_eq_some_iff.mp hc
  rw [Bool.eq_false_iff]
  intro hpart
  rw [List.takeWhile_cons_of_pos hpart, List.length_cons] at hle
  omega

theorem Kind.cases_parts (h : Kind lexeme t) :
    (t.isSymbol = true ∧ ∀ c ∈ lexeme, Highlight.isOther c = true) ∨
      (t.isSymbol = false ∧ ∀ c ∈ lexeme, Highlight.isWordPart c = true) ∨
      ∃ text, '"' ∉ text ∧ lexeme = '"' :: (text ++ ['"']) ∧ t = .str (String.ofList text) := by
  cases h with
  | numeral _ all => exact .inr (.inl ⟨rfl, fun c hc => Highlight.isWordPart_of_isPart (all c hc)⟩)
  | word shape =>
    obtain ⟨c, cs, rfl, -, hall⟩ := exists_cons_of_isWord shape
    refine .inr (.inl ⟨?_, fun c hc => Highlight.isWordPart_of_lexer (hall c hc)⟩)
    rw [Token.ofWord]
    split <;> rfl
  | symbol mem =>
    refine .inl ⟨?_, Highlight.isOther_of_mem_symbols _ mem⟩
    rcases symbols_cases mem with ⟨op, -, rfl⟩ | ⟨m, -, rfl⟩ <;> rfl
  | @quoted text closed => exact .inr (.inr ⟨text, closed, rfl, rfl⟩)

/-- Behind a token there is code, and no word goes on from the token. -/
theorem Longest.runs_behind (h : Longest lexeme t (lexeme ++ rest))
    (hothers : ∀ c ∈ layout, Highlight.isOther c = true)
    (hruns : RunsAreTokens (layout ++ (lexeme ++ rest))) : RunsAreTokens rest := by
  have hcode (hlexeme : lexeme.foldl Region.next .code = .code) :
      Region.behind (layout ++ lexeme) = .code := by
    rw [Region.behind_append, Region.behind, Region.foldl_others hothers, hlexeme]
  obtain ⟨c, cs, hne⟩ := h.reads.exists_cons
  have hlast (hlexeme : ∀ c ∈ lexeme.getLast?, Highlight.isWordPart c = false) :
      ∀ c ∈ (layout ++ lexeme).getLast?, Highlight.isWordPart c = false := by
    rw [hne] at hlexeme ⊢
    rwa [List.getLast?_append_cons]
  rw [← List.append_assoc] at hruns
  rcases h.reads.kind.cases_parts with ⟨-, hparts⟩ | ⟨-, hparts⟩ | ⟨text, hclosed, rfl, -⟩
  · refine hruns.behind (hcode (Region.foldl_others hparts)) (.inl (hlast fun d hd => ?_))
    exact Highlight.not_isWordPart_of_isOther (hparts d (List.mem_of_mem_getLast? hd))
  · rw [List.append_assoc] at hruns
    have hends := h.ends_run hruns hothers hparts
    rw [← List.append_assoc] at hruns
    exact hruns.behind (hcode (Region.foldl_word hparts)) (.inr hends)
  · refine hruns.behind (hcode (Region.foldl_quoted hclosed)) (.inl (hlast fun d hd => ?_))
    rw [← List.cons_append, List.getLast?_concat] at hd
    obtain rfl := Option.some.inj hd
    rfl

end Lexical

end Sapling
