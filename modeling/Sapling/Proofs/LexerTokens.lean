import Sapling.Lexer
import Sapling.Proofs.NumberText
import Sapling.Proofs.TokenReading

/-!
# What the lexer reads

`Lexer.Lexes cs ts` says that the lexer reads the text `cs` as the tokens `ts`. A text is read in
front of another one token at a time; a word or a numeral must not go on behind its end. In the
other direction every token that the lexer supplies is readable: its name is no keyword, its
number has no sign, and its string has no quote.
-/
namespace Sapling

open TokenSource

/-- Neither `nan` nor a number with a sign. -/
def Number.isUnsigned : Number → Bool
  | .nan => false
  | .infinite negative => !negative
  | .finite negative _ => !negative

theorem Number.isUnsigned_iff {value : Number} :
    value.isUnsigned = true ↔ value = .infinite false ∨ ∃ rank, value = .finite false rank := by
  cases value <;> simp [isUnsigned]

namespace Lexer

/-- A letter, and letters, digits and underscores behind it. -/
def isWord : List Char → Bool
  | [] => false
  | c :: cs => c.isAlpha && cs.all isWordPart

/-- A word that is not reserved. -/
def isName (word : String) : Bool :=
  isWord word.toList && (Keyword.ofText? word).isNone

/-- Neither a word nor a numeral goes on with this text. -/
def isSeparate : List Char → Bool
  | [] => true
  | c :: _ => !isWordPart c && !Numeral.isPart c

/-- The lexer reads the text as these tokens, whichever line it has reached. -/
def Lexes (cs : List Char) (ts : List Token) : Prop :=
  ∀ line current, Supplies (⟨cs, line, current⟩ : Lexer) ts

section
variable {c : Char} {cs run rest : List Char} {t : Token} {ts : List Token}

theorem Lexes.nil : Lexes [] [] := fun line current =>
  .done (show fetch ⟨[], line, current⟩ = _ from rfl)

theorem Lexes.layout (hc : isBlank c = true ∨ c = '\n') (h : Lexes cs ts) : Lexes (c :: cs) ts := by
  intro line current
  have hfetch : ∃ line', fetch ⟨c :: cs, line, current⟩ = fetch ⟨cs, line', current⟩ := by
    rcases hc with hblank | rfl
    · have hne : c ≠ '\n' ∧ c ≠ '#' := by
        constructor <;> rintro rfl <;> simp [isBlank] at hblank
      exact ⟨line, by simp [fetch, skipLayout, hne, hblank]⟩
    · exact ⟨line + 1, by simp [fetch, skipLayout]⟩
  obtain ⟨line', hfetch⟩ := hfetch
  exact (h line' current).of_fetch_eq hfetch

theorem Lexes.blanks (count : Nat) (h : Lexes cs ts) :
    Lexes (List.replicate count ' ' ++ cs) ts := by
  induction count with
  | zero => exact h
  | succ count ih => exact ih.layout (.inl rfl)

theorem Lexes.cons (hskip : ∀ line, skipLayout false line (c :: cs) = (line, c :: cs))
    (hread : ∀ lexer, ∃ line, readToken lexer c cs = .ok true ⟨rest, line, some t⟩)
    (h : Lexes rest ts) : Lexes (c :: cs) (t :: ts) := by
  intro line current
  obtain ⟨line', hread⟩ := hread ⟨c :: cs, line, current⟩
  have hfetch : fetch ⟨c :: cs, line, current⟩ = .ok true ⟨rest, line', some t⟩ := by
    simp only [fetch, hskip, hread]
  exact .more hfetch rfl (h line' (some t))

theorem takeWhile_append_eq {p : Char → Bool} (hrun : ∀ c ∈ run, p c = true)
    (hrest : ∀ c ∈ rest.head?, p c = false) : (run ++ rest).takeWhile p = run := by
  rw [List.takeWhile_append_of_pos hrun]
  cases rest with
  | nil => simp
  | cons c rest => simp [hrest c rfl]

theorem dropWhile_append_eq {p : Char → Bool} (hrun : ∀ c ∈ run, p c = true)
    (hrest : ∀ c ∈ rest.head?, p c = false) : (run ++ rest).dropWhile p = rest := by
  rw [List.dropWhile_append_of_pos hrun]
  cases rest with
  | nil => simp
  | cons c rest => simp [hrest c rfl]

theorem bne_of_not_mem {d : Char} (h : d ∉ run) : ∀ c ∈ run, (c != d) = true := by
  intro c hc
  rw [bne_iff_ne]
  rintro rfl
  exact h hc

theorem takeWhile_bne {d : Char} (h : d ∉ run) : (run ++ d :: rest).takeWhile (· != d) = run :=
  takeWhile_append_eq (bne_of_not_mem h) (by simp)

theorem dropWhile_bne {d : Char} (h : d ∉ run) :
    (run ++ d :: rest).dropWhile (· != d) = d :: rest :=
  dropWhile_append_eq (bne_of_not_mem h) (by simp)

theorem isSeparate_head (h : isSeparate rest = true) :
    (∀ c ∈ rest.head?, isWordPart c = false) ∧ ∀ c ∈ rest.head?, Numeral.isPart c = false := by
  cases rest with
  | nil => simp
  | cons c rest => simpa [isSeparate] using h

theorem le_of_isAlpha (h : c.isAlpha = true) : 'A'.val ≤ c.val := by
  rcases Bool.or_eq_true_iff.mp h with hupper | hlower
  · exact (of_decide_eq_true hupper).1
  · have hle := of_decide_eq_true (Bool.and_eq_true_iff.mp hlower).1
    exact UInt32.le_trans (by decide) hle

theorem letter_ne (h : c.isAlpha = true) :
    c ≠ '\n' ∧ c ≠ '#' ∧ isBlank c = false ∧ c ≠ '"' ∧ Numeral.isPart c = false := by
  have hne : ∀ d : Char, d.isAlpha = false → c ≠ d := by
    rintro d hd rfl
    simp [hd] at h
  have hdigit : c.isDigit = false := by
    rw [Bool.eq_false_iff]
    intro hd
    have hle := of_decide_eq_true (Bool.and_eq_true_iff.mp hd).2
    exact absurd (UInt32.le_trans (le_of_isAlpha h) hle) (by decide)
  refine ⟨hne _ rfl, hne _ rfl, ?_, hne _ rfl, ?_⟩
  · simp [isBlank, hne ' ' rfl, hne '\t' rfl, hne '\r' rfl, hne '\x0c' rfl]
  · simp [Numeral.isPart, hdigit, hne '.' rfl]

theorem part_ne (h : Numeral.isPart c = true) :
    c ≠ '\n' ∧ c ≠ '#' ∧ isBlank c = false ∧ c ≠ '"' := by
  have hne : ∀ d : Char, Numeral.isPart d = false → c ≠ d := by
    rintro d hd rfl
    simp [hd] at h
  refine ⟨hne _ rfl, hne _ rfl, ?_, hne _ rfl⟩
  simp [isBlank, hne ' ' rfl, hne '\t' rfl, hne '\r' rfl, hne '\x0c' rfl]

theorem Lexes.word {word : String} (hword : isWord word.toList = true)
    (hrest : isSeparate rest = true) (h : Lexes rest ts) :
    Lexes (word.toList ++ rest) (.ofWord word :: ts) := by
  obtain ⟨c, cs, hcs⟩ : ∃ c cs, word.toList = c :: cs := by
    cases hcs : word.toList with
    | nil => simp [hcs, isWord] at hword
    | cons c cs => exact ⟨c, cs, rfl⟩
  simp only [hcs, isWord, Bool.and_eq_true, List.all_eq_true] at hword
  obtain ⟨hnewline, hcomment, hblank, hquote, hpart⟩ := letter_ne hword.1
  have hall : ∀ d ∈ c :: cs, isWordPart d = true := by
    rintro d (_ | ⟨_, hd⟩)
    · simp [isWordPart, Char.isAlphanum, hword.1]
    · exact hword.2 d hd
  have htake := takeWhile_append_eq hall (isSeparate_head hrest).1
  have hdrop := dropWhile_append_eq hall (isSeparate_head hrest).1
  rw [List.cons_append] at htake hdrop
  rw [hcs, List.cons_append]
  refine .cons (by simp [skipLayout, hnewline, hcomment, hblank]) (fun lexer => ?_) h
  refine ⟨lexer.line, ?_⟩
  simp only [readToken, hquote, hpart, hword.1, htake, hdrop, if_false, if_true]
  rw [← hcs, String.ofList_toList]
  rfl

theorem Lexes.name {name : String} (hname : isName name = true) (hrest : isSeparate rest = true)
    (h : Lexes rest ts) : Lexes (name.toList ++ rest) (.ident name :: ts) := by
  simp only [isName, Bool.and_eq_true, Option.isNone_iff_eq_none] at hname
  have hword := h.word hname.1 hrest
  rwa [Token.ofWord, hname.2] at hword

theorem Lexes.numeral (hne : run ≠ []) (hrun : ∀ c ∈ run, Numeral.isPart c = true)
    (hrest : isSeparate rest = true) (h : Lexes rest ts) :
    Lexes (run ++ rest) (.number (Numeral.value run) :: ts) := by
  obtain ⟨c, cs, rfl⟩ := List.exists_cons_of_ne_nil hne
  have hpart := hrun c List.mem_cons_self
  obtain ⟨hnewline, hcomment, hblank, hquote⟩ := part_ne hpart
  have htake := takeWhile_append_eq hrun (isSeparate_head hrest).2
  have hdrop := dropWhile_append_eq hrun (isSeparate_head hrest).2
  rw [List.cons_append] at htake hdrop ⊢
  refine .cons (by simp [skipLayout, hnewline, hcomment, hblank]) (fun lexer => ?_) h
  refine ⟨lexer.line, ?_⟩
  simp only [readToken, hquote, hpart, htake, hdrop, if_false, if_true]

theorem Lexes.quoted {text : String} (htext : '"' ∉ text.toList) (h : Lexes rest ts) :
    Lexes ('"' :: (text.toList ++ '"' :: rest)) (.str text :: ts) := by
  refine .cons (by simp [skipLayout, isBlank]) (fun lexer => ?_) h
  refine ⟨lexer.line + text.toList.count '\n', ?_⟩
  simp only [readToken, takeWhile_bne htext, dropWhile_bne htext, if_true, String.ofList_toList]

/-- A symbol with a blank behind it. No other one begins like that. -/
theorem Lexes.operator (op : Operator) (h : Lexes (' ' :: rest) ts) :
    Lexes (op.symbol.toList ++ ' ' :: rest) (.operator op :: ts) := by
  cases op <;> exact .cons (fun _ => rfl) (fun lexer => ⟨lexer.line, rfl⟩) h

theorem Lexes.sign (h : Lexes rest ts) : Lexes ('-' :: rest) (.operator .sub :: ts) :=
  .cons (fun _ => rfl) (fun lexer => ⟨lexer.line, rfl⟩) h

theorem Lexes.assign (h : Lexes (' ' :: rest) ts) :
    Lexes ('=' :: ' ' :: rest) (.mark .assign :: ts) :=
  .cons (fun _ => rfl) (fun lexer => ⟨lexer.line, rfl⟩) h

theorem Lexes.mark {m : Mark} (hm : m ≠ .assign) (h : Lexes rest ts) :
    Lexes (m.text.toList ++ rest) (.mark m :: ts) := by
  cases m with
  | assign => exact absurd rfl hm
  | leftParen | rightParen | leftBrace | rightBrace | semicolon | comma =>
    exact .cons (fun _ => rfl) (fun lexer => ⟨lexer.line, rfl⟩) h

end

end Lexer

/-- A token that the lexer can hand out. -/
def Token.isReadable : Token → Bool
  | .ident name => Lexer.isName name
  | .number value => value.isUnsigned
  | .str text => !text.toList.contains '"'
  | _ => true

namespace Lexer

variable {lexer lexer' : Lexer} {t : Token} {ts : List Token}

theorem isReadable_ofWord {word : String} (h : isWord word.toList = true) :
    (Token.ofWord word).isReadable = true := by
  unfold Token.ofWord
  split
  · rfl
  · next hnone => simp [Token.isReadable, isName, h, hnone]

theorem isReadable_symbol {cs rest : List Char} (h : symbol? cs = some (t, rest)) :
    t.isReadable = true := by
  have hall : ∀ entry ∈ symbols, entry.2.isReadable = true := by decide
  obtain ⟨entry, hfind, heq⟩ := Option.map_eq_some_iff.mp h
  obtain ⟨rfl, -⟩ := Prod.mk.inj heq
  exact hall entry (List.mem_of_find?_eq_some hfind)

theorem isReadable_of_readToken {c : Char} {cs : List Char} {more : Bool}
    (h : readToken lexer c cs = .ok more lexer') (ht : lexer'.current = some t) :
    t.isReadable = true := by
  simp only [readToken] at h
  split at h
  · split at h
    · simp at h
    · obtain ⟨rfl, rfl⟩ := EStateM.Result.ok.inj h
      obtain rfl := Option.some.inj ht
      have hquote : '"' ∉ cs.takeWhile (· != '"') := by
        intro hmem
        simpa using List.mem_takeWhile_imp hmem
      simp only [Token.isReadable, String.toList_ofList]
      simpa using hquote
  · split at h
    · obtain ⟨rfl, rfl⟩ := EStateM.Result.ok.inj h
      obtain rfl := Option.some.inj ht
      exact Number.isUnsigned_iff.mpr (Number.value_cases _)
    · split at h
      · next hletter =>
        obtain ⟨rfl, rfl⟩ := EStateM.Result.ok.inj h
        obtain rfl := Option.some.inj ht
        have hpart : isWordPart c = true := by simp [isWordPart, Char.isAlphanum, hletter]
        apply isReadable_ofWord
        rw [String.toList_ofList, List.takeWhile_cons_of_pos hpart, isWord, hletter,
          List.all_takeWhile]
        rfl
      · split at h
        · next hsymbol =>
          obtain ⟨rfl, rfl⟩ := EStateM.Result.ok.inj h
          obtain rfl := Option.some.inj ht
          exact isReadable_symbol hsymbol
        · simp at h

theorem isReadable_of_fetch (h : fetch lexer = .ok true lexer') (ht : lexer'.current = some t) :
    t.isReadable = true := by
  simp only [fetch] at h
  split at h
  · simp at h
  · exact isReadable_of_readToken h ht

/-- Every token that the lexer supplies is readable. -/
theorem isReadable_of_supplies (h : Supplies lexer ts) : ∀ t ∈ ts, t.isReadable = true := by
  induction h with
  | done _ => simp
  | more fetched token _ ih =>
    rintro t (_ | ⟨_, ht⟩)
    · exact isReadable_of_fetch fetched token
    · exact ih t ht

theorem drainFrom_of_supplies (h : Supplies lexer ts) :
    ∀ (fuel : Nat) (read : List (Nat × Token)), lexer.rest.length < fuel →
      ∃ last tokens, drainFrom fuel lexer read = (read.reverse ++ tokens, .ok last) ∧
        tokens.map (·.2) = ts := by
  induction h with
  | @done lexer last ends =>
    intro fuel read hfuel
    obtain ⟨fuel, rfl⟩ := Nat.exists_eq_add_one_of_ne_zero (Nat.ne_zero_of_lt hfuel)
    have hfetch : fetch lexer = .ok false last := ends
    exact ⟨last, [], by simp [drainFrom, hfetch], rfl⟩
  | @more lexer lexer' t ts fetched token _ ih =>
    intro fuel read hfuel
    obtain ⟨fuel, rfl⟩ := Nat.exists_eq_add_one_of_ne_zero (Nat.ne_zero_of_lt hfuel)
    have hfetch : fetch lexer = .ok true lexer' := fetched
    have hcurrent : lexer'.current = some t := token
    have hlength := (fetch_eq_ok hfetch).2
    obtain ⟨last, tokens, hdrain, htokens⟩ :=
      ih fuel ((lexer'.line, t) :: read) (by omega)
    refine ⟨last, (lexer'.line, t) :: tokens, ?_, by simp [htokens]⟩
    simpa [drainFrom, hfetch, hcurrent] using hdrain

theorem tokenize_of_supplies (h : Supplies lexer ts) : lexer.tokenize = .ok ts := by
  obtain ⟨last, tokens, hdrain, htokens⟩ :=
    drainFrom_of_supplies h (lexer.rest.length + 1) [] (Nat.lt_succ_self _)
  have hlexer : lexer.drain = (tokens, .ok last) := hdrain
  simp only [tokenize, hlexer, htokens]

end Lexer
end Sapling
