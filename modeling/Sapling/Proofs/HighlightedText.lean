import Mathlib.Data.List.TakeWhile
import Mathlib.Data.List.Basic
import Sapling.Viewer.SourceView

/-!
# The text of a highlighted line

A highlighter comes to the end of every line without a bad cut. Its spans are not empty, and their
texts make up the line.
-/
namespace Sapling

theorem cut_append (front part behind : String) :
    cut (front ++ part ++ behind) front.utf8ByteSize (front ++ part).utf8ByteSize = .ok part := by
  have hstart : String.Pos.Raw.IsValid (front ++ part ++ behind) ⟨front.utf8ByteSize⟩ :=
    String.Pos.Raw.isValid_iff_exists_append.mpr
      ⟨front, part ++ behind, String.append_assoc, rfl⟩
  have hstop : String.Pos.Raw.IsValid (front ++ part ++ behind) ⟨(front ++ part).utf8ByteSize⟩ :=
    String.Pos.Raw.isValid_iff_exists_append.mpr ⟨front ++ part, behind, rfl, rfl⟩
  rw [cut, dif_pos ⟨hstart, hstop, by simp⟩]
  refine congrArg Except.ok (String.toByteArray_inj.mp ?_)
  rw [String.toByteArray_extract, String.offset_pos, String.offset_pos,
    String.toByteArray_append (s := front ++ part), ← String.size_toByteArray (s := front ++ part),
    ByteArray.extract_append_size_left, String.toByteArray_append]
  exact ByteArray.extract_append_eq_right String.size_toByteArray.symm ByteArray.size_append

/-- A part can be cut out of a text exactly where it stands in the text. -/
theorem cut_eq_ok_iff {text part : String} {start stop : Nat} :
    cut text start stop = .ok part ↔ ∃ front behind, text = front ++ part ++ behind ∧
      start = front.utf8ByteSize ∧ stop = (front ++ part).utf8ByteSize := by
  constructor
  · intro h
    have hvalid : String.Pos.Raw.IsValid text ⟨start⟩ ∧ String.Pos.Raw.IsValid text ⟨stop⟩ ∧
        start ≤ stop := by
      by_contra hvalid
      simp [cut, dif_neg hvalid] at h
    obtain ⟨hstart, hstop, hle⟩ := hvalid
    obtain ⟨front, rest, rfl, hfront⟩ := String.Pos.Raw.isValid_iff_exists_append.mp hstart
    obtain rfl : start = front.utf8ByteSize := congrArg String.Pos.Raw.byteIdx hfront
    have hrest : String.Pos.Raw.IsValid rest ⟨stop - front.utf8ByteSize⟩ := by
      rcases String.Pos.Raw.isValid_append.mp hstop with hinside | ⟨-, hbehind⟩
      · have hend : stop ≤ front.utf8ByteSize := hinside.le_utf8ByteSize
        rw [Nat.sub_eq_zero_of_le hend]
        exact String.Pos.Raw.isValid_zero
      · exact hbehind
    obtain ⟨middle, behind, rfl, hmiddle⟩ := String.Pos.Raw.isValid_iff_exists_append.mp hrest
    have hsize : stop - front.utf8ByteSize = middle.utf8ByteSize :=
      congrArg String.Pos.Raw.byteIdx hmiddle
    obtain rfl : stop = (front ++ middle).utf8ByteSize := by
      rw [String.utf8ByteSize_append]
      omega
    rw [← String.append_assoc] at h ⊢
    obtain rfl := Except.ok.inj (h.symm.trans (cut_append front middle behind))
    exact ⟨front, behind, rfl, rfl, rfl⟩
  · rintro ⟨front, behind, rfl, rfl, rfl⟩
    exact cut_append front part behind

def byteCount (cs : List Char) : Nat :=
  (String.ofList cs).utf8ByteSize

@[simp] theorem byteCount_nil : byteCount [] = 0 := rfl

theorem byteCount_cons (c : Char) (cs : List Char) :
    byteCount (c :: cs) = c.utf8Size + byteCount cs := by
  have happend : String.ofList (c :: cs) = String.singleton c ++ String.ofList cs := by
    simp
  rw [byteCount, happend, String.utf8ByteSize_append, String.utf8ByteSize_singleton, byteCount]

theorem byteCount_toList (text : String) : byteCount text.toList = text.utf8ByteSize := by
  rw [byteCount, String.ofList_toList]

theorem cut_of_toList {text : String} {front part behind : List Char}
    (h : text.toList = front ++ (part ++ behind)) :
    cut text (byteCount front) (byteCount (front ++ part)) = .ok (String.ofList part) := by
  have htext : text = String.ofList front ++ String.ofList part ++ String.ofList behind := by
    simp [← String.toList_inj, h]
  rw [byteCount, byteCount, String.ofList_append, htext]
  exact cut_append _ _ _

namespace Highlight

variable {c : Char} {cs word behind : List Char}

/-- A string from its first quote to the next one, or to the end of the line. -/
def quoted (cs : List Char) : List Char :=
  '"' :: (cs.takeWhile (· != '"') ++ (cs.dropWhile (· != '"')).take 1)

def behindQuoted (cs : List Char) : List Char :=
  (cs.dropWhile (· != '"')).drop 1

theorem quoted_append (cs : List Char) : quoted cs ++ behindQuoted cs = '"' :: cs := by
  rw [quoted, behindQuoted, List.cons_append, List.append_assoc, List.take_append_drop,
    List.takeWhile_append_dropWhile]

theorem line_comment : line ('#' :: cs) = [⟨'#' :: cs, { fg := Palette.muted }⟩] := by
  rw [line, if_pos rfl]

theorem line_string :
    line ('"' :: cs) = ⟨quoted cs, { fg := Palette.string }⟩ :: line (behindQuoted cs) := by
  rw [line, if_neg (by decide), if_pos rfl, quoted, behindQuoted]

theorem line_symbol (hcomment : c ≠ '#') (hstring : c ≠ '"') (h : isWordPart c = false) :
    line (c :: cs) = ⟨[c], symbolStyle c⟩ :: line cs := by
  rw [line, if_neg hcomment, if_neg hstring, if_neg (by simp [h])]

theorem ne_of_isWordPart (h : isWordPart c) : c ≠ '#' ∧ c ≠ '"' := by
  constructor <;> rintro rfl <;> exact absurd h (by decide)

theorem line_word (hword : ∀ c ∈ word, isWordPart c) (hne : word ≠ [])
    (hends : ∀ c ∈ behind.head?, isWordPart c = false) :
    line (word ++ behind) =
      ⟨word, wordStyle word (behind.head? == some '(')⟩ :: line behind := by
  obtain ⟨c, cs, rfl⟩ := List.exists_cons_of_ne_nil hne
  have hc := hword c List.mem_cons_self
  have hcs : ∀ c ∈ cs, isWordPart c := fun d hd => hword d (List.mem_cons_of_mem c hd)
  have hbehind : behind.takeWhile isWordPart = [] ∧ behind.dropWhile isWordPart = behind := by
    cases behind with
    | nil => exact ⟨rfl, rfl⟩
    | cons d behind => simp [hends d rfl]
  rw [List.cons_append, line, if_neg (ne_of_isWordPart hc).1, if_neg (ne_of_isWordPart hc).2,
    if_pos hc, List.takeWhile_append_of_pos hcs, List.dropWhile_append_of_pos hcs, hbehind.1,
    hbehind.2, List.append_nil]

theorem line_induction {motive : List Char → Prop} (nil : motive [])
    (comment : ∀ cs, motive ('#' :: cs))
    (string : ∀ cs, motive (behindQuoted cs) → motive ('"' :: cs))
    (word : ∀ word behind, (∀ c ∈ word, isWordPart c) → word ≠ [] →
      (∀ c ∈ behind.head?, isWordPart c = false) → motive behind → motive (word ++ behind))
    (symbol : ∀ c cs, c ≠ '#' → c ≠ '"' → isWordPart c = false → motive cs → motive (c :: cs))
    (cs : List Char) : motive cs := by
  fun_induction line cs with
  | case1 => exact nil
  | case2 cs => exact comment cs
  | case3 cs body rest _ ih => exact string cs ih
  | case4 c cs _ _ hc whole rest ih =>
    have hword : ∀ d ∈ whole, isWordPart d := by
      intro d hd
      rcases List.mem_cons.mp hd with rfl | hd
      · exact hc
      · exact List.mem_takeWhile_imp hd
    have hends : ∀ d ∈ rest.head?, isWordPart d = false := by
      intro d hd
      have hnot := List.head?_dropWhile_not isWordPart cs
      rwa [Option.mem_def.mp hd] at hnot
    have hsplit : whole ++ rest = c :: cs := by
      rw [List.cons_append, List.takeWhile_append_dropWhile]
    exact hsplit ▸ word whole rest hword (List.cons_ne_nil _ _) hends ih
  | case5 c cs hcomment hstring hc ih =>
    exact symbol c cs hcomment hstring (Bool.eq_false_iff.mpr hc) ih

theorem text_ne_nil {span : Span} (h : span ∈ line cs) : span.text ≠ [] := by
  induction cs using line_induction with
  | nil => simp [line] at h
  | comment cs =>
    rw [line_comment] at h
    obtain rfl := List.mem_singleton.mp h
    exact List.cons_ne_nil _ _
  | string cs ih =>
    rw [line_string] at h
    rcases List.mem_cons.mp h with rfl | h
    · exact List.cons_ne_nil _ _
    · exact ih h
  | word word behind hword hne hends ih =>
    rw [line_word hword hne hends] at h
    rcases List.mem_cons.mp h with rfl | h
    · exact hne
    · exact ih h
  | symbol c cs hcomment hstring hc ih =>
    rw [line_symbol hcomment hstring hc] at h
    rcases List.mem_cons.mp h with rfl | h
    · exact List.cons_ne_nil _ _
    · exact ih h

theorem flatMap_text_line (cs : List Char) : (line cs).flatMap Span.text = cs := by
  induction cs using line_induction with
  | nil => rw [line, List.flatMap_nil]
  | comment cs => rw [line_comment, List.flatMap_singleton]
  | string cs ih => rw [line_string, List.flatMap_cons, ih, quoted_append]
  | word word behind hword hne hends ih => rw [line_word hword hne hends, List.flatMap_cons, ih]
  | symbol c cs hcomment hstring hc ih =>
    rw [line_symbol hcomment hstring hc, List.flatMap_cons, ih, List.singleton_append]

end Highlight

theorem length_byteOffsets (start : Nat) (cs : List Char) :
    (byteOffsets start cs).length = cs.length := by
  induction cs generalizing start with
  | nil => rfl
  | cons c cs ih => simp [byteOffsets, ih]

theorem getElem?_byteOffsets (start : Nat) (front behind : List Char) :
    (byteOffsets start (front ++ behind))[front.length]? =
      behind.head?.map (start + byteCount front, ·) := by
  induction front generalizing start with
  | nil => cases behind <;> simp [byteOffsets]
  | cons c front ih => simp [byteOffsets, ih, byteCount_cons, Nat.add_assoc]

theorem size_charsOf (text : String) : (charsOf text).size = text.toList.length := by
  simp [charsOf, length_byteOffsets]

theorem getElem?_charsOf {text : String} {front behind : List Char}
    (h : text.toList = front ++ behind) :
    (charsOf text)[front.length]? = behind.head?.map (byteCount front, ·) := by
  rw [charsOf, h, List.getElem?_toArray, getElem?_byteOffsets, Nat.zero_add]

namespace Highlighter

/-- A highlighter has read `front`, and `behind` is still to be read. -/
structure Between (front behind : List Char) (h : Highlighter) : Prop where
  text_eq : h.text.toList = front ++ behind
  chars_eq : h.chars = charsOf h.text
  next_eq : h.next = front.length
  word : ∀ c ∈ h.word, Highlight.isWordPart c

variable {front behind : List Char} {h : Highlighter}

theorem Between.getElem?_chars (hb : h.Between front behind) {passed rest : List Char}
    (hsplit : behind = passed ++ rest) :
    h.chars[(front ++ passed).length]? = rest.head?.map (byteCount (front ++ passed), ·) := by
  rw [hb.chars_eq]
  exact getElem?_charsOf (by rw [hb.text_eq, hsplit, List.append_assoc])

theorem Between.byteAt_eq (hb : h.Between front behind) {passed rest : List Char}
    (hsplit : behind = passed ++ rest) :
    h.byteAt (front ++ passed).length = byteCount (front ++ passed) := by
  rw [byteAt, hb.getElem?_chars hsplit]
  cases rest with
  | nil =>
    rw [List.append_nil] at hsplit
    rw [← hsplit, ← hb.text_eq, byteCount_toList]
    rfl
  | cons c rest => rfl

/-- The loop that looks for a quote stops at the first one, or at the end of the line. -/
theorem Between.quoteFrom_eq (hb : h.Between front behind) {passed rest : List Char}
    (hsplit : behind = passed ++ rest) :
    h.quoteFrom (front ++ passed).length =
      pure ((front ++ passed).length + (rest.takeWhile (· != '"')).length) := by
  induction rest generalizing passed with
  | nil => rw [quoteFrom, hb.getElem?_chars hsplit]; rfl
  | cons c rest ih =>
    rw [quoteFrom, hb.getElem?_chars hsplit]
    by_cases hc : c = '"'
    · simp [hc]
    · have hnext := ih (hsplit.trans (List.append_cons passed c rest))
      rw [← List.append_assoc, List.length_append, List.length_singleton] at hnext
      simp only [List.head?_cons, Option.map_some, if_neg hc]
      rw [hnext, List.takeWhile_cons_of_pos (by simpa using hc), List.length_cons,
        Nat.add_right_comm]
      rfl

theorem liftM_ok {α : Type} (a : α) : (liftM (Except.ok a : Except BadCut α) : Run α) = pure a :=
  rfl

/-- A string is cut out as it stands in the line, and the scan goes on behind it. -/
theorem Between.string_eq (hb : h.Between front ('"' :: behind)) :
    h.string (byteCount front) =
      pure (String.ofList (Highlight.quoted behind),
        (front ++ Highlight.quoted behind).length) := by
  have hopen : '"' :: behind = ['"'] ++ behind := rfl
  have hquote := hb.quoteFrom_eq hopen
  rw [List.length_append, List.length_singleton, ← hb.next_eq] at hquote
  have hsplit := (Highlight.quoted_append behind).symm
  have hcut := cut_of_toList (hb.text_eq.trans (congrArg (front ++ ·) hsplit))
  have hsize : h.chars.size = h.next + 1 + behind.length := by
    rw [hb.chars_eq, size_charsOf, hb.text_eq, hb.next_eq, List.length_append, List.length_cons]
    omega
  -- Behind the closing quote, if there is one.
  have hbehind : (if h.next + 1 + (behind.takeWhile (· != '"')).length < h.chars.size
      then h.next + 1 + (behind.takeWhile (· != '"')).length + 1
      else h.next + 1 + (behind.takeWhile (· != '"')).length) =
        (front ++ Highlight.quoted behind).length := by
    have hlength := congrArg List.length
      (List.takeWhile_append_dropWhile (p := (· != '"')) (l := behind))
    rw [List.length_append] at hlength
    simp only [hsize, hb.next_eq, Highlight.quoted, List.length_append, List.length_cons,
      List.length_take]
    split <;> omega
  simp only [string, hquote, pure_bind, hbehind, hb.byteAt_eq hsplit, hcut, liftM_ok]

@[simp] theorem text_flush (called : Bool) : (h.flush called).text = h.text := by
  unfold flush
  split <;> rfl

@[simp] theorem chars_flush (called : Bool) : (h.flush called).chars = h.chars := by
  unfold flush
  split <;> rfl

@[simp] theorem word_flush (called : Bool) : (h.flush called).word = [] := by
  unfold flush
  split
  · next hempty => exact List.isEmpty_iff.mp hempty
  · rfl

theorem spans_flush (hword : ∀ c ∈ h.word, Highlight.isWordPart c)
    (hends : ∀ c ∈ behind.head?, Highlight.isWordPart c = false) :
    (h.flush (behind.head? == some '(')).spans ++ Highlight.line behind =
      h.spans ++ Highlight.line (h.word ++ behind) := by
  by_cases hne : h.word = []
  · simp [flush, hne]
  · rw [Highlight.line_word hword hne hends, flush, if_neg (by simpa using hne)]
    simp

theorem Between.add {passed rest : List Char} (hb : h.Between front behind)
    (hsplit : behind = passed ++ rest) (called : Bool) (span : Span) :
    ((h.flush called).add span (front ++ passed).length).Between (front ++ passed) rest where
  text_eq := by rw [Highlighter.add, text_flush, hb.text_eq, hsplit, List.append_assoc]
  chars_eq := by rw [Highlighter.add, text_flush, chars_flush, hb.chars_eq]
  next_eq := rfl
  word := by simp [Highlighter.add]

theorem Between.push {c : Char} (hb : h.Between front (c :: behind))
    (hc : Highlight.isWordPart c) : (h.push c).Between (front ++ [c]) behind where
  text_eq := hb.text_eq.trans (List.append_cons front c behind)
  chars_eq := hb.chars_eq
  next_eq := by rw [Highlighter.push, hb.next_eq, List.length_append, List.length_singleton]
  word d hd := by
    rcases List.mem_append.mp hd with hd | hd
    · exact hb.word d hd
    · exact List.mem_singleton.mp hd ▸ hc

/-- What the highlighter has shown stays in front, and then comes the word that it is reading with
the rest of the line. -/
theorem Between.scan_eq (hb : h.Between front behind) :
    h.scan = pure (h.spans ++ Highlight.line (h.word ++ behind)) := by
  induction hlength : behind.length using Nat.strong_induction_on generalizing front behind h with
  | _ n ih =>
  subst hlength
  have hchar := hb.getElem?_chars (List.nil_append behind).symm
  rw [List.append_nil, ← hb.next_eq] at hchar
  rw [scan, hchar]
  cases behind with
  | nil =>
    have hends : ∀ c ∈ ([] : List Char).head?, Highlight.isWordPart c = false := by simp
    rw [← spans_flush hb.word hends, Highlight.line, List.append_nil]
    rfl
  | cons c behind =>
    have hflush (hc : Highlight.isWordPart c = false) :
        h.spans ++ Highlight.line (h.word ++ c :: behind) =
          (h.flush (c == '(')).spans ++ Highlight.line (c :: behind) := by
      have hends : ∀ d ∈ (c :: behind).head?, Highlight.isWordPart d = false := by simp [hc]
      exact (spans_flush hb.word hends).symm
    simp only [List.head?_cons, Option.map_some]
    split_ifs with hcomment hstring hpart
    · subst hcomment
      have hcut := cut_of_toList (hb.text_eq.trans (congrArg (front ++ ·) (List.append_nil _).symm))
      rw [← hb.text_eq, byteCount_toList] at hcut
      rw [hcut, liftM_ok, pure_bind, hflush (by decide), Highlight.line_comment, Span.ofString,
        String.toList_ofList]
      rfl
    · subst hstring
      have hsplit := (Highlight.quoted_append behind).symm
      have hlength := congrArg List.length hsplit
      rw [hb.string_eq, pure_bind, hflush (by decide), Highlight.line_string]
      refine (ih _ ?_ (hb.add hsplit false _) rfl).trans ?_
      · rw [hlength, List.length_append, Highlight.quoted, List.length_cons]
        omega
      · simp [Highlighter.add, Span.ofString]
    · have hc : Highlight.isWordPart c = false := by simpa using hpart
      rw [hflush hc, Highlight.line_symbol hcomment hstring hc]
      have hadd := hb.add List.singleton_append.symm (c == '(') ⟨[c], Highlight.symbolStyle c⟩
      rw [List.length_append, List.length_singleton, ← hb.next_eq] at hadd
      refine (ih _ (by simp) hadd rfl).trans ?_
      simp [Highlighter.add]
    · have hc : Highlight.isWordPart c := by simpa using hpart
      refine (ih _ (by simp) (hb.push hc) rfl).trans ?_
      simp [Highlighter.push]

end Highlighter

/-- Highlighting a line ends without a bad cut. -/
theorem highlight_eq (text : String) : highlight text = pure (Highlight.line text.toList) := by
  have hbegin : (Highlighter.ofString text).Between [] text.toList :=
    ⟨rfl, rfl, rfl, fun c hc => absurd hc List.not_mem_nil⟩
  exact hbegin.scan_eq

/-- Highlighting ends, every part that is cut out of the line begins and ends at a character of the
line, no span is empty, and the spans make up the line. -/
theorem highlight_lossless (text : String) : ∃ spans, (highlight text).run = some (.ok spans) ∧
    (∀ span ∈ spans, span.text ≠ []) ∧ spans.flatMap Span.text = text.toList :=
  ⟨Highlight.line text.toList, highlight_eq text, fun _ => Highlight.text_ne_nil,
    Highlight.flatMap_text_line text.toList⟩

end Sapling
