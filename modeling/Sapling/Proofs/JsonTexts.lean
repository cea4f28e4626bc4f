import Sapling.Proofs.JsonNumbers

/-!
# Texts of JSON values

A value is known by its compact text, up to numbers that are not finite and are written as `null`
(`eq_of_compact`): each kind of value begins with characters of its own, and what may stand behind
a value does not go on with it. The pretty text differs from the compact one in blanks outside of
strings only (`withoutBlanks_pretty`).
-/
namespace Sapling.Json

def hexValue (c : Char) : Nat :=
  if c.isDigit then c.toNat - '0'.toNat else c.toNat - 'a'.toNat + 10

/-- Read one character of a string, which may be escaped. -/
def unescape : List Char → Option (Char × List Char)
  | '\\' :: 'u' :: '0' :: '0' :: high :: low :: cs =>
    some (Char.ofNat (16 * hexValue high + hexValue low), cs)
  | '\\' :: 'b' :: cs => some ('\x08', cs)
  | '\\' :: 'f' :: cs => some ('\x0c', cs)
  | '\\' :: 'n' :: cs => some ('\n', cs)
  | '\\' :: 'r' :: cs => some ('\r', cs)
  | '\\' :: 't' :: cs => some ('\t', cs)
  | '\\' :: c :: cs => some (c, cs)
  | c :: cs => some (c, cs)
  | [] => none

theorem hexValue_digitChar {n : ℕ} (h : n < 16) : hexValue (Nat.digitChar n) = n := by
  have hall : ∀ n < 16, hexValue (Nat.digitChar n) = n := by decide
  exact hall n h

theorem unescape_escape (c : Char) (cs : List Char) : unescape (escape c ++ cs) = some (c, cs) := by
  unfold escape
  -- The characters that are escaped by a letter or by themselves.
  iterate 7
    split
    · next h => rw [h]; rfl
  split
  · have hhigh : hexValue (Nat.digitChar (c.toNat / 16)) = c.toNat / 16 :=
      hexValue_digitChar (by omega)
    have hlow : hexValue (Nat.digitChar (c.toNat % 16)) = c.toNat % 16 :=
      hexValue_digitChar (by omega)
    have hvalue : 16 * (c.toNat / 16) + c.toNat % 16 = c.toNat := by omega
    change some (Char.ofNat _, cs) = _
    rw [hhigh, hlow, hvalue, Char.ofNat_toNat]
  · unfold unescape
    split <;> simp_all

/-- A character stands for itself, or there is a backslash with characters behind it of which only
the first can be a quote or a backslash. -/
theorem escape_cases (c : Char) : (escape c = [c] ∧ c ≠ '"' ∧ c ≠ '\\') ∨
    ∃ d ds, escape c = '\\' :: d :: ds ∧ ∀ e ∈ ds, e ≠ '"' ∧ e ≠ '\\' := by
  unfold escape
  iterate 7
    split
    · exact .inr ⟨_, [], rfl, by simp⟩
  split
  · have hdigit : ∀ n < 16, Nat.digitChar n ≠ '"' ∧ Nat.digitChar n ≠ '\\' := by decide
    refine .inr ⟨'u', _, rfl, ?_⟩
    simp only [List.forall_mem_cons]
    exact ⟨by decide, by decide, hdigit _ (by omega), hdigit _ (by omega), by simp⟩
  · exact .inl ⟨rfl, ‹_›, ‹_›⟩

theorem toList_quote (s : String) : (quote s).toList = '"' :: (s.toList.flatMap escape ++ ['"']) :=
  String.toList_ofList

/-- An escaped text in front of a quote ends in one place, and is known. -/
theorem eq_of_escaped {cs ds xs ys : List Char}
    (h : cs.flatMap escape ++ '"' :: xs = ds.flatMap escape ++ '"' :: ys) : cs = ds ∧ xs = ys := by
  have hend : ∀ (c : Char) (us vs : List Char), escape c ++ us ≠ '"' :: vs := by
    intro c us vs heq
    rcases escape_cases c with ⟨hself, hquote, -⟩ | ⟨d, ds, hbackslash, -⟩
    · rw [hself] at heq
      exact hquote (List.cons.inj heq).1
    · rw [hbackslash] at heq
      exact absurd (List.cons.inj heq).1 (by decide)
  induction cs generalizing ds with
  | nil =>
    cases ds with
    | nil => exact ⟨rfl, (List.cons.inj h).2⟩
    | cons d ds =>
      rw [List.flatMap_cons, List.append_assoc] at h
      exact absurd h.symm (hend _ _ _)
  | cons c cs ih =>
    cases ds with
    | nil =>
      rw [List.flatMap_cons, List.append_assoc] at h
      exact absurd h (hend _ _ _)
    | cons d ds =>
      rw [List.flatMap_cons, List.flatMap_cons, List.append_assoc, List.append_assoc] at h
      have hread := congrArg unescape h
      rw [unescape_escape, unescape_escape] at hread
      obtain ⟨rfl, hrest⟩ := Prod.mk.inj (Option.some.inj hread)
      obtain ⟨rfl, rfl⟩ := ih hrest
      exact ⟨rfl, rfl⟩

theorem eq_of_quote {s t : String} {xs ys : List Char}
    (h : (quote s).toList ++ xs = (quote t).toList ++ ys) : s = t ∧ xs = ys := by
  rw [toList_quote, toList_quote, List.cons_append, List.cons_append, List.append_assoc,
    List.append_assoc] at h
  obtain ⟨hchars, hrest⟩ := eq_of_escaped (List.cons.inj h).2
  exact ⟨String.toList_inj.mp hchars, hrest⟩

/-- Where a text stands: between strings, in a string, or in one behind a backslash. -/
inductive Place where
  | outside
  | inside
  | escaped

def isBlank (c : Char) : Bool :=
  c == ' ' || c == '\t' || c == '\n' || c == '\r'

/-- Leave out the blanks outside of strings. -/
def withoutBlanks : Place → List Char → List Char
  | _, [] => []
  | .outside, c :: cs =>
    if isBlank c then withoutBlanks .outside cs
    else c :: withoutBlanks (if c = '"' then .inside else .outside) cs
  | .inside, c :: cs =>
    c :: withoutBlanks (if c = '"' then .outside else if c = '\\' then .escaped else .inside) cs
  | .escaped, c :: cs => c :: withoutBlanks .inside cs

theorem withoutBlanks_inside {cs : List Char} (h : ∀ c ∈ cs, c ≠ '"' ∧ c ≠ '\\')
    (rest : List Char) :
    withoutBlanks .inside (cs ++ rest) = cs ++ withoutBlanks .inside rest := by
  induction cs with
  | nil => rfl
  | cons c cs ih =>
    obtain ⟨⟨hquote, hbackslash⟩, hcs⟩ := List.forall_mem_cons.mp h
    rw [List.cons_append, withoutBlanks, if_neg hquote, if_neg hbackslash, ih hcs, List.cons_append]

theorem withoutBlanks_escape (c : Char) (rest : List Char) :
    withoutBlanks .inside (escape c ++ rest) = escape c ++ withoutBlanks .inside rest := by
  rcases escape_cases c with ⟨hself, hquote, hbackslash⟩ | ⟨d, ds, hchars, hds⟩
  · rw [hself]
    exact withoutBlanks_inside (by simp [hquote, hbackslash]) rest
  · have hbackslash : withoutBlanks .inside ('\\' :: d :: (ds ++ rest)) =
        '\\' :: d :: withoutBlanks .inside (ds ++ rest) := rfl
    rw [hchars, List.cons_append, List.cons_append, hbackslash, withoutBlanks_inside hds]
    rfl

theorem withoutBlanks_quote (s : String) (rest : List Char) :
    withoutBlanks .outside ((quote s).toList ++ rest) =
      (quote s).toList ++ withoutBlanks .outside rest := by
  have hescaped (cs : List Char) : withoutBlanks .inside (cs.flatMap escape ++ '"' :: rest) =
      cs.flatMap escape ++ '"' :: withoutBlanks .outside rest := by
    induction cs with
    | nil => rfl
    | cons c cs ih =>
      rw [List.flatMap_cons, List.append_assoc, withoutBlanks_escape, ih, List.append_assoc]
  have hquote : isBlank '"' = false := rfl
  simp [toList_quote, withoutBlanks, hquote, hescaped]

theorem compactItems_eq_map (items : List Json) : compactItems items = items.map compact := by
  induction items with
  | nil => rfl
  | cons item items ih => rw [compactItems, ih, List.map_cons]

theorem compactFields_eq_map (fields : List (String × Json)) :
    compactFields fields = fields.map compactField := by
  induction fields with
  | nil => rfl
  | cons field fields ih => rw [compactFields, ih, List.map_cons]

theorem toList_intercalate_cons (separator s : String) (ss : List String) :
    (separator.intercalate (s :: ss)).toList =
      s.toList ++ ss.flatMap fun s => separator.toList ++ s.toList := by
  induction ss generalizing s with
  | nil => simp
  | cons t ss ih =>
    rw [String.intercalate_cons_cons, String.toList_append, String.toList_append, ih,
      List.flatMap_cons, List.append_assoc, List.append_assoc]

/-- What can stand behind a value. -/
def Behind (cs : List Char) : Prop :=
  ∀ c ∈ cs.head?, c = ',' ∨ c = ']' ∨ c = '\x7d'

section
variable {α β : Type} (text : α → String) (form : α → β)

/-- In front of what can stand behind a value, no other text of this kind goes on in the same way,
unless what it is the text of has the same form. -/
def Known (a : α) : Prop :=
  ∀ (b : α) (xs ys : List Char), Behind xs → Behind ys →
    (text a).toList ++ xs = (text b).toList ++ ys → form a = form b ∧ xs = ys

variable {text form} {as bs : List α} {close : Char} {xs ys : List Char}

theorem behind_closing (hclose : close = ']' ∨ close = '\x7d') (as : List α) (xs : List Char) :
    Behind (((as.map text).flatMap fun s => ",".toList ++ s.toList) ++ close :: xs) := by
  cases as with
  | nil =>
    rintro c ⟨⟩
    exact .inr hclose
  | cons a as =>
    rintro c ⟨⟩
    exact .inl rfl

theorem eq_of_listed (hclose : close = ']' ∨ close = '\x7d') (hknown : ∀ a ∈ as, Known text form a)
    (h : ((as.map text).flatMap fun s => ",".toList ++ s.toList) ++ close :: xs =
      ((bs.map text).flatMap fun s => ",".toList ++ s.toList) ++ close :: ys) :
    as.map form = bs.map form ∧ xs = ys := by
  have hne : close ≠ ',' := by
    rcases hclose with rfl | rfl <;> decide
  induction as generalizing bs with
  | nil =>
    cases bs with
    | nil => exact ⟨rfl, (List.cons.inj h).2⟩
    | cons b bs => exact absurd (List.cons.inj h).1 hne
  | cons a as ih =>
    cases bs with
    | nil => exact absurd (List.cons.inj h).1.symm hne
    | cons b bs =>
      obtain ⟨hfirst, hothers⟩ := List.forall_mem_cons.mp hknown
      simp only [List.map_cons, List.flatMap_cons, List.append_assoc] at h
      obtain ⟨hform, hrest⟩ := hfirst b _ _ (behind_closing hclose as xs)
        (behind_closing hclose bs ys) (List.append_cancel_left h)
      obtain ⟨hforms, hend⟩ := ih hothers hrest
      exact ⟨by rw [List.map_cons, List.map_cons, hform, hforms], hend⟩

/-- A list of texts in front of its closing bracket. No text begins with the bracket. -/
theorem eq_of_joined (hclose : close = ']' ∨ close = '\x7d')
    (hbegins : ∀ a, ∃ c cs, (text a).toList = c :: cs ∧ c ≠ close)
    (hknown : ∀ a ∈ as, Known text form a)
    (h : (",".intercalate (as.map text)).toList ++ close :: xs =
      (",".intercalate (bs.map text)).toList ++ close :: ys) :
    as.map form = bs.map form ∧ xs = ys := by
  have hends (a : α) (as : List α) (xs ys : List Char) :
      (",".intercalate ((a :: as).map text)).toList ++ xs ≠ close :: ys := by
    obtain ⟨c, cs, hchars, hne⟩ := hbegins a
    rw [List.map_cons, toList_intercalate_cons, hchars]
    exact fun heq => hne (List.cons.inj heq).1
  cases as with
  | nil =>
    cases bs with
    | nil => exact ⟨rfl, (List.cons.inj h).2⟩
    | cons b bs => exact absurd h.symm (hends b bs _ xs)
  | cons a as =>
    cases bs with
    | nil => exact absurd h (hends a as _ ys)
    | cons b bs =>
      obtain ⟨hfirst, hothers⟩ := List.forall_mem_cons.mp hknown
      simp only [List.map_cons, toList_intercalate_cons, List.append_assoc] at h
      obtain ⟨hform, hrest⟩ := hfirst b _ _ (behind_closing hclose as xs)
        (behind_closing hclose bs ys) h
      obtain ⟨hforms, hend⟩ := eq_of_listed hclose hothers hrest
      exact ⟨by rw [List.map_cons, List.map_cons, hform, hforms], hend⟩

end

mutual

/-- A value with `null` in the place of each number that is not finite. -/
def written : Json → Json
  | .null => .null
  | .number (.finite negative rank) => .number (.finite negative rank)
  | .number _ => .null
  | .str text => .str text
  | .array items => .array (writtenItems items)
  | .object fields => .object (writtenFields fields)

def writtenItems : List Json → List Json
  | [] => []
  | item :: items => written item :: writtenItems items

def writtenFields : List (String × Json) → List (String × Json)
  | [] => []
  | field :: fields => writtenField field :: writtenFields fields

def writtenField : String × Json → String × Json
  | (key, value) => (key, written value)

end

theorem writtenItems_eq_map (items : List Json) : writtenItems items = items.map written := by
  induction items with
  | nil => rfl
  | cons item items ih => rw [writtenItems, ih, List.map_cons]

theorem writtenFields_eq_map (fields : List (String × Json)) :
    writtenFields fields = fields.map writtenField := by
  induction fields with
  | nil => rfl
  | cons field fields ih => rw [writtenFields, ih, List.map_cons]

/-- The first character of a value, where `0` stands for all that a number begins with. -/
def opening : Json → Char
  | .null => 'n'
  | .number (.finite _ _) => '0'
  | .number _ => 'n'
  | .str _ => '"'
  | .array _ => '['
  | .object _ => '\x7b'

def face (c : Char) : Char :=
  if c == '-' || Numeral.isPart c then '0' else c

theorem toList_array (items : List Json) : (compact (.array items)).toList =
    '[' :: ((",".intercalate (items.map compact)).toList ++ [']']) := by
  rw [compact, compactItems_eq_map, String.toList_append, String.toList_append]
  rfl

theorem toList_object (fields : List (String × Json)) : (compact (.object fields)).toList =
    '\x7b' :: ((",".intercalate (fields.map compactField)).toList ++ ['\x7d']) := by
  rw [compact, compactFields_eq_map, String.toList_append, String.toList_append]
  rfl

theorem toList_field (key : String) (value : Json) :
    (compactField (key, value)).toList = (quote key).toList ++ ':' :: value.compact.toList := by
  rw [compactField, String.toList_append, String.toList_append, List.append_assoc]
  rfl

theorem exists_opening (a : Json) : ∃ c cs, a.compact.toList = c :: cs ∧ face c = a.opening := by
  cases a with
  | null => exact ⟨'n', _, rfl, rfl⟩
  | number value =>
    cases value with
    | nan | infinite _ =>
      change ∃ c cs, "null".toList = c :: cs ∧ face c = 'n'
      exact ⟨'n', _, rfl, rfl⟩
    | finite negative rank =>
      obtain ⟨c, cs, hchars, hc, -⟩ := numberText_shape negative rank
      exact ⟨c, cs, hchars, by rcases hc with hc | hc <;> simp [face, opening, hc]⟩
  | str text => exact ⟨'"', _, toList_quote text, rfl⟩
  | array items => exact ⟨'[', _, toList_array items, rfl⟩
  | object fields => exact ⟨'\x7b', _, toList_object fields, rfl⟩

theorem opening_eq {a b : Json} {xs ys : List Char}
    (h : a.compact.toList ++ xs = b.compact.toList ++ ys) : a.opening = b.opening := by
  obtain ⟨c, cs, hchars, hc⟩ := exists_opening a
  obtain ⟨d, ds, hchars', hd⟩ := exists_opening b
  rw [hchars, hchars'] at h
  rw [← hc, ← hd, (List.cons.inj h).1]

theorem Behind.isNumeric {xs : List Char} (h : Behind xs) :
    ∀ c ∈ xs.head?, isNumeric c = false := by
  intro c hc
  rcases h c hc with rfl | rfl | rfl <;> rfl

/-- No finite number goes on with what can stand behind a value. -/
theorem eq_of_numberText {negative negative' : Bool} {rank rank' : Fin magnitudeCount}
    {xs ys : List Char} (hxs : Behind xs) (hys : Behind ys)
    (h : (numberText (.finite negative rank)).toList ++ xs =
      (numberText (.finite negative' rank')).toList ++ ys) :
    (negative = negative' ∧ rank = rank') ∧ xs = ys := by
  obtain ⟨c, cs, hchars, -, hall⟩ := numberText_shape negative rank
  obtain ⟨d, ds, hchars', -, hall'⟩ := numberText_shape negative' rank'
  rw [← hchars] at hall
  rw [← hchars'] at hall'
  have htake := congrArg (List.takeWhile isNumeric) h
  have hdrop := congrArg (List.dropWhile isNumeric) h
  rw [Lexer.takeWhile_append_eq hall hxs.isNumeric,
    Lexer.takeWhile_append_eq hall' hys.isNumeric] at htake
  rw [Lexer.dropWhile_append_eq hall hxs.isNumeric,
    Lexer.dropWhile_append_eq hall' hys.isNumeric] at hdrop
  exact ⟨finite_eq_of_text (String.toList_inj.mp htake), hdrop⟩

theorem known_null {a : Json} (hcompact : a.compact = "null") (hwritten : a.written = .null) :
    Known compact written a := by
  intro b xs ys _ _ h
  have hopening : b.opening = 'n' := by
    rw [hcompact] at h
    have hnull : (compact .null).toList ++ xs = b.compact.toList ++ ys := h
    exact (opening_eq hnull).symm
  have hb : b.compact = "null" ∧ b.written = .null := by
    cases b with
    | null => exact ⟨rfl, rfl⟩
    | number value =>
      cases value with
      | nan | infinite _ => exact ⟨rfl, rfl⟩
      | finite _ _ => simp [opening] at hopening
    | _ => simp [opening] at hopening
  rw [hcompact, hb.1] at h
  exact ⟨hwritten.trans hb.2.symm, List.append_cancel_left h⟩

theorem compact_begins (a : Json) : ∃ c cs, a.compact.toList = c :: cs ∧ c ≠ ']' := by
  obtain ⟨c, cs, hchars, hc⟩ := exists_opening a
  refine ⟨c, cs, hchars, ?_⟩
  rintro rfl
  have hopening : a.opening ≠ ']' := by
    cases a with
    | number value => cases value <;> simp [opening]
    | _ => simp [opening]
  exact hopening hc.symm

theorem compactField_begins (field : String × Json) :
    ∃ c cs, (compactField field).toList = c :: cs ∧ c ≠ '\x7d' := by
  obtain ⟨key, value⟩ := field
  rw [toList_field, toList_quote]
  exact ⟨'"', _, rfl, by decide⟩

mutual

/-- A value is known by its text. -/
theorem known (a : Json) : Known compact written a := by
  cases a with
  | null => exact known_null rfl rfl
  | number value =>
    cases value with
    | nan | infinite _ => exact known_null rfl rfl
    | finite negative rank =>
      intro b xs ys hxs hys h
      have hopening := opening_eq h
      cases b with
      | number value' =>
        cases value' with
        | finite negative' rank' =>
          obtain ⟨⟨rfl, rfl⟩, hrest⟩ := eq_of_numberText hxs hys h
          exact ⟨rfl, hrest⟩
        | nan | infinite _ => simp [opening] at hopening
      | _ => simp [opening] at hopening
  | str text =>
    intro b xs ys _ _ h
    have hopening := opening_eq h
    cases b with
    | str text' =>
      obtain ⟨rfl, hrest⟩ := eq_of_quote h
      exact ⟨rfl, hrest⟩
    | number value' => cases value' <;> simp [opening] at hopening
    | _ => simp [opening] at hopening
  | array items =>
    intro b xs ys _ _ h
    have hopening := opening_eq h
    cases b with
    | array items' =>
      rw [toList_array, toList_array, List.cons_append, List.cons_append, List.append_assoc,
        List.append_assoc] at h
      obtain ⟨hitems, hrest⟩ :=
        eq_of_joined (.inl rfl) compact_begins (known_items items) (List.cons.inj h).2
      exact ⟨by rw [written, written, writtenItems_eq_map, writtenItems_eq_map, hitems], hrest⟩
    | number value' => cases value' <;> simp [opening] at hopening
    | _ => simp [opening] at hopening
  | object fields =>
    intro b xs ys _ _ h
    have hopening := opening_eq h
    cases b with
    | object fields' =>
      rw [toList_object, toList_object, List.cons_append, List.cons_append, List.append_assoc,
        List.append_assoc] at h
      obtain ⟨hfields, hrest⟩ :=
        eq_of_joined (.inr rfl) compactField_begins (known_fields fields) (List.cons.inj h).2
      exact ⟨by rw [written, written, writtenFields_eq_map, writtenFields_eq_map, hfields], hrest⟩
    | number value' => cases value' <;> simp [opening] at hopening
    | _ => simp [opening] at hopening

theorem known_items (items : List Json) : ∀ item ∈ items, Known compact written item := by
  cases items with
  | nil => simp
  | cons item items => exact List.forall_mem_cons.mpr ⟨known item, known_items items⟩

theorem known_fields (fields : List (String × Json)) :
    ∀ field ∈ fields, Known compactField writtenField field := by
  cases fields with
  | nil => simp
  | cons field fields => exact List.forall_mem_cons.mpr ⟨known_field field, known_fields fields⟩

theorem known_field (field : String × Json) : Known compactField writtenField field := by
  obtain ⟨key, value⟩ := field
  have hvalue := known value
  rintro ⟨key', value'⟩ xs ys hxs hys h
  rw [toList_field, toList_field, List.append_assoc, List.append_assoc] at h
  obtain ⟨rfl, hrest⟩ := eq_of_quote h
  obtain ⟨hwritten, hend⟩ := hvalue value' xs ys hxs hys (List.cons.inj hrest).2
  exact ⟨by rw [writtenField, writtenField, hwritten], hend⟩

end

theorem written_eq_of_compact {a b : Json} (h : a.compact = b.compact) : a.written = b.written := by
  have hnone : Behind [] := by simp [Behind]
  exact (known a b [] [] hnone hnone (by rw [h])).1

/-- The second text is the first without its blanks outside of strings, whatever is behind it. -/
def Tightens (loose tight : String) : Prop :=
  ∀ rest, withoutBlanks .outside (loose.toList ++ rest) =
    tight.toList ++ withoutBlanks .outside rest

namespace Tightens

variable {loose tight loose' tight' : String}

theorem append (h : Tightens loose tight) (h' : Tightens loose' tight') :
    Tightens (loose ++ loose') (tight ++ tight') := by
  intro rest
  rw [String.toList_append, String.toList_append, List.append_assoc, h, h', List.append_assoc]

theorem blanks (h : ∀ c ∈ loose.toList, isBlank c = true) : Tightens loose "" := by
  intro rest
  generalize loose.toList = cs at h
  induction cs with
  | nil => rfl
  | cons c cs ih =>
    obtain ⟨hc, hcs⟩ := List.forall_mem_cons.mp h
    rw [List.cons_append, withoutBlanks, if_pos hc, ih hcs]

theorem plain (h : loose.toList.all (fun c => !isBlank c && c != '"') = true) :
    Tightens loose loose := by
  intro rest
  generalize loose.toList = cs at h
  induction cs with
  | nil => rfl
  | cons c cs ih =>
    simp only [List.all_cons, Bool.and_eq_true, Bool.not_eq_true', bne_iff_ne] at h
    obtain ⟨⟨hblank, hquote⟩, hcs⟩ := h
    simp [withoutBlanks, hblank, hquote, ih hcs]

theorem quote (s : String) : Tightens (quote s) (quote s) :=
  withoutBlanks_quote s

theorem margin (depth : ℕ) :
    Tightens ("\n" ++ String.ofList (List.replicate (2 * depth) ' ')) "" := by
  apply blanks
  intro c hc
  rw [String.toList_append] at hc
  rcases List.mem_append.mp hc with hnewline | hspace
  · rw [List.mem_singleton.mp hnewline]
    rfl
  · rw [String.toList_ofList] at hspace
    rw [List.eq_of_mem_replicate hspace]
    rfl

theorem intercalate {separator tightSeparator : String} {ss ts : List String}
    (hseparator : Tightens separator tightSeparator) (h : List.Forall₂ Tightens ss ts) :
    Tightens (separator.intercalate ss) (tightSeparator.intercalate ts) := by
  induction h with
  | nil => exact fun rest => rfl
  | @cons s t ss ts hfirst hothers ih =>
    cases hothers with
    | nil => simpa using hfirst
    | cons _ _ =>
      rw [String.intercalate_cons_cons, String.intercalate_cons_cons]
      exact (hfirst.append hseparator).append ih

theorem bracketed {opening closing : String} {ss ts : List String} (depth : ℕ)
    (hopening : Tightens opening opening) (hclosing : Tightens closing closing)
    (h : List.Forall₂ Tightens ss ts) :
    Tightens (bracketed opening closing depth ss) (opening ++ ",".intercalate ts ++ closing) := by
  have hcomma : Tightens "," "," := plain rfl
  have hclosed : Tightens (opening ++ closing) (opening ++ closing) := hopening.append hclosing
  cases h with
  | nil => simpa [Json.bracketed] using hclosed
  | @cons s t ss ts hfirst hothers =>
    have hlines := intercalate (hcomma.append (margin (depth + 1))) (.cons hfirst hothers)
    have hall := ((hopening.append (margin (depth + 1))).append hlines).append
      ((margin depth).append hclosing)
    simpa [Json.bracketed, String.append_assoc] using hall

theorem null : Tightens "null" "null" := plain rfl

theorem number (value : Number) : Tightens (numberText value) (numberText value) := by
  cases value with
  | nan | infinite _ => exact null
  | finite negative rank =>
    obtain ⟨c, cs, hchars, -, hall⟩ := numberText_shape negative rank
    refine plain (List.all_eq_true.mpr fun c' hc' => ?_)
    have hnumeric := hall c' (hchars ▸ hc')
    have hne (d : Char) (hd : isNumeric d = false) : c' ≠ d := by
      rintro rfl
      exact Bool.false_ne_true (hd.symm.trans hnumeric)
    simp [isBlank, hne ' ' rfl, hne '\t' rfl, hne '\n' rfl, hne '\r' rfl, hne '"' rfl]

end Tightens

mutual

theorem tightens (depth : ℕ) (a : Json) : Tightens (prettyAt depth a) (compact a) := by
  cases a with
  | null => exact .null
  | number value => exact .number value
  | str text => exact .quote text
  | array items =>
    have hitems := tightens_items (depth + 1) items
    rw [prettyAt, compact]
    exact .bracketed depth (.plain rfl) (.plain rfl) hitems
  | object fields =>
    have hfields := tightens_fields (depth + 1) fields
    rw [prettyAt, compact]
    exact .bracketed depth (.plain rfl) (.plain rfl) hfields

theorem tightens_items (depth : ℕ) (items : List Json) :
    List.Forall₂ Tightens (prettyItems depth items) (compactItems items) := by
  cases items with
  | nil => exact .nil
  | cons item items => exact .cons (tightens depth item) (tightens_items depth items)

theorem tightens_fields (depth : ℕ) (fields : List (String × Json)) :
    List.Forall₂ Tightens (prettyFields depth fields) (compactFields fields) := by
  cases fields with
  | nil => exact .nil
  | cons field fields => exact .cons (tightens_field depth field) (tightens_fields depth fields)

theorem tightens_field (depth : ℕ) (field : String × Json) :
    Tightens (prettyField depth field) (compactField field) := by
  obtain ⟨key, value⟩ := field
  have hcolon : Tightens ": " ":" := fun rest => rfl
  rw [prettyField, compactField]
  exact ((Tightens.quote key).append hcolon).append (tightens depth value)

end

/-- A pretty text without its blanks outside of strings is the compact text. -/
theorem withoutBlanks_pretty (a : Json) :
    withoutBlanks .outside a.pretty.toList = a.compact.toList := by
  have hall := tightens 0 a []
  rwa [List.append_nil, withoutBlanks, List.append_nil] at hall

end Sapling.Json
