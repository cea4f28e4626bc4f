import Sapling.Proofs.PaneRows
import Sapling.Proofs.ViewerSteps

/-!
# Scrolling as counting

Keys work on offsets of 64 bits that only a drawing holds to the rows of a pane. As long as every
key is followed by a drawing, the offsets are two counters from zero to the last full window, and
nothing of the range of 64 bits is seen (`scrolling_counts`).
-/
namespace Sapling

/-- Where a key takes a counter that ends at `limit`. -/
def Key.move (limit value : Nat) : Key → Nat
  | .up => min limit (value - 1)
  | .down => min limit (value + 1)
  | .pageUp => min limit (value - 10)
  | .pageDown => min limit (value + 10)
  | .home => 0
  | .bottom => limit
  | _ => min limit value

def Key.delta? : Key → Option Int
  | .up => some (-1)
  | .down => some 1
  | .pageUp => some (-10)
  | .pageDown => some 10
  | _ => none

/-- The keys that take a counter to its end if nothing stops it. -/
def Key.forward : Key → Bool
  | .down | .pageDown | .bottom => true
  | _ => false

def Key.backward : Key → Bool
  | .up | .pageUp | .home => true
  | _ => false

theorem Key.eq_false_of_scrolls {key : Key} (h : key.forward ∨ key.backward) :
    key.turns = false ∧ key.quits = false := by
  cases key <;> simp_all [forward, backward, turns, quits]

theorem Key.move_eq_self {key : Key} {limit value : Nat}
    (hend : key.forward ∧ value = limit ∨ key.backward ∧ value = 0) :
    key.move limit value = value := by
  cases key <;> simp [move, forward, backward] at hend ⊢ <;> omega

/-- A key, and the size of the screen that is drawn after it. -/
structure Round where
  key : Key
  width : Nat
  height : Nat

/-- A counter for each pane, and the pane whose counter the keys move. -/
structure Counters where
  focus : Pane
  value : Pane → Nat

def Counters.round (rows : Pane → Nat) (c : Counters) (r : Round) : Counters where
  focus := if r.key.turns then c.focus.next else c.focus
  value pane :=
    let limit := rows pane - visibleRows (r.height - 1)
    if c.focus = pane then r.key.move limit (c.value pane) else min limit (c.value pane)

namespace Viewer

/-- A text and an outline that are short enough to be held in a memory of 64-bit addresses. -/
structure Fits (v : Viewer) : Prop where
  source : v.source.length < UInt64.size
  outline : v.outline.length < UInt64.size

def counters (v : Viewer) : Counters :=
  ⟨v.focus, fun pane => (v.offset pane).toNat⟩

def round (v : Viewer) (r : Round) : Viewer :=
  ((v.press r.key).draw r.width r.height).1

def after (v : Viewer) (rounds : List Round) : Viewer :=
  rounds.foldl round v

variable {v : Viewer}

theorem Fits.rows_lt (h : v.Fits) (pane : Pane) : v.rows pane < UInt64.size := by
  cases pane with
  | source => exact Nat.lt_of_le_of_lt (SourcePane.length_lines_le v.source) h.source
  | outline => exact h.outline

theorem Fits.limit_lt (h : v.Fits) (height : Nat) (pane : Pane) :
    v.limit height pane < UInt64.size :=
  Nat.lt_of_le_of_lt (Nat.sub_le ..) (h.rows_lt pane)

/-- Held to a limit of 64 bits, what a key makes of an offset is what it makes of a counter. -/
theorem min_toNat_scrolled (key : Key) (offset : UInt64) {limit : Nat}
    (h : limit < UInt64.size) :
    min (key.scrolled offset).toNat limit = key.move limit offset.toNat := by
  cases key with
  | up =>
    have hup := toNat_shift_backward (-1) offset (n := 1) (by decide)
    rw [Key.scrolled, hup, Nat.min_comm, Key.move]
  | down =>
    have hdown := toNat_shift_forward 1 offset (n := 1) (by decide)
    rw [Key.scrolled, hdown, Key.move]
    omega
  | pageUp =>
    have hup := toNat_shift_backward (-page) offset (n := 10) (by decide)
    rw [Key.scrolled, hup, Nat.min_comm, Key.move]
  | pageDown =>
    have hdown := toNat_shift_forward page offset (n := 10) (by decide)
    rw [Key.scrolled, hdown, Key.move]
    omega
  | home => exact Nat.zero_min limit
  | bottom =>
    have hfarthest : farthest.toNat = UInt64.size - 1 := rfl
    rw [Key.scrolled, hfarthest, Key.move]
    omega
  | _ => exact Nat.min_comm ..

theorem toNat_offset_press {key : Key} {delta : Int} (v : Viewer) (h : key.delta? = some delta) :
    (((v.press key).offset v.focus).toNat : Int) =
      max 0 (min ((v.offset v.focus).toNat + delta) (UInt64.size - 1)) := by
  rw [offset_press, if_pos rfl]
  cases key with
  | up => cases h; exact toNat_shift (-1) _
  | down => cases h; exact toNat_shift 1 _
  | pageUp => cases h; exact toNat_shift (-page) _
  | pageDown => cases h; exact toNat_shift page _
  | _ => cases h

theorem sameContents_round (v : Viewer) (r : Round) : (v.round r).SameContents v :=
  (sameContents_settle r.height (v.press r.key)).trans (sameContents_press r.key v)

/-- A round counts: the drawing holds the sums of the key to the limit of its pane. -/
theorem toNat_offset_round (h : v.Fits) (r : Round) (pane : Pane) :
    ((v.round r).offset pane).toNat =
      if v.focus = pane then r.key.move (v.limit r.height pane) (v.offset pane).toNat
      else min (v.limit r.height pane) (v.offset pane).toNat := by
  have hdraw := toNat_offset_settle r.height (v.press r.key) pane
  rw [(sameContents_press r.key v).limit_eq, offset_press] at hdraw
  by_cases hfocus : v.focus = pane
  · rw [if_pos hfocus, min_toNat_scrolled _ _ (h.limit_lt r.height pane)] at hdraw
    rw [if_pos hfocus]
    exact hdraw
  · rw [if_neg hfocus, Nat.min_comm] at hdraw
    rw [if_neg hfocus]
    exact hdraw

theorem toNat_offset_round_le (v : Viewer) (r : Round) (pane : Pane) :
    ((v.round r).offset pane).toNat ≤ v.limit r.height pane := by
  have hdraw := toNat_offset_settle r.height (v.press r.key) pane
  rw [(sameContents_press r.key v).limit_eq] at hdraw
  exact hdraw ▸ Nat.min_le_right ..

theorem counters_round (h : v.Fits) (r : Round) :
    (v.round r).counters = v.counters.round v.rows r := by
  have hfocus : (v.round r).focus = if r.key.turns then v.focus.next else v.focus :=
    focus_press r.key v
  have hvalue := funext (toNat_offset_round h r)
  rw [counters, hfocus, hvalue]
  rfl

@[simp] theorem after_append (v : Viewer) (rounds more : List Round) :
    v.after (rounds ++ more) = (v.after rounds).after more :=
  List.foldl_append

theorem sameContents_after (v : Viewer) (rounds : List Round) : (v.after rounds).SameContents v := by
  induction rounds generalizing v with
  | nil => exact .refl v
  | cons r rounds ih => exact (ih (v.round r)).trans (sameContents_round v r)

theorem Fits.of_sameContents {w : Viewer} (h : v.Fits) (hsame : w.SameContents v) : w.Fits :=
  ⟨hsame.source ▸ h.source, hsame.outline ▸ h.outline⟩

theorem Fits.after (h : v.Fits) (rounds : List Round) : (v.after rounds).Fits :=
  h.of_sameContents (sameContents_after v rounds)

theorem counters_after (h : v.Fits) (rounds : List Round) :
    (v.after rounds).counters = rounds.foldl (Counters.round v.rows) v.counters := by
  induction rounds generalizing v with
  | nil => rfl
  | cons r rounds ih =>
    have hsame := sameContents_round v r
    have hrest := ih (h.of_sameContents hsame)
    rw [hsame.rows_eq, counters_round h] at hrest
    exact hrest

theorem round_eq_self (h : v.Fits) (r : Round)
    (hsettled : ∀ pane, (v.offset pane).toNat ≤ v.limit r.height pane)
    (hend : r.key.forward ∧ (v.offset v.focus).toNat = v.limit r.height v.focus ∨
      r.key.backward ∧ (v.offset v.focus).toNat = 0) : v.round r = v := by
  obtain ⟨hturns, hquits⟩ := Key.eq_false_of_scrolls (hend.imp And.left And.left)
  apply (sameContents_round v r).eq
  · have hfocus : (v.round r).focus = _ := focus_press r.key v
    rw [hfocus, hturns, if_neg Bool.false_ne_true]
  · intro pane
    have hoffset := toNat_offset_round h r pane
    have hle := hsettled pane
    apply UInt64.toNat_inj.mp
    rw [hoffset]
    split
    · next hfocus =>
      subst hfocus
      exact Key.move_eq_self hend
    · exact Nat.min_eq_right hle
  · have hquit : (v.round r).quit = _ := quit_press r.key v
    rw [hquit, hquits, Bool.or_false]

theorem after_eq_self (h : v.Fits) {height : Nat} {rounds : List Round}
    (hsettled : ∀ pane, (v.offset pane).toNat ≤ v.limit height pane)
    (hends : ∀ r ∈ rounds, r.height = height ∧
      (r.key.forward ∧ (v.offset v.focus).toNat = v.limit height v.focus ∨
        r.key.backward ∧ (v.offset v.focus).toNat = 0)) : v.after rounds = v := by
  induction rounds with
  | nil => rfl
  | cons r rounds ih =>
    obtain ⟨hr, hrounds⟩ := List.forall_mem_cons.mp hends
    obtain ⟨rfl, hend⟩ := hr
    have hround := round_eq_self h r hsettled hend
    rw [after, List.foldl_cons, hround]
    exact ih hrounds

/-- Once drawn, a viewer whose counter in focus is at an end stays as it is under keys that lead
past this end. -/
theorem after_round_eq_self (h : v.Fits) (r : Round) {rounds : List Round}
    (hends : ∀ q ∈ rounds, q.height = r.height ∧
      (q.key.forward ∧
          ((v.round r).offset (v.round r).focus).toNat = v.limit r.height (v.round r).focus ∨
        q.key.backward ∧ ((v.round r).offset (v.round r).focus).toNat = 0)) :
    (v.round r).after rounds = v.round r := by
  have hsame := sameContents_round v r
  rw [← hsame.limit_eq] at hends
  apply after_eq_self (h.of_sameContents hsame) _ hends
  intro pane
  rw [hsame.limit_eq]
  exact toNat_offset_round_le v r pane

def frame (v : Viewer) (height : Nat) : Pane → Frame
  | .source => SourcePane.frame v.source v.errorLine (v.focus = .source) (height - 1)
      v.sourceScroll.toNat
  | .outline => OutlinePane.frame v.outline (v.focus = .outline) (height - 1)
      v.outlineScroll.toNat

def row (v : Viewer) (i : Nat) : Pane → Option Line
  | .source => (SourcePane.lines v.source)[i]?.map (SourcePane.numbered v.errorLine (i + 1))
  | .outline => v.outline[i]?.map OutlinePane.row

/-- Row `i` of a pane stands inside the frame of the pane on the screen. The frame of the source is
the left part of a row of the screen, that of the outline the right part. -/
def InView (v : Viewer) (width height i : Nat) (pane : Pane) : Prop :=
  (v.offset pane).toNat ≤ i ∧ ∃ text ∈ v.row i pane,
    ∃ cells ∈ (v.screen width height)[i - (v.offset pane).toNat + 1]?,
      let framed (columns : Nat) :=
        (v.frame height pane).edged '│' '│' columns (text.leftAligned (columns - 2) {})
      match pane with
      | .source => framed (leftColumn width) <+: cells
      | .outline => framed (width - leftColumn width) <:+ cells

theorem getElem?_frame_lines (v : Viewer) (height : Nat) (pane : Pane) {k : Nat}
    (h : k < visibleRows (height - 1)) :
    (v.frame height pane).lines[k]? = v.row ((v.offset pane).toNat + k) pane := by
  cases pane with
  | source => exact SourcePane.getElem?_frame _ _ _ _ _ h
  | outline => exact OutlinePane.getElem?_frame _ _ _ _ h

theorem exists_row {i : Nat} {pane : Pane} (h : i < v.rows pane) :
    ∃ text, v.row i pane = some text := by
  cases pane with
  | source => exact ⟨_, congrArg (Option.map _) (List.getElem?_eq_getElem h)⟩
  | outline => exact ⟨_, congrArg (Option.map _) (List.getElem?_eq_getElem h)⟩

theorem getElem?_screen (v : Viewer) (width : Nat) {inner k : Nat} (h : k < inner) :
    (v.screen width (inner + 3))[k + 1]? =
      some ((v.frame (inner + 3) .source).content (leftColumn width) k ++
        (v.frame (inner + 3) .outline).content (width - leftColumn width) k) := by
  have hsource := (v.frame (inner + 3) .source).getElem?_draw (leftColumn width) h
  have houtline := (v.frame (inner + 3) .outline).getElem?_draw (width - leftColumn width) h
  have hbeside : (Screen.beside
      ((v.frame (inner + 3) .source).draw (leftColumn width) (inner + 2))
      ((v.frame (inner + 3) .outline).draw (width - leftColumn width) (inner + 2)))[k + 1]? = _ :=
    List.getElem?_zipWith_eq_some.mpr ⟨_, _, hsource, houtline, rfl⟩
  exact (List.getElem?_append_left (List.getElem?_eq_some_iff.mp hbeside).1).trans hbeside

/-- A row is in view if it belongs to the window that begins at the offset. -/
theorem inView_of_lt (v : Viewer) (width : Nat) {height i : Nat} {pane : Pane}
    (hi : i < v.rows pane) (hle : (v.offset pane).toNat ≤ i)
    (hlt : i < (v.offset pane).toNat + (height - 3)) : v.InView width height i pane := by
  obtain ⟨k, rfl⟩ := Nat.exists_eq_add_of_le hle
  obtain ⟨inner, rfl⟩ : ∃ inner, height = inner + 3 := ⟨height - 3, by omega⟩
  have hk : k < inner := by omega
  have hvisible : k < visibleRows (inner + 3 - 1) := Nat.lt_of_lt_of_le hk (Nat.le_max_right ..)
  have hlines := v.getElem?_frame_lines (inner + 3) pane hvisible
  obtain ⟨text, htext⟩ := exists_row hi
  have hcontent (columns : Nat) : (v.frame (inner + 3) pane).content columns k =
      (v.frame (inner + 3) pane).edged '│' '│' columns (text.leftAligned (columns - 2) {}) := by
    rw [Frame.content, hlines, htext, Option.getD_some]
  have hscreen := v.getElem?_screen width hk
  rw [← Nat.add_sub_cancel_left (v.offset pane).toNat k] at hscreen
  refine ⟨hle, text, htext, _, hscreen, ?_⟩
  rw [Nat.add_sub_cancel_left]
  cases pane with
  | source => exact hcontent _ ▸ List.prefix_append ..
  | outline => exact hcontent _ ▸ List.suffix_append ..

def roundsAt (width height : Nat) (keys : List Key) : List Round :=
  keys.map fun key => ⟨key, width, height⟩

theorem exists_focus (v : Viewer) (width height : Nat) (pane : Pane) :
    ∃ keys, (v.after (roundsAt width height keys)).focus = pane := by
  by_cases h : v.focus = pane
  · exact ⟨[], h⟩
  · have htab : (v.round ⟨.tab, width, height⟩).focus = v.focus.next := focus_press .tab v
    refine ⟨[.tab], htab.trans ?_⟩
    cases hfocus : v.focus <;> cases pane <;> simp_all [Pane.next]

theorem after_downs (h : v.Fits) (width height : Nat)
    (hle : (v.offset v.focus).toNat ≤ v.limit height v.focus) (n : Nat) :
    let w := v.after (roundsAt width height (.replicate n .down))
    w.focus = v.focus ∧ (w.offset v.focus).toNat =
      min (v.limit height v.focus) ((v.offset v.focus).toNat + n) := by
  induction n generalizing v with
  | zero => exact ⟨rfl, (Nat.min_eq_right hle).symm⟩
  | succ n ih =>
    have hsame := sameContents_round v ⟨.down, width, height⟩
    have hfocus : (v.round ⟨.down, width, height⟩).focus = v.focus := focus_press .down v
    have hdown := toNat_offset_round h ⟨.down, width, height⟩ v.focus
    have hdown_le := toNat_offset_round_le v ⟨.down, width, height⟩ v.focus
    rw [if_pos rfl, Key.move] at hdown
    have hcount := ih (h.of_sameContents hsame)
    rw [hfocus, hsame.limit_eq, hdown] at hcount
    obtain ⟨hkept, hcount⟩ := hcount (hdown ▸ hdown_le)
    refine ⟨hkept, hcount.trans ?_⟩
    simp only
    omega

theorem toNat_offset_home_downs (h : v.Fits) (width height n : Nat) :
    ((v.after (roundsAt width height (.home :: .replicate n .down))).offset v.focus).toNat =
      min (v.limit height v.focus) n := by
  have hsame := sameContents_round v ⟨.home, width, height⟩
  have hfocus : (v.round ⟨.home, width, height⟩).focus = v.focus := focus_press .home v
  have hhome := toNat_offset_round h ⟨.home, width, height⟩ v.focus
  rw [if_pos rfl, Key.move] at hhome
  have hdowns := after_downs (h.of_sameContents hsame) width height
  rw [hfocus, hsame.limit_eq, hhome] at hdowns
  have hcount := (hdowns (Nat.zero_le _) n).2
  rw [Nat.zero_add] at hcount
  exact hcount

/-- Home and as many keys down as there are rows above bring a row of the pane in focus into
view. -/
theorem inView_of_downs (h : v.Fits) (width : Nat) {height i : Nat} (hheight : 3 < height)
    (hi : i < v.rows v.focus) :
    (v.after (roundsAt width height (.home :: .replicate i .down))).InView width height i
      v.focus := by
  have hrows := (sameContents_after v (roundsAt width height (.home :: .replicate i .down))).rows_eq
  have hoffset := toNat_offset_home_downs h width height i
  have hvisible : visibleRows (height - 1) = height - 3 := Nat.max_eq_right (by omega)
  have hlimit : v.limit height v.focus = v.rows v.focus - (height - 3) := by rw [limit, hvisible]
  apply inView_of_lt
  · rw [hrows]
    exact hi
  · omega
  · omega

/-- On a screen with room for rows, some keys bring any row of a pane into view. -/
theorem exists_inView (h : v.Fits) (width : Nat) {height i : Nat} {pane : Pane}
    (hheight : 3 < height) (hi : i < v.rows pane) :
    ∃ keys, (v.after (roundsAt width height keys)).InView width height i pane := by
  obtain ⟨turn, rfl⟩ := v.exists_focus width height pane
  have hsame := sameContents_after v (roundsAt width height turn)
  rw [← hsame.rows_eq] at hi
  have hkeys := inView_of_downs (h.after _) width hheight hi
  refine ⟨turn ++ .home :: .replicate i .down, ?_⟩
  rw [roundsAt, List.map_append, after_append]
  exact hkeys

/-- Along every run of keys that are each followed by a drawing, whatever the sizes of the screens,
the offsets of the panes are those of the counters. The sum that a key makes is the exact one up to
the ends of 64 bits; a drawing leaves each offset between zero and the limit of its pane, where the
counter of the pane in focus has moved by the key and the other one has not. Keys that lead past
the end that the pane in focus has reached leave no trace, and on a screen with room for rows every
row of both panes can be brought into view. -/
theorem scrolling_counts (h : v.Fits) (run : List Round) :
    (v.after run).counters = run.foldl (Counters.round v.rows) v.counters ∧
    (∀ (key : Key) (delta : Int), key.delta? = some delta →
      let w := v.after run
      (((w.press key).offset w.focus).toNat : Int) =
        max 0 (min ((w.offset w.focus).toNat + delta) (UInt64.size - 1))) ∧
    (∀ r pane,
      let limit := v.rows pane - max 1 (r.height - 1 - 2)
      let value := ((v.after run).offset pane).toNat
      let next := ((v.after (run ++ [r])).offset pane).toNat
      next ≤ limit ∧
        next = if (v.after run).focus = pane then r.key.move limit value else min limit value) ∧
    (∀ r more,
      let w := v.after (run ++ [r])
      (∀ q ∈ more, q.height = r.height ∧
        (q.key.forward ∧ (w.offset w.focus).toNat = v.limit r.height w.focus ∨
          q.key.backward ∧ (w.offset w.focus).toNat = 0)) → w.after more = w) ∧
    ∀ width height pane i, 3 < height → i < v.rows pane →
      ∃ keys, (v.after (run ++ roundsAt width height keys)).InView width height i pane := by
  have hfits := h.after run
  have hsame := sameContents_after v run
  refine ⟨counters_after h run, ?_, ?_, ?_, ?_⟩
  · intro key delta hdelta
    exact toNat_offset_press _ hdelta
  · intro r pane
    have hle := toNat_offset_round_le (v.after run) r pane
    have hround := toNat_offset_round hfits r pane
    rw [hsame.limit_eq] at hle hround
    rw [after_append]
    exact ⟨hle, hround⟩
  · intro r more w hends
    have hround := after_append v run [r]
    simp only [w, hround, ← hsame.limit_eq] at hends ⊢
    exact after_round_eq_self hfits r hends
  · intro width height pane i hheight hi
    rw [← hsame.rows_eq] at hi
    obtain ⟨keys, hkeys⟩ := exists_inView hfits width hheight hi
    refine ⟨keys, ?_⟩
    rw [after_append]
    exact hkeys

/-- Three lines of which one is visible: the key behind the end is forgotten, the key up counts. -/
theorem scrolling_counts_names :
    let v : Viewer := .ofParse "names.toy" "x;\ny;\nz;\n"
      (.ok (["x", "y", "z"].map fun name => .expression (.variable name)))
    v.Fits ∧ ((v.after (roundsAt 80 4 [.bottom, .down, .up])).offset .source).toNat = 1 := by
  intro v
  have hfits : v.Fits := ⟨by decide, by decide⟩
  have hcounts := (scrolling_counts hfits (roundsAt 80 4 [.bottom, .down, .up])).1
  have hvalue := congrArg (fun counters => counters.value .source) hcounts
  exact ⟨hfits, hvalue.trans (by decide)⟩

end Viewer
end Sapling
