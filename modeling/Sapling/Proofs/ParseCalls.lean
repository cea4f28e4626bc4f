import Sapling.Parse.Program
import Sapling.Proofs.AlikeStreams
import Sapling.Proofs.InStep

/-!
# Calls that do what a parse does

A parse carries bounds: how many tokens, how many levels and how many operators may still come. A
parser has none of them. On a source of tokens, whose bound gets smaller with every token, a call
ends exactly as the parse does that has bounds that are large enough (`Follows`). Here are the steps
and the repetitions that keep this.
-/
namespace Sapling

variable {σ α β : Type}

/-- At least the number of tokens that can still be taken. -/
def Lookahead.left [TokenSource σ] (s : Lookahead σ) : Nat :=
  if s.atEnd then 0 else TokenSource.bound s.source + 1

theorem Lookahead.atEnd_of_left [TokenSource σ] {s : Lookahead σ} (h : s.left = 0) :
    s.atEnd = true := by
  unfold left at h
  split at h
  · assumption
  · simp at h

namespace Parser

def ofLookahead (options : ParseOptions) (depth : Nat) (s : Lookahead σ) : Parser σ :=
  ⟨s.source, s.atEnd, depth, options⟩

def outcomeOf (options : ParseOptions) (depth : Nat) :
    EStateM.Result SyntaxError (Lookahead σ) α → Outcome σ α
  | .ok a s => (.ok a, ofLookahead options depth s)
  | .error e s => (.error e, ofLookahead options depth s)

variable [TokenSource σ] {options : ParseOptions} {depth n taken : Nat} {next : Option Token}

/-- From every state with at most `n` tokens left in which this token is next, the call ends as the
parse does, and takes at least `taken` tokens where it succeeds. -/
structure Follows (options : ParseOptions) (depth n taken : Nat) (next : Option Token)
    (f : Parser σ → Option (Outcome σ α)) (q : Parse σ α) : Prop where
  ends : ∀ {s : Lookahead σ}, s.left ≤ n → s.token? = next →
    f (ofLookahead options depth s) = some (outcomeOf options depth (q s))
  takes : ∀ {s s' : Lookahead σ} {a : α}, s.left ≤ n → s.token? = next → q s = .ok a s' →
    s'.left + taken ≤ s.left

theorem token?_ofLookahead (s : Lookahead σ) : (ofLookahead options depth s).token? = s.token? :=
  rfl

namespace Follows

variable {f f' : Parser σ → Option (Outcome σ α)} {q q' : Parse σ α}

theorem mono {n' taken' : Nat} (h : Follows options depth n taken next f q) (hn : n' ≤ n)
    (htaken : taken' ≤ taken) : Follows options depth n' taken' next f q where
  ends hs hnext := h.ends (Nat.le_trans hs hn) hnext
  takes hs hnext hq :=
    Nat.le_trans (Nat.add_le_add_left htaken _) (h.takes (Nat.le_trans hs hn) hnext hq)

theorem weaken (h : Follows options depth n taken next f q) :
    Follows options depth n 0 next f q :=
  h.mono (Nat.le_refl n) (Nat.zero_le taken)

theorem unfold (h : Follows options depth n taken next f q) (heq : ∀ p, f' p = f p) :
    Follows options depth n taken next f' q where
  ends hs hnext := (heq _).trans (h.ends hs hnext)
  takes := h.takes

/-- One call after another. The second one begins where the first one has ended, with fewer tokens
left if that has taken some. -/
theorem bind_of_run {m taken' : Nat} {f : Call σ α} {k : α → Call σ β} {l : α → Parse σ β}
    (h : Follows options depth n taken next f q) (hm : n ≤ m + taken)
    (hk : ∀ a s s', q s = .ok a s' → Follows options depth m taken' s'.token? (k a) (l a)) :
    Follows options depth n (taken + taken') next (f >>= k) (q >>= l) where
  ends {s} hs hnext := by
    rw [bind_apply, h.ends hs hnext]
    cases hq : q s with
    | ok a s' =>
      have htakes := h.takes hs hnext hq
      rw [Parse.bind_of_ok hq]
      exact (hk a s s' hq).ends (by omega) rfl
    | error e s' =>
      simp only [bind, EStateM.bind, hq]
      rfl
  takes {s s'' b} hs hnext hrun := by
    obtain ⟨a, s', hq, hl⟩ := Parse.bind_eq_ok.mp hrun
    have hfirst := h.takes hs hnext hq
    have hsecond := (hk a s s' hq).takes (by omega) rfl hl
    omega

theorem bind {m taken' : Nat} {f : Call σ α} {k : α → Call σ β} {l : α → Parse σ β}
    (h : Follows options depth n taken next f q) (hm : n ≤ m + taken)
    (hk : ∀ a next, Follows options depth m taken' next (k a) (l a)) :
    Follows options depth n (taken + taken') next (f >>= k) (q >>= l) :=
  h.bind_of_run hm fun a _ s' _ => hk a s'.token?

theorem «then» {f : Call σ α} {k : α → Call σ β} {l : α → Parse σ β}
    (h : Follows options depth n taken next f q)
    (hk : ∀ a next, Follows options depth n 0 next (k a) (l a)) :
    Follows options depth n taken next (f >>= k) (q >>= l) :=
  h.bind (Nat.le_add_right n taken) hk

theorem zero {t : Token} : Follows options depth 0 taken (some t) f q := by
  have hnone {s : Lookahead σ} (hs : s.left ≤ 0) : s.token? ≠ some t := by
    have hend := Lookahead.atEnd_of_left (Nat.le_zero.mp hs)
    simp [Lookahead.token?_of_atEnd hend]
  exact ⟨fun hs hnext => absurd hnext (hnone hs), fun hs hnext => absurd hnext (hnone hs)⟩

theorem ite {f f' : Call σ α} {c : Prop} [Decidable c] (h : Follows options depth n taken next f q)
    (h' : Follows options depth n taken next f' q') :
    Follows options depth n taken next (if c then f else f') (if c then q else q') := by
  split
  · exact h
  · exact h'

end Follows

variable {q : Parse σ α}

theorem follows_pure (a : α) :
    Follows options depth n 0 next (pure a : Call σ α) (pure a) where
  ends _ _ := rfl
  takes _ _ hq := by
    obtain ⟨-, rfl⟩ := Parse.pure_eq_ok.mp hq
    exact Nat.le_refl _

theorem follows_fail {cause : Parser σ → Cause} {cause' : Lookahead σ → Cause}
    (h : ∀ s, cause (ofLookahead options depth s) = cause' s) :
    Follows options depth n taken next (fail cause : Call σ α) (Parse.fail cause') where
  ends {s} _ _ := by
    rw [Parse.fail, outcomeOf, ← h s]
    rfl
  takes _ _ hq := absurd hq (Parse.fail_ne_ok cause' _)

theorem follows_violation (v : Violation) :
    Follows options depth n taken next (violation v : Call σ α) (Parse.violation v) :=
  follows_fail fun _ => rfl

theorem follows_unexpected (rule : Rule) :
    Follows options depth n taken next (unexpected rule : Call σ α) (Parse.unexpected rule) :=
  follows_fail fun _ => rfl

theorem follows_advance (t : Token) :
    Follows options depth n 1 (some t) (advance : Call σ Unit) Parse.advance where
  ends {s} _ _ := by
    have hfetch : TokenStream.fetch (ofLookahead options depth s).stream =
        TokenSource.fetch s.source := rfl
    rw [advance, hfetch, Parse.advance]
    cases TokenSource.fetch s.source with
    | ok more source => rfl
    | error e source => rfl
  takes {s s' _} _ hnext hq := by
    have hend : s.atEnd = false := Lookahead.atEnd_of_token? hnext
    have hleft : s.left = TokenSource.bound s.source + 1 := by simp [Lookahead.left, hend]
    unfold Parse.advance at hq
    cases hfetch : TokenSource.fetch s.source with
    | ok more source =>
      rw [hfetch] at hq
      obtain ⟨-, rfl⟩ := EStateM.Result.ok.inj hq
      rw [hleft]
      cases more with
      | true =>
        have hlt := TokenSource.bound_lt hfetch
        simp only [Lookahead.left, Bool.not_true, Bool.false_eq_true, if_false]
        omega
      | false => simp [Lookahead.left]
    | error e source => simp [hfetch] at hq

namespace Follows

theorem peek {k : Option Token → Call σ β} {l : Option Token → Parse σ β}
    (h : Follows options depth n taken next (k next) (l next)) :
    Follows options depth n taken next (peek >>= k) (Parse.peek >>= l) where
  ends {s} hs hnext := by
    have hk : (Parser.peek >>= k) (ofLookahead options depth s) =
        k s.token? (ofLookahead options depth s) := rfl
    rw [hk, Parse.peek_bind, hnext]
    exact h.ends hs hnext
  takes {s s' _} hs hnext hq := by
    rw [Parse.peek_bind, hnext] at hq
    exact h.takes hs hnext hq

theorem isNext {kind : Token} {k : Bool → Call σ β} {l : Bool → Parse σ β}
    (htrue : ∀ t, next = some t → t.sameKind kind = true →
      Follows options depth n taken next (k true) (l true))
    (hfalse : Follows options depth n taken next (k false) (l false)) :
    Follows options depth n taken next (isNext kind >>= k) (Parse.isNext kind >>= l) := by
  have hpeek : Follows options depth n taken next
      (Parser.peek >>= fun next => k (next.any (·.sameKind kind)))
      (Parse.peek >>= fun next => l (next.any (·.sameKind kind))) := by
    refine .peek ?_
    cases hany : next.any (·.sameKind kind) with
    | false => exact hfalse
    | true =>
      obtain ⟨t, ht, hkind⟩ := (Option.any_eq_true _ _).mp hany
      exact htrue t ht hkind
  exact hpeek

end Follows

theorem follows_eat (kind : Token) :
    Follows options depth n 1 next (eat kind : Call σ Unit) (Parse.eat kind) := by
  refine .isNext ?_ (follows_fail fun _ => rfl)
  rintro t rfl -
  exact follows_advance t

theorem follows_eat_advance {t kind : Token} (hkind : t.sameKind kind = true) :
    Follows options depth n 1 (some t) (eat kind : Call σ Unit) Parse.advance := by
  have hadvance : Follows options depth n 1 (some t) (advance : Call σ Unit) Parse.advance :=
    follows_advance t
  refine ⟨fun {s} hs hnext => ?_, hadvance.takes⟩
  have hat : (ofLookahead options depth s).isAt kind = true := by
    rw [isAt, token?_ofLookahead, hnext]
    exact hkind
  have heat : eat kind (ofLookahead options depth s) =
      (if (ofLookahead options depth s).isAt kind then (advance : Call σ Unit)
        else fail fun p => .expectedToken kind.text p.found) (ofLookahead options depth s) := rfl
  rw [heat, if_pos hat]
  exact hadvance.ends hs hnext

namespace Follows

variable {f f' : Call σ α} {q q' : Parse σ α}

theorem when {more : Parser σ → Bool} {more' : Lookahead σ → Bool}
    (hmore : ∀ s, more (ofLookahead options depth s) = more' s)
    (h : Follows options depth n taken next f q) (h' : Follows options depth n taken next f' q') :
    Follows options depth n taken next (do if more (← get) then f else f' : Call σ α)
      (do if more' (← get) then q else q') where
  ends {s} hs hnext := by
    rw [when_apply, hmore, Parse.get_bind]
    split
    · exact h.ends hs hnext
    · exact h'.ends hs hnext
  takes {s s' a} hs hnext hq := by
    rw [Parse.get_bind] at hq
    split at hq
    · exact h.takes hs hnext hq
    · exact h'.takes hs hnext hq

theorem when_const {more : Parser σ → Bool} {c : Bool}
    (hmore : ∀ s, more (ofLookahead options depth s) = c)
    (h : Follows options depth n taken next (if c then f else f') q) :
    Follows options depth n taken next (do if more (← get) then f else f' : Call σ α) q where
  ends {s} hs hnext := by
    rw [when_apply, hmore]
    exact h.ends hs hnext
  takes := h.takes

theorem nested_zero {f : Parser σ → Option (Outcome σ α)} (hdepth : options.maxDepth ≤ depth) :
    Follows options depth n taken next (nested f) (Parse.violation .nesting) := by
  have hviolation : Follows options depth n taken next (violation .nesting : Call σ α)
      (Parse.violation .nesting) := follows_violation _
  refine ⟨fun {s} hs hnext => ?_, hviolation.takes⟩
  have hfull : (ofLookahead options depth s).isFull = true := decide_eq_true hdepth
  rw [nested, if_pos hfull]
  exact hviolation.ends hs hnext

theorem nested_succ {f : Parser σ → Option (Outcome σ α)} (hdepth : depth < options.maxDepth)
    (h : Follows options (depth + 1) n taken next f q) :
    Follows options depth n taken next (nested f) q where
  ends {s} hs hnext := by
    have hfull : ¬(ofLookahead options depth s).isFull = true :=
      fun h => Nat.not_le_of_lt hdepth (of_decide_eq_true h)
    have hrun : f (ofLookahead options depth s).deeper = _ := h.ends hs hnext
    rw [nested, if_neg hfull, hrun]
    cases q s with
    | ok a s' => rfl
    | error e s' => rfl
  takes := h.takes

/-- Every item takes a token, so that the parse does not run out of rounds while tokens are left. -/
theorem repeatWhile {more : Parser σ → Bool} {more' : Lookahead σ → Bool} {item : Call σ α}
    {item' : Parse σ α} {loop : List α → Parser σ → Option (Outcome σ (List α))}
    (hloop : ∀ read p, loop read p = (do
      if more (← get) then loop ((← item) :: read)
      else return read.reverse : Call σ (List α)) p)
    (hmore : ∀ s, more (ofLookahead options depth s) = more' s)
    (hend : ∀ s, s.atEnd = true → more' s = false)
    (hitem : ∀ next, Follows options depth n 1 next item item') {rounds : Nat}
    (hrounds : n ≤ rounds) (read : List α) (next : Option Token) :
    Follows options depth n 0 next (loop read) (Parse.repeatWhile more' item' rounds read) := by
  induction n generalizing rounds read next with
  | zero =>
    -- No token is left, so that neither reads another item.
    have hstop {s : Lookahead σ} (hs : s.left ≤ 0) : more' s = false :=
      hend s (Lookahead.atEnd_of_left (Nat.le_zero.mp hs))
    refine ⟨fun {s} hs _ => ?_, fun {s s' a} hs _ hq => ?_⟩
    · rw [Parse.repeatWhile_of_not (hstop hs), hloop]
      rw [when_apply, hmore, hstop hs]
      rfl
    · rw [Parse.repeatWhile_of_not (hstop hs)] at hq
      obtain ⟨-, rfl⟩ := EStateM.Result.ok.inj hq
      exact Nat.le_refl _
  | succ n ih =>
    obtain ⟨rounds, rfl⟩ := Nat.exists_eq_add_one_of_ne_zero (Nat.ne_zero_of_lt hrounds)
    refine .unfold (.when hmore ?_ (follows_pure _)) (hloop read)
    have hrest (a : α) (next : Option Token) : Follows options depth n 0 next (loop (a :: read))
        (Parse.repeatWhile more' item' rounds (a :: read)) :=
      ih (fun next => (hitem next).mono (Nat.le_succ n) (Nat.le_refl 1))
        (Nat.le_of_succ_le_succ hrounds) (a :: read) next
    exact ((hitem next).bind (Nat.le_refl _) hrest).weaken

/-- Every item takes a token, and there is a round for each. -/
theorem separated {item : List α → Call σ α} {item' : List α → Parse σ α}
    {loop : List α → Parser σ → Option (Outcome σ (List α))}
    (hloop : ∀ read p, loop read p = (do
      let read := (← item read) :: read
      if ← Parser.isNext (.mark .comma) then
        advance
        loop read
      else return read.reverse : Call σ (List α)) p)
    (hitem : ∀ read next, Follows options depth n 1 next (item read) (item' read)) {rounds : Nat}
    (hrounds : n ≤ rounds + 1) (read : List α) (next : Option Token) :
    Follows options depth n 1 next (loop read) (Parse.separated item' (rounds + 1) read) := by
  induction n using Nat.strongRecOn generalizing rounds read next with
  | ind n ih =>
    have hrest (a : α) (next : Option Token) : Follows options depth (n - 1) 0 next
        (do
          if ← Parser.isNext (.mark .comma) then
            advance
            loop (a :: read)
          else return (a :: read).reverse : Call σ (List α))
        (do
          if ← Parse.isNext (.mark .comma) then
            Parse.advance
            Parse.separated item' rounds (a :: read)
          else pure (a :: read).reverse) := by
      refine .isNext ?_ (follows_pure _)
      rintro t rfl -
      by_cases hn : n ≤ 1
      · rw [Nat.sub_eq_zero_of_le hn]
        exact .zero
      · obtain ⟨rounds, rfl⟩ := Nat.exists_eq_add_one_of_ne_zero (n := rounds) (by omega)
        have hothers (next : Option Token) : Follows options depth (n - 2) 1 next (loop (a :: read))
            (Parse.separated item' (rounds + 1) (a :: read)) :=
          ih (n - 2) (by omega)
            (fun read next => (hitem read next).mono (Nat.sub_le n 2) (Nat.le_refl 1)) (by omega)
            (a :: read) next
        exact ((follows_advance t).bind (m := n - 2) (by omega) fun _ => hothers).weaken
    exact .unfold ((hitem read next).bind (by omega) hrest) (hloop read)

end Follows
end Parser
end Sapling
