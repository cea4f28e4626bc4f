import Sapling.Parser

/-!
# Fetches from a stream

What a parser sees of a stream is what its fetches give: tokens with their lines, the end, or errors
(`Fetched`). `Yields stream entries last` says that successive fetches give these entries and lead
to `last`, and `Delivers` is what is promised of a stream: some tokens, and then the end or an
error. A recorded stream keeps every fetch that is made from it.
-/
namespace Sapling

/-- What can be seen of one fetch. -/
inductive Fetched where
  | token (line : Nat) (token : Option Token)
  | ended (line : Nat)
  | failed (e : SyntaxError)
  deriving DecidableEq, Repr

def Fetched.line : Fetched → Nat
  | token line _ => line
  | ended line => line
  | failed e => e.line

namespace TokenStream

variable {σ : Type} [TokenStream σ] {stream last : σ} {entries more : List Fetched}

def fetched (stream : σ) : Fetched :=
  match fetch stream with
  | .ok true next => .token (line next) (current next)
  | .ok false next => .ended (line next)
  | .error e _ => .failed e

def behind (stream : σ) : σ :=
  match fetch stream with
  | .ok _ next => next
  | .error _ next => next

theorem fetched_of_more {next : σ} (h : fetch stream = .ok true next) :
    fetched stream = .token (line next) (current next) ∧ behind stream = next := by
  rw [fetched, behind, h]
  exact ⟨rfl, rfl⟩

theorem fetched_of_ended {next : σ} (h : fetch stream = .ok false next) :
    fetched stream = .ended (line next) ∧ behind stream = next := by
  rw [fetched, behind, h]
  exact ⟨rfl, rfl⟩

theorem fetched_of_failed {next : σ} {e : SyntaxError} (h : fetch stream = .error e next) :
    fetched stream = .failed e ∧ behind stream = next := by
  rw [fetched, behind, h]
  exact ⟨rfl, rfl⟩

inductive Yields : σ → List Fetched → σ → Prop
  | nil {stream : σ} : Yields stream [] stream
  | cons {stream last : σ} {entries : List Fetched} (rest : Yields (behind stream) entries last) :
      Yields stream (fetched stream :: entries) last

theorem yields_cons_iff {entry : Fetched} :
    Yields stream (entry :: entries) last ↔
      fetched stream = entry ∧ Yields (behind stream) entries last := by
  constructor
  · intro h
    cases h with
    | cons rest => exact ⟨rfl, rest⟩
  · rintro ⟨rfl, rest⟩
    exact .cons rest

theorem Yields.split (h : Yields stream (entries ++ more) last) :
    ∃ middle, Yields stream entries middle ∧ Yields middle more last := by
  induction entries generalizing stream with
  | nil => exact ⟨stream, .nil, h⟩
  | cons entry entries ih =>
    cases h with
    | cons rest =>
      obtain ⟨middle, hmiddle, hmore⟩ := ih rest
      exact ⟨middle, .cons hmiddle, hmore⟩

/-- Fetches from one stream cannot differ, only go on for longer. -/
theorem Yields.prefix_or_prefix {last' : σ} (h : Yields stream entries last)
    (h' : Yields stream more last') : entries <+: more ∨ more <+: entries := by
  induction h generalizing more with
  | nil => exact .inl (List.nil_prefix)
  | cons _ ih =>
    cases h' with
    | nil => exact .inr (List.nil_prefix)
    | cons rest =>
      rcases ih rest with hle | hle
      · exact .inl (List.cons_prefix_cons.mpr ⟨rfl, hle⟩)
      · exact .inr (List.cons_prefix_cons.mpr ⟨rfl, hle⟩)

def entriesOf (tokens : List (Nat × Token)) : List Fetched :=
  tokens.map fun (line, t) => .token line (some t)

/-- The stream hands out these tokens, each on its line, and then ends or fails. Nothing is said
about fetches behind that. -/
def Delivers (stream : σ) (tokens : List (Nat × Token)) (stop : Fetched) : Prop :=
  (∀ line t, stop ≠ .token line t) ∧ ∃ last, Yields stream (entriesOf tokens ++ [stop]) last

end TokenStream

/-- A stream with the fetches made from it, in their order. -/
structure Recorded (σ : Type) where
  stream : σ
  record : List Fetched

namespace Recorded

open TokenStream

variable {σ : Type} [TokenStream σ]

def ofStream (stream : σ) : Recorded σ :=
  ⟨stream, []⟩

instance : TokenStream (Recorded σ) where
  fetch s :=
    let record := s.record ++ [fetched s.stream]
    match TokenStream.fetch s.stream with
    | .ok more next => .ok more ⟨next, record⟩
    | .error e next => .error e ⟨next, record⟩
  current s := current s.stream
  line s := line s.stream

theorem fetched_eq (s : Recorded σ) : fetched s = fetched s.stream := by
  simp only [fetched, TokenStream.fetch]
  cases hfetch : TokenStream.fetch s.stream with
  | ok more next => cases more <;> rfl
  | error e next => rfl

theorem behind_eq (s : Recorded σ) :
    behind s = ⟨behind s.stream, s.record ++ [fetched s.stream]⟩ := by
  simp only [behind, TokenStream.fetch]
  cases hfetch : TokenStream.fetch s.stream with
  | ok more next => rfl
  | error e next => rfl

theorem record_of_yields {s last : Recorded σ} {entries : List Fetched}
    (h : Yields s entries last) : last.record = s.record ++ entries := by
  induction h with
  | nil => simp
  | cons _ ih => rw [ih, behind_eq, fetched_eq, List.append_assoc, List.singleton_append]

theorem yields_stream {s last : Recorded σ} {entries : List Fetched} (h : Yields s entries last) :
    Yields s.stream entries last.stream := by
  induction h with
  | nil => exact .nil
  | cons _ ih =>
    rw [behind_eq] at ih
    rw [fetched_eq]
    exact .cons ih

/-- A recorded stream gives what the stream itself gives. -/
theorem exists_yields {stream last : σ} {entries : List Fetched} (h : Yields stream entries last)
    (record : List Fetched) :
    Yields (⟨stream, record⟩ : Recorded σ) entries ⟨last, record ++ entries⟩ := by
  induction h generalizing record with
  | nil => rw [List.append_nil]; exact .nil
  | @cons stream last entries _ ih =>
    have hrest := ih (record ++ [fetched stream])
    rw [List.append_assoc, List.singleton_append] at hrest
    have hbehind := behind_eq (⟨stream, record⟩ : Recorded σ)
    rw [← hbehind] at hrest
    have hcons := Yields.cons hrest
    rwa [fetched_eq] at hcons

end Recorded
end Sapling
