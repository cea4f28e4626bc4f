import Sapling.SyntaxError

/-!
# Sources of tokens

A source is asked for one token after another. `Feed` is the source that hands out a prepared
list of entries; the other source is the lexer.
-/
namespace Sapling

class TokenSource (σ : Type) where
  /-- Move to the next token, or answer `false` at the end. At the end and on an error the token
  of the last successful fetch stays current. -/
  fetch : EStateM SyntaxError σ Bool
  current : σ → Option Token
  /-- The line that has been reached, counted from 1. -/
  line : σ → Nat
  /-- At least the number of tokens still to come. -/
  bound : σ → Nat
  /-- A token that has been fetched is the current one. -/
  current_isSome {s s' : σ} : fetch s = .ok true s' → (current s').isSome
  /-- A fetched token is no longer to come. -/
  bound_lt {s s' : σ} : fetch s = .ok true s' → bound s' < bound s

structure Feed.Entry where
  line : Nat
  content : Except Cause Token

/-- The entries still to come, what the last of the handed out ones left behind, and the line
reached at the end if it is another one than that of the last entry. -/
structure Feed where
  rest : List Feed.Entry
  line : Nat := 1
  current : Option Token := none
  endLine : Option Nat := none

namespace Feed

def ofEntries (entries : List Entry) : Feed :=
  { rest := entries }

def fetch : EStateM SyntaxError Feed Bool := fun feed =>
  match feed.rest with
  | [] => .ok false { feed with line := feed.endLine.getD feed.line }
  | ⟨line, .ok token⟩ :: rest => .ok true { feed with rest, line, current := some token }
  | ⟨line, .error cause⟩ :: rest => .error ⟨line, cause⟩ { feed with rest, line }

theorem fetch_eq_ok {feed feed' : Feed} (h : fetch feed = .ok true feed') :
    feed'.current.isSome ∧ feed.rest.length = feed'.rest.length + 1 := by
  unfold fetch at h
  split at h
  · simp at h
  · next hrest =>
    obtain rfl := (EStateM.Result.ok.inj h).2
    simp [hrest]
  · simp at h

instance : TokenSource Feed where
  fetch := fetch
  current := Feed.current
  line := Feed.line
  bound feed := feed.rest.length
  current_isSome h := (fetch_eq_ok h).1
  bound_lt h := by
    have := (fetch_eq_ok h).2
    omega

end Feed
end Sapling
