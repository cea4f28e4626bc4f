import Sapling.Proofs.ParameterLists
import Sapling.Proofs.ProgramInStep

/-!
# Strict and lenient parses

A strict parse does what a lenient one does, unless it refuses a parameter: then the parameter
repeats one before it, no list before has repeated one, and the lenient parse goes on behind it.
Every rule of the grammar keeps this (`Stricter`).
-/
namespace Sapling

/-- A name is the first to repeat a parameter: in the first of the lists in which one is repeated,
none before it is. -/
def FirstRepeat (name : String) (lists : List (List String)) : Prop :=
  ∃ before front back after, lists = before ++ (front ++ name :: back) :: after ∧
    (∀ params ∈ before, params.Nodup) ∧ front.Nodup ∧ name ∈ front

theorem FirstRepeat.not_nodup {name : String} {lists : List (List String)}
    (h : FirstRepeat name lists) : ∃ params ∈ lists, ¬ params.Nodup := by
  obtain ⟨before, front, back, after, rfl, -, -, hname⟩ := h
  refine ⟨_, List.mem_append_right _ List.mem_cons_self, fun hnodup => ?_⟩
  exact (List.nodup_append.mp hnodup).2.2 name hname name List.mem_cons_self rfl

namespace Token

/-- Some tokens that no list is open behind, without a repeated parameter. -/
def Fresh (ts : List Token) : Prop :=
  ∃ lists, (∀ params ∈ lists, params.Nodup) ∧
    ∀ us, parameterLists (ts ++ us) = lists ++ parameterLists us

/-- The head of a definition up to where another parameter is due. -/
def headTokens (name : String) (read : List String) : List Token :=
  .keyword .defWord :: .ident name :: .mark .leftParen ::
    read.flatMap fun param => [.ident param, .mark .comma]

/-- A name that comes next would be the first to repeat a parameter. -/
def Repeats (taken : List Token) (name : String) : Prop :=
  ∃ before callee front, taken = before ++ headTokens callee front ∧ Fresh before ∧
    front.Nodup ∧ name ∈ front

theorem fresh_nil : Fresh [] := ⟨[], by simp, fun _ => rfl⟩

theorem Fresh.append {ts us : List Token} (h : Fresh ts) (h' : Fresh us) : Fresh (ts ++ us) := by
  obtain ⟨lists, hlists, hts⟩ := h
  obtain ⟨lists', hlists', hus⟩ := h'
  refine ⟨lists ++ lists', fun params hparams => ?_, fun vs => ?_⟩
  · exact (List.mem_append.mp hparams).elim (hlists params) (hlists' params)
  · rw [List.append_assoc, hts, hus, List.append_assoc]

theorem fresh_of_notMem {ts : List Token} (h : .keyword .defWord ∉ ts) : Fresh ts :=
  ⟨[], by simp, fun _ => parameterLists_append h⟩

theorem Fresh.repeats {ts us : List Token} {name : String} (h : Fresh ts) (h' : Repeats us name) :
    Repeats (ts ++ us) name := by
  obtain ⟨before, callee, front, rfl, hbefore, hfront, hname⟩ := h'
  exact ⟨ts ++ before, callee, front, (List.append_assoc ..).symm, h.append hbefore, hfront, hname⟩

theorem leadingNames_append (read : List String) (us : List Token) :
    leadingNames (read.flatMap (fun param => [.ident param, .mark .comma]) ++ us) =
      read ++ leadingNames us := by
  induction read with
  | nil => rfl
  | cons param read ih => simpa [leadingNames] using ih

theorem parameterLists_head (callee : String) (read : List String) (us : List Token) :
    parameterLists (headTokens callee read ++ us) =
      (read ++ leadingNames us) :: parameterLists us := by
  have hread : parameterLists
      (read.flatMap (fun param => [.ident param, .mark .comma]) ++ us) = parameterLists us :=
    parameterLists_append (by simp)
  simp [headTokens, parameterLists, leadingNames_append, hread]

theorem Fresh.closed {before ts : List Token} {callee : String} {read params : List String}
    (h : Fresh before) (hts : .keyword .defWord ∉ ts)
    (hnames : ∀ us, leadingNames (ts ++ .mark .rightParen :: us) = params)
    (hparams : (read ++ params).Nodup) :
    Fresh (before ++ headTokens callee read ++ ts ++ [.mark .rightParen]) := by
  obtain ⟨lists, hlists, hbefore⟩ := h
  refine ⟨lists ++ [read ++ params], fun names hmem => ?_, fun us => ?_⟩
  · rcases List.mem_append.mp hmem with hmem | hmem
    · exact hlists names hmem
    · exact List.mem_singleton.mp hmem ▸ hparams
  · have hrest : parameterLists (ts ++ .mark .rightParen :: us) = parameterLists us := by
      rw [parameterLists_append hts]
      exact parameterLists_cons nofun
    simp [hbefore, parameterLists_head, hnames, hrest]

theorem Repeats.firstRepeat {taken : List Token} {name : String} (h : Repeats taken name)
    (rest : List Token) : FirstRepeat name (parameterLists (taken ++ .ident name :: rest)) := by
  obtain ⟨before, callee, front, rfl, ⟨lists, hlists, hbefore⟩, hfront, hname⟩ := h
  obtain ⟨back, hback⟩ : ∃ back, leadingNames (.ident name :: rest) = name :: back := by
    rw [leadingNames.eq_def]
    split <;> simp_all
  refine ⟨lists, front, back, parameterLists (.ident name :: rest), ?_, hlists, hfront, hname⟩
  rw [List.append_assoc, hbefore, parameterLists_head, hback]

end Token

open Token

namespace Parse

variable {σ α β : Type} [TokenSource σ] {s s' last : Lookahead σ} {ts us taken : List Token}
  {failure : Option SyntaxError} {n rounds : Nat} {next : Option Token}

theorem Leads.trans (h : Leads s ts s') (h' : Leads s' us last) : Leads s (ts ++ us) last := by
  induction h with
  | nil => exact h'
  | cons step _ ih => exact .cons step (ih h')

theorem Leads.of_holds (h : Leads s us s') (hs : s.Holds ts failure) :
    ∃ rest, ts = us ++ rest ∧ s'.Holds rest failure := by
  induction h generalizing ts with
  | nil => exact ⟨ts, rfl, hs⟩
  | cons step _ ih =>
    obtain ⟨rest, rfl, hrest⟩ := hs.of_step step
    obtain ⟨rest, rfl, hlast⟩ := ih hrest
    exact ⟨rest, rfl, hlast⟩

theorem Reached.leads {a : α} (h : Reached s (.ok a s')) : ∃ ts, Leads s ts s' := by
  generalize hresult : (EStateM.Result.ok a s' : EStateM.Result SyntaxError _ α) = result at h
  induction h with
  | ok =>
    obtain ⟨-, rfl⟩ := EStateM.Result.ok.inj hresult
    exact ⟨[], .nil⟩
  | error | broken => cases hresult
  | step step _ ih =>
    obtain ⟨ts, hts⟩ := ih hresult
    exact ⟨_, .cons step hts⟩

/-- How a strict and a lenient parse end that begin at a state behind some tokens of a head: in the
same way, or the strict one refuses a parameter that the lenient one tries to take. -/
inductive Compared (taken : List Token) (s : Lookahead σ) :
    EStateM.Result SyntaxError (Lookahead σ) α → EStateM.Result SyntaxError (Lookahead σ) α → Prop
  | ok {a : α} {s' : Lookahead σ} {ts : List Token} (read : Leads s ts s')
      (fresh : Fresh (taken ++ ts)) : Compared taken s (.ok a s') (.ok a s')
  | error {e : SyntaxError} {s' : Lookahead σ} : Compared taken s (.error e s') (.error e s')
  | refused {name : String} {s' : Lookahead σ} {ts : List Token}
      {result : EStateM.Result SyntaxError (Lookahead σ) α} (read : Leads s ts s')
      (repeats : Repeats (taken ++ ts) name) (token : s'.token? = some (.ident name))
      (beyond : Beyond s' result) : Compared taken s
        (.error ⟨TokenSource.line s'.source, .grammar (.repeatedParameter name)⟩ s') result

/-- The first parse is the strict one of two that begin at `next`, with at most `n` tokens left. -/
structure Stricter (n : Nat) (taken : List Token) (next : Option Token) (p q : Parse σ α) :
    Prop where
  steady : Steady next q
  compared : ∀ {s : Lookahead σ} {ts : List Token} {failure : Option SyntaxError},
    s.Holds ts failure → ts.length ≤ n → s.token? = next → Compared taken s (p s) (q s)

theorem Compared.mono {result result' : EStateM.Result SyntaxError (Lookahead σ) α}
    (h : Compared [] s result result') (hfresh : Fresh taken) :
    Compared taken s result result' := by
  cases h with
  | ok read fresh => exact .ok read (hfresh.append fresh)
  | error => exact .error
  | refused read repeats token beyond => exact .refused read (hfresh.repeats repeats) token beyond

theorem Compared.after {result result' : EStateM.Result SyntaxError (Lookahead σ) α}
    (h : Compared (taken ++ ts) s' result result') (read : Leads s ts s') :
    Compared taken s result result' := by
  cases h with
  | ok read' fresh => exact .ok (read.trans read') (by rwa [← List.append_assoc])
  | error => exact .error
  | refused read' repeats token beyond =>
    exact .refused (read.trans read') (by rwa [← List.append_assoc]) token beyond

variable {p q : Parse σ α} {f g : α → Parse σ β} {t : Token}

theorem Stricter.mono (h : Stricter n [] next p q) (hfresh : Fresh taken) :
    Stricter n taken next p q :=
  ⟨h.steady, fun hs hn hnext => (h.compared hs hn hnext).mono hfresh⟩

theorem stricter_pure (a : α) : Stricter n [] next (pure a : Parse σ α) (pure a) :=
  ⟨steady_pure a, fun _ _ _ => .ok .nil fresh_nil⟩

theorem stricter_fail (cause : Lookahead σ → Cause) :
    Stricter n taken next (fail cause : Parse σ α) (fail cause) :=
  ⟨steady_fail cause, fun _ _ _ => .error⟩

theorem Stricter.bind (h : Stricter n taken next p q)
    (hf : ∀ a next, Stricter n [] next (f a) (g a)) :
    Stricter n taken next (p >>= f) (q >>= g) where
  steady := h.steady.bind fun a next => (hf a next).steady
  compared {s ts failure} hs hn hnext := by
    have hfirst := h.compared hs hn hnext
    generalize hresult : p s = result, hresult' : q s = result' at hfirst
    cases hfirst with
    | @ok a s' us read fresh =>
      obtain ⟨rest, rfl, hrest⟩ := read.of_holds hs
      rw [List.length_append] at hn
      have hsecond := (hf a _).compared hrest (by omega) rfl
      rw [bind_of_ok hresult, bind_of_ok hresult']
      exact (hsecond.mono fresh).after read
    | error =>
      simp only [Bind.bind, EStateM.bind, hresult, hresult']
      exact .error
    | refused read repeats token beyond =>
      have hbeyond := Beyond.bind (hresult' ▸ beyond) fun a next => (hf a next).steady
      simp only [Bind.bind, EStateM.bind, hresult] at hbeyond ⊢
      exact .refused read repeats token hbeyond

theorem Stricter.when {more : Lookahead σ → Bool} {p' q' : Parse σ α}
    (h : Stricter n taken next p q) (h' : Stricter n taken next p' q') :
    Stricter n taken next (do if more (← get) then p else p')
      (do if more (← get) then q else q') where
  steady := .when h.steady h'.steady
  compared hs hn hnext := by
    rw [get_bind, get_bind]
    split
    · exact h.compared hs hn hnext
    · exact h'.compared hs hn hnext

theorem Stricter.peek {f g : Option Token → Parse σ β}
    (h : Stricter n taken next (f next) (g next)) :
    Stricter n taken next (peek >>= f) (peek >>= g) where
  steady := .peek h.steady
  compared hs hn hnext := by
    rw [peek_bind, peek_bind, hnext]
    exact h.compared hs hn hnext

theorem Stricter.isNext {kind : Token} {f g : Bool → Parse σ β}
    (hkind : ∀ t : Token, t.sameKind kind = true → t = kind)
    (htrue : Stricter n taken (some kind) (f true) (g true))
    (hfalse : Stricter n taken next (f false) (g false)) :
    Stricter n taken next (isNext kind >>= f) (isNext kind >>= g) := by
  have heq {s : Lookahead σ} {f : Bool → Parse σ β} (hs : s.token? = next) :
      (Parse.isNext kind >>= f) s = f (next.any (·.sameKind kind)) s := by
    rw [isNext_bind, Lookahead.isAt, hs]
  have hbranch : Stricter n taken next (f (next.any (·.sameKind kind)))
      (g (next.any (·.sameKind kind))) := by
    cases hany : next.any (·.sameKind kind) with
    | true =>
      obtain ⟨t, rfl, ht⟩ := (Option.any_eq_true _ _).mp hany
      exact hkind t ht ▸ htrue
    | false => exact hfalse
  refine ⟨fun s hs => ?_, fun hs hn hnext => ?_⟩
  · rw [heq hs]
    exact hbranch.steady s hs
  · rw [heq hnext, heq hnext]
    exact hbranch.compared hs hn hnext

theorem Stricter.advance {f g : Unit → Parse σ β}
    (h : ∀ next, Stricter n (taken ++ [t]) next (f ()) (g ())) :
    Stricter n taken (some t) (advance >>= f) (advance >>= g) where
  steady := (steady_advance t).bind fun _ next => (h next).steady
  compared {s ts failure} hs hn hnext := by
    cases hadvance : Parse.advance s with
    | ok _ s' =>
      have step : s.Step t s' := ⟨hnext, hadvance⟩
      obtain ⟨rest, rfl, hrest⟩ := hs.of_step step
      have hn' : rest.length ≤ n := Nat.le_of_succ_le hn
      rw [bind_of_ok hadvance, bind_of_ok hadvance]
      exact ((h _).compared hrest hn' rfl).after (.cons step .nil)
    | error e s' =>
      simp only [Bind.bind, EStateM.bind, hadvance]
      exact .error

theorem Stricter.eat {kind : Token} {f g : Unit → Parse σ β}
    (hkind : ∀ t : Token, t.sameKind kind = true → t = kind)
    (h : ∀ next, Stricter n (taken ++ [kind]) next (f ()) (g ())) :
    Stricter n taken next (eat kind >>= f) (eat kind >>= g) := by
  have heq (f : Unit → Parse σ β) : (Parse.eat kind >>= f) = Parse.isNext kind >>= fun found =>
      if found then Parse.advance >>= f
      else fail fun s => .expectedToken kind.text s.found := by
    rw [Parse.eat, bind_assoc]
    refine congrArg _ (funext fun found => ?_)
    cases found <;> rfl
  rw [heq, heq]
  exact .isNext hkind (.advance h) (stricter_fail _)

theorem stricter_advance (ht : t ≠ .keyword .defWord) :
    Stricter n [] (some t) (advance : Parse σ Unit) advance := by
  have hfresh : Fresh ([] ++ [t]) := fresh_of_notMem (by simpa using Ne.symm ht)
  have h : Stricter n [] (some t) (Parse.advance >>= fun a => (pure a : Parse σ Unit))
      (Parse.advance >>= fun a => pure a) :=
    .advance fun next => (stricter_pure ()).mono hfresh
  rwa [bind_pure] at h

theorem stricter_eat {kind : Token} (hkind : ∀ t : Token, t.sameKind kind = true → t = kind)
    (hdef : kind ≠ .keyword .defWord) :
    Stricter n [] next (eat kind : Parse σ Unit) (eat kind) :=
  .isNext hkind (stricter_advance hdef) (stricter_fail _)

theorem stricter_keyword {k : Keyword} (hk : k ≠ .defWord) :
    Stricter n [] next (eat (.keyword k) : Parse σ Unit) (eat (.keyword k)) :=
  stricter_eat (fun _ => sameKind_keyword.mp) (mt Token.keyword.inj hk)

theorem stricter_mark (m : Mark) :
    Stricter n [] next (eat (.mark m) : Parse σ Unit) (eat (.mark m)) :=
  stricter_eat (fun _ => sameKind_mark.mp) nofun

theorem Stricter.repeatWhile {more : Lookahead σ → Bool} (h : ∀ next, Stricter n [] next p q)
    (rounds : Nat) (read : List α) (next : Option Token) :
    Stricter n [] next (repeatWhile more p rounds read) (repeatWhile more q rounds read) := by
  induction rounds generalizing read next with
  | zero => exact stricter_pure _
  | succ rounds ih => exact .when ((h next).bind fun a next => ih _ next) (stricter_pure _)

theorem Stricter.functionName {k l : String → Parse σ β}
    (h : ∀ name next, Stricter n (taken ++ [.ident name]) next (k name) (l name)) :
    Stricter n taken next (functionName >>= k) (functionName >>= l) := by
  rw [Parse.functionName, bind_assoc, bind_assoc]
  refine .peek ?_
  split
  · rw [bind_assoc, bind_assoc]
    exact .advance (h _)
  · exact stricter_fail _

theorem stricter_refused {name : String} {g : Unit → Parse σ β} (hrepeats : Repeats taken name)
    (hg : ∀ next, Steady next (g ())) : Stricter n taken (some (.ident name))
      (violation (.repeatedParameter name)) (Parse.advance >>= g) where
  steady := (steady_advance _).bind fun _ => hg
  compared {s ts failure} hs hn hnext := by
    have hbeyond : Beyond s ((Parse.advance >>= g) s) := by
      refine Beyond.bind ?_ fun _ => hg
      cases hadvance : Parse.advance s with
      | ok _ s' => exact .step ⟨hnext, hadvance⟩ .ok
      | error e s' => exact .broken hadvance
    exact .refused .nil (by rwa [List.append_nil]) hnext hbeyond

section
variable {before : List Token} {callee : String} {read : List String} (hbefore : Fresh before)
  (hread : read.Nodup)
include hbefore hread

/-- A parameter is taken, or the strict parse refuses it because it repeats one before it. -/
theorem Stricter.parameter {k l : String → Parse σ β} (hl : ∀ name next, Steady next (l name))
    (h : ∀ name next, name ∉ read → Stricter n (before ++ headTokens callee read.reverse ++
      [.ident name]) next (k name) (l name)) :
    Stricter n (before ++ headTokens callee read.reverse) next (Parse.parameter true read >>= k)
      (Parse.parameter false read >>= l) := by
  rw [Parse.parameter, Parse.parameter, bind_assoc, bind_assoc]
  refine .peek ?_
  split
  · next name =>
    by_cases hmem : name ∈ read
    · have hrepeats : Repeats (before ++ headTokens callee read.reverse) name :=
        ⟨before, callee, read.reverse, rfl, hbefore, List.nodup_reverse.mpr hread,
          List.mem_reverse.mpr hmem⟩
      simp only [Bool.true_and, Bool.false_and, Bool.false_eq_true, if_false, hmem, if_true,
        List.contains_iff_mem]
      rw [bind_assoc]
      exact stricter_refused hrepeats (hl name)
    · simp only [Bool.true_and, Bool.false_and, Bool.false_eq_true, if_false, hmem,
        List.contains_iff_mem]
      rw [bind_assoc, bind_assoc]
      exact .advance fun next => h name next hmem
  · exact stricter_fail _

/-- Parameters with commas between them. What follows is told that the list can be closed. -/
theorem Stricter.separated {k l : List String → Parse σ β}
    (hl : ∀ params next, Steady next (l params))
    (h : ∀ params taken next, Fresh (taken ++ [.mark .rightParen]) →
      Stricter n taken next (k params) (l params)) (rounds : Nat) (next : Option Token) :
    Stricter n (before ++ headTokens callee read.reverse) next
      (Parse.separated (Parse.parameter true) rounds read >>= k)
      (Parse.separated (Parse.parameter false) rounds read >>= l) := by
  have hsteady (read : List String) (next : Option Token) :
      Steady next (Parse.parameter false read : Parse σ String) := by
    refine .peek ?_
    split
    · exact .ite (steady_fail _) ((steady_advance _).bind fun _ _ => steady_pure _)
    · exact steady_fail _
  induction rounds generalizing read next with
  | zero =>
    have hclosed : Fresh (before ++ headTokens callee read.reverse ++ [] ++ [.mark .rightParen]) :=
      hbefore.closed List.not_mem_nil (fun _ => rfl) (by simpa using hread)
    rw [List.append_nil] at hclosed
    exact h _ _ next hclosed
  | succ rounds ih =>
    rw [Parse.separated, Parse.separated, bind_assoc, bind_assoc]
    refine .parameter hbefore hread (fun name next => ?_) fun name next hname => ?_
    · refine Steady.bind (.isNext ?_ (steady_pure _)) hl
      rintro t rfl
      exact (steady_advance t).bind fun _ next => .separated hsteady rounds _ next
    · have hnodup : (name :: read).Nodup := List.nodup_cons.mpr ⟨hname, hread⟩
      rw [bind_assoc, bind_assoc]
      refine .isNext (fun _ => sameKind_mark.mp) ?_ ?_
      · have hopen : before ++ headTokens callee read.reverse ++ [.ident name] ++ [.mark .comma] =
            before ++ headTokens callee (name :: read).reverse := by simp [headTokens]
        rw [if_pos rfl, if_pos rfl, bind_assoc, bind_assoc]
        refine .advance fun next => ?_
        rw [hopen]
        exact ih hnodup next
      · have hclosed : Fresh (before ++ headTokens callee read.reverse ++ [.ident name] ++
            [.mark .rightParen]) :=
          hbefore.closed (by simp) (fun _ => rfl) (by simpa using List.nodup_reverse.mpr hnodup)
        exact h _ _ next hclosed

end

theorem Stricter.parameters {callee : String} {k l : List String → Parse σ β}
    (hl : ∀ params next, Steady next (l params))
    (h : ∀ params taken next, Fresh (taken ++ [.mark .rightParen]) →
      Stricter n taken next (k params) (l params)) (next : Option Token) :
    Stricter n (headTokens callee []) next (Parse.parameters rounds true >>= k)
      (Parse.parameters rounds false >>= l) := by
  have hclosed : Fresh ([] ++ headTokens callee [] ++ [] ++ [.mark .rightParen]) :=
    fresh_nil.closed List.not_mem_nil (fun _ => rfl) List.nodup_nil
  rw [Parse.parameters, Parse.parameters, bind_assoc, bind_assoc]
  refine .isNext (fun _ => sameKind_mark.mp) (h [] _ _ hclosed) ?_
  exact .separated fresh_nil List.nodup_nil hl h rounds next

theorem stricter_definition {block block' : Parse σ Block}
    (hblock : ∀ next, Stricter n [] next block block') (next : Option Token) :
    Stricter n [] next (definition rounds true block) (definition rounds false block') := by
  have hbody (name : String) (params : List String) (taken : List Token) (next : Option Token)
      (hclosed : Fresh (taken ++ [.mark .rightParen])) : Stricter n taken next
        (do
          eat (.mark .rightParen)
          return Stmt.define name params (← block))
        (do
          eat (.mark .rightParen)
          return Stmt.define name params (← block')) := by
    refine .eat (fun _ => sameKind_mark.mp) fun next => Stricter.mono ?_ hclosed
    exact (hblock next).bind fun b _ => stricter_pure _
  have hsteady (name : String) (params : List String) (next : Option Token) : Steady next
      (do
        eat (.mark .rightParen)
        return Stmt.define name params (← block')) :=
    (stricter_mark (n := 0) .rightParen).steady.bind fun _ next =>
      (hblock next).steady.bind fun _ _ => steady_pure _
  refine .eat (fun _ => sameKind_keyword.mp) fun next => .functionName fun name next => ?_
  refine .isNext (fun _ => sameKind_mark.mp) ?_ (stricter_fail _)
  exact .advance fun next => .parameters (hsteady name) (hbody name) next

theorem steady_expression (rounds levels : Nat) (next : Option Token) :
    Steady next (expression (rounds + 1) levels : Parse σ Expr) := by
  intro s hs
  have hrounds : 0 ≤ rounds + 1 := Nat.zero_le _
  exact (inStep_expression (d := upTo [] s) hrounds hrounds levels next).left s hs

/-- An expression is read in one way, and holds no definitions. -/
theorem stricter_expression (hrounds : n ≤ rounds + 1) (levels : Nat) (next : Option Token) :
    Stricter n [] next (expression (rounds + 1) levels : Parse σ Expr)
      (expression (rounds + 1) levels) where
  steady := steady_expression rounds levels next
  compared {s ts failure} hs hn hnext := by
    have hreached := steady_expression rounds levels next s hnext
    cases hresult : expression (rounds + 1) levels s with
    | error e s' => exact .error
    | ok e s' =>
      rw [hresult] at hreached
      obtain ⟨us, hus⟩ := hreached.leads
      obtain ⟨rest, rfl, hrest⟩ := hus.of_holds hs
      obtain ⟨rest', hphrase, hrest'⟩ := expression_reads hrounds levels hs hn hresult
      obtain rfl := hrest.unique hrest'
      obtain ⟨taken, htaken, hnone⟩ := Grammar.exists_taken hphrase
      obtain rfl := List.append_cancel_right htaken
      exact .ok hus (fresh_of_notMem (hnone .defWord))

section
variable {expr : Parse σ Expr} {block block' : Parse σ Block}
  (hexpr : ∀ next, Stricter n [] next expr expr)
  (hblock : ∀ next, Stricter n [] next block block')

include hexpr in
theorem stricter_parenthesized (next : Option Token) :
    Stricter n [] next (parenthesized expr) (parenthesized expr) :=
  (stricter_mark _).bind fun _ next => (hexpr next).bind fun e _ =>
    (stricter_mark _).bind fun _ _ => stricter_pure e

include hblock

theorem stricter_elseBlock (next : Option Token) :
    Stricter n [] next (elseBlock block) (elseBlock block') := by
  refine .isNext (fun _ => sameKind_keyword.mp) ?_ (stricter_pure none)
  exact (stricter_advance (t := .keyword .elseWord) nofun).bind fun _ next =>
    (hblock next).bind fun b _ => stricter_pure _

include hexpr

theorem stricter_statement (next : Option Token) :
    Stricter n [] next (statement rounds true expr block) (statement rounds false expr block') := by
  have hsimple (next : Option Token) :
      Stricter n [] next (expressionStatement expr) (expressionStatement expr) :=
    (hexpr next).bind fun e _ => (stricter_mark _).bind fun _ _ => stricter_pure _
  refine .peek ?_
  cases next with
  | none => exact stricter_fail _
  | some t =>
    cases t with
    | keyword k =>
      cases k with
      | whileWord =>
        refine (stricter_keyword (k := .whileWord) nofun).bind fun _ next => ?_
        exact (stricter_parenthesized hexpr next).bind fun c next =>
          (hblock next).bind fun b _ => stricter_pure _
      | ifWord =>
        refine (stricter_keyword (k := .ifWord) nofun).bind fun _ next => ?_
        exact (stricter_parenthesized hexpr next).bind fun c next =>
          (hblock next).bind fun yes next =>
            (stricter_elseBlock hblock next).bind fun no _ => stricter_pure _
      | returnWord =>
        refine (stricter_keyword (k := .returnWord) nofun).bind fun _ next => ?_
        exact (hexpr next).bind fun e next => (stricter_mark _).bind fun _ _ => stricter_pure _
      | defWord => exact stricter_definition hblock _
      | elseWord => exact hsimple _
    | _ => exact hsimple _

end

theorem stricter_blockOf {stmt stmt' : Parse σ Stmt}
    (h : ∀ next, Stricter n [] next stmt stmt') (next : Option Token) :
    Stricter n [] next (blockOf rounds stmt) (blockOf rounds stmt') := by
  refine .isNext (fun _ => sameKind_mark.mp) ?_ ((h next).bind fun s _ => stricter_pure _)
  exact (stricter_advance (t := .mark .leftBrace) nofun).bind fun _ next =>
    (Stricter.repeatWhile h rounds [] next).bind fun body next =>
      (stricter_mark _).bind fun _ _ => stricter_pure _

theorem stricter_block (hrounds : n ≤ rounds + 1) (levels : Nat) (next : Option Token) :
    Stricter n [] next (block (rounds + 1) true levels : Parse σ Block)
      (block (rounds + 1) false levels) := by
  induction levels generalizing next with
  | zero => exact stricter_fail _
  | succ levels ih =>
    exact stricter_blockOf (stricter_statement (stricter_expression hrounds levels) ih) next

/-- The program that a strict parse reads, or where it refuses to. -/
theorem compared_program (hs : s.Holds ts failure) (maxDepth : Nat) :
    Compared [] s (program { strictParams := true, maxDepth } s)
      (program { strictParams := false, maxDepth } s) := by
  have hlength := hs.length_le
  have hstatement (next : Option Token) : Stricter (σ := σ) ts.length [] next
      (topStatement (TokenSource.bound s.source + 1) { strictParams := true, maxDepth })
      (topStatement (TokenSource.bound s.source + 1) { strictParams := false, maxDepth }) :=
    stricter_statement (stricter_expression hlength maxDepth) (stricter_block hlength maxDepth) next
  rw [program_eq_statements, program_eq_statements]
  exact (Stricter.repeatWhile hstatement _ [] _).compared hs (Nat.le_refl _) rfl

end Parse
end Sapling
