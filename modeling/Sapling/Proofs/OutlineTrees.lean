import Sapling.Proofs.LexicalNodes
import Sapling.Proofs.OutlineWalk
import Sapling.Proofs.ParameterLists

/-!
# Trees from outlines

An outline loses nothing of a program that has been read. The label of a node and its children
settle the node (`Node.eq_of_label`): the label begins with the kind, and what is behind it is read
by the lexer in one way only. The depths settle where the nodes below a node end
(`Node.isKnown`), since the entry behind them is not deeper than the node.
-/
namespace Sapling

open Lexer Printer Token

theorem Lexer.Lexes.unique {cs : List Char} {ts us : List Token} (ht : Lexes cs ts)
    (hu : Lexes cs us) : ts = us :=
  (ht 1 none).unique (hu 1 none)

theorem Printer.Writes.lexes {closed : Bool} {s : String} {ts : List Token}
    (h : Writes closed (Printer.put s) fun _ => ts) : Lexes s.toList ts := by
  obtain ⟨cs, htext, hlexes⟩ := h {}
  have hs : s.toList = cs := by simpa [Printer.put] using htext
  have hcs := hlexes [] [] (fun _ => rfl) Lexes.nil
  rwa [List.append_nil, List.append_nil, ← hs] at hcs

theorem Literal.eq_of_text {a b : Literal} (ha : Node.isWritable (.expr (.literal a)) = true)
    (hb : Node.isWritable (.expr (.literal b)) = true) (h : a.text = b.text) : a = b := by
  rw [Node.isWritable_iff] at ha hb
  have hleft : Lexes b.text.toList a.tokens := h ▸ (writes_literal ha.1).lexes
  have htokens : a.tokens = b.tokens := hleft.unique (writes_literal hb.1).lexes
  have hyield : Expr.yield (.literal a) = Expr.yield (.literal b) := by
    rw [← Literal.yield_tokens ha.2, ← Literal.yield_tokens hb.2, htokens]
  cases a with
  | number value =>
    cases b with
    | number value' => simpa [Expr.yield] using hyield
    | str text => simp [Expr.yield] at hyield
  | str text =>
    cases b with
    | number value => simp [Expr.yield] at hyield
    | str text' => simpa [Expr.yield] using hyield

theorem paramTokens_cons (name name' : String) (params : List String) :
    paramTokens (name :: name' :: params) =
      .ident name :: .mark .comma :: paramTokens (name' :: params) := by
  simp [paramTokens, listed]

theorem leadingNames_paramTokens (params : List String) :
    leadingNames (paramTokens params) = params := by
  induction params with
  | nil => rfl
  | cons name params ih =>
    cases params with
    | nil => rfl
    | cons name' params => rw [paramTokens_cons, leadingNames, ih]

theorem eq_of_header {name name' : String} {params params' : List String}
    (hname : isName name = true) (hname' : isName name' = true)
    (hparams : ∀ name ∈ params, isName name = true)
    (hparams' : ∀ name ∈ params', isName name = true)
    (h : name ++ "(" ++ ", ".intercalate params ++ ")" =
      name' ++ "(" ++ ", ".intercalate params' ++ ")") : name = name' ∧ params = params' := by
  have htext : "def " ++ name ++ "(" ++ ", ".intercalate params ++ ") " =
      "def " ++ name' ++ "(" ++ ", ".intercalate params' ++ ") " := by
    have hblank := congrArg (fun s => "def " ++ s ++ " ") h
    simpa [String.append_assoc] using hblank
  have hleft := (Stmt.writes_header hname hparams).lexes
  have hright := (Stmt.writes_header hname' hparams').lexes
  rw [htext] at hleft
  have htokens := hleft.unique hright
  simp only [inParens, List.cons.injEq, Token.ident.injEq, true_and] at htokens
  obtain ⟨hsame, hlists⟩ := htokens
  have hnames := congrArg leadingNames (List.append_cancel_right hlists)
  rw [leadingNames_paramTokens, leadingNames_paramTokens] at hnames
  exact ⟨hsame, hnames⟩

theorem Expr.kind_ne (e : Expr) (s : Stmt) : e.kind ≠ s.kind := by
  cases e <;> cases s <;> simp [Expr.kind, Stmt.kind]

namespace Node

theorem kind_eq_of_label {a b : Node} (h : a.label = b.label) : a.kind = b.kind := by
  have hleft := Visit.word_entry ⟨[], a⟩
  have hright := Visit.word_entry ⟨[], b⟩
  rw [← hleft, ← hright, Visit.entry, Visit.entry, h]

theorem eq_of_label_expr {a b : Expr} (ha : Node.isWritable (.expr a) = true)
    (hb : Node.isWritable (.expr b) = true) (hlabel : (Node.expr a).label = (Node.expr b).label)
    (hchildren : (Node.expr a).children = (Node.expr b).children) : a = b := by
  have hkind : a.kind = b.kind := kind_eq_of_label hlabel
  cases a with
  | literal value =>
    cases b with
    | literal value' =>
      have htext : value.text = value'.text := by simpa [label] using hlabel
      rw [Literal.eq_of_text ha hb htext]
    | _ => simp [Expr.kind] at hkind
  | «variable» name =>
    cases b with
    | «variable» name' => simpa [label] using hlabel
    | _ => simp [Expr.kind] at hkind
  | binary op left right =>
    cases b with
    | binary op' left' right' =>
      have hsymbol : op.symbol = op'.symbol := by simpa [label] using hlabel
      simpa [children, Operator.symbol_injective hsymbol] using hchildren
    | _ => simp [Expr.kind] at hkind
  | assign target value =>
    cases b with
    | assign target' value' =>
      have htarget : target = target' := by simpa [label] using hlabel
      simpa [children, htarget] using hchildren
    | _ => simp [Expr.kind] at hkind
  | call callee args =>
    cases b with
    | call callee' args' =>
      have hcallee : callee = callee' := by simpa [label] using hlabel
      have hargs : args = args' :=
        List.map_injective_iff.mpr (fun _ _ => expr.inj) hchildren
      rw [hcallee, hargs]
    | _ => simp [Expr.kind] at hkind

theorem eq_of_label_stmt {a b : Stmt} (ha : Node.isWritable (.stmt a) = true)
    (hb : Node.isWritable (.stmt b) = true) (hlabel : (Node.stmt a).label = (Node.stmt b).label)
    (hchildren : (Node.stmt a).children = (Node.stmt b).children) : a = b := by
  have hkind : a.kind = b.kind := kind_eq_of_label hlabel
  cases a with
  | expression e =>
    cases b with
    | expression e' => simpa [children] using hchildren
    | _ => simp [Stmt.kind] at hkind
  | ret value =>
    cases b with
    | ret value' => simpa [children] using hchildren
    | _ => simp [Stmt.kind] at hkind
  | loop condition body =>
    cases b with
    | loop condition' body' => simpa [children] using hchildren
    | _ => simp [Stmt.kind] at hkind
  | conditional condition yes no =>
    cases b with
    | conditional condition' yes' no' =>
      cases no with
      | none =>
        cases no' with
        | none => simpa [children] using hchildren
        | some no' => simp [children] at hchildren
      | some no =>
        cases no' with
        | none => simp [children] at hchildren
        | some no' => simpa [children] using hchildren
    | _ => simp [Stmt.kind] at hkind
  | define name params body =>
    cases b with
    | define name' params' body' =>
      simp only [isWritable_iff, isSpelled, Bool.and_eq_true, List.all_eq_true] at ha hb
      have hheader : name ++ "(" ++ ", ".intercalate params ++ ")" =
          name' ++ "(" ++ ", ".intercalate params' ++ ")" := by
        simpa [label, String.append_assoc] using hlabel
      obtain ⟨rfl, rfl⟩ := eq_of_header ha.1.1 hb.1.1 ha.1.2 hb.1.2 hheader
      simpa [children] using hchildren
    | _ => simp [Stmt.kind] at hkind

/-- Nodes that can be written down are known by their label and their children. -/
theorem eq_of_label {a b : Node} (ha : a.isWritable = true) (hb : b.isWritable = true)
    (hlabel : a.label = b.label) (hchildren : a.children = b.children) : a = b := by
  have hkind : a.kind = b.kind := kind_eq_of_label hlabel
  cases a with
  | block stmts =>
    cases b with
    | block stmts' => rw [List.map_injective_iff.mpr (fun _ _ => stmt.inj) hchildren]
    | stmt s => cases s <;> simp [kind, Stmt.kind] at hkind
    | expr e => cases e <;> simp [kind, Expr.kind] at hkind
  | stmt s =>
    cases b with
    | block stmts => cases s <;> simp [kind, Stmt.kind] at hkind
    | stmt s' => rw [eq_of_label_stmt ha hb hlabel hchildren]
    | expr e => exact absurd hkind.symm (Expr.kind_ne e s)
  | expr e =>
    cases b with
    | block stmts => cases e <;> simp [kind, Expr.kind] at hkind
    | stmt s => exact absurd hkind (Expr.kind_ne e s)
    | expr e' => rw [eq_of_label_expr ha hb hlabel hchildren]

end Node

/-- The first entry, if there is one, is not deeper than this. -/
def Outline.Outside (depth : Nat) (entries : Outline) : Prop :=
  ∀ entry ∈ entries.head?, entry.depth ≤ depth

open Outline (Outside)

namespace Node

/-- The entries from a node on that is at this path. -/
def entries (path : List Nat) (node : Node) : Outline :=
  (node.visits .depthFirst path).map Visit.entry

def entriesAll (path : List Nat) (i : Nat) (nodes : List Node) : Outline :=
  (visitsAll .depthFirst path i nodes).map Visit.entry

/-- In front of what is outside, the entries from this node on end in one way only, and no other
node that can be written down has them at this depth. -/
def IsKnown (a : Node) : Prop :=
  ∀ (b : Node) (path path' : List Nat) (xs ys : Outline),
    a.all isWritable = true → b.all isWritable = true → path.length = path'.length →
    Outside path.length xs → Outside path.length ys →
    a.entries path ++ xs = b.entries path' ++ ys → a = b ∧ xs = ys

variable {path path' : List Nat} {i j : Nat} {as bs : List Node} {xs ys : Outline}

theorem entries_eq (path : List Nat) (node : Node) :
    node.entries path = ⟨path.length, node.label⟩ :: entriesAll path 0 node.children := by
  rw [entries, visits_eq]
  rfl

theorem entriesAll_cons (path : List Nat) (i : Nat) (node : Node) (nodes : List Node) :
    entriesAll path i (node :: nodes) =
      node.entries (i :: path) ++ entriesAll path (i + 1) nodes :=
  List.map_append

/-- Siblings, and what is outside behind them, are outside for those below a sibling. -/
theorem outside_entriesAll (h : Outside path.length xs) :
    Outside (path.length + 1) (entriesAll path i as ++ xs) := by
  cases as with
  | nil => exact fun entry hentry => (h entry hentry).trans (Nat.le_succ _)
  | cons a as =>
    rw [entriesAll_cons, entries_eq]
    rintro entry ⟨⟩
    exact Nat.le_refl _

theorem ne_entriesAll_cons {b : Node} (h : Outside path.length xs)
    (hlength : path.length = path'.length) : xs ≠ entriesAll path' j (b :: bs) ++ ys := by
  rintro rfl
  rw [entriesAll_cons, entries_eq] at h
  have hdepth := h _ rfl
  simp only [List.length_cons] at hdepth
  omega

theorem eq_of_entriesAll (hknown : ∀ a ∈ as, a.IsKnown)
    (has : ∀ a ∈ as, a.all isWritable = true) (hbs : ∀ b ∈ bs, b.all isWritable = true)
    (hlength : path.length = path'.length) (hxs : Outside path.length xs)
    (hys : Outside path.length ys)
    (h : entriesAll path i as ++ xs = entriesAll path' j bs ++ ys) : as = bs ∧ xs = ys := by
  induction as generalizing bs i j with
  | nil =>
    cases bs with
    | nil => exact ⟨rfl, h⟩
    | cons b bs => exact absurd h (ne_entriesAll_cons hxs hlength)
  | cons a as ih =>
    cases bs with
    | nil => exact absurd h.symm (ne_entriesAll_cons (hlength ▸ hys) hlength.symm)
    | cons b bs =>
      rw [entriesAll_cons, entriesAll_cons, List.append_assoc, List.append_assoc] at h
      rw [List.forall_mem_cons] at hknown has hbs
      have hdepth : (i :: path).length = (j :: path').length := by simp [hlength]
      have houtside : Outside (i :: path).length (entriesAll path' (j + 1) bs ++ ys) := by
        rw [hdepth]
        exact outside_entriesAll (hlength ▸ hys)
      obtain ⟨rfl, hbehind⟩ := hknown.1 b (i :: path) (j :: path') _ _ has.1 hbs.1 hdepth
        (outside_entriesAll hxs) houtside h
      obtain ⟨rfl, hrest⟩ := ih hknown.2 has.2 hbs.2 hbehind
      exact ⟨rfl, hrest⟩

theorem isKnown (a : Node) : a.IsKnown := by
  induction a using induction_on_children with
  | step a ih =>
    intro b path path' xs ys ha hb hlength hxs hys h
    rw [entries_eq, entries_eq, List.cons_append, List.cons_append] at h
    obtain ⟨hentry, hbelow⟩ := List.cons.inj h
    obtain ⟨ha, has⟩ := (all_iff (fun _ => rfl) a).mp ha
    obtain ⟨hb, hbs⟩ := (all_iff (fun _ => rfl) b).mp hb
    obtain ⟨hchildren, hbehind⟩ := eq_of_entriesAll ih has hbs hlength hxs hys hbelow
    have hlabel : a.label = b.label := congrArg Outline.Entry.label hentry
    exact ⟨eq_of_label ha hb hlabel hchildren, hbehind⟩

end Node

theorem Outline.ofProgram_eq_entries (program : Block) :
    ofProgram program = (Node.block program).entries [] := by
  rw [ofProgram_eq, Node.record_eq_visits, Node.entries]

/-- An outline loses nothing: programs that have been read, from any texts and under any options,
are the same if their outlines are. -/
theorem eq_of_outline_eq {options options' : ParseOptions} {source source' : String} {p q : Block}
    (hp : parse options source = .ok p) (hq : parse options' source' = .ok q)
    (h : Outline.ofProgram p = Outline.ofProgram q) : p = q ∧ Block.equals p q = true := by
  have hleft : (Node.block p).all Node.isWritable = true := Block.isWritable_of_parse hp
  have hright : (Node.block q).all Node.isWritable = true := Block.isWritable_of_parse hq
  have houtside : Outside 0 [] := by simp [Outside]
  have hentries : (Node.block p).entries [] ++ [] = (Node.block q).entries [] ++ [] := by
    rw [← Outline.ofProgram_eq_entries, ← Outline.ofProgram_eq_entries, h]
  obtain ⟨hnode, -⟩ := Node.isKnown (.block p) (.block q) [] [] [] [] hleft hright rfl houtside
    houtside hentries
  obtain rfl := Node.block.inj hnode
  have hunsigned := (Block.isWritable_iff.mp hleft).2
  exact ⟨rfl, (Stmt.equalsAll_iff hunsigned hunsigned).mpr rfl⟩

/-- Braces around a single statement and parentheses around an operand do not show in an outline. -/
theorem eq_of_outline_eq_braces :
    ∃ p q, parse {} "while (a) b = f(c + 1);" = .ok p ∧
      parse {} "while ((a)) \x7b b = (f((c + 1))); \x7d" = .ok q ∧
      Outline.ofProgram p = Outline.ofProgram q ∧ p = q ∧ Block.equals p q = true := by
  let program : Block := [.loop (.variable "a") [.expression (.assign "b" (.call "f"
    [.binary .add (.variable "c") (.literal (.number (.nearest 1 1)))]))]]
  have hp : parse {} "while (a) b = f(c + 1);" = .ok program :=
    parse_eq_ok_of_equals (by decide +kernel) (by decide +kernel)
  have hq : parse {} "while ((a)) \x7b b = (f((c + 1))); \x7d" = .ok program :=
    parse_eq_ok_of_equals (by decide +kernel) (by decide +kernel)
  exact ⟨program, program, hp, hq, rfl, eq_of_outline_eq hp hq rfl⟩

end Sapling
