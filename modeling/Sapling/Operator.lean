/-!
# Binary operators

The ten operators with their symbols and precedence. A higher precedence binds tighter: `/` and
`%` bind less tightly than `*`, and `==` binds tightest of all.
-/
namespace Sapling

inductive Operator where
  | add
  | sub
  | mul
  | div
  | mod
  | eq
  | lt
  | gt
  | le
  | ge
  deriving DecidableEq, Repr

namespace Operator

def all : List Operator :=
  [.add, .sub, .mul, .div, .mod, .eq, .lt, .gt, .le, .ge]

def precedence : Operator → Nat
  | .add | .sub => 0
  | .div | .mod => 1
  | .mul => 2
  | .lt | .gt | .le | .ge => 3
  | .eq => 4

def symbol : Operator → String
  | .add => "+"
  | .sub => "-"
  | .mul => "*"
  | .div => "/"
  | .mod => "%"
  | .eq => "=="
  | .lt => "<"
  | .gt => ">"
  | .le => "<="
  | .ge => ">="

theorem symbol_injective : Function.Injective symbol := by
  intro a b h
  cases a <;> cases b <;> simp [symbol] at h ⊢

/-- The name under which an operator is written to data formats. -/
def name : Operator → String
  | .add => "Add"
  | .sub => "Sub"
  | .mul => "Mul"
  | .div => "Div"
  | .mod => "Mod"
  | .eq => "Eq"
  | .lt => "Lt"
  | .gt => "Gt"
  | .le => "Le"
  | .ge => "Ge"

theorem name_injective : Function.Injective name := by
  intro a b h
  cases a <;> cases b <;> simp [name] at h ⊢

end Operator
end Sapling
