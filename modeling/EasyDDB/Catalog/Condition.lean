import Mathlib.Order.Lattice
import Mathlib.Data.String.Basic

/-! # Conditions and rows

The `Condition` class of `utils.h`: a comparison of one column with a constant, its interval view
`get_section`, the constructor that turns an interval back into a condition, and what it means for
a row to satisfy a condition. Strings that the source uses as enumerations (`opt`, `type`) are
inductive types; their constructor `unset` is the empty string a default-constructed field holds. -/
namespace EasyDDB
set_option autoImplicit false

/-- `INF` of `utils.h` and `preprocess.h`. -/
def INF : Int := 1000000000

/-- The largest and the smallest value of the source's `int`. -/
def intMax : Int := 2147483647
def intMin : Int := -2147483648

/-- The tokens of `operatorToToken` that a condition can carry. -/
inductive Opt where
  | unset | eq | ne | lt | le | gt | ge
deriving DecidableEq, Repr

/-- The `type` field of a condition. -/
inductive CondType where
  | unset | int | string
deriving DecidableEq, Repr

structure Condition where
  table : String
  attr : String
  opt : Opt
  type : CondType
  ival : Int
  sval : String
deriving DecidableEq, Repr

namespace Condition

/-- `Condition(opt, table, attr)`: the constant is filled in by the caller. -/
def ofOpt (opt : Opt) (table attr : String) : Condition :=
  { table, attr, opt, type := .unset, ival := 0, sval := "" }

/-- `Condition(table, attr, a, b)`: the condition that stands for the interval `[a, b]`. -/
def ofSection (table attr : String) (a b : Int) : Condition :=
  if a = -INF then { table, attr, opt := .le, type := .int, ival := b, sval := "" }
  else if b = INF then { table, attr, opt := .ge, type := .int, ival := a, sval := "" }
  else { table, attr, opt := .eq, type := .int, ival := a, sval := "" }

/-- `get_section`: the bounds `a, b` of the interval of a condition. The result is `none` where the
source leaves the two references unset (`!=`, or no operator) or where `ival ± 1` overflows. -/
def getSection (c : Condition) : Option (Int × Int) :=
  match c.opt with
  | .eq => some (c.ival, c.ival)
  | .gt => if c.ival + 1 ≤ intMax then some (c.ival + 1, INF) else none
  | .lt => if intMin ≤ c.ival - 1 then some (-INF, c.ival - 1) else none
  | .ge => some (c.ival, INF)
  | .le => some (-INF, c.ival)
  | .ne => none
  | .unset => none

/-- The qualified column `table.attr` of a condition. -/
def column (c : Condition) : String := c.table ++ "." ++ c.attr

/-- Two conditions are about the same column, as `check_condition` compares them. -/
def sameColumn (x y : Condition) : Bool := x.table = y.table ∧ x.attr = y.attr

end Condition

/-! ## Rows -/

inductive Value where
  | int (v : Int)
  | str (s : String)
deriving DecidableEq, Repr

/-- A row maps qualified column names to values. -/
abbrev Row := String → Option Value

/-- The integer a value holds. -/
def Value.int? : Value → Option Int
  | .int v => some v
  | .str _ => none

/-- The row with the given columns. -/
def Row.ofList (l : List (String × Value)) : Row := fun a => l.lookup a

/-- The comparison an operator token stands for. -/
def Opt.holds {α : Type} [LinearOrder α] (o : Opt) (v c : α) : Bool :=
  match o with
  | .eq => v = c
  | .ne => v ≠ c
  | .lt => v < c
  | .le => v ≤ c
  | .gt => c < v
  | .ge => c ≤ v
  | .unset => false

/-- A row satisfies a condition: the column has a value of the condition's type and the comparison
with the constant holds. -/
def Condition.satisfied (c : Condition) (r : Row) : Bool :=
  match c.type, r c.column with
  | .int, some (.int v) => c.opt.holds v c.ival
  | .string, some (.str s) => c.opt.holds s c.sval
  | _, _ => false

/-- A row satisfies every condition of a list. -/
def satisfiesAll (cs : List Condition) (r : Row) : Bool := cs.all fun c => c.satisfied r

/-- The columns of `cols` of a row. -/
def Row.project (cols : List String) (r : Row) : Row := fun a => if a ∈ cols then r a else none

/-- Two rows side by side. -/
def Row.merge (l r : Row) : Row := fun a => (l a).orElse fun _ => r a

end EasyDDB
