import EasyDDB.Optimizer.Build
import Mathlib.Data.Int.DivMod

/-! # From a parsed statement to the arguments of `build_query_tree`

`get_Expression` walks the WHERE clause and collects predicates, joins and mentioned attributes;
`init_SQL` reads the FROM and the select list; `SelectProcess` passes the result on. Expressions are those
of the SQL parser as far as `get_Expression` distinguishes them. A result `none` stands for undefined
behaviour: a null pointer that is read, a missing FROM table, an operator without token. -/
namespace EasyDDB.Optimizer
set_option autoImplicit false

/-- `hsql::OperatorType`. -/
inductive OperatorType where
  | none | between | case | caseListElement | plus | minus | asterisk | slash | percentage | caret
  | equals | notEquals | less | lessEq | greater | greaterEq | like | notLike | iLike | and | or | in | concat
  | not | unaryMinus | isNull | exists
deriving DecidableEq, Repr

/-- `operatorToToken` on comparisons. The token `AND` is never asked for. -/
def operatorToToken : OperatorType → Option Opt
  | .equals => some .eq
  | .notEquals => some .ne
  | .less => some .lt
  | .lessEq => some .le
  | .greater => some .gt
  | .greaterEq => some .ge
  | _ => Option.none

/-- `hsql::Expr`. A unary operator has a null `expr2`; `literal` stands for the literals other than
strings, with their `name` and `ival` fields. -/
inductive Expr where
  | star
  | columnRef (table : Option String) (name : String)
  | literalString (name : String)
  | literal (name : Option String) (ival : Int)
  | unary (opType : OperatorType) (expr : Expr)
  | binary (opType : OperatorType) (expr expr2 : Expr)
deriving DecidableEq, Repr

namespace Expr

/-- The fields `table` and `name`, `none` for the null pointer. -/
def table? : Expr → Option String
  | columnRef table _ => table
  | _ => none
def name? : Expr → Option String
  | columnRef _ name => some name
  | literalString name => some name
  | literal name _ => name
  | _ => none

end Expr

/-- The reference parameters `All_Attr`, `Predicate` and `Join` of `get_Expression`. -/
structure Where where
  allAttr : List String
  predicate : List Condition
  join : List JoinCell
deriving DecidableEq, Repr

/-- The assignment of an `int64_t` to an `int`. -/
def toInt32 (v : Int) : Int := Int.bmod v (2 ^ 32)

/-- The constant of a predicate. -/
def withConstant (cond : Condition) : Expr → Condition
  | .literalString name => { cond with type := .string, sval := name }
  | .literal _ ival => { cond with type := .int, ival := toInt32 ival }
  | _ => { cond with type := .int, ival := 0 }

/-- What `get_Expression` does with an operator other than AND between two expressions that are no
operators: a join when the right one is a column, else a predicate. -/
def comparison (fromTable : List String) (opType : OperatorType) (expr expr2 : Expr) (s : Where) : Option Where :=
  match expr2 with
  | .columnRef rtab rcol => do
    let ltab ← expr.table?
    let lcol ← expr.name?
    let rtab ← rtab
    let cell : JoinCell := ⟨ltab, lcol, rtab, rcol⟩
    some { s with join := s.join ++ [cell], allAttr := s.allAttr ++ [cell.left, cell.right] }
  | _ => do
    let tableName ← expr.table?.orElse fun _ => fromTable.head?
    let opt ← operatorToToken opType
    let attr ← expr.name?
    let cond := withConstant (Condition.ofOpt opt tableName attr) expr2
    some { s with predicate := s.predicate ++ [cond], allAttr := s.allAttr ++ [cond.column] }

/-- `get_Expression`. The operands of `&` are taken in the order in which they are written. -/
def getExpression (fromTable : List String) : Expr → Where → Option (Bool × Where)
  | .binary opType expr expr2, s => do
    let (mark1, s) ← getExpression fromTable expr s
    let (mark2, s) ← getExpression fromTable expr2 s
    if mark1 && mark2 && opType ≠ .and then do
      let s ← comparison fromTable opType expr expr2 s
      some (false, s)
    else some (false, s)
  | .unary .., _ => none
  | _, s => some (true, s)

/-- `hsql::SelectStatement`; the FROM clause as the list of its table names. -/
structure SelectStatement where
  fromTable : List String
  selectList : List Expr
  whereClause : Option Expr
deriving DecidableEq, Repr

/-- The loop over the select list. -/
def selectAttrs (fromTable : List String) : List Expr → Option (List String)
  | [] => some []
  | .star :: es => do
    let rest ← selectAttrs fromTable es
    some ("*" :: rest)
  | .columnRef table name :: es => do
    let table ← table.orElse fun _ => fromTable.head?
    let rest ← selectAttrs fromTable es
    some ((table ++ "." ++ name) :: rest)
  | _ :: es => selectAttrs fromTable es

/-- `init_SQL`. -/
def initSQL (Statement : SelectStatement) : Option Query := do
  let selectAttr ← selectAttrs Statement.fromTable Statement.selectList
  let s : Where := { allAttr := selectAttr, predicate := [], join := [] }
  let s ← match Statement.whereClause with
    | none => some s
    | some e => (getExpression Statement.fromTable e s).map Prod.snd
  some { fromTable := Statement.fromTable, selectAttr := selectAttr, allAttr := sortUnique s.allAttr
         predicate := s.predicate, join := s.join }

/-- `SelectProcess`. -/
def selectProcess (Tables : List MetadataTable) (Statement : SelectStatement) : Option Tree := do
  let q ← initSQL Statement
  buildQueryTree Tables q

end EasyDDB.Optimizer
