import EasyDDB.Catalog.Metadata

/-! # `check_condition`

The intersection of a fragment's conditions with the predicates of a query: the residual selection
of the fragment, the count `cnt` of pairs in which the predicate covers the fragment's condition,
and the two ways of returning an empty list. -/
namespace EasyDDB.Optimizer
open Condition
set_option autoImplicit false

/-- How an iteration of `check_condition` leaves the loops. -/
inductive Check where
  /-- the source reads a value that is not set: bounds `get_section` leaves alone, or
  `hf_condition[0]` of an empty vector -/
  | undefined
  /-- `return {}` -/
  | contradiction
  /-- the loop goes on with this `intersection` and `cnt` -/
  | go (intersection : List Condition) (cnt : Nat)
deriving DecidableEq, Repr

/-- The conditions pushed for a nonempty intersection `[a, b]`. -/
def residual (x : Condition) (a b : Int) : List Condition :=
  if a ≠ -INF ∧ b ≠ INF ∧ a ≠ b then
    [ofSection x.table x.attr a INF, ofSection x.table x.attr (-INF) b]
  else [ofSection x.table x.attr a b]

/-- The body of the inner loop for a predicate `x` and a fragment condition `y` on its column. -/
def checkPair (x y : Condition) (intersection : List Condition) (cnt : Nat) : Check :=
  if x.type = .string then
    if x.sval = y.sval then .go (intersection ++ [y]) (cnt + 1) else .contradiction
  else
    match x.getSection, y.getSection with
    | some (a1, b1), some (a2, b2) =>
      let a := max a1 a2
      let b := min b1 b2
      let cnt := if a = a2 ∧ b = b2 then cnt + 1 else cnt
      if a ≤ b then .go (intersection ++ residual x a b) cnt else .contradiction
    | _, _ => .undefined

/-- The inner loop over `hf_condition`. -/
def checkInner (x : Condition) : List Condition → List Condition → Nat → Check
  | [], intersection, cnt => .go intersection cnt
  | y :: ys, intersection, cnt =>
    if x.sameColumn y then
      match checkPair x y intersection cnt with
      | .go intersection cnt => checkInner x ys intersection cnt
      | stop => stop
    else checkInner x ys intersection cnt

/-- One predicate: the inner loop, then the `!flag` case for a column no fragment condition is on. -/
def checkPredicate (hfCondition : List Condition) (x : Condition) (intersection : List Condition)
    (cnt : Nat) : Check :=
  match checkInner x hfCondition intersection cnt with
  | .go intersection cnt =>
    if hfCondition.any x.sameColumn then .go intersection cnt
    else
      match hfCondition.head? with
      | none => .undefined
      | some y => .go (if x.table = y.table then intersection ++ [x] else intersection) cnt
  | stop => stop

/-- The outer loop over `Predicate`. -/
def checkOuter (hfCondition : List Condition) : List Condition → List Condition → Nat → Check
  | [], intersection, cnt => .go intersection cnt
  | x :: xs, intersection, cnt =>
    match checkPredicate hfCondition x intersection cnt with
    | .go intersection cnt => checkOuter hfCondition xs intersection cnt
    | stop => stop

/-- `check_condition`: the returned list and the count left in `cnt`. After `return {}` the callers
read no count. -/
def checkCondition (hfCondition Predicate : List Condition) : Option (List Condition × Nat) :=
  match checkOuter hfCondition Predicate [] 0 with
  | .undefined => none
  | .contradiction => some ([], 0)
  | .go intersection cnt => some (intersection, cnt)

end EasyDDB.Optimizer
