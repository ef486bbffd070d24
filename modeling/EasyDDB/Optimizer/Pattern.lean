import EasyDDB.Catalog.Metadata

/-! # Patterns of join lists

`get_pattern` merges join lists that differ in one position into products: a pattern is a list of
alternatives for each position. -/
namespace EasyDDB.Optimizer
set_option autoImplicit false

/-- A pattern: for each joined table the fragment numbers it ranges over. -/
abbrev Pattern := List (List Int)

/-- `check_pattern`: equal in every position below `sz` but `pos`. -/
def checkPattern (a b : Pattern) (pos sz : Nat) : Bool :=
  (List.range sz).all fun i => i = pos ∨ a[i]? = b[i]?

/-- The loop over `k`: the pattern `p` absorbs every later pattern that differs from it in position
`i` only, and these are marked. -/
def absorb (i sz : Nat) : Pattern → List (Bool × Pattern) → Pattern × List (Bool × Pattern)
  | p, [] => (p, [])
  | p, (m, q) :: rest =>
    if checkPattern p q i sz then
      let r := absorb i sz (p.modify i fun l => l ++ (q[i]?).getD []) rest
      (r.1, (true, q) :: r.2)
    else
      let r := absorb i sz p rest
      (r.1, (m, q) :: r.2)

/-- The loop over `j` on the patterns with their marks. -/
def mergeFrom (i sz : Nat) : Nat → List (Bool × Pattern) → List (Bool × Pattern)
  | _, [] => []
  | 0, l => l
  | n + 1, (m, p) :: rest =>
    if m then (m, p) :: mergeFrom i sz n rest
    else
      let r := absorb i sz p rest
      (m, r.1) :: mergeFrom i sz n r.2

/-- One round of `get_pattern`, for position `i`. The marks are a `bool[300]`: with more patterns the
source reads and writes outside the array. -/
def patternRound (sz : Nat) (pattern : List Pattern) (i : Nat) : Option (List Pattern) :=
  if pattern.length ≤ 300 then
    some (((mergeFrom i sz pattern.length (pattern.map fun p => (false, p))).filter fun mp => !mp.1).map
      Prod.snd)
  else none

/-- `get_pattern`: one round for each position, from the last to the first. -/
def getPattern (joinList : List (List FragName)) (sz : Nat) : Option (List Pattern) :=
  (List.range sz).reverse.foldlM (patternRound sz) (joinList.map fun x => (x.take sz).map fun f => [f.num])

end EasyDDB.Optimizer
