import EasyDDB.Optimizer.Scan

/-! # Join order, compatible fragments and join lists

`sortJoin` chains the join cells; the edge phase connects every two kept fragments of joined tables
whose conditions on the join columns do not exclude each other; `get_joinList` enumerates the
fragment sequences along the chain. -/
namespace EasyDDB.Optimizer
open OrderedMap
set_option autoImplicit false

/-! ## `sortJoin` -/

/-- A cell touches a table on one of its sides. -/
def touches (tab : String) (c : JoinCell) : Bool := tab = c.ltab ∨ tab = c.rtab

/-- A cell that touches `tab`, turned so that `tab` is its left table. -/
def orient (tab : String) (c : JoinCell) : JoinCell := if tab = c.ltab then c else c.swap

/-- The first cell of a list that touches `tab`, with `c` put in its place. -/
def exchange (tab : String) (c : JoinCell) : List JoinCell → Option (JoinCell × List JoinCell)
  | [] => none
  | d :: ds =>
    if touches tab d then some (d, c :: ds)
    else (exchange tab c ds).map fun r => (r.1, d :: r.2)

/-- The inner loop of `sortJoin`: the first cell that touches `tab` is exchanged with the cell at the
head and turned. -/
def pullNext (tab : String) : List JoinCell → List JoinCell
  | [] => []
  | c :: cs =>
    if touches tab c then orient tab c :: cs
    else
      match exchange tab c cs with
      | none => c :: cs
      | some (d, ds) => orient tab d :: ds

/-- The outer loop of `sortJoin` over the cells behind a settled cell. -/
def sortJoinFrom : Nat → JoinCell → List JoinCell → List JoinCell
  | 0, _, cs => cs
  | n + 1, c, cs =>
    match pullNext c.rtab cs with
    | [] => []
    | d :: ds => d :: sortJoinFrom n d ds

/-- `sortJoin`. -/
def sortJoin : List JoinCell → List JoinCell
  | [] => []
  | c :: cs => c :: sortJoinFrom cs.length c cs

/-! ## Edges and conflicts -/

/-- `findAttr`: the conditions on `table.attr`. The source returns their positions, and the vector
`{-1}` for none. -/
def findAttr (hfCondition : List Condition) (table attr : String) : List Condition :=
  hfCondition.filter fun c => c.table = table ∧ c.attr = attr

/-- Two conditions on the two columns of a join cell leave a common value. -/
def overlaps (conx cony : Condition) : Option Bool :=
  if conx.type = .string then some (conx.sval = cony.sval)
  else
    match conx.getSection, cony.getSection with
    | some (a1, b1), some (a2, b2) => some (max a1 a2 ≤ min b1 b2)
    | _, _ => none

/-- Whether the edge phase connects fragment `x` of `p.ltab` with fragment `y` of `p.rtab`. -/
def connects (p : JoinCell) (x y : Fragment) : Option Bool :=
  if x.type ≠ y.type then some true
  else
    let conxs := findAttr x.hfCondition p.ltab p.lcol
    let conys := findAttr y.hfCondition p.rtab p.rcol
    if conxs = [] ∨ conys = [] then some true
    else (conxs.flatMap fun conx => conys.map (overlaps conx)).foldlM
      (fun mark o => o.map fun b => mark && b) true

/-- `edge` maps a fragment to the entries of its inner map in key order; `conflict` lists the pairs
set to 1. -/
structure Edges where
  edge : FragName → List (FragName × Int)
  conflict : List (FragName × FragName)

/-- One pair of fragments in the edge phase. -/
def addEdge (p : JoinCell) (e : Edges) (xy : Fragment × Fragment) : Option Edges := do
  let mark ← connects p xy.1 xy.2
  if mark then
    some { e with edge := Function.update e.edge xy.1.fname (setKey xy.2.fname 1 (e.edge xy.1.fname)) }
  else
    some { e with conflict := (xy.1.fname, xy.2.fname) :: (xy.2.fname, xy.1.fname) :: e.conflict }

/-- The pairs of kept fragments of the two tables of a cell. -/
def cellPairs (pruning : String → List Fragment) (p : JoinCell) : List (Fragment × Fragment) :=
  (pruning p.ltab).flatMap fun x => (pruning p.rtab).map fun y => (x, y)

/-- The edge phase over the sorted join list. -/
def buildEdges (pruning : String → List Fragment) (Join : List JoinCell) : Option Edges :=
  Join.foldlM (fun e p => (cellPairs pruning p).foldlM (addEdge p) e) ⟨fun _ => [], []⟩

/-- `relation`: the tables in the order in which they are joined. -/
def relation (Join : List JoinCell) : List String :=
  Join.map JoinCell.ltab ++ (Join.getLast?.map JoinCell.rtab).toList

/-! ## Join lists -/

/-- `get_joinList`: extends `ans` along the edges until it has length `sz`. The pair is `JoinList`
and `ans`, both reference parameters. -/
def getJoinList (edge : FragName → List (FragName × Int)) (sz : Nat) :
    Nat → FragName → List (List FragName) × List FragName → List (List FragName) × List FragName
  | 0, _, (JoinList, ans) => if ans.length = sz then (JoinList ++ [ans], ans) else (JoinList, ans)
  | fuel + 1, x, (JoinList, ans) =>
    if ans.length = sz then (JoinList ++ [ans], ans)
    else
      (edge x).foldl
        (fun s cur =>
          if cur.2 = 1 then
            let s' := getJoinList edge sz fuel cur.1 (s.1, s.2 ++ [cur.1])
            (s'.1, s'.2.dropLast)
          else s)
        (JoinList, ans)

/-- All join lists, started from each kept fragment of the first table. -/
def joinLists (pruning : String → List Fragment) (edge : FragName → List (FragName × Int))
    (Join : List JoinCell) : List (List FragName) :=
  match Join with
  | [] => []
  | c :: _ =>
    (pruning c.ltab).foldl
      (fun JoinList x => (getJoinList edge (Join.length + 1) (Join.length + 1) x.fname (JoinList, [x.fname])).1)
      []

end EasyDDB.Optimizer
