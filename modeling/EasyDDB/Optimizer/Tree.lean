import EasyDDB.Catalog.Metadata

/-! # Query trees

`joinCell`, `treeNode` and `Tree` of `preprocess.h`, and the evaluation of a tree over stored
fragments. Nodes refer to each other by index into `tr`; a root or a detached node has parent `-1`.
The evaluation is generic in what a result is made of: `rowSemantics` gives rows with the node's
projections applied, `combSemantics` the combinations of stored rows, one for each joined table. -/
namespace EasyDDB.Optimizer
set_option autoImplicit false

structure JoinCell where
  ltab : String
  lcol : String
  rtab : String
  rcol : String
deriving DecidableEq, Repr

namespace JoinCell

/-- The two qualified columns of a cell. -/
def left (c : JoinCell) : String := c.ltab ++ "." ++ c.lcol
def right (c : JoinCell) : String := c.rtab ++ "." ++ c.rcol

/-- `joinCell::find`: the column a cell equates with `tab.attr`, the empty string for none. -/
def find (c : JoinCell) (tab attr : String) : String :=
  if c.ltab = tab ∧ c.lcol = attr then c.right
  else if c.rtab = tab ∧ c.rcol = attr then c.left
  else ""

/-- The cell with its two sides exchanged. -/
def swap (c : JoinCell) : JoinCell := ⟨c.rtab, c.rcol, c.ltab, c.lcol⟩

end JoinCell

inductive NodeType where
  | fragment | union | join
deriving DecidableEq, Repr

structure TreeNode where
  type : NodeType
  site : Int
  parent : Int := -1
  child : List Nat := []
  size : Int := 0
  fname : FragName := ⟨"", 0⟩
  join : JoinCell := ⟨"", "", "", ""⟩
  attr : List String := []
  projection : List String := []
  select : List Condition := []
deriving DecidableEq, Repr

/-- The columns a node delivers: its projection, or all its attributes when that is empty. -/
def TreeNode.output (n : TreeNode) : List String := if n.projection = [] then n.attr else n.projection

/-- The node with its `parent` field set. -/
def TreeNode.under (n : TreeNode) (par : Int) : TreeNode := { n with parent := par }

/-- `Tree`; `root` is `-1` when no node was built. -/
structure Tree where
  tr : List TreeNode
  root : Int
deriving DecidableEq, Repr

/-! ## Evaluation -/

/-- What the three kinds of nodes compute from the results of their children. -/
structure Semantics (α : Type) where
  leaf : TreeNode → List α
  union : TreeNode → List (List α) → List α
  join : TreeNode → List (List α) → List α

/-- The result of the subtree at index `i`, following children at most `fuel` levels down. -/
def evalNode {α : Type} (sem : Semantics α) (tr : List TreeNode) : Nat → Nat → List α
  | 0, _ => []
  | fuel + 1, i =>
    match tr[i]? with
    | none => []
    | some nd =>
      match nd.type with
      | .fragment => sem.leaf nd
      | .union => sem.union nd (nd.child.map (evalNode sem tr fuel))
      | .join => sem.join nd (nd.child.map (evalNode sem tr fuel))

/-- One level of `evalNode`, given the results of the nodes below. -/
def evalLevel {α : Type} (sem : Semantics α) (tr : List TreeNode) (i : Nat) (below : Nat → List α) : List α :=
  match tr[i]? with
  | none => []
  | some nd =>
    match nd.type with
    | .fragment => sem.leaf nd
    | .union => sem.union nd (nd.child.map below)
    | .join => sem.join nd (nd.child.map below)

/-- The result of a tree. No branch is longer than the number of nodes; an empty tree has no row. -/
def Tree.eval {α : Type} (sem : Semantics α) (t : Tree) : List α :=
  if 0 ≤ t.root then evalNode sem t.tr t.tr.length t.root.toNat else []

/-- Stored fragments: the rows placed in each fragment. -/
abbrev Placement := FragName → List Row

/-- The rows of a fragment that pass a node's selection. -/
def selected (db : Placement) (nd : TreeNode) : List Row :=
  (db nd.fname).filter (satisfiesAll nd.select)

/-- Both columns have a value and the values agree. -/
def sameValue (v w : Option Value) : Bool :=
  match v, w with
  | some a, some b => a = b
  | _, _ => false

theorem sameValue_iff {v w : Option Value} : sameValue v w = true ↔ ∃ k, v = some k ∧ w = some k := by
  cases v <;> cases w <;> simp [sameValue, eq_comm]

/-- The pairs of rows that agree on the two columns of a cell. -/
def joinRows (c : JoinCell) (ls rs : List Row) : List Row :=
  ls.flatMap fun l => (rs.filter fun r => sameValue (l c.left) (r c.right)).map (Row.merge l)

/-- The children of a Join node, joined from left to right under the node's cell. -/
def joinChildren {α : Type} (f : List α → List α → List α) : List (List α) → List α
  | [] => []
  | r :: rs => rs.foldl f r

/-- Rows: a Fragment node filters and projects, a Union node concatenates and applies a projection
it has, a Join node joins its children and projects. -/
def rowSemantics (db : Placement) : Semantics Row where
  leaf nd := (selected db nd).map (Row.project nd.output)
  union nd rs := if nd.projection = [] then rs.flatten else rs.flatten.map (Row.project nd.projection)
  join nd rs := (joinChildren (joinRows nd.join) rs).map (Row.project nd.output)

/-- A combination of stored rows, each with the table it was taken from. -/
abbrev Comb := List (String × Row)

/-- The value of `tab.col` in a combination. -/
def Comb.value (c : Comb) (tab col : String) : Option Value :=
  (c.lookup tab).bind fun r => r (tab ++ "." ++ col)

/-- The pairs of combinations that agree on the two columns of a cell. -/
def joinCombs (c : JoinCell) (ls rs : List Comb) : List Comb :=
  ls.flatMap fun l =>
    (rs.filter fun r => sameValue (Comb.value l c.ltab c.lcol) (Comb.value r c.rtab c.rcol)).map (l ++ ·)

/-- Combinations of rows, without projections. -/
def combSemantics (db : Placement) : Semantics Comb where
  leaf nd := (selected db nd).map fun r => [(nd.fname.table, r)]
  union _ rs := rs.flatten
  join nd rs := joinChildren (joinCombs nd.join) rs

end EasyDDB.Optimizer
