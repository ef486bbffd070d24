import EasyDDB.Lib.OrderedMap
import EasyDDB.Optimizer.CheckCondition
import EasyDDB.Optimizer.Tree
import Mathlib.Data.List.Sort

/-! # The first half of `build_query_tree`

The expansion of `*`, the transfer of predicates through joins, and the loop over the catalog that
prunes fragments, builds the Fragment nodes (and the Join node over several vertical fragments) and
fills the maps the join phase reads. A result `none` stands for undefined behaviour of the source:
an index outside a vector, or a value that was never set. -/
namespace EasyDDB.Optimizer
open OrderedMap
set_option autoImplicit false

/-! ## Helpers of the standard library -/

/-- `erase(unique(..))` on a vector: of equal neighbours the first stays. -/
def unique {α : Type} [DecidableEq α] : List α → List α
  | [] => []
  | [a] => [a]
  | a :: b :: l => if a = b then unique (b :: l) else a :: unique (b :: l)

/-- `sort` followed by `unique`. -/
def sortUnique (l : List String) : List String := unique (l.insertionSort (· ≤ ·))

/-- `s.substr(0, s.find('.'))` and `s.substr(s.find('.') + 1)` of a string with a dot. -/
def beforeDot (s : String) : String := String.ofList (s.toList.takeWhile (· ≠ '.'))
def afterDot (s : String) : String := String.ofList ((s.toList.dropWhile (· ≠ '.')).drop 1)

theorem toList_qualified (tab col : String) : (tab ++ "." ++ col).toList = tab.toList ++ '.' :: col.toList := by
  simp [String.toList_append]

theorem beforeDot_qualified {tab : String} (h : '.' ∉ tab.toList) (col : String) :
    beforeDot (tab ++ "." ++ col) = tab := by
  have hall : ∀ d ∈ tab.toList, decide (d ≠ '.') = true := fun d hd => decide_eq_true fun heq => h (heq ▸ hd)
  rw [beforeDot, toList_qualified, List.takeWhile_append_of_pos hall]
  simp

theorem afterDot_qualified {tab : String} (h : '.' ∉ tab.toList) (col : String) :
    afterDot (tab ++ "." ++ col) = col := by
  have hall : ∀ d ∈ tab.toList, decide (d ≠ '.') = true := fun d hd => decide_eq_true fun heq => h (heq ▸ hd)
  rw [afterDot, toList_qualified, List.dropWhile_append_of_pos hall]
  simp

/-! ## The query -/

/-- The arguments of `build_query_tree` besides the catalog. -/
structure Query where
  fromTable : List String
  selectAttr : List String
  allAttr : List String
  predicate : List Condition
  join : List JoinCell
deriving DecidableEq, Repr

/-- `*` as first selected attribute stands for the attributes of the first FROM table. -/
def expandStar (Tables : List MetadataTable) (q : Query) : Option Query :=
  match q.selectAttr with
  | [] => none
  | s :: _ =>
    if s = "*" then do
      let tableName ← q.fromTable.head?
      let res ← findTable Tables tableName
      if "*" ∈ q.allAttr then
        some { q with
          selectAttr := q.selectAttr.dropLast ++ res.attrs
          allAttr := res.attrs.foldl (fun all x => if x ∈ all then all else all ++ [x])
            (q.allAttr.erase "*") }
      else none
    else some q

/-- `Join_Attr`. -/
def joinAttr (Join : List JoinCell) : List String := Join.flatMap fun x => [x.left, x.right]

/-- The condition a predicate turns into on the column a join equates with its own. -/
def transferred (p : Condition) (x : JoinCell) : Option Condition :=
  let res := x.find p.table p.attr
  if res = "" then none
  else
    let cur := Condition.ofOpt p.opt (beforeDot res) (afterDot res)
    if p.type = .int then some { cur with type := p.type, ival := p.ival }
    else some { cur with type := p.type, sval := p.sval }

/-- `addPred`: predicates move through join equalities. -/
def addPred (Predicate : List Condition) (Join : List JoinCell) : List Condition :=
  Predicate.flatMap fun p => Join.filterMap (transferred p)

/-- The query with the transferred predicates appended. -/
def extendPredicate (q : Query) : Query :=
  { q with predicate := q.predicate ++ addPred q.predicate q.join }

/-! ## Sites -/

/-- `siteNum`: what one site stores of each table after pruning. -/
structure SiteNum where
  rSize : String → Int
  total : Int
  site : Int

/-- `siteNum(i)`. -/
def SiteNum.new (site : Int) : SiteNum := ⟨fun _ => 0, 0, site⟩

/-- `add_relation`. -/
def SiteNum.addRelation (s : SiteNum) (table : String) (rSize : Int) : SiteNum :=
  { s with rSize := Function.update s.rSize table rSize, total := s.total + rSize }

/-- `siteNums[site-1].add_relation(table, size)`; the vector has four entries. -/
def addRelationAt (siteNums : List SiteNum) (site : Int) (table : String) (size : Int) :
    Option (List SiteNum) :=
  if 1 ≤ site ∧ site ≤ siteNums.length then
    some (siteNums.modify (site - 1).toNat fun s => s.addRelation table size)
  else none

/-! ## The loop over the catalog -/

/-- The variables the loop over the tables fills. Maps that are only read and written by key are
functions from keys to values, with the value `operator[]` creates as default. -/
structure Scan where
  tr : List TreeNode
  pruning : String → List Fragment
  relationSize : List (String × Int)
  siteNums : List SiteNum
  allFrag : List FragName
  mpTr : FragName → Nat

def Scan.init : Scan where
  tr := []
  pruning := fun _ => []
  relationSize := []
  siteNums := [1, 2, 3, 4].map SiteNum.new
  allFrag := []
  mpTr := fun _ => 0

/-- The attributes that are needed after the selections: selected ones and join columns. -/
def needed (q : Query) (a : String) : Bool := a ∈ q.selectAttr ∨ a ∈ joinAttr q.join

/-- The selection of a horizontal fragment: `none` inside when the loop takes the `continue`, else
the list left after the `cnt == hf_condition.size()` shortcut. -/
def fragSelect (hfCondition Predicate : List Condition) : Option (Option (List Condition)) := do
  let (conditions, cnt) ← checkCondition hfCondition Predicate
  if conditions = [] ∧ Predicate ≠ [] then some none
  else if cnt = hfCondition.length then some (some [])
  else some (some conditions)

/-- The Fragment node of a horizontal fragment. -/
def hfNode (q : Query) (table : MetadataTable) (frag : Fragment) (select : List Condition) : TreeNode :=
  let projection := table.attrs.filter (needed q)
  { type := .fragment, site := frag.site, size := frag.size, fname := frag.fname
    attr := table.attrs, select := select
    projection := if projection.length = table.attrs.length then [] else projection }

/-- One fragment of a horizontally fragmented table. -/
def scanHfFrag (q : Query) (table : MetadataTable) (s : Scan) (frag : Fragment) : Option Scan := do
  match ← fragSelect frag.hfCondition q.predicate with
  | none => some s
  | some select =>
    let siteNums ← addRelationAt s.siteNums frag.site table.name frag.size
    some { tr := s.tr ++ [hfNode q table frag select]
           pruning := Function.update s.pruning table.name (s.pruning table.name ++ [frag])
           relationSize := setKey table.name (readKey s.relationSize table.name + frag.size) s.relationSize
           siteNums := siteNums
           allFrag := s.allFrag ++ [frag.fname]
           mpTr := Function.update s.mpTr frag.fname s.tr.length }

/-- The branch for `hf` tables. -/
def scanHf (q : Query) (table : MetadataTable) (s : Scan) : Option Scan :=
  table.frags.foldlM (scanHfFrag q table) { s with relationSize := setKey table.name 0 s.relationSize }

/-- A vertical fragment is used when the query mentions one of its columns besides the key. -/
def vfMarked (q : Query) (table : MetadataTable) (frag : Fragment) : Bool :=
  frag.vfColumn.any fun x => x ∈ q.allAttr ∧ x ≠ table.key

/-- The predicates about a table. -/
def tablePredicates (q : Query) (table : MetadataTable) : List Condition :=
  q.predicate.filter fun x => x.table = table.name

/-- The Fragment node of a vertical fragment, as the loop over the fragments builds it. -/
def vfNode (q : Query) (table : MetadataTable) (frag : Fragment) : TreeNode :=
  let sel := frag.vfColumn.flatMap fun x => (tablePredicates q table).filter fun p => p.column = x
  let vfAttr := frag.vfColumn.filter fun x => x ∈ q.allAttr ∧ needed q x
  { type := .fragment, site := frag.site, size := frag.size, fname := frag.fname
    attr := frag.vfColumn, select := sel
    projection := if frag.vfColumn ≠ vfAttr then vfAttr else [] }

/-- Vertical fragments that are joined keep the key in a projection they have. -/
def keepKey (table : MetadataTable) (n : TreeNode) : TreeNode :=
  if n.projection ≠ [] ∧ table.key ∉ n.projection then
    let projection := n.projection ++ [table.key]
    { n with projection := if projection.length = n.attr.length then [] else projection }
  else n

/-- The site of the largest fragment, visited from the last one back. The start value of the site is
unset in the source; it stays only when every size is negative. -/
def largestSite (nodes : List TreeNode) : Int :=
  (nodes.foldl (fun m n => if m.1 ≤ n.size then (n.size, n.site) else m) ((0 : Int), (0 : Int))).2

/-- The Join node over the vertical fragments at the end of the node list. -/
def vfJoinNode (q : Query) (table : MetadataTable) (first : Fragment) (nodes : List TreeNode)
    (sz : Nat) : TreeNode :=
  let attr := sortUnique (nodes.reverse.flatMap TreeNode.attr)
  let projection := attr.filter (needed q)
  { type := .join, site := largestSite nodes.reverse, size := first.size, fname := first.fname
    attr := attr, projection := if projection = attr then [] else projection
    join := ⟨table.name, table.keyColumn, table.name, table.keyColumn⟩
    child := (List.range nodes.length).map fun i => sz - (i + 1) }

/-- The branch for `vf` tables. -/
def scanVf (q : Query) (table : MetadataTable) (s : Scan) : Option Scan := do
  let first ← table.frags.head?
  let relationSize := setKey table.name first.size s.relationSize
  let marked := table.frags.filter (vfMarked q table)
  match marked with
  | [] =>
    let node : TreeNode :=
      { type := .fragment, site := 1, size := first.size, fname := first.fname, attr := first.vfColumn
        select := tablePredicates q table, projection := [table.keyColumn] }
    let siteNums ← addRelationAt s.siteNums 1 table.name first.size
    some { tr := s.tr ++ [node]
           pruning := Function.update s.pruning table.name (s.pruning table.name ++ [first])
           relationSize := relationSize, siteNums := siteNums
           allFrag := s.allFrag ++ [first.fname]
           mpTr := Function.update s.mpTr first.fname s.tr.length }
  | [frag] =>
    let siteNums ← addRelationAt s.siteNums frag.site table.name frag.size
    some { tr := s.tr ++ [vfNode q table frag]
           pruning := Function.update s.pruning table.name (s.pruning table.name ++ [frag])
           relationSize := relationSize, siteNums := siteNums
           allFrag := s.allFrag ++ [frag.fname]
           mpTr := Function.update s.mpTr frag.fname s.tr.length }
  | _ =>
    let nodes := marked.map fun frag => keepKey table (vfNode q table frag)
    let sz := s.tr.length + nodes.length
    let siteNums ← addRelationAt s.siteNums 1 table.name first.size
    some { tr := s.tr ++ nodes.map (fun n => n.under sz) ++ [vfJoinNode q table first nodes sz]
           pruning := Function.update s.pruning table.name (s.pruning table.name ++ [first])
           relationSize := relationSize, siteNums := siteNums
           allFrag := s.allFrag ++ [first.fname]
           mpTr := Function.update s.mpTr first.fname sz }

/-- One table of the catalog. -/
def scanTable (q : Query) (s : Scan) (table : MetadataTable) : Option Scan :=
  if table.name ∈ q.fromTable then
    match table.type with
    | .hf => scanHf q table s
    | .vf => scanVf q table s
  else some s

/-- The loop over the catalog. -/
def scanTables (q : Query) (Tables : List MetadataTable) : Option Scan :=
  Tables.foldlM (scanTable q) Scan.init

end EasyDDB.Optimizer
