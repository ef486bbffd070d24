import EasyDDB.Optimizer.Pattern
import EasyDDB.Optimizer.Sites

/-! # The second half of `build_query_tree`

For every site and every pattern of its join lists: one operand for each table (a Fragment node, or
a Union node over several), the left-deep chain of Join nodes over the operands, and at the end one
Union node over all nodes without a parent. -/
namespace EasyDDB.Optimizer
set_option autoImplicit false

/-- The variables of the construction loop: the node vector and `cpTr`, which fragments' recorded
nodes have been used. -/
structure Build where
  tr : List TreeNode
  cpTr : FragName → Bool

/-- `get_treeNode`: the recorded node on first use, a copy without children afterwards. -/
def getTreeNode (mpTr : FragName → Nat) (x : FragName) (s : Build) : Option (Nat × Build) :=
  if s.cpTr x then do
    let node ← s.tr[mpTr x]?
    some (s.tr.length, { s with tr := s.tr ++ [{ node with child := [], parent := -1 }] })
  else some (mpTr x, { s with cpTr := Function.update s.cpTr x true })

/-- `tr[i].parent = par`. -/
def setParent (tr : List TreeNode) (i par : Nat) : List TreeNode :=
  tr.modify i fun n => n.under par

/-- The body of the loop that fills a Union node. -/
def addChild (mpTr : FragName → Nat) (rel : String) (par : Nat) (s : Build) (num : Int) : Option Build := do
  let (idx, s) ← getTreeNode mpTr ⟨rel, num⟩ s
  let node ← s.tr[idx]?
  let tr := s.tr.modify par fun n => { n with child := n.child ++ [idx], attr := node.output }
  some { s with tr := setParent tr idx par }

/-- The operand of one table: the node of its only fragment, or a Union node over several. -/
def operand (site : Int) (mpTr : FragName → Nat) (rel : String) (nums : List Int) (s : Build) :
    Option (Nat × Build) :=
  match nums with
  | [num] => getTreeNode mpTr ⟨rel, num⟩ s
  | _ => do
    let par := s.tr.length
    let s ← nums.foldlM (addChild mpTr rel par) { s with tr := s.tr ++ [{ type := .union, site := site }] }
    some (par, s)

/-- The operands of all tables, in the order of `relation`. -/
def operands (site : Int) (mpTr : FragName → Nat) :
    List String → Pattern → Build → Option (List Nat × Build)
  | rel :: rels, nums :: plist, s => do
    let (i, s) ← operand site mpTr rel nums s
    let (is, s) ← operands site mpTr rels plist s
    some (i :: is, s)
  | _, _, s => some ([], s)

/-- `get_attr`. -/
def getAttr (x y : TreeNode) : List String := sortUnique (x.output ++ y.output)

/-- `get_projection`: without `x`, unless `x` is selected. -/
def getProjection (selectAttr attr : List String) (x : String) : List String :=
  if x ∈ selectAttr then [] else attr.filter (· ≠ x)

/-- The projection of a Join node: columns that have done their duty are dropped. `next` is the next
cell of the chain, if any. -/
def joinProjection (selectAttr attr : List String) (c : JoinCell) (next : Option JoinCell) : List String :=
  let projection := getProjection selectAttr attr c.left
  if next.all fun d => c.right ≠ d.left then getProjection selectAttr projection c.right
  else projection

/-- One Join node over the nodes `l` and `r`. -/
def pushJoin (site : Int) (selectAttr : List String) (c : JoinCell) (next : Option JoinCell)
    (l r : Nat) (s : Build) : Option (Nat × Build) := do
  let x ← s.tr[l]?
  let y ← s.tr[r]?
  let attr := getAttr x y
  let par := s.tr.length
  let node : TreeNode :=
    { type := .join, site := site, join := c, child := [l, r], attr := attr
      projection := joinProjection selectAttr attr c next }
  some (par, { s with tr := setParent (setParent (s.tr ++ [node]) l par) r par })

/-- The chain of Join nodes: `par` is the node built so far, one operand is added with each cell. -/
def joinChain (site : Int) (selectAttr : List String) :
    List JoinCell → List Nat → Nat → Build → Option (Nat × Build)
  | c :: cs, i :: is, par, s => do
    let (par, s) ← pushJoin site selectAttr c cs.head? par i s
    joinChain site selectAttr cs is par s
  | _, _, par, s => some (par, s)

/-- The subtree of one pattern. -/
def buildPattern (site : Int) (mpTr : FragName → Nat) (selectAttr : List String) (Join : List JoinCell)
    (s : Build) (plist : Pattern) : Option Build := do
  let (is, s) ← operands site mpTr (relation Join) plist s
  match is with
  | [] => none
  | i :: is =>
    let (_, s) ← joinChain site selectAttr Join is i s
    some s

/-- The subtrees of one site. -/
def buildSite (mpTr : FragName → Nat) (selectAttr : List String) (Join : List JoinCell)
    (JoinSite : Int → List (List FragName)) (s : Build) (site : Int) : Option Build :=
  if JoinSite site = [] then some s
  else do
    let res ← getPattern (JoinSite site) (Join.length + 1)
    res.foldlM (buildPattern site mpTr selectAttr Join) s

/-- The indices of the nodes without a parent. -/
def parentless (tr : List TreeNode) : List Nat :=
  (List.range tr.length).filter fun i => (tr[i]?).any fun n => n.parent = -1

/-- The final phase: several nodes without a parent become children of a new Union node. -/
def unionPhase (site : Int) (selectAttr : List String) (tr : List TreeNode) : Tree :=
  let num := tr.length
  let roots := parentless tr
  if roots.length > 1 then
    let attr := roots.foldl (fun attr i => sortUnique (attr ++ ((tr[i]?).map TreeNode.output).getD [])) []
    let root : TreeNode :=
      { type := .union, site := site, child := roots, attr := attr
        projection := if attr.length ≠ selectAttr.length then selectAttr else [] }
    { tr := roots.foldl (fun tr i => setParent tr i num) tr ++ [root], root := num }
  else { tr := tr, root := (num : Int) - 1 }

/-- What the join phase works on: the scan of the catalog, the chained join list, the edges, the
process sites and the join lists of every site. -/
structure JoinPlan where
  query : Query
  scan : Scan
  join : List JoinCell
  edges : Edges
  joinList : List (List FragName)
  processSite : List Int
  joinSite : Int → List (List FragName)

/-- Everything `build_query_tree` computes before it builds the join subtrees. -/
def planJoins (Tables : List MetadataTable) (q : Query) : Option JoinPlan := do
  let q ← (expandStar Tables q).map extendPredicate
  let scan ← scanTables q Tables
  let siteNums := sortSites scan.siteNums
  let Join := sortJoin q.join
  let edges ← buildEdges scan.pruning Join
  let JoinList := joinLists scan.pruning edges.edge Join
  let Rp ← largestRelation scan.relationSize
  let sites := processSite Tables scan siteNums edges.conflict Rp
  some { query := q, scan := scan, join := Join, edges := edges, joinList := JoinList
         processSite := sites
         joinSite := fun i => JoinList.filter fun x => joinSite siteNums sites x = i }

/-- The node vector before the final phase. -/
def buildForest (p : JoinPlan) : Option (List TreeNode) :=
  (([1, 2, 3, 4] : List Int).foldlM (buildSite p.scan.mpTr p.query.selectAttr p.join p.joinSite)
    ⟨p.scan.tr, fun _ => false⟩).map Build.tr

/-- `build_query_tree`. -/
def buildQueryTree (Tables : List MetadataTable) (q : Query) : Option Tree := do
  let p ← planJoins Tables q
  let tr ← buildForest p
  some (unionPhase (p.processSite.head?.getD 0) p.query.selectAttr tr)

end EasyDDB.Optimizer
