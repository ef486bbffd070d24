import EasyDDB.Execution.SavedPlan
import EasyDDB.Optimizer.WellFormed

/-! # From a query tree to a plan

`build_augmented_plan`, `find_node_to_build` and `transfer_to_AugNode`, with the statements that `data_push`,
`data_receive` and `delete_data` issue for a node.  A node of the plan is kept as a `Draft`, whose statement and
columns are printed last.

The source is read as follows where it does not compile: the number of a child stands for its decimal text and
`children[0].attr` for the attributes of the node with that number, `selection` is the field `select`, and the vector
`find_node_to_build` pushes to is the one it returns.  The map `name_map`, the types found in etcd and
`Condition::getStr` are parameters. -/
namespace EasyDDB.Execution
open Strings Optimizer Arena
set_option autoImplicit false

/-! ## Statements -/

structure ColumnRef where
  table : String
  column : String
deriving DecidableEq, Repr

/-- The statement of a node, by the type of the node. -/
inductive Statement where
  | fragment (columns : List String) (table : String) (conditions : List String)
  | join (columns : List ColumnRef) (tables : List String) (left right : ColumnRef)
  | union (tables : List String)
deriving DecidableEq, Repr

def ColumnRef.text (r : ColumnRef) : String := r.table ++ "." ++ r.column

def Statement.text : Statement → String
  | .fragment columns table conditions =>
    "select " ++ (if columns = [] then "*" else ",".intercalate columns) ++ " from " ++ table ++
      (if conditions = [] then "" else " where " ++ " and ".intercalate conditions)
  | .join columns tables left right =>
    "select " ++ ",".intercalate (columns.map ColumnRef.text) ++ " from " ++ ",".intercalate tables ++
      " where " ++ left.text ++ "=" ++ right.text
  | .union tables => " union all ".intercalate (tables.map fun table => "select * from " ++ table)

/-- The tables a statement reads. -/
def Statement.tables : Statement → List String
  | .fragment _ table _ => [table]
  | .join _ tables _ _ => tables
  | .union tables => tables

/-- The columns a statement refers to by the table they are in. -/
def Statement.refs : Statement → List ColumnRef
  | .join columns _ left right => columns ++ [left, right]
  | _ => []

/-- `save_sql`; every column is followed by a comma. -/
def saveSql (columns : List (String × String)) : String :=
  "(" ++ String.join (columns.map fun c => c.1 ++ " " ++ c.2 ++ ",") ++ ")"

structure Draft where
  nodeId : Nat
  parentId : Int
  executeSite : String
  statement : Statement
  columns : List (String × String)
deriving DecidableEq, Repr

def Draft.node (d : Draft) : AugPlanNode :=
  ⟨d.nodeId, d.parentId, d.executeSite, d.statement.text, saveSql d.columns, 0⟩

/-- `attr.split(".")[1]` -/
def attrName (attr : String) : Option String := do
  let (_, behind) ← cut ['.'] attr.toList
  match cut ['.'] behind with
  | none => some (String.ofList behind)
  | some (name, _) => some (String.ofList name)

def decimal (i : Nat) : String := String.ofList (numeral i)

/-- The name a statement reads the table of a child by. -/
def tableRead (c : Nat) : String := decimal c

/-- The names in the statements of `data_push`, `data_receive` and `delete_data`. -/
def createdTable (i : Nat) : String := "node" ++ decimal i
def insertedTable (i : Nat) : String := decimal i
def deletedTable (i : Nat) : String := decimal i

def createSql (d : Draft) : String := "create table " ++ createdTable d.nodeId ++ saveSql d.columns
def insertSql (i : Nat) (data : String) : String := "insert into " ++ insertedTable i ++ " values " ++ data
def deleteSql (i : Nat) : String := "delete from  " ++ deletedTable i

/-! ## Building -/

section
variable (nameMap : Int → String) (attrType : String → String) (getStr : Condition → String) (t : Tree)

/-- The columns that `save_sql` defines for a Fragment or Join node. -/
def saveColumns (nd : TreeNode) : Option (List (String × String)) :=
  nd.output.mapM fun attr => (attrName attr).map fun name => (name, attrType attr)

/-- The child an attribute of a Join node's projection is taken from. -/
def joinColumn (c₀ c₁ : Nat) (left : TreeNode) (attr : String) : ColumnRef :=
  if attr ∈ left.attr then ⟨tableRead c₀, attr⟩
  else if attr ∈ left.projection then ⟨tableRead c₀, attr⟩
  else ⟨tableRead c₁, attr⟩

/-- `transfer_to_AugNode` -/
def transferToAugNode (i : Nat) (plan : List Draft) : Option Draft := do
  let nd ← t.tr[i]?
  match nd.type with
  | .fragment =>
    let columns ← saveColumns attrType nd
    some ⟨i, nd.parent, nameMap nd.site, .fragment nd.projection nd.fname.table (nd.select.map getStr), columns⟩
  | .join =>
    let c₀ ← nd.child[0]?
    let c₁ ← nd.child[1]?
    let left ← t.tr[c₀]?
    let columns ← saveColumns attrType nd
    some ⟨i, nd.parent, nameMap nd.site, .join (nd.projection.map (joinColumn c₀ c₁ left))
      (nd.child.map tableRead) ⟨tableRead c₀, nd.join.lcol⟩ ⟨tableRead c₁, nd.join.rcol⟩, columns⟩
  | .union =>
    let c₀ ← nd.child[0]?
    let d ← plan[c₀]?
    some ⟨i, nd.parent, nameMap nd.site, .union (nd.child.map tableRead), d.columns⟩

/-- The inner loop of `find_node_to_build`: whether the node is pushed.  `already_built`, the list of the nodes
built so far, is read at the number of a child. -/
def childrenBuilt (alreadyBuilt : List Nat) : List Nat → Option Bool
  | [] => some false
  | c :: rest =>
    match alreadyBuilt[c]? with
    | none => none
    | some built => if built = 0 then some false else if rest = [] then some true else childrenBuilt alreadyBuilt rest

/-- `find_node_to_build` -/
def findNodeToBuild (alreadyBuilt : List Nat) : Option (List Nat) :=
  t.tr.zipIdx.foldlM (fun nodeToBuild (nd, i) => do
    if ← childrenBuilt alreadyBuilt nd.child then some (nodeToBuild ++ [i]) else some nodeToBuild) []

structure Building where
  plan : List Draft
  alreadyBuilt : List Nat
deriving DecidableEq, Repr

/-- One round of the loop of `build_augmented_plan`. -/
def buildRound (b : Building) : Option Building := do
  let nodeToExecute ← findNodeToBuild t b.alreadyBuilt
  nodeToExecute.foldlM (fun b i => do
    let d ← transferToAugNode nameMap attrType getStr t i b.plan
    some ⟨b.plan ++ [d], b.alreadyBuilt ++ [i]⟩) b

inductive BuildOutcome where
  | returns (b : Building)
  | undefined
  | running
deriving DecidableEq, Repr

/-- The loop of `build_augmented_plan`, for at most `fuel` rounds. -/
def buildLoop : Nat → Building → BuildOutcome
  | 0, b => if b.alreadyBuilt.length < t.tr.length then .running else .returns b
  | fuel + 1, b =>
    if b.alreadyBuilt.length < t.tr.length then
      match buildRound nameMap attrType getStr t b with
      | none => .undefined
      | some b => buildLoop fuel b
    else .returns b

/-- `build_augmented_plan` -/
def buildAugmentedPlan (fuel : Nat) : BuildOutcome :=
  buildLoop nameMap attrType getStr t fuel ⟨[], []⟩

/-- What a finished construction should have produced: a node for every node of the tree, at its index, built after
its children. -/
structure Building.Complete (b : Building) : Prop where
  once : b.alreadyBuilt.Perm (List.range t.tr.length)
  size : b.plan.length = t.tr.length
  position : ∀ (i : Nat) d, b.plan[i]? = some d → d.nodeId = i
  order : ∀ (p : Nat) nd, t.tr[p]? = some nd → ∀ c ∈ nd.child, b.alreadyBuilt.idxOf c < b.alreadyBuilt.idxOf p

/-! ## Building never ends with a plan -/

variable {t} {nameMap attrType getStr}

theorem findNodeToBuild_undefined {p : Nat} {nd : TreeNode} (hp : t.tr[p]? = some nd) (hchild : nd.child ≠ []) :
    findNodeToBuild t [] = none := by
  obtain ⟨c, rest, hc⟩ := List.exists_cons_of_ne_nil hchild
  have hmem : (nd, p) ∈ t.tr.zipIdx := List.mem_zipIdx_iff_getElem?.2 hp
  refine Loops.stuck hmem (fun built => ?_) []
  simp only [hc, childrenBuilt, List.getElem?_nil, Option.bind_eq_bind, Option.bind_none]

/-- A node without children is never pushed. -/
theorem findNodeToBuild_leaves (alreadyBuilt : List Nat) (hleaf : ∀ nd ∈ t.tr, nd.child = []) :
    findNodeToBuild t alreadyBuilt = some [] := by
  refine Loops.idle fun x hx => ?_
  obtain ⟨nd, i⟩ := x
  have hnd : nd ∈ t.tr := List.mem_of_getElem? (List.mem_zipIdx_iff_getElem?.1 hx)
  simp only [hleaf nd hnd, childrenBuilt, Option.bind_eq_bind, Option.bind_some, Bool.false_eq_true, if_false]

/-- In a well-formed tree the only node is a leaf, and a tree of more nodes has an inner one. -/
theorem leaf_of_length_one (ht : t.WellFormed) (hone : t.tr.length = 1) :
    ∀ nd ∈ t.tr, nd.child = [] := by
  intro nd hnd
  obtain ⟨p, hp⟩ := List.mem_iff_getElem?.1 hnd
  obtain ⟨-, root, hroot, hparent⟩ := ht.root
  by_contra hne
  obtain ⟨c, rest, hc⟩ := List.exists_cons_of_ne_nil hne
  obtain ⟨n, hn, hup⟩ := ht.child p nd hp c (hc ▸ List.mem_cons_self ..)
  have hc0 : c = 0 := by
    have := (List.getElem?_eq_some_iff.1 hn).1
    omega
  have hr0 : t.root.toNat = 0 := by
    have := (List.getElem?_eq_some_iff.1 hroot).1
    omega
  rw [hr0, ← hc0, hn] at hroot
  cases hroot
  omega

theorem inner_of_length (ht : t.WellFormed) (hlen : 1 < t.tr.length) :
    ∃ (p : Nat) (nd : TreeNode), t.tr[p]? = some nd ∧ nd.child ≠ [] := by
  have hother : ∃ i < t.tr.length, (i : Int) ≠ t.root := by
    by_cases hroot : t.root = 0
    · exact ⟨1, hlen, by omega⟩
    · exact ⟨0, by omega, by omega⟩
  obtain ⟨i, hi, hne⟩ := hother
  obtain ⟨p, m, -, hm, hcount, -⟩ := ht.parent i _ (List.getElem?_eq_getElem hi) hne
  refine ⟨p, m, hm, fun hnil => ?_⟩
  rw [hnil] at hcount
  cases hcount

theorem buildAugmentedPlan_single (ht : t.WellFormed) (hone : t.tr.length = 1) (fuel : Nat) :
    buildAugmentedPlan nameMap attrType getStr t fuel = .running := by
  have hround : buildRound nameMap attrType getStr t ⟨[], []⟩ = some ⟨[], []⟩ := by
    simp only [buildRound, findNodeToBuild_leaves [] (leaf_of_length_one ht hone),
      Option.bind_eq_bind, Option.bind_some, List.foldlM_nil, Option.pure_def]
  rw [buildAugmentedPlan]
  induction fuel with
  | zero => simp [buildLoop, hone]
  | succ fuel ih => simp only [buildLoop, hone, List.length_nil, Nat.one_pos, if_true, hround, ih]

theorem buildAugmentedPlan_undefined (ht : t.WellFormed) (hlen : 1 < t.tr.length) (fuel : Nat) :
    buildAugmentedPlan nameMap attrType getStr t (fuel + 1) = .undefined := by
  obtain ⟨p, nd, hp, hchild⟩ := inner_of_length ht hlen
  have hround : buildRound nameMap attrType getStr t ⟨[], []⟩ = none := by
    simp only [buildRound, findNodeToBuild_undefined hp hchild, Option.bind_eq_bind, Option.bind_none]
  have hmore : 0 < t.tr.length := by omega
  simp only [buildAugmentedPlan, buildLoop, List.length_nil, hmore, if_true, hround]

/-- A tree of one node keeps the loop running; any other makes `find_node_to_build` read an empty vector. -/
theorem plan_never_completed (ht : t.WellFormed) :
    (t.tr.length = 1 → ∀ fuel, buildAugmentedPlan nameMap attrType getStr t fuel = .running) ∧
    (1 < t.tr.length → ∀ fuel, buildAugmentedPlan nameMap attrType getStr t (fuel + 1) = .undefined) ∧
    ¬ ∃ fuel b, buildAugmentedPlan nameMap attrType getStr t fuel = .returns b ∧ b.Complete t := by
  refine ⟨buildAugmentedPlan_single ht, buildAugmentedPlan_undefined ht, ?_⟩
  rintro ⟨fuel, b, hb, -⟩
  have hpos : 0 < t.tr.length := by
    obtain ⟨-, n, hn, -⟩ := ht.root
    exact Nat.zero_lt_of_lt (List.getElem?_eq_some_iff.1 hn).1
  by_cases hone : t.tr.length = 1
  · rw [buildAugmentedPlan_single ht hone] at hb
    cases hb
  · cases fuel with
    | zero =>
      simp only [buildAugmentedPlan, buildLoop, List.length_nil, hpos, if_true] at hb
      cases hb
    | succ fuel =>
      rw [buildAugmentedPlan_undefined ht (by omega)] at hb
      cases hb

end

/-- A Book fragment under the node 2, of which the titles are kept. -/
def bookFragment (i : Nat) : TreeNode where
  type := .fragment
  site := i
  parent := 2
  fname := ⟨"Book", i⟩
  attr := ["Book.id", "Book.title"]
  projection := ["Book.title"]

/-- The tree for the titles of the books with an id below 210000: two fragments and their union. -/
def booksTree : Tree where
  tr := [bookFragment 1, bookFragment 2, { type := .union, site := 2, child := [0, 1], attr := ["Book.title"] }]
  root := 2

theorem booksTree_wellFormed : booksTree.WellFormed where
  root := ⟨by decide, _, rfl, rfl⟩
  parent := by
    intro i n hn hne
    have hi : i < 3 := (List.getElem?_eq_some_iff.1 hn).1
    have hi2 : i ≠ 2 := fun heq => hne (by rw [heq]; rfl)
    refine ⟨2, _, ?_, rfl, ?_, fun p' m' hm' hmem => ?_⟩
    · obtain rfl | rfl : i = 0 ∨ i = 1 := by omega
      all_goals
        cases hn
        rfl
    · obtain rfl | rfl : i = 0 ∨ i = 1 := by omega
      all_goals rfl
    · have hp : p' < 3 := (List.getElem?_eq_some_iff.1 hm').1
      obtain rfl | rfl | rfl : p' = 0 ∨ p' = 1 ∨ p' = 2 := by omega
      · cases hm'
        cases hmem
      · cases hm'
        cases hmem
      · rfl
  child := by
    intro p m hm i hi
    have hp : p < 3 := (List.getElem?_eq_some_iff.1 hm).1
    obtain rfl | rfl | rfl : p = 0 ∨ p = 1 ∨ p = 2 := by omega
    · cases hm
      cases hi
    · cases hm
      cases hi
    · cases hm
      simp only [List.mem_cons, List.not_mem_nil, or_false] at hi
      obtain rfl | rfl := hi
      · exact ⟨_, rfl, rfl⟩
      · exact ⟨_, rfl, rfl⟩
  reaches := by
    intro i hi
    change i < 3 at hi
    obtain rfl | rfl | rfl : i = 0 ∨ i = 1 ∨ i = 2 := by omega
    · exact .single ⟨_, rfl, rfl⟩
    · exact .single ⟨_, rfl, rfl⟩
    · exact .refl

theorem booksTree_not_built : booksTree.WellFormed ∧
    ¬ ∃ fuel b, buildAugmentedPlan (fun _ => "ddb1") (fun _ => "char(100)") (fun _ => "") booksTree fuel =
      .returns b ∧ b.Complete booksTree :=
  ⟨booksTree_wellFormed, (plan_never_completed booksTree_wellFormed).2.2⟩

/-- The first round already reads `already_built[0]`, which does not exist. -/
theorem booksTree_undefined : booksTree.WellFormed ∧
    buildAugmentedPlan (fun _ => "ddb0") (fun _ => "char(100)") (fun _ => "") booksTree 1 = .undefined :=
  ⟨booksTree_wellFormed, rfl⟩

/-! ## Names -/

section
variable {nameMap : Int → String} {attrType : String → String} {getStr : Condition → String} {t : Tree}

variable (nameMap attrType getStr t) in
/-- A plan with the node of every index at that index, the plan itself being read for the children. -/
structure PlanFor (plan : List Draft) : Prop where
  length : plan.length = t.tr.length
  node : ∀ i < t.tr.length, transferToAugNode nameMap attrType getStr t i plan = plan[i]?

def Draft.saved (d : Draft) : List String := d.columns.map Prod.fst

/-- What the statements of the node `n` and its child `c` should agree on. -/
structure NamesClosed (t : Tree) (plan : List Draft) (n c : Nat) : Prop where
  table : ∀ nd d, t.tr[n]? = some nd → plan[n]? = some d → ∀ j : Nat, nd.child[j]? = some c →
    ∃ name, d.statement.tables[j]? = some name ∧ createdTable c = name ∧ insertedTable c = name ∧
      deletedTable c = name
  columns : ∀ d dc, plan[n]? = some d → plan[c]? = some dc → ∀ r ∈ d.statement.refs, r.table = tableRead c →
    r.column ∈ dc.saved
  distinct : ∀ dc, plan[c]? = some dc → dc.saved.Nodup

theorem createdTable_ne_insertedTable (i : Nat) : createdTable i ≠ insertedTable i := by
  intro h
  have hlength := congrArg String.length h
  simp only [createdTable, insertedTable, String.length_append] at hlength
  have hnode : "node".length = 4 := rfl
  omega

/-- The name in `create table` is never the one the rows are inserted under. -/
theorem names_never_closed {plan : List Draft} (hplan : PlanFor nameMap attrType getStr t plan) {n c : Nat}
    {nd : TreeNode} (hn : t.tr[n]? = some nd) (hc : c ∈ nd.child) : ¬ NamesClosed t plan n c := by
  intro h
  have hlt : n < plan.length := hplan.length ▸ (List.getElem?_eq_some_iff.1 hn).1
  obtain ⟨j, hj⟩ := List.mem_iff_getElem?.1 hc
  obtain ⟨name, -, hcreated, hinserted, -⟩ := h.table nd _ hn (List.getElem?_eq_getElem hlt) j hj
  exact createdTable_ne_insertedTable c (hcreated.trans hinserted.symm)

/-- The plan for `booksTree` that the construction does not reach. -/
def booksDrafts : List Draft :=
  [⟨0, 2, "ddb1", .fragment ["Book.title"] "Book" [], [("title", "char(100)")]⟩,
    ⟨1, 2, "ddb1", .fragment ["Book.title"] "Book" [], [("title", "char(100)")]⟩,
    ⟨2, -1, "ddb1", .union ["0", "1"], [("title", "char(100)")]⟩]

theorem booksDrafts_planFor :
    PlanFor (fun _ => "ddb1") (fun _ => "char(100)") (fun _ => "") booksTree booksDrafts where
  length := rfl
  node := by decide +kernel

theorem booksDrafts_names : PlanFor (fun _ => "ddb1") (fun _ => "char(100)") (fun _ => "") booksTree booksDrafts ∧
    ¬ NamesClosed booksTree booksDrafts 2 1 :=
  ⟨booksDrafts_planFor, names_never_closed (n := 2) booksDrafts_planFor rfl (by decide)⟩

/-- The rows of the first fragment go to a table that was not created. -/
theorem booksDrafts_open : booksDrafts.head?.map createSql = some "create table node0(title char(100),)" ∧
    insertSql 0 "('A')" = "insert into 0 values ('A')" ∧ ¬ NamesClosed booksTree booksDrafts 2 0 := by
  refine ⟨by decide +kernel, by decide +kernel, fun h => ?_⟩
  obtain ⟨name, -, hcreated, hinserted, -⟩ := h.table _ _ rfl rfl 0 rfl
  exact createdTable_ne_insertedTable 0 (hcreated.trans hinserted.symm)

theorem attrName_plain {attr name : String} (h : attrName attr = some name) : '.' ∉ name.toList := by
  simp only [attrName, Option.bind_eq_bind, Option.bind_eq_some_iff] at h
  obtain ⟨⟨before, behind⟩, -, h⟩ := h
  cases hcut : cut ['.'] behind with
  | none =>
    simp only [hcut, Option.some.injEq] at h
    rw [← h, String.toList_ofList]
    intro hmem
    exact cut_eq_none_iff.1 hcut ((List.singleton_infix_iff _ _).2 hmem)
  | some parts =>
    simp only [hcut, Option.some.injEq] at h
    rw [← h, String.toList_ofList]
    exact notMem_of_cut_singleton hcut

theorem saveColumns_plain {nd : TreeNode} {columns : List (String × String)}
    (h : saveColumns attrType nd = some columns) : ∀ c ∈ columns, '.' ∉ c.1.toList := by
  rw [saveColumns, Pointwise.mapM_eq_some_iff] at h
  generalize nd.output = attrs at h
  induction h with
  | nil => simp
  | cons hattr _ ih =>
    obtain ⟨name, hname, rfl⟩ := Option.map_eq_some_iff.1 hattr
    exact List.forall_mem_cons.2 ⟨attrName_plain hname, ih⟩

/-- What a node defines: the columns printed for it or, for a Union node, those of its first child. -/
theorem transferToAugNode_columns {i : Nat} {plan : List Draft} {d : Draft}
    (h : transferToAugNode nameMap attrType getStr t i plan = some d) :
    ∃ nd, t.tr[i]? = some nd ∧ (saveColumns attrType nd = some d.columns ∨
      ∃ c dc, c ∈ nd.child ∧ plan[c]? = some dc ∧ d.columns = dc.columns) := by
  simp only [transferToAugNode, Option.bind_eq_bind, Option.bind_eq_some_iff] at h
  obtain ⟨nd, hnd, h⟩ := h
  refine ⟨nd, hnd, ?_⟩
  cases htype : nd.type with
  | fragment =>
    simp only [htype, Option.bind_eq_some_iff, Option.some.injEq] at h
    obtain ⟨columns, hcolumns, rfl⟩ := h
    exact .inl hcolumns
  | join =>
    simp only [htype, Option.bind_eq_some_iff, Option.some.injEq] at h
    obtain ⟨-, -, -, -, -, -, columns, hcolumns, rfl⟩ := h
    exact .inl hcolumns
  | union =>
    simp only [htype, Option.bind_eq_some_iff, Option.some.injEq] at h
    obtain ⟨c, hc, dc, hdc, rfl⟩ := h
    exact .inr ⟨c, dc, List.mem_of_getElem? hc, hdc, rfl⟩

theorem saved_plain (ht : t.WellFormed) {plan : List Draft} (hplan : PlanFor nameMap attrType getStr t plan) :
    ∀ (i : Nat) d, plan[i]? = some d → ∀ name ∈ d.saved, '.' ∉ name.toList := by
  by_contra hnot
  have hbad : ∃ i < t.tr.length, ∃ d, plan[i]? = some d ∧ ∃ name ∈ d.saved, '.' ∈ name.toList := by
    push Not at hnot
    obtain ⟨i, d, hd, name, hname, hdot⟩ := hnot
    exact ⟨i, hplan.length ▸ (List.getElem?_eq_some_iff.1 hd).1, d, hd, name, hname, hdot⟩
  obtain ⟨i, hi, ⟨d, hd, name, hname, hdot⟩, hlowest⟩ := exists_lowest ht.root.2 ht.reaches hbad
  obtain ⟨nd, hnd, hown | ⟨c, dc, hc, hdc, hsame⟩⟩ := transferToAugNode_columns ((hplan.node i hi).trans hd)
  · obtain ⟨column, hcolumn, rfl⟩ := List.mem_map.1 hname
    exact saveColumns_plain hown column hcolumn hdot
  · refine hlowest c (ht.child i nd hnd c hc) ⟨dc, hdc, name, ?_, hdot⟩
    rw [Draft.saved, ← hsame]
    exact hname

/-- The select list of a Join node repeats the qualified names of its projection behind the number of a child, and
no table has a column of such a name. -/
theorem join_selects_unsaved (ht : t.WellFormed) {plan : List Draft} (hplan : PlanFor nameMap attrType getStr t plan)
    {n : Nat} {nd : TreeNode} {attr : String} (hn : t.tr[n]? = some nd) (hjoin : nd.type = .join)
    (hattr : attr ∈ nd.projection) (hdot : '.' ∈ attr.toList) :
    ∃ d, plan[n]? = some d ∧ ∃ r ∈ d.statement.refs, r.column = attr ∧
      ∀ (c : Nat) dc, plan[c]? = some dc → r.column ∉ dc.saved := by
  have hlt : n < t.tr.length := (List.getElem?_eq_some_iff.1 hn).1
  obtain ⟨d, hd⟩ : ∃ d, plan[n]? = some d := ⟨_, List.getElem?_eq_getElem (hplan.length.symm ▸ hlt)⟩
  have htransfer := (hplan.node n hlt).trans hd
  simp only [transferToAugNode, hn, hjoin, Option.bind_eq_bind, Option.bind_some, Option.bind_eq_some_iff,
    Option.some.injEq] at htransfer
  obtain ⟨c₀, -, c₁, -, left, -, columns, -, hdraft⟩ := htransfer
  have hcolumn : (joinColumn c₀ c₁ left attr).column = attr := by
    unfold joinColumn
    split_ifs <;> rfl
  refine ⟨d, hd, joinColumn c₀ c₁ left attr, ?_, hcolumn, fun c dc hdc hmem => ?_⟩
  · rw [← hdraft]
    exact List.mem_append_left _ (List.mem_map_of_mem hattr)
  · rw [hcolumn] at hmem
    exact saved_plain ht hplan c dc hdc attr hmem hdot

end

end EasyDDB.Execution
