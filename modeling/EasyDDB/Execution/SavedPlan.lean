import EasyDDB.Execution.Order
import EasyDDB.Lib.Pointwise
import EasyDDB.Lib.Strings

/-! # Saving and loading a plan

`save_plan_to_etcd` and `get_plan_from_etcd` over a map from keys to values, key by key as the source spells the
keys.  The reader is taken to return the plan it has built, a field it does not set is empty, and a key without a
value reads as the empty text. -/
namespace EasyDDB.Execution
open Strings
set_option autoImplicit false

abbrev KeyValue := Text → Text

def etcdSet (e : KeyValue) (key value : Text) : KeyValue := Function.update e key value

/-- `std::to_string(i) + field` -/
def nodeKey (i : Nat) (field : String) : Text := numeral i ++ field.toList

/-- One round of the loop of `save_plan_to_etcd`. -/
def saveNode (e : KeyValue) (i : Nat) (node : AugPlanNode) : KeyValue :=
  let e := etcdSet e (nodeKey i "parent_id") (toText node.parentId)
  let e := etcdSet e (nodeKey i "execute_site") node.executeSite.toList
  let e := etcdSet e (nodeKey i "sql") node.sql.toList
  let e := etcdSet e (nodeKey i "savesql") node.savesql.toList
  etcdSet e (nodeKey i "is_finished") (toText node.isFinished)

/-- `save_plan_to_etcd` -/
def savePlanToEtcd (plan : AugmentedPlan) (e : KeyValue) : KeyValue :=
  plan.zipIdx.foldl (fun e (node, i) => saveNode e i node) (etcdSet e "node_num".toList (toText plan.length))

/-- One round of the loop of `get_plan_from_etcd`; `stoi` throws where there is no number or none that is an `int`. -/
def getNode (e : KeyValue) (i : Nat) : Option AugPlanNode := do
  let sql := String.ofList (e (nodeKey i "sql"))
  let saveSql := String.ofList (e (nodeKey i "save_sql"))
  let isFinished ← stoi (e (nodeKey i "is_finished"))
  let parentId ← stoi (e (nodeKey i "parent_id"))
  some ⟨i, parentId, "", sql, saveSql, isFinished⟩

/-- `get_plan_from_etcd`: `node_num` and the nodes. -/
def getPlanFromEtcd (e : KeyValue) : Option (Int × AugmentedPlan) := do
  let nodeNum ← stoi (e "plan_num".toList)
  let nodes ← (List.range nodeNum.toNat).mapM (getNode e)
  some (nodeNum, nodes)

/-! ## Keys -/

/-- The field names begin with a letter. -/
def IsField (field : String) : Prop := (field.toList.head?.all fun c => !c.isDigit) = true

instance (field : String) : Decidable (IsField field) := inferInstanceAs (Decidable (_ = true))

theorem IsField.head {field : String} (h : IsField field) : ∀ c ∈ field.toList.head?, c.isDigit = false := by
  intro c hc
  rw [IsField, Option.mem_def.1 hc] at h
  simpa using h

theorem nodeKey_inj {i j : Nat} {f g : String} (hf : IsField f) (hg : IsField g) :
    nodeKey i f = nodeKey j g ↔ i = j ∧ f = g := by
  constructor
  · intro h
    obtain ⟨hij, hfg⟩ := numeral_append_inj hf.head hg.head h
    exact ⟨hij, String.toList_injective hfg⟩
  · rintro ⟨rfl, rfl⟩
    rfl

theorem nodeKey_ne {i : Nat} {f key : String} (hkey : IsField key) : nodeKey i f ≠ key.toList := by
  intro h
  obtain ⟨c, rest, hc⟩ := List.exists_cons_of_ne_nil (numeral_ne_nil i)
  have hdigit : c.isDigit = true := isDigit_of_mem_numeral (hc ▸ List.mem_cons_self ..)
  have hletter : c.isDigit = false := hkey.head c (by rw [← h, nodeKey, hc]; rfl)
  rw [hdigit] at hletter
  cases hletter

/-! ## What saving leaves behind -/

/-- The text `save_plan_to_etcd` writes for a field of a node, if it writes that field. -/
def savedField (node : AugPlanNode) (field : String) : Option Text :=
  if field = "is_finished" then some (toText node.isFinished)
  else if field = "savesql" then some node.savesql.toList
  else if field = "sql" then some node.sql.toList
  else if field = "execute_site" then some node.executeSite.toList
  else if field = "parent_id" then some (toText node.parentId)
  else none

theorem etcdSet_nodeKey (e : KeyValue) {i j : Nat} {f g : String} (value : Text) (hf : IsField f) (hg : IsField g) :
    etcdSet e (nodeKey i f) value (nodeKey j g) = if j = i ∧ g = f then value else e (nodeKey j g) := by
  simp only [etcdSet, Function.update_apply, nodeKey_inj hg hf]

theorem saveNode_nodeKey (e : KeyValue) (node : AugPlanNode) {i j : Nat} {f : String} (hf : IsField f) :
    saveNode e i node (nodeKey j f) =
      if j = i then (savedField node f).getD (e (nodeKey j f)) else e (nodeKey j f) := by
  have hfields : ∀ g ∈ ["parent_id", "execute_site", "sql", "savesql", "is_finished"], IsField g := by decide
  simp only [List.forall_mem_cons, List.not_mem_nil, false_implies, implies_true, and_true] at hfields
  obtain ⟨hparent, hsite, hsql, hsave, hflag⟩ := hfields
  simp only [saveNode, etcdSet_nodeKey _ _ hparent hf, etcdSet_nodeKey _ _ hsite hf, etcdSet_nodeKey _ _ hsql hf,
    etcdSet_nodeKey _ _ hsave hf, etcdSet_nodeKey _ _ hflag hf, savedField]
  by_cases hj : j = i
  · simp only [hj, true_and, if_true]
    split_ifs <;> rfl
  · simp only [hj, false_and, if_false]

theorem saveNode_letterKey (e : KeyValue) (node : AugPlanNode) (i : Nat) {key : String} (hkey : IsField key) :
    saveNode e i node key.toList = e key.toList := by
  simp only [saveNode, etcdSet, Function.update_of_ne (nodeKey_ne hkey).symm]

theorem saveNodes_nodeKey (plan : AugmentedPlan) (e : KeyValue) (j : Nat) {f : String} (hf : IsField f) :
    plan.zipIdx.foldl (fun e (node, i) => saveNode e i node) e (nodeKey j f) =
      ((plan[j]?).bind (savedField · f)).getD (e (nodeKey j f)) := by
  induction plan using List.reverseRecOn with
  | nil => rfl
  | append_singleton plan node ih =>
    simp only [List.zipIdx_append, List.foldl_append, List.zipIdx_cons, List.zipIdx_nil, List.foldl_cons,
      List.foldl_nil, saveNode_nodeKey _ _ hf, ih, Nat.zero_add]
    by_cases hj : j = plan.length
    · subst hj
      simp
    · rw [if_neg hj]
      by_cases hlt : j < plan.length
      · rw [List.getElem?_append_left hlt]
      · rw [List.getElem?_eq_none (by omega), List.getElem?_eq_none (by simp; omega)]

theorem saveNodes_letterKey (plan : AugmentedPlan) (e : KeyValue) {key : String} (hkey : IsField key) :
    plan.zipIdx.foldl (fun e (node, i) => saveNode e i node) e key.toList = e key.toList := by
  induction plan using List.reverseRecOn with
  | nil => rfl
  | append_singleton plan node ih =>
    simp only [List.zipIdx_append, List.foldl_append, List.zipIdx_cons, List.zipIdx_nil, List.foldl_cons,
      List.foldl_nil, saveNode_letterKey _ _ _ hkey, ih]

theorem savePlan_nodeKey (plan : AugmentedPlan) (e : KeyValue) {j : Nat} {node : AugPlanNode} {f : String}
    (hf : IsField f) (hnode : plan[j]? = some node) :
    savePlanToEtcd plan e (nodeKey j f) = (savedField node f).getD (e (nodeKey j f)) := by
  have hnum : nodeKey j f ≠ "node_num".toList := nodeKey_ne (by decide)
  rw [savePlanToEtcd, saveNodes_nodeKey plan _ j hf, hnode, Option.bind_some, etcdSet, Function.update_of_ne hnum]

/-- The reader asks for `plan_num`, which the writer never sets. -/
theorem savePlan_planNum (plan : AugmentedPlan) (e : KeyValue) :
    savePlanToEtcd plan e "plan_num".toList = e "plan_num".toList := by
  rw [savePlanToEtcd, saveNodes_letterKey plan _ (by decide), etcdSet, Function.update_of_ne (by decide)]

/-! ## Loading what was saved -/

/-- The node at `i` as it is read back: without its site, with the definition an earlier plan left under
`save_sql`. -/
theorem getNode_saved (plan : AugmentedPlan) (e : KeyValue) {i : Nat} {node : AugPlanNode}
    (hnode : plan[i]? = some node) :
    getNode (savePlanToEtcd plan e) i =
      if IsInt node.parentId ∧ IsInt node.isFinished then
        some ⟨i, node.parentId, "", node.sql, String.ofList (e (nodeKey i "save_sql")), node.isFinished⟩
      else none := by
  have hsql : savePlanToEtcd plan e (nodeKey i "sql") = node.sql.toList :=
    savePlan_nodeKey plan e (by decide) hnode
  have hsave : savePlanToEtcd plan e (nodeKey i "save_sql") = e (nodeKey i "save_sql") :=
    savePlan_nodeKey plan e (by decide) hnode
  have hflag : savePlanToEtcd plan e (nodeKey i "is_finished") = toText node.isFinished :=
    savePlan_nodeKey plan e (by decide) hnode
  have hparent : savePlanToEtcd plan e (nodeKey i "parent_id") = toText node.parentId :=
    savePlan_nodeKey plan e (by decide) hnode
  simp only [getNode, hsql, hsave, hflag, hparent, stoi_toText, Option.bind_eq_bind, String.ofList_toList]
  by_cases hflag' : IsInt node.isFinished <;> by_cases hparent' : IsInt node.parentId <;> simp [hflag', hparent']

theorem getPlanFromEtcd_eq_iff {e : KeyValue} {plan : AugmentedPlan} :
    getPlanFromEtcd e = some ((plan.length : Int), plan) ↔ stoi (e "plan_num".toList) = some (plan.length : Int) ∧
      ∀ (i : Nat) node, plan[i]? = some node → getNode e i = some node := by
  have hloop : (List.range plan.length).mapM (getNode e) = some plan ↔
      ∀ (i : Nat) node, plan[i]? = some node → getNode e i = some node := by
    rw [Pointwise.mapM_eq_some_iff, Pointwise.forall₂_range_iff]
  constructor
  · intro h
    simp only [getPlanFromEtcd, Option.bind_eq_bind, Option.bind_eq_some_iff, Option.some.injEq,
      Prod.mk.injEq] at h
    obtain ⟨nodeNum, hnum, nodes, hnodes, rfl, rfl⟩ := h
    rw [Int.toNat_natCast] at hnodes
    exact ⟨hnum, hloop.1 hnodes⟩
  · rintro ⟨hnum, hnodes⟩
    simp only [getPlanFromEtcd, hnum, Option.bind_eq_bind, Option.bind_some, Int.toNat_natCast, hloop.2 hnodes]

/-- Loading gives back a saved plan exactly where another writer has left its size under `plan_num`, no node has a
site, and what is found under `save_sql` happens to be the node's own definition. The numbers of a node are `int`s. -/
theorem load_saved_plan_iff (plan : AugmentedPlan) (e : KeyValue)
    (hid : ∀ (i : Nat) node, plan[i]? = some node → node.nodeId = i) :
    getPlanFromEtcd (savePlanToEtcd plan e) = some ((plan.length : Int), plan) ↔
      stoi (e "plan_num".toList) = some (plan.length : Int) ∧
        ∀ (i : Nat) node, plan[i]? = some node →
          (node.executeSite = "" ∧ e (nodeKey i "save_sql") = node.savesql.toList) ∧
            IsInt node.parentId ∧ IsInt node.isFinished := by
  rw [getPlanFromEtcd_eq_iff, savePlan_planNum]
  refine and_congr_right fun _ => forall_congr' fun i => forall_congr' fun node => forall_congr' fun hnode => ?_
  rw [getNode_saved plan e hnode]
  have hi := hid i node hnode
  obtain ⟨nodeId, parentId, executeSite, sql, savesql, isFinished⟩ := node
  dsimp only at hi
  subst hi
  simp only [Option.ite_none_right_eq_some, Option.some.injEq, AugPlanNode.mk.injEq, true_and, and_true]
  rw [and_comm]
  refine and_congr_left fun _ => ⟨?_, ?_⟩
  · rintro ⟨hsite, hsave⟩
    exact ⟨hsite.symm, by rw [← hsave, String.toList_ofList]⟩
  · rintro ⟨hsite, hsave⟩
    exact ⟨hsite.symm, by rw [hsave, String.ofList_toList]⟩

/-- On an empty store `stoi` finds no number under `plan_num`. -/
theorem booksPlan_not_loaded : getPlanFromEtcd (savePlanToEtcd booksPlan fun _ => []) = none := by
  have hnum : stoi (savePlanToEtcd booksPlan (fun _ => []) "plan_num".toList) = none := by
    rw [savePlan_planNum]
    rfl
  rw [getPlanFromEtcd, hnum]
  rfl

/-- A plan of two nodes without sites. -/
def siteless : AugmentedPlan :=
  [⟨0, 1, "", "select Book.title from Book", "(title char(100),)", 0⟩,
    ⟨1, -1, "", "select tmp_0.title from tmp_0", "(title char(100),)", 0⟩]

/-- A store to which it can be saved and loaded again. -/
def preparedStore : KeyValue :=
  etcdSet (etcdSet (etcdSet (fun _ => []) "plan_num".toList "2".toList)
    (nodeKey 0 "save_sql") "(title char(100),)".toList) (nodeKey 1 "save_sql") "(title char(100),)".toList

theorem preparedStore_loads :
    getPlanFromEtcd (savePlanToEtcd siteless preparedStore) = some (2, siteless) := by
  refine (load_saved_plan_iff _ preparedStore fun i node hnode => ?_).2 ⟨by decide +kernel, fun i node hnode => ?_⟩
  · match i with
    | 0 | 1 => obtain rfl := Option.some.inj hnode; rfl
    | _ + 2 => cases hnode
  · match i with
    | 0 | 1 => obtain rfl := Option.some.inj hnode; exact ⟨⟨rfl, by decide +kernel⟩, by decide⟩
    | _ + 2 => cases hnode

end EasyDDB.Execution
