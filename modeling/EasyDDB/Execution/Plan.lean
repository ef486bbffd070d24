import EasyDDB.Lib.Arena

/-! # Augmented plans

`AugPlanNode` and `AugmentedPlan` of `db.cpp`, the choice of the nodes a scan is going to execute, and what it
means for the parent links of a plan to form a tree. -/
namespace EasyDDB.Execution
set_option autoImplicit false

structure AugPlanNode where
  nodeId : Nat
  /-- `-1` for the root. -/
  parentId : Int
  executeSite : String
  sql : String
  savesql : String
  isFinished : Int
deriving DecidableEq, Repr

/-- The nodes of an `AugmentedPlan`; `node_num` is their number. -/
abbrev AugmentedPlan := List AugPlanNode

/-- The node without its flag: what `save_plan_to_etcd` writes and nothing changes afterwards. -/
def AugPlanNode.unflagged (node : AugPlanNode) : AugPlanNode := { node with isFinished := 0 }

/-! ## The nodes to execute -/

def childNum (plan : AugmentedPlan) (i : Nat) : Nat :=
  plan.countP fun node => node.parentId == (i : Int)

def childFinishedNum (plan : AugmentedPlan) (i : Nat) : Nat :=
  plan.countP fun node => node.parentId == (i : Int) && node.isFinished == 1

/-- The test of `plan_scan` for the node at position `i`. -/
def isReady (site : String) (plan : AugmentedPlan) (i : Nat) : Bool :=
  match plan[i]? with
  | some node => node.isFinished == 0 && childNum plan i == childFinishedNum plan i && node.executeSite == site
  | none => false

/-- The vector `to_execute` of `plan_scan`. -/
def toExecute (site : String) (plan : AugmentedPlan) : List Nat :=
  (List.range plan.length).filter (isReady site plan)

/-- The positions whose data `data_push` deletes after the node `i` has been executed. -/
def childrenOf (plan : AugmentedPlan) (i : Nat) : List Nat :=
  (List.range plan.length).filter fun j =>
    match plan[j]? with
    | some node => node.parentId == (i : Int)
    | none => false

/-- `plan.augplannodes[parent_id]`, undefined outside the vector. -/
def nodeAt (plan : AugmentedPlan) (parentId : Int) : Option AugPlanNode :=
  if 0 ≤ parentId then plan[parentId.toNat]? else none

@[simp] theorem nodeAt_natCast (plan : AugmentedPlan) (i : Nat) : nodeAt plan i = plan[i]? := by
  simp [nodeAt]

theorem childNum_eq_iff {plan : AugmentedPlan} {i : Nat} :
    childNum plan i = childFinishedNum plan i ↔ ∀ node ∈ plan, node.parentId = (i : Int) → node.isFinished = 1 := by
  induction plan with
  | nil => simp [childNum, childFinishedNum]
  | cons node plan ih =>
    have hle : childFinishedNum plan i ≤ childNum plan i :=
      List.countP_mono_left fun x _ hx => by simp only [Bool.and_eq_true] at hx; exact hx.1
    simp only [childNum, childFinishedNum, List.countP_cons, Bool.and_eq_true, beq_iff_eq] at ih hle ⊢
    by_cases hp : node.parentId = i
    · by_cases hf : node.isFinished = 1
      · simp only [hp, hf, true_and, if_true, List.forall_mem_cons, Nat.add_right_cancel_iff, ih, forall_const]
      · simp only [hp, hf, and_false, if_true, if_false, List.forall_mem_cons, forall_const, false_and, iff_false]
        omega
    · simp only [hp, false_and, if_false, List.forall_mem_cons, Nat.add_zero, ih, false_implies, true_and]

theorem isReady_iff {site : String} {plan : AugmentedPlan} {i : Nat} :
    isReady site plan i = true ↔ ∃ node, plan[i]? = some node ∧ node.isFinished = 0 ∧ node.executeSite = site ∧
      ∀ child ∈ plan, child.parentId = (i : Int) → child.isFinished = 1 := by
  unfold isReady
  cases hi : plan[i]? with
  | none => simp
  | some node =>
    simp only [Bool.and_eq_true, beq_iff_eq, childNum_eq_iff, Option.some.injEq, exists_eq_left']
    constructor
    · rintro ⟨⟨hf, hc⟩, hs⟩
      exact ⟨hf, hs, hc⟩
    · rintro ⟨hf, hs, hc⟩
      exact ⟨⟨hf, hc⟩, hs⟩

theorem mem_toExecute {site : String} {plan : AugmentedPlan} {i : Nat} :
    i ∈ toExecute site plan ↔ ∃ node, plan[i]? = some node ∧ node.isFinished = 0 ∧ node.executeSite = site ∧
      ∀ child ∈ plan, child.parentId = (i : Int) → child.isFinished = 1 := by
  rw [toExecute, List.mem_filter, isReady_iff, List.mem_range, and_iff_right_iff_imp]
  rintro ⟨node, hi, -⟩
  exact (List.getElem?_eq_some_iff.1 hi).1

/-! ## Plan trees -/

/-- Position `c` holds a child of the node at position `i`. -/
def IsChild (plan : AugmentedPlan) (c i : Nat) : Prop := Arena.Up AugPlanNode.parentId plan c i

/-- The plan is a tree: parents lead from every node to the root, which has none. -/
structure PlanTree (plan : AugmentedPlan) (root : Nat) : Prop where
  root_node : Arena.IsRoot AugPlanNode.parentId plan root
  descends : ∀ i < plan.length, Relation.ReflTransGen (IsChild plan) i root

namespace PlanTree
variable {plan : AugmentedPlan} {root : Nat}

theorem exists_parent (h : PlanTree plan root) {i : Nat} (hi : i < plan.length) (hne : i ≠ root) :
    ∃ p < plan.length, IsChild plan i p :=
  Arena.exists_parent h.root_node h.descends hi hne

theorem parent_lt (h : PlanTree plan root) {c i : Nat} (hc : IsChild plan c i) : i < plan.length := by
  have hne : c ≠ root := fun heq => h.root_node.not_up (heq ▸ hc)
  obtain ⟨p, hp, hup⟩ := h.exists_parent hc.lt hne
  exact hc.unique hup ▸ hp

theorem parentId_eq_neg_one_iff (h : PlanTree plan root) {i : Nat} {node : AugPlanNode}
    (hi : plan[i]? = some node) : node.parentId = -1 ↔ i = root := by
  constructor
  · intro hp
    by_contra hne
    obtain ⟨p, -, hup⟩ := h.exists_parent (List.getElem?_eq_some_iff.1 hi).1 hne
    exact (Arena.IsRoot.not_up ⟨node, hi, hp⟩) hup
  · rintro rfl
    obtain ⟨node', hnode', hp⟩ := h.root_node
    rw [hi, Option.some.injEq] at hnode'
    rw [hnode', hp]

theorem exists_lowest (h : PlanTree plan root) {U : Nat → Prop} (hne : ∃ i < plan.length, U i) :
    ∃ i < plan.length, U i ∧ ∀ c, IsChild plan c i → ¬ U c :=
  Arena.exists_lowest h.root_node h.descends hne

end PlanTree

end EasyDDB.Execution
