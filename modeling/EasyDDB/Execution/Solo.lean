import EasyDDB.Execution.Order

/-! # A scan that runs on its own

What a process does when no other process takes a step: it reads the current flags, executes the nodes it has
found ready one after the other, and leaves a forked scan for each node that has a parent. -/
namespace EasyDDB.Execution
open Pool (Leads)
set_option autoImplicit false

/-! ## Counting executions -/

/-- The site the rows of node `i` are inserted at, none for the root. -/
def targetSite (plan : AugmentedPlan) (i : Nat) : Option String := do
  let node ← plan[i]?
  let parent ← nodeAt plan node.parentId
  some parent.executeSite

def Event.isInsertion (i : Nat) (site : String) : Event → Bool
  | .inserted j s _ => j == i && s == site
  | .written _ _ _ => false

def Event.isResult : Event → Bool
  | .inserted _ _ _ => false
  | .written _ _ _ => true

/-- How often the rows of node `i` have been inserted at the site of its parent; for the root, how often a result
has been written. -/
def executions (plan : AugmentedPlan) (log : List Event) (i : Nat) : Nat :=
  match targetSite plan i with
  | some site => log.countP (Event.isInsertion i site)
  | none => log.countP Event.isResult

section
variable {plan : AugmentedPlan} {root : Nat}

theorem targetSite_eq_some_iff {i : Nat} {site : String} : targetSite plan i = some site ↔
    ∃ node parent, plan[i]? = some node ∧ nodeAt plan node.parentId = some parent ∧ parent.executeSite = site := by
  simp only [targetSite, Option.bind_eq_bind, Option.bind_eq_some_iff, Option.some.injEq, exists_and_left]

theorem targetSite_of_isChild {c i : Nat} {node : AugPlanNode} (hc : IsChild plan c i) (hi : plan[i]? = some node) :
    targetSite plan c = some node.executeSite := by
  obtain ⟨child, hchild, hparent⟩ := hc
  exact targetSite_eq_some_iff.2 ⟨child, node, hchild, by rw [hparent, nodeAt_natCast, hi], rfl⟩

theorem PlanTree.targetSite_root (htree : PlanTree plan root) : targetSite plan root = none := by
  obtain ⟨node, hnode, hparent⟩ := htree.root_node
  simp [targetSite, hnode, hparent, nodeAt]

theorem PlanTree.exists_targetSite (htree : PlanTree plan root) {i : Nat} (hi : i < plan.length) (hne : i ≠ root) :
    ∃ site, targetSite plan i = some site := by
  obtain ⟨p, hp, hchild⟩ := htree.exists_parent hi hne
  exact ⟨_, targetSite_of_isChild hchild (List.getElem?_eq_getElem hp)⟩

theorem executions_append (log log' : List Event) (i : Nat) :
    executions plan (log ++ log') i = executions plan log i + executions plan log' i := by
  unfold executions
  cases targetSite plan i with
  | none => exact List.countP_append
  | some site => exact List.countP_append

@[simp] theorem executions_nil (i : Nat) : executions plan [] i = 0 := by
  unfold executions
  cases targetSite plan i <;> rfl

theorem executions_inserted {k : Nat} {site : String} (hk : targetSite plan k = some site) (data : Text) (i : Nat) :
    executions plan [.inserted k site data] i = if i = k then 1 else 0 := by
  unfold executions
  by_cases hi : i = k
  · subst hi
    rw [if_pos rfl, hk]
    simp [Event.isInsertion]
  · rw [if_neg hi]
    cases targetSite plan i with
    | none => rfl
    | some s => simp [Event.isInsertion, Ne.symm hi]

theorem executions_written (htree : PlanTree plan root) (k : Nat) (file : String) (data : Text) {i : Nat}
    (hi : i < plan.length) : executions plan [.written k file data] i = if i = root then 1 else 0 := by
  unfold executions
  by_cases hroot : i = root
  · subst hroot
    rw [if_pos rfl, htree.targetSite_root]
    rfl
  · obtain ⟨site, hsite⟩ := htree.exists_targetSite hi hroot
    rw [if_neg hroot, hsite]
    rfl

end

/-! ## One node -/

section
variable {selectSql : SelectSql} {st : Store} {rest : List Proc} {log : List Event}

/-- The clock and the stream of a run on its own. -/
def quietEnv : Env := ⟨"result.txt", 0⟩

theorem leads_phase {p : Push} {phase phase' : Phase} {st' : Store}
    (h : pushStep quietEnv st p phase = ⟨st', [.push p phase'], []⟩) :
    Leads (procStep selectSql) ⟨st, .push p phase :: rest, log⟩ ⟨st', .push p phase' :: rest, log⟩ :=
  .silent quietEnv (congrArg some h) rfl

theorem leads_deleting (selectSql : SelectSql) (st : Store) (rest : List Proc) (log : List Event) (p : Push)
    (children : List Nat) :
    ∃ st', Leads (procStep selectSql) ⟨st, .push p (.deleting children) :: rest, log⟩
      ⟨st', .execute p.site p.plan p.rest :: rest, log⟩ ∧ st'.etcd = st.etcd := by
  induction children generalizing st with
  | nil => exact ⟨st, .silent quietEnv rfl rfl, rfl⟩
  | cons i children ih =>
    obtain ⟨st', hleads, hetcd⟩ := ih (st.deleteData i p.site)
    exact ⟨st', (leads_phase rfl).trans hleads, hetcd⟩

theorem leads_store (selectSql : SelectSql) (st : Store) (rest : List Proc) (log : List Event) (p : Push)
    (hroot : p.isRoot = false) :
    ∃ st', Leads (procStep selectSql) ⟨st, .push p .selected :: rest, log⟩
      ⟨st', .execute p.site p.plan p.rest :: .scanStart p.target :: rest,
        log ++ [.inserted p.nodeId p.target p.data]⟩ ∧ st'.etcd = (st.setNodeFinished p.nodeId).etcd := by
  have hinsert : Leads (procStep selectSql) ⟨st, .push p .selected :: rest, log⟩
      ⟨st.insert p.target p.nodeId p.data, .push p .inserted :: rest,
        log ++ [.inserted p.nodeId p.target p.data]⟩ := by
    by_cases htarget : p.target = p.site
    · have hstep : procStep selectSql quietEnv st (.push p .selected) =
          some ⟨st.insert p.target p.nodeId p.data, [.push p .inserted], [.inserted p.nodeId p.target p.data]⟩ := by
        simp only [procStep, pushStep, hroot, if_pos htarget, Bool.false_eq_true, if_false]
      exact Leads.single quietEnv hstep rfl
    · have hstep : procStep selectSql quietEnv st (.push p .selected) = some ⟨st, [.push p .sent], []⟩ := by
        simp only [procStep, pushStep, hroot, if_neg htarget, Bool.false_eq_true, if_false]
      have hreceive : procStep selectSql quietEnv st (.push p .sent) =
          some ⟨st.insert p.target p.nodeId p.data, [.push p .inserted], [.inserted p.nodeId p.target p.data]⟩ := rfl
      exact (Leads.silent quietEnv hstep rfl).trans (Leads.single quietEnv hreceive rfl)
  have hflag : Leads (procStep selectSql)
      ⟨st.insert p.target p.nodeId p.data, .push p .inserted :: rest, log ++ [.inserted p.nodeId p.target p.data]⟩
      ⟨(st.insert p.target p.nodeId p.data).setNodeFinished p.nodeId,
        .push p (.deleting (childrenOf p.plan p.nodeId)) :: .scanStart p.target :: rest,
        log ++ [.inserted p.nodeId p.target p.data]⟩ :=
    (leads_phase rfl).trans (.silent quietEnv rfl rfl)
  obtain ⟨st', hdelete, hetcd⟩ := leads_deleting selectSql
    ((st.insert p.target p.nodeId p.data).setNodeFinished p.nodeId) (.scanStart p.target :: rest)
    (log ++ [.inserted p.nodeId p.target p.data]) p (childrenOf p.plan p.nodeId)
  exact ⟨st', (hinsert.trans hflag).trans hdelete, hetcd⟩

theorem leads_result (selectSql : SelectSql) (st : Store) (rest : List Proc) (log : List Event) (p : Push)
    (hroot : p.isRoot = true) :
    ∃ st', Leads (procStep selectSql) ⟨st, .push p .selected :: rest, log⟩
      ⟨st', .execute p.site p.plan p.rest :: rest, log ++ [.written p.nodeId quietEnv.fileName p.data]⟩ ∧
      st'.etcd.nodeNum = st.etcd.nodeNum ∧ st'.etcd.node = (st.setNodeFinished p.nodeId).etcd.node := by
  have hopen : pushStep quietEnv st p .selected =
      ⟨st.openFile quietEnv.fileName, [.push p (.opened quietEnv.fileName)], []⟩ := by
    rw [pushStep, if_pos hroot]
  obtain ⟨st', hdelete, hetcd⟩ := leads_deleting selectSql
    ((((((st.openFile quietEnv.fileName).writeFile quietEnv.fileName (p.data.take quietEnv.flushed)).setResult
      quietEnv.fileName).setNodeFinished p.nodeId).setIsFinished).writeFile quietEnv.fileName p.data) rest
    (log ++ [.written p.nodeId quietEnv.fileName p.data]) p (childrenOf p.plan p.nodeId)
  refine ⟨st', ?_, by rw [hetcd]; rfl, by rw [hetcd]; rfl⟩
  refine (leads_phase hopen).trans (Leads.trans (Leads.single quietEnv rfl rfl) ?_)
  refine (leads_phase rfl).trans ((leads_phase rfl).trans ((leads_phase rfl).trans ((leads_phase rfl).trans ?_)))
  exact hdelete

end

/-! ## All nodes of a scan -/

section
variable {plan copy : AugmentedPlan} {root : Nat} {selectSql : SelectSql} {st : Store} {rest : List Proc}
  {log : List Event}

theorem Store.Holds.of_node {st' : Store} {i : Nat} (h : st.Holds plan) (hnum : st'.etcd.nodeNum = st.etcd.nodeNum)
    (hnode : st'.etcd.node = (st.setNodeFinished i).etcd.node) : st'.Holds plan :=
  ⟨hnum.trans h.nodeNum, fun j node hj => by
    rw [hnode, Store.unflagged_setNodeFinished]
    exact h.node j node hj⟩

theorem Store.flag_of_node {st' : Store} {i : Nat} (hnode : st'.etcd.node = (st.setNodeFinished i).etcd.node)
    (j : Nat) : st'.flag j = if j = i then 1 else st.flag j := by
  rw [← Store.flag_setNodeFinished, Store.flag, hnode]
  rfl

theorem leads_node (selectSql : SelectSql) (htree : PlanTree plan root) (hst : st.Holds plan)
    (hcopy : SameKeys copy plan) (site : String) {i : Nat} (hi : i < plan.length) (todo : List Nat)
    (rest : List Proc) (log : List Event) :
    ∃ st' events, Leads (procStep selectSql) ⟨st, .execute site copy (i :: todo) :: rest, log⟩
      ⟨st', .execute site copy todo :: ((targetSite plan i).toList.map .scanStart ++ rest), log ++ events⟩ ∧
      st'.Holds plan ∧ (∀ j, st'.flag j = if j = i then 1 else st.flag j) ∧
      ∀ j < plan.length, executions plan events j = if j = i then 1 else 0 := by
  have hget := List.getElem?_eq_getElem hi
  obtain ⟨node, hnode, hkeys⟩ := hcopy.symm.getElem? hget
  have hparent := (AugPlanNode.keys_of_unflagged hkeys).1
  by_cases hroot : i = root
  · have hm : node.parentId = -1 := hparent ▸ (htree.parentId_eq_neg_one_iff hget).2 hroot
    let p : Push := ⟨site, copy, todo, i, site, true, selectSql site (st.tables site) node.sql⟩
    have hstep : procStep selectSql quietEnv st (.execute site copy (i :: todo)) =
        some ⟨st, [.push p .selected], []⟩ := by
      simp only [procStep, executeStep, hnode, Option.bind_eq_bind, Option.bind_some, if_pos hm, p]
    obtain ⟨st', hleads, hnum, hst'⟩ := leads_result selectSql st rest log p rfl
    refine ⟨st', [.written i quietEnv.fileName p.data], ?_, hst.of_node hnum hst', Store.flag_of_node hst',
      fun j hj => ?_⟩
    · rw [hroot, htree.targetSite_root, ← hroot]
      exact (Leads.silent quietEnv hstep rfl).trans hleads
    · rw [executions_written htree i _ _ hj, hroot]
  · obtain ⟨target, htarget⟩ := htree.exists_targetSite hi hroot
    obtain ⟨node', parent, hnode', hat, hsite⟩ := targetSite_eq_some_iff.1 htarget
    rw [hget, Option.some.injEq] at hnode'
    subst hnode'
    have hm : node.parentId ≠ -1 := fun h => hroot ((htree.parentId_eq_neg_one_iff hget).1 (hparent.trans h))
    obtain ⟨parent', hat', hkeys'⟩ := hcopy.symm.nodeAt hat
    rw [hparent] at hat'
    have hsite' : parent'.executeSite = target := (AugPlanNode.keys_of_unflagged hkeys').2.1 ▸ hsite
    let p : Push := ⟨site, copy, todo, i, target, false, selectSql site (st.tables site) node.sql⟩
    have hstep : procStep selectSql quietEnv st (.execute site copy (i :: todo)) =
        some ⟨st, [.push p .selected], []⟩ := by
      simp only [procStep, executeStep, hnode, Option.bind_eq_bind, Option.bind_some, if_neg hm, hat', hsite', p]
    obtain ⟨st', hleads, hst'⟩ := leads_store selectSql st rest log p rfl
    have hnode : st'.etcd.node = (st.setNodeFinished i).etcd.node := by rw [hst']
    refine ⟨st', [.inserted i target p.data], ?_, hst.of_node (by rw [hst']; rfl) hnode, Store.flag_of_node hnode,
      fun j _ => executions_inserted htarget p.data j⟩
    rw [htarget]
    exact (Leads.silent quietEnv hstep rfl).trans hleads

theorem leads_todo (selectSql : SelectSql) (htree : PlanTree plan root) (hst : st.Holds plan)
    (hcopy : SameKeys copy plan) (site : String) (todo : List Nat) (htodo : ∀ i ∈ todo, i < plan.length)
    (rest : List Proc) (log : List Event) :
    ∃ st' events, Leads (procStep selectSql) ⟨st, .execute site copy todo :: rest, log⟩
      ⟨st', (todo.filterMap (targetSite plan)).map .scanStart ++ rest, log ++ events⟩ ∧
      st'.Holds plan ∧ (∀ j, st'.flag j = if j ∈ todo then 1 else st.flag j) ∧
      ∀ j < plan.length, executions plan events j = todo.count j := by
  induction todo generalizing st rest log with
  | nil => exact ⟨st, [], by rw [List.append_nil]; exact .silent quietEnv rfl rfl, hst, by simp, by simp⟩
  | cons i todo ih =>
    obtain ⟨st₁, ev₁, hleads₁, hst₁, hflag₁, hexec₁⟩ :=
      leads_node selectSql htree hst hcopy site (htodo i (List.mem_cons_self ..)) todo rest log
    obtain ⟨st₂, ev₂, hleads₂, hst₂, hflag₂, hexec₂⟩ := ih hst₁ (fun j hj => htodo j (List.mem_cons_of_mem i hj))
      ((targetSite plan i).toList.map .scanStart ++ rest) (log ++ ev₁)
    refine ⟨st₂, ev₁ ++ ev₂, hleads₁.trans (hleads₂.trans ?_), hst₂, fun j => ?_, fun j hj => ?_⟩
    · rw [List.append_assoc]
      refine Leads.swap ?_
      rw [← List.append_assoc, ← List.map_append]
      refine List.Perm.append_right rest (List.Perm.map _ ?_)
      rw [List.filterMap_cons]
      cases targetSite plan i with
      | none => simp
      | some s => exact List.perm_append_singleton s _
    · rw [hflag₂, hflag₁]
      by_cases hj : j = i
      · simp [hj]
      · simp [hj]
    · rw [executions_append, hexec₁ j hj, hexec₂ j hj, List.count_cons]
      by_cases hij : j = i
      · subst hij
        simp [Nat.add_comm]
      · simp [hij, Ne.symm hij]

/-! ## The whole scan -/

/-- The plan `get_plan_from_etcd` returns when nothing else happens. -/
def Store.savedPlan (st : Store) : AugmentedPlan := (List.range st.etcd.nodeNum).map st.etcd.node

theorem Store.Holds.sameKeys (h : st.Holds plan) : SameKeys st.savedPlan plan := by
  refine List.ext_getElem? fun i => ?_
  simp only [Store.savedPlan, List.getElem?_map, h.nodeNum]
  rcases Nat.lt_or_ge i plan.length with hi | hi
  · rw [List.getElem?_range hi, List.getElem?_eq_getElem hi]
    exact congrArg some (h.node i _ (List.getElem?_eq_getElem hi))
  · rw [List.getElem?_eq_none (by simpa using hi), List.getElem?_eq_none hi]
    rfl

theorem Store.Holds.savedPlan_getElem? (h : st.Holds plan) {i : Nat} (hi : i < plan.length) :
    st.savedPlan[i]? = some (st.etcd.node i) := by
  rw [Store.savedPlan, List.getElem?_map, h.nodeNum, List.getElem?_range hi]
  rfl

/-- The nodes of `site` a scan finds ready when nothing else happens. -/
def Ready (plan : AugmentedPlan) (st : Store) (site : String) (i : Nat) : Prop :=
  Executable plan st site i ∧ st.flag i = 0

theorem mem_toExecute_savedPlan (hst : st.Holds plan) {site : String} {i : Nat} :
    i ∈ toExecute site st.savedPlan ↔ Ready plan st site i := by
  constructor
  · intro hi
    have hseen : ∀ j node, st.savedPlan[j]? = some node → node.isFinished = 1 → st.flag j = 1 := by
      intro j node hj hf
      obtain ⟨node', hnode', -⟩ := hst.sameKeys.getElem? hj
      rw [hst.savedPlan_getElem? (List.getElem?_eq_some_iff.1 hnode').1, Option.some.injEq] at hj
      rw [Store.flag, hj, hf]
    have hexec := executable_of_mem_toExecute hst.sameKeys hseen hi
    obtain ⟨node, hnode, hzero, -⟩ := mem_toExecute.1 hi
    obtain ⟨node', hnode', -⟩ := hexec.node
    rw [hst.savedPlan_getElem? (List.getElem?_eq_some_iff.1 hnode').1, Option.some.injEq] at hnode
    exact ⟨hexec, by rw [Store.flag, hnode, hzero]⟩
  · rintro ⟨⟨⟨node, hnode, hsite⟩, hchildren⟩, hzero⟩
    have hi := (List.getElem?_eq_some_iff.1 hnode).1
    have hkeys := AugPlanNode.keys_of_unflagged (hst.node i node hnode)
    refine mem_toExecute.2 ⟨_, hst.savedPlan_getElem? hi, hzero, hkeys.2.1.trans hsite, fun child hchild hpar => ?_⟩
    obtain ⟨c, hc⟩ := List.getElem?_of_mem hchild
    have hisChild : IsChild plan c i := hst.sameKeys.isChild ⟨child, hc, hpar⟩
    rw [hst.savedPlan_getElem? hisChild.lt, Option.some.injEq] at hc
    rw [← hc]
    exact hchildren c hisChild

theorem leads_read (selectSql : SelectSql) (st : Store) (site : String) (rest : List Proc) (log : List Event) :
    Leads (procStep selectSql) ⟨st, .scanStart site :: rest, log⟩
      ⟨st, .execute site st.savedPlan (toExecute site st.savedPlan) :: rest, log⟩ := by
  have hread : ∀ k ≤ st.etcd.nodeNum, Leads (procStep selectSql) ⟨st, .scanStart site :: rest, log⟩
      ⟨st, .scanRead site st.etcd.nodeNum ((List.range k).map st.etcd.node) :: rest, log⟩ := by
    intro k
    induction k with
    | zero => exact fun _ => .silent quietEnv rfl rfl
    | succ k ih =>
      intro hk
      have hstep : procStep selectSql quietEnv st
          (.scanRead site st.etcd.nodeNum ((List.range k).map st.etcd.node)) =
          some ⟨st, [.scanRead site st.etcd.nodeNum ((List.range (k + 1)).map st.etcd.node)], []⟩ := by
        rw [procStep, if_pos (by rw [List.length_map, List.length_range]; omega), List.range_succ, List.map_append]
        simp
      exact (ih (by omega)).trans (.silent quietEnv hstep rfl)
  have hend : procStep selectSql quietEnv st (.scanRead site st.etcd.nodeNum st.savedPlan) =
      some ⟨st, [.execute site st.savedPlan (toExecute site st.savedPlan)], []⟩ := by
    rw [procStep, if_neg (by simp [Store.savedPlan])]
  exact (hread st.etcd.nodeNum le_rfl).trans (.silent quietEnv hend rfl)

/-- A scan that runs on its own executes exactly the ready nodes of its site, each once. -/
theorem leads_scan (selectSql : SelectSql) (htree : PlanTree plan root) (hst : st.Holds plan) (site : String)
    (rest : List Proc) (log : List Event) :
    ∃ (todo : List Nat) (st' : Store) (events : List Event),
      Leads (procStep selectSql) ⟨st, .scanStart site :: rest, log⟩
        ⟨st', (todo.filterMap (targetSite plan)).map .scanStart ++ rest, log ++ events⟩ ∧
      st'.Holds plan ∧ (∀ i, i ∈ todo ↔ Ready plan st site i) ∧
      ∀ j, st'.flag j = if j ∈ todo then 1 else st.flag j := by
  have hmem : ∀ i, i ∈ toExecute site st.savedPlan ↔ Ready plan st site i := fun i => mem_toExecute_savedPlan hst
  obtain ⟨st', events, hleads, hst', hflag, -⟩ := leads_todo selectSql htree hst hst.sameKeys site
    (toExecute site st.savedPlan) (fun i hi => by
      obtain ⟨node, hnode, -⟩ := ((hmem i).1 hi).1.node
      exact (List.getElem?_eq_some_iff.1 hnode).1) rest log
  exact ⟨_, st', events, (leads_read selectSql st site rest log).trans hleads, hst', hmem, hflag⟩

end

end EasyDDB.Execution
