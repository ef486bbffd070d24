import EasyDDB.Execution.Process

/-! # Bottom-up order of plan execution

The flags only rise, and what a scan has seen of them stays true.  A node is executed after all its children
have been flagged, and it is flagged after its rows have been stored, so the flagged nodes always form subtrees
whose rows have arrived. -/
namespace EasyDDB.Execution
set_option autoImplicit false

/-! ## Copies of a plan -/

/-- Two copies of a plan that differ in their flags only. -/
def SameKeys (nodes plan : AugmentedPlan) : Prop :=
  nodes.map AugPlanNode.unflagged = plan.map AugPlanNode.unflagged

/-- What a scan has read of a plan after some of its nodes. -/
def ReadKeys (nodes plan : AugmentedPlan) : Prop :=
  nodes.map AugPlanNode.unflagged <+: plan.map AugPlanNode.unflagged

theorem AugPlanNode.keys_of_unflagged {a b : AugPlanNode} (h : a.unflagged = b.unflagged) :
    a.parentId = b.parentId ∧ a.executeSite = b.executeSite ∧ a.sql = b.sql := by
  simp only [AugPlanNode.unflagged, AugPlanNode.mk.injEq] at h
  exact ⟨h.2.1, h.2.2.1, h.2.2.2.1⟩

theorem SameKeys.symm {nodes plan : AugmentedPlan} (h : SameKeys nodes plan) : SameKeys plan nodes :=
  Eq.symm h

theorem SameKeys.getElem? {nodes plan : AugmentedPlan} (h : SameKeys nodes plan) {i : Nat} {node : AugPlanNode}
    (hi : nodes[i]? = some node) : ∃ node', plan[i]? = some node' ∧ node.unflagged = node'.unflagged := by
  have hmap := congrArg (fun l => l[i]?) h
  simp only [List.getElem?_map, hi, Option.map_some] at hmap
  obtain ⟨node', hnode', heq⟩ := Option.map_eq_some_iff.1 hmap.symm
  exact ⟨node', hnode', heq.symm⟩

theorem SameKeys.nodeAt {nodes plan : AugmentedPlan} (h : SameKeys nodes plan) {k : Int} {node : AugPlanNode}
    (hk : nodeAt nodes k = some node) : ∃ node', nodeAt plan k = some node' ∧ node.unflagged = node'.unflagged := by
  unfold Execution.nodeAt at hk ⊢
  by_cases h0 : 0 ≤ k
  · rw [if_pos h0] at hk ⊢
    exact h.getElem? hk
  · rw [if_neg h0] at hk
    cases hk

theorem SameKeys.isChild {nodes plan : AugmentedPlan} (h : SameKeys nodes plan) {c i : Nat}
    (hc : IsChild nodes c i) : IsChild plan c i := by
  obtain ⟨node, hnode, hparent⟩ := hc
  obtain ⟨node', hnode', hkeys⟩ := h.getElem? hnode
  exact ⟨node', hnode', (AugPlanNode.keys_of_unflagged hkeys).1 ▸ hparent⟩

theorem ReadKeys.snoc {nodes plan : AugmentedPlan} (h : ReadKeys nodes plan) {st : Store} (hst : st.Holds plan)
    (hlt : nodes.length < plan.length) : ReadKeys (nodes ++ [st.etcd.node nodes.length]) plan := by
  obtain ⟨rest, hrest⟩ := h
  have hnode := hst.node nodes.length plan[nodes.length] (List.getElem?_eq_getElem hlt)
  have hnext : rest[0]? = some (st.etcd.node nodes.length).unflagged := by
    have hget := congrArg (fun l => l[nodes.length]?) hrest
    simp only [List.getElem?_map, List.getElem?_eq_getElem hlt, Option.map_some] at hget
    rw [hnode, ← hget, List.getElem?_append_right (by simp), List.length_map, Nat.sub_self]
  cases rest with
  | nil => cases hnext
  | cons x rest =>
    rw [List.getElem?_cons_zero, Option.some.injEq] at hnext
    exact ⟨rest, by rw [← hrest, hnext, List.map_append, List.append_assoc]; rfl⟩

theorem ReadKeys.sameKeys {nodes plan : AugmentedPlan} (h : ReadKeys nodes plan)
    (hlen : plan.length ≤ nodes.length) : SameKeys nodes plan :=
  h.eq_of_length_le (by simpa using hlen)

/-! ## The effect of a step on the flags -/

section
variable {selectSql : SelectSql} {env : Env} {st : Store} {p : Proc} {o : Outcome}

/-- The process is about to set the flag of node `i`. -/
def Proc.Flags (p : Proc) (i : Nat) : Prop :=
  ∃ q, q.nodeId = i ∧ (p = .push q .inserted ∨ ∃ file, p = .push q (.resultSet file))

theorem Trans.flag_cases (h : Trans selectSql env st p o) (i : Nat) :
    o.store.flag i = st.flag i ∨ (p.Flags i ∧ o.store.flag i = 1) := by
  cases h with
  | setNode q file =>
    by_cases hi : i = q.nodeId
    · exact .inr ⟨⟨q, hi.symm, .inr ⟨file, rfl⟩⟩, by simp [hi]⟩
    · exact .inl (by rw [Store.flag_setNodeFinished, if_neg hi])
  | setFlag q =>
    by_cases hi : i = q.nodeId
    · exact .inr ⟨⟨q, hi.symm, .inl rfl⟩, by simp [hi]⟩
    · exact .inl (by rw [Store.flag_setNodeFinished, if_neg hi])
  | _ => exact .inl rfl

theorem Trans.flag_mono (h : Trans selectSql env st p o) {i : Nat} (hi : st.flag i = 1) : o.store.flag i = 1 := by
  rcases h.flag_cases i with heq | ⟨-, heq⟩
  · rw [heq, hi]
  · exact heq

theorem Trans.holds {plan : AugmentedPlan} (h : Trans selectSql env st p o) (hst : st.Holds plan) :
    o.store.Holds plan := by
  have hkeys : o.store.etcd.nodeNum = st.etcd.nodeNum ∧
      ∀ i, (o.store.etcd.node i).unflagged = (st.etcd.node i).unflagged := by
    cases h with
    | setNode => exact ⟨rfl, fun i => Store.unflagged_setNodeFinished ..⟩
    | setFlag => exact ⟨rfl, fun i => Store.unflagged_setNodeFinished ..⟩
    | _ => exact ⟨rfl, fun _ => rfl⟩
  exact ⟨hkeys.1.trans hst.nodeNum, fun i node hi => (hkeys.2 i).trans (hst.node i node hi)⟩

end

/-! ## What each process knows -/

section
variable (plan : AugmentedPlan) (root : Nat)

/-- Node `i` is assigned to `site` and its children are finished. -/
structure Executable (st : Store) (site : String) (i : Nat) : Prop where
  node : ∃ node, plan[i]? = some node ∧ node.executeSite = site
  children : ∀ c, IsChild plan c i → st.flag c = 1

/-- The key `result` names a file that the result of the root was written to. -/
def ResultWritten (st : Store) (log : List Event) : Prop :=
  ∃ data, Event.written root st.etcd.result data ∈ log

/-- The rows of node `i` have been inserted at the site of its parent, if it has one. -/
def RowsInserted (log : List Event) (i : Nat) : Prop :=
  ∀ node parent, plan[i]? = some node → nodeAt plan node.parentId = some parent →
    ∃ data, Event.inserted i parent.executeSite data ∈ log

/-- The arguments of a `data_push` are those of its node. -/
structure PushOf (p : Push) : Prop where
  copy : SameKeys p.plan plan
  route : ∃ node, plan[p.nodeId]? = some node ∧ node.executeSite = p.site ∧
    (p.isRoot = true ∧ node.parentId = -1 ∨
      p.isRoot = false ∧ ∃ parent, nodeAt plan node.parentId = some parent ∧ parent.executeSite = p.target)

def PhaseOk (st : Store) (log : List Event) (p : Push) : Phase → Prop
  | .selected => True
  | .opened _ => p.isRoot = true
  | .written file => p.isRoot = true ∧ ∃ data, Event.written root file data ∈ log
  | .resultSet _ => p.isRoot = true ∧ ResultWritten root st log
  | .nodeSet _ | .finishedSet _ => p.isRoot = true ∧ ResultWritten root st log ∧ st.flag p.nodeId = 1
  | .sent => p.isRoot = false
  | .inserted => p.isRoot = false ∧ ∃ data, Event.inserted p.nodeId p.target data ∈ log
  | .flagged => p.isRoot = false ∧ st.flag p.nodeId = 1
  | .deleting _ => st.flag p.nodeId = 1

def ProcOk (st : Store) (log : List Event) : Proc → Prop
  | .scanStart _ => True
  | .scanRead _ nodeNum nodes =>
    nodeNum = plan.length ∧ ReadKeys nodes plan ∧
      ∀ i node, nodes[i]? = some node → node.isFinished = 1 → st.flag i = 1
  | .execute site copy todo => SameKeys copy plan ∧ ∀ i ∈ todo, Executable plan st site i
  | .push p phase =>
    PushOf plan p ∧ (∀ i ∈ p.nodeId :: p.rest, Executable plan st p.site i) ∧ PhaseOk root st log p phase

structure StoreOk (st : Store) (log : List Event) : Prop where
  holds : st.Holds plan
  flags : ∀ i < plan.length, st.flag i = 0 ∨ st.flag i = 1
  children : ∀ i < plan.length, st.flag i = 1 → ∀ c, IsChild plan c i → st.flag c = 1
  inserted : ∀ i < plan.length, st.flag i = 1 → RowsInserted plan log i

end

section
variable {plan : AugmentedPlan} {root : Nat} {selectSql : SelectSql} {env : Env} {st st' : Store}
  {log log' : List Event} {p q : Proc} {o : Outcome}

theorem Executable.mono {site : String} {i : Nat} (h : Executable plan st site i)
    (hflags : ∀ c, st.flag c = 1 → st'.flag c = 1) : Executable plan st' site i :=
  ⟨h.node, fun c hc => hflags c (h.children c hc)⟩

/-- The node of the plan that an entry of a copy stands for. -/
theorem Executable.node_of_copy {site : String} {i : Nat} (h : Executable plan st site i) {copy : AugmentedPlan}
    (hcopy : SameKeys copy plan) {node : AugPlanNode} (hi : copy[i]? = some node) :
    ∃ node', plan[i]? = some node' ∧ node'.executeSite = site ∧ node.parentId = node'.parentId := by
  obtain ⟨node', hnode', hkeys⟩ := hcopy.getElem? hi
  obtain ⟨node'', hnode'', hsite⟩ := h.node
  obtain rfl : node' = node'' := Option.some.inj (hnode'.symm.trans hnode'')
  exact ⟨node', hnode', hsite, (AugPlanNode.keys_of_unflagged hkeys).1⟩

/-- What a process knows stays true while flags rise, the log grows and a written result stays written. -/
theorem ProcOk.stable (h : ProcOk plan root st log q) (hflags : ∀ i, st.flag i = 1 → st'.flag i = 1)
    (hlog : ∀ e ∈ log, e ∈ log') (hresult : ResultWritten root st log → ResultWritten root st' log') :
    ProcOk plan root st' log' q := by
  cases q with
  | scanStart site => trivial
  | scanRead site nodeNum nodes =>
    exact ⟨h.1, h.2.1, fun i node hi hf => hflags i (h.2.2 i node hi hf)⟩
  | execute site copy todo => exact ⟨h.1, fun i hi => (h.2 i hi).mono hflags⟩
  | push p phase =>
    refine ⟨h.1, fun i hi => (h.2.1 i hi).mono hflags, ?_⟩
    have hphase := h.2.2
    cases phase with
    | selected => trivial
    | opened file => exact hphase
    | written file => exact ⟨hphase.1, hphase.2.imp fun _ he => hlog _ he⟩
    | resultSet file => exact ⟨hphase.1, hresult hphase.2⟩
    | nodeSet file => exact ⟨hphase.1, hresult hphase.2.1, hflags _ hphase.2.2⟩
    | finishedSet file => exact ⟨hphase.1, hresult hphase.2.1, hflags _ hphase.2.2⟩
    | sent => exact hphase
    | inserted => exact ⟨hphase.1, hphase.2.imp fun _ he => hlog _ he⟩
    | flagged => exact ⟨hphase.1, hflags _ hphase.2⟩
    | deleting children => exact hflags _ hphase

theorem Trans.resultWritten (h : Trans selectSql env st p o) (hp : ProcOk plan root st log p)
    (hw : ResultWritten root st log) : ResultWritten root o.store (log ++ o.events) := by
  cases h with
  | setResult q file => exact hp.2.2.2.imp fun _ he => List.mem_append_left _ he
  | _ => exact hw.imp fun _ he => List.mem_append_left _ he

/-- The nodes a scan picks are finished below, whatever has happened since it read their flags. -/
theorem executable_of_mem_toExecute {site : String} {nodes : AugmentedPlan} (hcopy : SameKeys nodes plan)
    (hseen : ∀ i node, nodes[i]? = some node → node.isFinished = 1 → st.flag i = 1) {i : Nat}
    (hi : i ∈ toExecute site nodes) : Executable plan st site i := by
  obtain ⟨node, hnode, -, hsite, hchildren⟩ := mem_toExecute.1 hi
  obtain ⟨node', hnode', hkeys⟩ := hcopy.getElem? hnode
  refine ⟨⟨node', hnode', (AugPlanNode.keys_of_unflagged hkeys).2.1 ▸ hsite⟩, fun c hc => ?_⟩
  obtain ⟨child, hchild, hparent⟩ := hcopy.symm.isChild hc
  exact hseen c child hchild (hchildren child (List.mem_of_getElem? hchild) hparent)

theorem PushOf.nodeId_eq_root {p : Push} (htree : PlanTree plan root) (h : PushOf plan p) (hroot : p.isRoot = true) :
    p.nodeId = root := by
  obtain ⟨node, hnode, -, ⟨-, hparent⟩ | ⟨hfalse, -⟩⟩ := h.route
  · exact (htree.parentId_eq_neg_one_iff hnode).1 hparent
  · rw [hroot] at hfalse
    cases hfalse

theorem PushOf.rowsInserted {p : Push} (h : PushOf plan p) (hroot : p.isRoot = false)
    (hlog : ∃ data, Event.inserted p.nodeId p.target data ∈ log) : RowsInserted plan log p.nodeId := by
  intro node parent hnode hparent
  obtain ⟨node', hnode', -, ⟨htrue, -⟩ | ⟨-, parent', hparent', htarget⟩⟩ := h.route
  · rw [hroot] at htrue
    cases htrue
  · rw [hnode, Option.some.injEq] at hnode'
    subst hnode'
    rw [hparent, Option.some.injEq] at hparent'
    subst hparent'
    exact htarget ▸ hlog

/-! ## Every step keeps the order -/

theorem Trans.storeOk (htree : PlanTree plan root) (h : Trans selectSql env st p o) (hst : StoreOk plan st log)
    (hp : ProcOk plan root st log p) : StoreOk plan o.store (log ++ o.events) := by
  have hinserted : ∀ i, RowsInserted plan log i → RowsInserted plan (log ++ o.events) i :=
    fun i hi node parent hn hpar => (hi node parent hn hpar).imp fun _ he => List.mem_append_left _ he
  have hnew : ∀ i, p.Flags i → (∀ c, IsChild plan c i → st.flag c = 1) ∧ RowsInserted plan log i := by
    rintro i ⟨q, rfl, rfl | ⟨file, rfl⟩⟩
    · exact ⟨(hp.2.1 q.nodeId (List.mem_cons_self ..)).children, hp.1.rowsInserted hp.2.2.1 hp.2.2.2⟩
    · refine ⟨(hp.2.1 q.nodeId (List.mem_cons_self ..)).children, fun node parent hnode hparent => ?_⟩
      obtain ⟨node', hnode', hm⟩ := htree.root_node
      rw [hp.1.nodeId_eq_root htree hp.2.2.1, hnode', Option.some.injEq] at hnode
      rw [← hnode, hm] at hparent
      cases hparent
  refine ⟨h.holds hst.holds, fun i hi => ?_, fun i hi hf c hc => ?_, fun i hi hf => ?_⟩
  · rcases h.flag_cases i with heq | ⟨-, heq⟩
    · rw [heq]
      exact hst.flags i hi
    · exact .inr heq
  · rcases h.flag_cases i with heq | ⟨hflags, -⟩
    · exact h.flag_mono (hst.children i hi (heq ▸ hf) c hc)
    · exact h.flag_mono ((hnew i hflags).1 c hc)
  · rcases h.flag_cases i with heq | ⟨hflags, -⟩
    · exact hinserted i (hst.inserted i hi (heq ▸ hf))
    · exact hinserted i (hnew i hflags).2

/-- The global `is_finished` is set after the root has been flagged and its result written. -/
theorem Trans.finished (htree : PlanTree plan root) (h : Trans selectSql env st p o) (hp : ProcOk plan root st log p)
    (hst : st.etcd.isFinished = 1 → st.flag root = 1 ∧ ResultWritten root st log)
    (hfin : o.store.etcd.isFinished = 1) :
    o.store.flag root = 1 ∧ ResultWritten root o.store (log ++ o.events) := by
  have hbefore : st.flag root = 1 ∧ ResultWritten root st log := by
    cases h with
    | setFinished q file => exact ⟨hp.1.nodeId_eq_root htree hp.2.2.1 ▸ hp.2.2.2.2, hp.2.2.2.1⟩
    | _ => exact hst hfin
  exact ⟨h.flag_mono hbefore.1, h.resultWritten hp hbefore.2⟩

theorem Trans.procOk_of_mem (htree : PlanTree plan root) (h : Trans selectSql env st p o)
    (hst : StoreOk plan st log) (hp : ProcOk plan root st log p) :
    ∀ q ∈ o.procs, ProcOk plan root o.store (log ++ o.events) q := by
  have hexec : ∀ q phase, p = .push q phase → ∀ i ∈ q.nodeId :: q.rest, Executable plan o.store q.site i := by
    rintro q phase rfl i hi
    exact (hp.2.1 i hi).mono fun _ => h.flag_mono
  cases h with
  | startScan site =>
    simp only [List.mem_singleton, forall_eq]
    exact ⟨hst.holds.nodeNum, List.nil_prefix, fun i node hi => by cases hi⟩
  | readNode site nodeNum nodes hlt =>
    simp only [List.mem_singleton, forall_eq]
    obtain ⟨rfl, hread, hseen⟩ := hp
    refine ⟨rfl, hread.snoc hst.holds hlt, fun i node hi hf => ?_⟩
    obtain hi | ⟨rfl, rfl⟩ := Arena.getElem?_concat_cases hi
    · exact hseen i node hi hf
    · exact hf
  | endScan site nodeNum nodes hle =>
    simp only [List.mem_singleton, forall_eq]
    obtain ⟨rfl, hread, hseen⟩ := hp
    exact ⟨hread.sameKeys hle, fun i hi => executable_of_mem_toExecute (hread.sameKeys hle) hseen hi⟩
  | finish site copy => simp
  | startRoot site copy i rest node hi hroot =>
    simp only [List.mem_singleton, forall_eq]
    obtain ⟨node', hnode', hsite, hparent⟩ := (hp.2 i (List.mem_cons_self ..)).node_of_copy hp.1 hi
    exact ⟨⟨hp.1, node', hnode', hsite, .inl ⟨rfl, hparent ▸ hroot⟩⟩, hp.2, trivial⟩
  | startInner site copy i rest node parent hi hroot hparent =>
    simp only [List.mem_singleton, forall_eq]
    obtain ⟨node', hnode', hsite, hkey⟩ := (hp.2 i (List.mem_cons_self ..)).node_of_copy hp.1 hi
    obtain ⟨parent', hparent', hpkeys⟩ := hp.1.nodeAt hparent
    have hpkeys := AugPlanNode.keys_of_unflagged hpkeys
    exact ⟨⟨hp.1, node', hnode', hsite, .inr ⟨rfl, parent', hkey ▸ hparent', hpkeys.2.1.symm⟩⟩, hp.2, trivial⟩
  | openFile q hroot => exact List.forall_mem_singleton.2 ⟨hp.1, hexec q _ rfl, hroot⟩
  | write q file =>
    refine List.forall_mem_singleton.2 ⟨hp.1, hexec q _ rfl, hp.2.2, q.data, ?_⟩
    rw [hp.1.nodeId_eq_root htree hp.2.2]
    exact List.mem_append_right _ (List.mem_singleton_self _)
  | setResult q file =>
    exact List.forall_mem_singleton.2 ⟨hp.1, hexec q _ rfl, hp.2.2.1, hp.2.2.2.imp fun _ he => List.mem_append_left _ he⟩
  | setNode q file =>
    exact List.forall_mem_singleton.2 ⟨hp.1, hexec q _ rfl, hp.2.2.1,
      hp.2.2.2.imp fun _ he => List.mem_append_left _ he, Store.flag_setNodeFinished_self ..⟩
  | setFinished q file =>
    exact List.forall_mem_singleton.2 ⟨hp.1, hexec q _ rfl, hp.2.2.1,
      hp.2.2.2.1.imp fun _ he => List.mem_append_left _ he, hp.2.2.2.2⟩
  | close q file => exact List.forall_mem_singleton.2 ⟨hp.1, hexec q _ rfl, hp.2.2.2.2⟩
  | insertHere q hroot htarget =>
    exact List.forall_mem_singleton.2 ⟨hp.1, hexec q _ rfl, hroot, q.data,
      List.mem_append_right _ (List.mem_singleton_self _)⟩
  | send q hroot htarget => exact List.forall_mem_singleton.2 ⟨hp.1, hexec q _ rfl, hroot⟩
  | receive q =>
    exact List.forall_mem_singleton.2 ⟨hp.1, hexec q _ rfl, hp.2.2, q.data,
      List.mem_append_right _ (List.mem_singleton_self _)⟩
  | setFlag q =>
    exact List.forall_mem_singleton.2 ⟨hp.1, hexec q _ rfl, hp.2.2.1,
      Store.flag_setNodeFinished_self ..⟩
  | fork q =>
    exact List.forall_mem_cons.2 ⟨⟨hp.1, hexec q _ rfl, hp.2.2.2⟩, List.forall_mem_singleton.2 trivial⟩
  | delete q i children => exact List.forall_mem_singleton.2 ⟨hp.1, hexec q _ rfl, hp.2.2⟩
  | goOn q => exact List.forall_mem_singleton.2 ⟨hp.1.copy, fun i hi => hp.2.1 i (List.mem_cons_of_mem _ hi)⟩

theorem ordered_of_reachable {siteDict : List String} {s t : Pool.State Store Proc Event} (htree : PlanTree plan root)
    (hstart : Started plan siteDict s) (h : Pool.Reachable (procStep selectSql) s t) :
    StoreOk plan t.store t.log ∧ ∀ p ∈ t.procs, ProcOk plan root t.store t.log p := by
  refine Pool.local_invariant ?_ ?_ ?_ ?_ ?_ h
  · intro env st log p o hst hp ho
    exact (procStep_trans ho).storeOk htree hst hp
  · intro env st log p o hst hp ho
    exact (procStep_trans ho).procOk_of_mem htree hst hp
  · intro env st log p o q hst hp ho hq
    have htrans := procStep_trans ho
    exact hq.stable (fun i hi => htrans.flag_mono hi) (fun e he => List.mem_append_left _ he)
      (htrans.resultWritten hp)
  · have hzero : ∀ i < plan.length, s.store.flag i ≠ 1 := fun i hi => by rw [hstart.flags i hi]; decide
    exact ⟨hstart.holds, fun i hi => .inl (hstart.flags i hi), fun i hi hf => absurd hf (hzero i hi),
      fun i hi hf => absurd hf (hzero i hi)⟩
  · intro p hp
    rw [hstart.procs, List.mem_map] at hp
    obtain ⟨site, -, rfl⟩ := hp
    trivial

theorem finished_of_reachable {siteDict : List String} {s t : Pool.State Store Proc Event}
    (htree : PlanTree plan root) (hstart : Started plan siteDict s) (hglobal : s.store.etcd.isFinished ≠ 1)
    (h : Pool.Reachable (procStep selectSql) s t) (hfin : t.store.etcd.isFinished = 1) :
    t.store.flag root = 1 ∧ ResultWritten root t.store t.log := by
  revert hfin
  refine Runs.Reaches.invariant (I := fun u => u.store.etcd.isFinished = 1 → u.store.flag root = 1 ∧
    ResultWritten root u.store u.log) ?_ (fun hfin => absurd hfin hglobal) h
  intro u u' c hreach hu _ hstep
  obtain ⟨p, o, rest, ho, hperm, rfl⟩ := Pool.step_cases hstep
  have hp := (ordered_of_reachable htree hstart hreach).2 p (hperm.symm.subset (List.mem_cons_self ..))
  exact (procStep_trans ho).finished htree hp hu

/-! ## Where the rows come from -/

def Event.nodeId : Event → Nat
  | .inserted i _ _ | .written i _ _ => i

def Event.data : Event → Text
  | .inserted _ _ data | .written _ _ data => data

/-- The statement of node `i` has given `data` at its site, in a state between `s` and `t` in which its children are
flagged. -/
def SelectedBetween (selectSql : SelectSql) (plan : AugmentedPlan) (s t : Pool.State Store Proc Event) (i : Nat)
    (data : Text) : Prop :=
  ∃ u node, Pool.Reachable (procStep selectSql) s u ∧ Pool.Reachable (procStep selectSql) u t ∧
    plan[i]? = some node ∧ (∀ c, IsChild plan c i → u.store.flag c = 1) ∧
    data = selectSql node.executeSite (u.store.tables node.executeSite) node.sql

theorem SelectedBetween.tail {s t t' : Pool.State Store Proc Event} {i : Nat} {data : Text}
    (h : SelectedBetween selectSql plan s t i data) (ht : Pool.Reachable (procStep selectSql) t t') :
    SelectedBetween selectSql plan s t' i data := by
  obtain ⟨u, node, hsu, hut, hrest⟩ := h
  exact ⟨u, node, hsu, hut.trans ht, hrest⟩

theorem Executable.selectedBetween {s t : Pool.State Store Proc Event} {site : String} {i : Nat}
    {copy : AugmentedPlan} {node : AugPlanNode} (h : Executable plan t.store site i) (hcopy : SameKeys copy plan)
    (hi : copy[i]? = some node) (hreach : Pool.Reachable (procStep selectSql) s t) :
    SelectedBetween selectSql plan s t i (selectSql site (t.store.tables site) node.sql) := by
  obtain ⟨node', hnode', hkeys⟩ := hcopy.getElem? hi
  obtain ⟨-, hsite, hsql⟩ := AugPlanNode.keys_of_unflagged hkeys
  obtain ⟨node'', hnode'', rfl⟩ := h.node
  obtain rfl : node' = node'' := Option.some.inj (hnode'.symm.trans hnode'')
  exact ⟨t, node', hreach, .refl, hnode', h.children, by rw [hsql]⟩

/-- A `data_push` that goes on has the data it had, and one that starts has what its statement gives now. -/
theorem Trans.push_cases {q : Push} {phase : Phase} (h : Trans selectSql env st p o)
    (hq : Proc.push q phase ∈ o.procs) :
    (∃ phase', p = .push q phase') ∨ ∃ copy rest node, p = .execute q.site copy (q.nodeId :: rest) ∧
      copy[q.nodeId]? = some node ∧ q.data = selectSql q.site (st.tables q.site) node.sql := by
  cases h with
  | startRoot site copy i rest node hi =>
    cases List.mem_singleton.1 hq
    exact .inr ⟨copy, rest, node, rfl, hi, rfl⟩
  | startInner site copy i rest node parent hi =>
    cases List.mem_singleton.1 hq
    exact .inr ⟨copy, rest, node, rfl, hi, rfl⟩
  | _ => exact .inl (by simp_all)

theorem Trans.event_cases {e : Event} (h : Trans selectSql env st p o) (he : e ∈ o.events) :
    ∃ q phase, p = .push q phase ∧ e.nodeId = q.nodeId ∧ e.data = q.data := by
  cases h with
  | write q file | insertHere q | receive q =>
    cases List.mem_singleton.1 he
    exact ⟨q, _, rfl, rfl, rfl⟩
  | _ => cases he

/-- Whatever is on its way or has been stored was selected by the statement of its node. -/
theorem selected_of_reachable {siteDict : List String} {s t : Pool.State Store Proc Event} (htree : PlanTree plan root)
    (hstart : Started plan siteDict s) (h : Pool.Reachable (procStep selectSql) s t) :
    (∀ q phase, Proc.push q phase ∈ t.procs → SelectedBetween selectSql plan s t q.nodeId q.data) ∧
      ∀ e ∈ t.log, SelectedBetween selectSql plan s t e.nodeId e.data := by
  refine Runs.Reaches.invariant (I := fun t => (∀ q phase, Proc.push q phase ∈ t.procs →
    SelectedBetween selectSql plan s t q.nodeId q.data) ∧
    ∀ e ∈ t.log, SelectedBetween selectSql plan s t e.nodeId e.data) ?_ ⟨?_, ?_⟩ h
  · intro u u' c hreach hu _ hstep
    have hstepped : Pool.Reachable (procStep selectSql) u u' := .tail .refl trivial hstep
    obtain ⟨p, o, rest, ho, hperm, rfl⟩ := Pool.step_cases hstep
    have htrans := procStep_trans ho
    have hp : p ∈ u.procs := hperm.symm.subset (List.mem_cons_self ..)
    refine ⟨fun q phase hq => ?_, fun e he => ?_⟩
    · rcases List.mem_append.1 hq with hq | hq
      · exact (hu.1 q phase (hperm.symm.subset (List.mem_cons_of_mem _ hq))).tail hstepped
      · rcases htrans.push_cases hq with ⟨phase', rfl⟩ | ⟨copy, todo, node, rfl, hi, hdata⟩
        · exact (hu.1 q phase' hp).tail hstepped
        · obtain ⟨hcopy, hexec⟩ := (ordered_of_reachable htree hstart hreach).2 _ hp
          rw [hdata]
          exact ((hexec _ (List.mem_cons_self ..)).selectedBetween hcopy hi hreach).tail hstepped
    · rcases List.mem_append.1 he with he | he
      · exact (hu.2 e he).tail hstepped
      · obtain ⟨q, phase, rfl, hid, hdata⟩ := htrans.event_cases he
        rw [hid, hdata]
        exact (hu.1 q phase hp).tail hstepped
  · intro q phase hq
    rw [hstart.procs] at hq
    simp at hq
  · rw [hstart.log]
    exact fun e he => absurd he List.not_mem_nil

/-! ## The order -/

theorem StoreOk.descendants (hst : StoreOk plan st log) (htree : PlanTree plan root) {i j : Nat}
    (hj : Relation.ReflTransGen (IsChild plan) j i) (hf : st.flag i = 1) : st.flag j = 1 := by
  induction hj using Relation.ReflTransGen.head_induction_on with
  | refl => exact hf
  | @head c k hc hk ih =>
    exact hst.children k (htree.parent_lt hc) ih c hc

/-- Plan execution runs bottom-up.  In every state of every interleaving of one query, the descendants of a
flagged node are flagged, the rows of a flagged node, which its statement has selected over its flagged children, have
been inserted at the site of its parent, and the global `is_finished` is 1 only when all nodes are flagged and `result`
names a file the root has written what its statement selected to. -/
theorem flagged_bottom_up {siteDict : List String} {s t : Pool.State Store Proc Event} (htree : PlanTree plan root)
    (hstart : Started plan siteDict s) (hglobal : s.store.etcd.isFinished ≠ 1)
    (h : Pool.Reachable (procStep selectSql) s t) :
    (∀ i < plan.length, t.store.flag i = 1 →
      ∀ j, Relation.TransGen (IsChild plan) j i → t.store.flag j = 1) ∧
    (∀ i node parent, plan[i]? = some node → nodeAt plan node.parentId = some parent → t.store.flag i = 1 →
      ∃ data, SelectedBetween selectSql plan s t i data ∧ Event.inserted i parent.executeSite data ∈ t.log) ∧
    (t.store.etcd.isFinished = 1 → (∀ i < plan.length, t.store.flag i = 1) ∧
      ∃ data, SelectedBetween selectSql plan s t root data ∧
        Event.written root t.store.etcd.result data ∈ t.log) := by
  obtain ⟨hst, -⟩ := ordered_of_reachable htree hstart h
  have hselected := (selected_of_reachable htree hstart h).2
  refine ⟨fun i _ hf j hj => hst.descendants htree hj.to_reflTransGen hf, fun i node parent hi hparent hf => ?_,
    fun hfin => ?_⟩
  · obtain ⟨data, hdata⟩ := hst.inserted i (List.getElem?_eq_some_iff.1 hi).1 hf node parent hi hparent
    exact ⟨data, hselected _ hdata, hdata⟩
  · obtain ⟨hroot, data, hdata⟩ := finished_of_reachable htree hstart hglobal h hfin
    exact ⟨fun i hi => hst.descendants htree (htree.descends i hi) hroot, data, hselected _ hdata, hdata⟩

end

/-! ## A plan of three nodes

The plan for the titles of the books with an id below 210000: two fragments and their union. -/

def booksPlan : AugmentedPlan :=
  [⟨0, 2, "ddb0", "select Book.title from Book", "(title char(100),)", 0⟩,
    ⟨1, 2, "ddb1", "select Book.title from Book", "(title char(100),)", 0⟩,
    ⟨2, -1, "ddb1", "select * from 0 union all select * from 1", "(title char(100),)", 0⟩]

def booksSql : SelectSql := fun site tables sql =>
  if sql = "select * from 0 union all select * from 1" then (tables 0 ++ tables 1).flatten
  else if site = "ddb0" then "('A')".toList else "('B')".toList

def clusterSites : List String := ["ddb0", "ddb1", "ddb2", "ddb3"]

/-- The state in which a query starts on empty tables. -/
def startState (plan : AugmentedPlan) (siteDict : List String) : Pool.State Store Proc Event where
  store := ⟨⟨plan.length, fun i => (plan[i]?).getD ⟨i, -1, "", "", "", 0⟩, 0, ""⟩, fun _ _ => [], fun _ => none⟩
  procs := siteDict.map .scanStart
  log := []

theorem started_startState {plan : AugmentedPlan} (hflags : ∀ node ∈ plan, node.isFinished = 0)
    (siteDict : List String) : Started plan siteDict (startState plan siteDict) := by
  refine ⟨⟨rfl, fun i node hi => ?_⟩, fun i hi => ?_, rfl, rfl⟩
  · simp only [startState, hi, Option.getD_some]
  · simp only [startState, Store.flag, List.getElem?_eq_getElem hi, Option.getD_some]
    exact hflags _ (List.getElem_mem hi)

theorem planTree_booksPlan : PlanTree booksPlan 2 := by
  refine ⟨⟨_, rfl, rfl⟩, fun i hi => ?_⟩
  match i, hi with
  | 0, _ => exact .single ⟨_, rfl, rfl⟩
  | 1, _ => exact .single ⟨_, rfl, rfl⟩
  | 2, _ => exact .refl

/-- In turn, every process takes one step, until none is left. -/
def roundRobin (n : Nat) : List (Nat × Env) := List.replicate n (0, ⟨"202311149305.txt", 0⟩)

theorem booksPlan_bottom_up : ∃ t, Pool.Reachable (procStep booksSql) (startState booksPlan clusterSites) t ∧
    t.store.etcd.isFinished = 1 ∧ (∀ i < booksPlan.length, t.store.flag i = 1) ∧
    ∃ data, SelectedBetween booksSql booksPlan (startState booksPlan clusterSites) t 2 data ∧
      Event.written 2 t.store.etcd.result data ∈ t.log := by
  have hrun : (Runs.run (Pool.step (procStep booksSql)) (fun _ _ => True) (roundRobin 67)
      (startState booksPlan clusterSites)).any (fun t => t.store.etcd.isFinished == 1) = true := by
    decide +kernel
  obtain ⟨t, hreach, hfin⟩ := Runs.exists_of_run hrun
  have h := flagged_bottom_up planTree_booksPlan (started_startState (by decide) clusterSites) (by decide) hreach
  exact ⟨t, hreach, by simpa using hfin, h.2.2 (by simpa using hfin)⟩

end EasyDDB.Execution
