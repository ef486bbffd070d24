import EasyDDB.Execution.Once
import EasyDDB.Execution.WakeUp

/-! # Plan execution ends

A node can be executed more than once, and every execution forks a scan that can execute nodes again.  Still every
run ends: a scan only executes nodes that it has seen unfinished, and the scan it forks after one of them starts when
that node is flagged, so along a line of forked scans the nodes still to execute become fewer. -/
namespace EasyDDB.Execution
set_option autoImplicit false

/-! ## What a process may still cost -/

/-- The steps of a scan of a plan of `n` nodes, and of everything it leads to, when `u` nodes are unfinished: the scan
itself, and for each unfinished node one `data_push` with the scan it forks. -/
def scanCost (n : Nat) : Nat → Nat
  | 0 => n + 3
  | u + 1 => n + 3 + (u + 1) * (n + 9 + scanCost n u)

/-- The steps for one node of a `to_execute` list that was read when `u` nodes were unfinished. -/
def taskCost (n u : Nat) : Nat := n + 9 + scanCost n (u - 1)

theorem scanCost_eq (n u : Nat) : scanCost n u = n + 3 + u * taskCost n u := by
  cases u with
  | zero => simp [scanCost]
  | succ u => rfl

theorem scanCost_mono (n : Nat) {u v : Nat} (h : u ≤ v) : scanCost n u ≤ scanCost n v := by
  induction v generalizing u with
  | zero => rw [Nat.le_zero.1 h]
  | succ v ih =>
    cases u with
    | zero =>
      rw [scanCost, scanCost]
      omega
    | succ u =>
      have hle : n + 9 + scanCost n u ≤ n + 9 + scanCost n v := Nat.add_le_add_left (ih (by omega)) _
      rw [scanCost, scanCost]
      exact Nat.add_le_add_left (Nat.mul_le_mul h hle) _

theorem taskCost_mono (n : Nat) {u v : Nat} (h : u ≤ v) : taskCost n u ≤ taskCost n v :=
  Nat.add_le_add_left (scanCost_mono n (by omega)) _

/-- The nodes that are unfinished for a process: in the copy of the plan it has read so far, in etcd for the rest. -/
def openNodes (plan copy : AugmentedPlan) (st : Store) : Finset Nat :=
  (Finset.range plan.length).filter fun i => ((copy[i]?).map AugPlanNode.isFinished).getD (st.flag i) ≠ 1

/-- The steps of a `data_push` up to its end, without those of the scan it forks. -/
def Phase.steps (n : Nat) : Phase → Nat
  | .selected => n + 8
  | .opened _ => n + 7
  | .written _ => n + 6
  | .resultSet _ => n + 5
  | .nodeSet _ => n + 4
  | .finishedSet _ => n + 3
  | .sent => n + 5
  | .inserted => n + 4
  | .flagged => n + 3
  | .deleting children => children.length + 1

/-- The steps of the scan that is still to be forked. -/
def Phase.forkCost (n u : Nat) : Phase → Nat
  | .deleting _ => 0
  | _ => scanCost n (u - 1)

def Proc.cost (plan : AugmentedPlan) (st : Store) : Proc → Nat
  | .scanStart _ => scanCost plan.length (openNodes plan [] st).card
  | .scanRead _ _ nodes =>
    let u := (openNodes plan nodes st).card
    plan.length - nodes.length + 2 + u * taskCost plan.length u
  | .execute _ copy todo => 1 + todo.length * taskCost plan.length (openNodes plan copy st).card
  | .push p phase =>
    let u := (openNodes plan p.plan st).card
    1 + p.rest.length * taskCost plan.length u + phase.steps plan.length + phase.forkCost plan.length u

section
variable {plan : AugmentedPlan} {root : Nat} {selectSql : SelectSql} {env : Env} {st st' : Store}
  {log : List Event} {p q : Proc} {o : Outcome}

theorem openNodes_mono (copy : AugmentedPlan) (h : ∀ i, st.flag i = 1 → st'.flag i = 1) :
    openNodes plan copy st' ⊆ openNodes plan copy st := by
  intro i hi
  rw [openNodes, Finset.mem_filter] at hi ⊢
  refine ⟨hi.1, ?_⟩
  cases hcopy : copy[i]? with
  | none =>
    rw [hcopy] at hi
    exact fun hone => hi.2 (h i hone)
  | some node =>
    rw [hcopy] at hi
    exact hi.2

theorem Phase.forkCost_mono (n : Nat) {u v : Nat} (h : u ≤ v) (phase : Phase) :
    phase.forkCost n u ≤ phase.forkCost n v := by
  cases phase with
  | deleting children => exact le_rfl
  | _ => exact scanCost_mono n (by omega)

/-- While flags rise no process gets more expensive. -/
theorem Proc.cost_mono (h : ∀ i, st.flag i = 1 → st'.flag i = 1) (q : Proc) : q.cost plan st' ≤ q.cost plan st := by
  have hcard : ∀ copy, (openNodes plan copy st').card ≤ (openNodes plan copy st).card :=
    fun copy => Finset.card_le_card (openNodes_mono copy h)
  cases q with
  | scanStart site => exact scanCost_mono _ (hcard [])
  | scanRead site nodeNum nodes =>
    exact Nat.add_le_add_left (Nat.mul_le_mul (hcard nodes) (taskCost_mono _ (hcard nodes))) _
  | execute site copy todo => exact Nat.add_le_add_left (Nat.mul_le_mul_left _ (taskCost_mono _ (hcard copy))) _
  | push p phase =>
    have htask := Nat.mul_le_mul_left p.rest.length (taskCost_mono plan.length (hcard p.plan))
    have hfork := phase.forkCost_mono plan.length (hcard p.plan)
    simp only [Proc.cost]
    omega

/-! ## What a process has seen -/

/-- The finished nodes of a copy are flagged, and the nodes of `todo` are unfinished in it. -/
structure SeenOpen (st : Store) (copy : AugmentedPlan) (todo : List Nat) : Prop where
  flagged : ∀ i node, copy[i]? = some node → node.isFinished = 1 → st.flag i = 1
  unfinished : ∀ i ∈ todo, ∃ node, copy[i]? = some node ∧ node.isFinished = 0

def Proc.Seen (st : Store) : Proc → Prop
  | .execute _ copy todo => SeenOpen st copy todo
  | .push p _ => SeenOpen st p.plan (p.nodeId :: p.rest)
  | _ => True

theorem SeenOpen.subset {copy : AugmentedPlan} {todo todo' : List Nat} (h : SeenOpen st copy todo)
    (hsub : ∀ i ∈ todo', i ∈ todo) : SeenOpen st copy todo' :=
  ⟨h.flagged, fun i hi => h.unfinished i (hsub i hi)⟩

theorem SeenOpen.mono {copy : AugmentedPlan} {todo : List Nat} (h : SeenOpen st copy todo)
    (hflag : ∀ i, st.flag i = 1 → st'.flag i = 1) : SeenOpen st' copy todo :=
  ⟨fun i node hi hone => hflag i (h.flagged i node hi hone), h.unfinished⟩

theorem Proc.Seen.mono (h : q.Seen st) (hflag : ∀ i, st.flag i = 1 → st'.flag i = 1) : q.Seen st' := by
  cases q with
  | execute site copy todo => exact SeenOpen.mono h hflag
  | push p phase => exact SeenOpen.mono h hflag
  | _ => trivial

theorem Trans.seen (h : Trans selectSql env st p o) (hp : ProcOk plan root st log p) (hseen : p.Seen st) :
    ∀ q ∈ o.procs, q.Seen o.store := by
  have hmono : ∀ i, st.flag i = 1 → o.store.flag i = 1 := fun i hi => h.flag_mono hi
  cases h with
  | startScan site => exact List.forall_mem_singleton.2 trivial
  | readNode site nodeNum nodes hlt => exact List.forall_mem_singleton.2 trivial
  | endScan site nodeNum nodes hle =>
    refine List.forall_mem_singleton.2 ⟨hp.2.2, fun i hi => ?_⟩
    obtain ⟨node, hnode, hzero, -⟩ := mem_toExecute.1 hi
    exact ⟨node, hnode, hzero⟩
  | finish site copy => exact fun q hq => by cases hq
  | startRoot site copy i rest node hi hroot => exact List.forall_mem_singleton.2 hseen
  | startInner site copy i rest node parent hi hroot hparent => exact List.forall_mem_singleton.2 hseen
  | fork q => exact List.forall_mem_cons.2 ⟨hseen, List.forall_mem_singleton.2 trivial⟩
  | goOn q => exact List.forall_mem_singleton.2 (SeenOpen.subset hseen fun i hi => List.mem_cons_of_mem _ hi)
  | _ => exact List.forall_mem_singleton.2 (SeenOpen.mono hseen hmono)

/-! ## Every step makes the processes cheaper -/

theorem length_eq_of_sameKeys {copy : AugmentedPlan} (h : SameKeys copy plan) : copy.length = plan.length := by
  have hlen := congrArg List.length h
  simpa using hlen

theorem openNodes_snoc (nodes : AugmentedPlan) :
    openNodes plan (nodes ++ [st.etcd.node nodes.length]) st = openNodes plan nodes st := by
  refine Finset.filter_congr fun i _ => ?_
  rcases Nat.lt_trichotomy i nodes.length with hlt | rfl | hgt
  · rw [List.getElem?_append_left hlt]
  · simp [Store.flag]
  · rw [List.getElem?_eq_none (by simp; omega), List.getElem?_eq_none (by omega)]

/-- A scan executes nodes that are open for it. -/
theorem toExecute_length_le {site : String} {nodes : AugmentedPlan} (hcopy : SameKeys nodes plan) :
    (toExecute site nodes).length ≤ (openNodes plan nodes st).card := by
  have hnodup : (toExecute site nodes).Nodup := List.nodup_range.filter _
  rw [← List.toFinset_card_of_nodup hnodup]
  refine Finset.card_le_card fun i hi => ?_
  obtain ⟨node, hnode, hzero, -⟩ := mem_toExecute.1 (List.mem_toFinset.1 hi)
  have hlt := (List.getElem?_eq_some_iff.1 hnode).1
  rw [length_eq_of_sameKeys hcopy] at hlt
  rw [openNodes, Finset.mem_filter, Finset.mem_range, hnode]
  exact ⟨hlt, by simp [hzero]⟩

/-- The scan forked after a node has one open node less than the copy the node was taken from. -/
theorem card_openNodes_fork {p : Push} (hcopy : SameKeys p.plan plan)
    (hseen : SeenOpen st p.plan (p.nodeId :: p.rest)) (hflag : st.flag p.nodeId = 1) :
    (openNodes plan [] st).card < (openNodes plan p.plan st).card := by
  obtain ⟨node, hnode, hzero⟩ := hseen.unfinished p.nodeId (List.mem_cons_self ..)
  have hlt := (List.getElem?_eq_some_iff.1 hnode).1
  rw [length_eq_of_sameKeys hcopy] at hlt
  refine Finset.card_lt_card ((Finset.ssubset_iff_of_subset fun i hi => ?_).2 ⟨p.nodeId, ?_, ?_⟩)
  · rw [openNodes, Finset.mem_filter] at hi ⊢
    refine ⟨hi.1, ?_⟩
    cases hcopy : p.plan[i]? with
    | none => exact hi.2
    | some node => exact fun hone => hi.2 (hseen.flagged i node hcopy hone)
  · rw [openNodes, Finset.mem_filter, Finset.mem_range, hnode]
    exact ⟨hlt, by simp [hzero]⟩
  · simp [openNodes, hflag]

theorem childrenOf_length_le (copy : AugmentedPlan) (i : Nat) : (childrenOf copy i).length ≤ copy.length :=
  (List.length_filter_le _ _).trans (Nat.le_of_eq List.length_range)

/-- The processes that go on cost less than the one that has acted. -/
theorem Trans.cost_lt (h : Trans selectSql env st p o) (hp : ProcOk plan root st log p) (hseen : p.Seen st) :
    (o.procs.map (Proc.cost plan o.store)).sum < p.cost plan st := by
  have hnext : ∀ (q : Push) (phase phase' : Phase), (∀ i, st.flag i = 1 → o.store.flag i = 1) →
      phase'.steps plan.length < phase.steps plan.length →
      (∀ u, phase'.forkCost plan.length u ≤ phase.forkCost plan.length u) →
      (([Proc.push q phase'] : List Proc).map (Proc.cost plan o.store)).sum < (Proc.push q phase).cost plan st := by
    intro q phase phase' hmono hsteps hfork
    have hle : (Proc.push q phase').cost plan o.store ≤ (Proc.push q phase').cost plan st := Proc.cost_mono hmono _
    have hfork := hfork (openNodes plan q.plan st).card
    simp only [List.map_cons, List.map_nil, List.sum_cons, List.sum_nil, Proc.cost] at hle ⊢
    omega
  have hmono : ∀ i, st.flag i = 1 → o.store.flag i = 1 := fun i hi => h.flag_mono hi
  cases h with
  | startScan site =>
    simp only [List.map_cons, List.map_nil, List.sum_cons, List.sum_nil, Proc.cost, scanCost_eq, List.length_nil]
    omega
  | readNode site nodeNum nodes hlt =>
    obtain ⟨rfl, -, -⟩ := hp
    simp only [List.map_cons, List.map_nil, List.sum_cons, List.sum_nil, Proc.cost, openNodes_snoc,
      List.length_append, List.length_singleton]
    omega
  | endScan site nodeNum nodes hle =>
    obtain ⟨rfl, hread, -⟩ := hp
    have htodo : (toExecute site nodes).length ≤ (openNodes plan nodes st).card :=
      toExecute_length_le (hread.sameKeys hle)
    have htodo := Nat.mul_le_mul_right (taskCost plan.length (openNodes plan nodes st).card) htodo
    simp only [List.map_cons, List.map_nil, List.sum_cons, List.sum_nil, Proc.cost]
    omega
  | finish site copy => simp [Proc.cost]
  | startRoot site copy i rest node hi hroot =>
    simp only [List.map_cons, List.map_nil, List.sum_cons, List.sum_nil, Proc.cost, Phase.steps, Phase.forkCost,
      List.length_cons, Nat.add_mul, Nat.one_mul]
    rw [taskCost]
    omega
  | startInner site copy i rest node parent hi hroot hparent =>
    simp only [List.map_cons, List.map_nil, List.sum_cons, List.sum_nil, Proc.cost, Phase.steps, Phase.forkCost,
      List.length_cons, Nat.add_mul, Nat.one_mul]
    rw [taskCost]
    omega
  | openFile q hroot => exact hnext q _ _ hmono (by simp [Phase.steps]) fun _ => le_rfl
  | write q file => exact hnext q _ _ hmono (by simp [Phase.steps]) fun _ => le_rfl
  | setResult q file => exact hnext q _ _ hmono (by simp [Phase.steps]) fun _ => le_rfl
  | setNode q file => exact hnext q _ _ hmono (by simp [Phase.steps]) fun _ => le_rfl
  | setFinished q file => exact hnext q _ _ hmono (by simp [Phase.steps]) fun _ => le_rfl
  | close q file =>
    have hlen := childrenOf_length_le q.plan q.nodeId
    rw [length_eq_of_sameKeys hp.1.copy] at hlen
    refine hnext q _ _ hmono ?_ fun _ => Nat.zero_le _
    simp only [Phase.steps]
    omega
  | insertHere q hroot htarget => exact hnext q _ _ hmono (by simp [Phase.steps]) fun _ => le_rfl
  | send q hroot htarget => exact hnext q _ _ hmono (by simp [Phase.steps]) fun _ => le_rfl
  | receive q => exact hnext q _ _ hmono (by simp [Phase.steps]) fun _ => le_rfl
  | setFlag q => exact hnext q _ _ hmono (by simp [Phase.steps]) fun _ => le_rfl
  | fork q =>
    have hlen := childrenOf_length_le q.plan q.nodeId
    rw [length_eq_of_sameKeys hp.1.copy] at hlen
    have hcard := card_openNodes_fork hp.1.copy hseen hp.2.2.2
    have hscan := scanCost_mono plan.length (Nat.le_sub_one_of_lt hcard)
    simp only [List.map_cons, List.map_nil, List.sum_cons, List.sum_nil, Proc.cost, Phase.steps, Phase.forkCost]
    omega
  | delete q i children => exact hnext q _ _ hmono (by simp [Phase.steps]) fun _ => le_rfl
  | goOn q =>
    simp only [List.map_cons, List.map_nil, List.sum_cons, List.sum_nil, Proc.cost, Phase.steps, Phase.forkCost,
      List.length_nil]
    omega

end

/-! ## Whole runs -/

section
variable {plan : AugmentedPlan} {root : Nat} {selectSql : SelectSql} {siteDict : List String}
  {s t : Pool.State Store Proc Event}

theorem seen_of_reachable (htree : PlanTree plan root) (hstart : Started plan siteDict s)
    (h : Pool.Reachable (procStep selectSql) s t) : ∀ p ∈ t.procs, p.Seen t.store := by
  refine Runs.Reaches.invariant (I := fun u => ∀ p ∈ u.procs, p.Seen u.store) ?_ ?_ h
  · rintro u u' c hreach hseen - hstep
    obtain ⟨-, hok⟩ := ordered_of_reachable htree hstart hreach
    obtain ⟨p, o, rest, ho, hperm, rfl⟩ := Pool.step_cases hstep
    have htrans := procStep_trans ho
    have hp : p ∈ u.procs := hperm.symm.subset (List.mem_cons_self ..)
    intro q hq
    rcases List.mem_append.1 hq with hq | hq
    · exact (hseen q (hperm.symm.subset (List.mem_cons_of_mem _ hq))).mono fun i hi => htrans.flag_mono hi
    · exact htrans.seen (hok p hp) (hseen p hp) q hq
  · intro p hp
    rw [hstart.procs, List.mem_map] at hp
    obtain ⟨site, -, rfl⟩ := hp
    trivial

theorem weight_step (htree : PlanTree plan root) (hstart : Started plan siteDict s) (c : Nat × Env)
    {u : Pool.State Store Proc Event} (h : Pool.Reachable (procStep selectSql) s t)
    (hstep : Pool.step (procStep selectSql) t c = some u) :
    Pool.weight (Proc.cost plan) u < Pool.weight (Proc.cost plan) t := by
  obtain ⟨-, hok⟩ := ordered_of_reachable htree hstart h
  refine Pool.weight_lt hstep fun p hp o ho => ?_
  have htrans := procStep_trans ho
  refine ⟨htrans.cost_lt (hok p hp) (seen_of_reachable htree hstart h p hp), fun q => ?_⟩
  exact q.cost_mono fun i hi => htrans.flag_mono hi

theorem weight_started (hstart : Started plan siteDict s) :
    Pool.weight (Proc.cost plan) s = siteDict.length * scanCost plan.length plan.length := by
  have hopen : openNodes plan [] s.store = Finset.range plan.length := by
    refine Finset.filter_true_of_mem fun i hi => ?_
    simp [hstart.flags i (Finset.mem_range.1 hi)]
  have hconst : (Proc.cost plan s.store ∘ Proc.scanStart) = fun _ => scanCost plan.length plan.length := by
    funext site
    simp [Proc.cost, hopen]
  rw [Pool.weight, hstart.procs, List.map_map, hconst, List.map_const', List.sum_replicate, nsmul_eq_mul, Nat.cast_id]

/-- A flagged root has written its result to the file that the key `result` names. -/
theorem rootWritten_of_reachable (htree : PlanTree plan root) (hstart : Started plan siteDict s)
    (h : Pool.Reachable (procStep selectSql) s t) (hroot : t.store.flag root = 1) :
    ResultWritten root t.store t.log := by
  refine Runs.Reaches.invariant (I := fun u => u.store.flag root = 1 → ResultWritten root u.store u.log) ?_ ?_ h hroot
  · rintro u u' c hreach hwritten - hstep hone
    obtain ⟨-, hok⟩ := ordered_of_reachable htree hstart hreach
    obtain ⟨p, o, rest, ho, hperm, rfl⟩ := Pool.step_cases hstep
    have htrans := procStep_trans ho
    have hp := hok p (hperm.symm.subset (List.mem_cons_self ..))
    rcases htrans.flag_cases root with heq | ⟨⟨q, hid, rfl | ⟨file, rfl⟩⟩, -⟩
    · exact htrans.resultWritten hp (hwritten (heq ▸ hone))
    · obtain ⟨node, hnode, -, ⟨htrue, -⟩ | ⟨-, parent, hparent, -⟩⟩ := hp.1.route
      · rw [hp.2.2.1] at htrue
        cases htrue
      · rw [(htree.parentId_eq_neg_one_iff hnode).2 hid] at hparent
        cases hparent
    · exact htrans.resultWritten hp hp.2.2.2
  · intro hone
    rw [hstart.flags root htree.root_node.lt] at hone
    cases hone

theorem flagged_of_no_procs (htree : PlanTree plan root) (hsites : ∀ node ∈ plan, node.executeSite ∈ siteDict)
    (hstart : Started plan siteDict s) (h : Pool.Reachable (procStep selectSql) s t) (hnil : t.procs = []) :
    (∀ i < plan.length, t.store.flag i = 1) ∧ t.store.etcd.isFinished = 1 := by
  obtain ⟨hst, -⟩ := ordered_of_reachable htree hstart h
  obtain ⟨hawaited, hfinish⟩ := awaited_of_reachable htree hsites hstart h
  have hall : ∀ i < plan.length, t.store.flag i = 1 := by
    by_contra hnot
    push Not at hnot
    obtain ⟨i, hi, hne, hlowest⟩ := htree.exists_lowest (U := fun i => t.store.flag i ≠ 1) hnot
    rcases hawaited i plan[i] (List.getElem?_eq_getElem hi) ((hst.flags i hi).resolve_right hne) with
      ⟨c, hc, hzero⟩ | ⟨p, hp, -⟩
    · exact hlowest c hc (by rw [hzero]; decide)
    · rw [hnil] at hp
      cases hp
  refine ⟨hall, (hfinish (hall root htree.root_node.lt)).resolve_right ?_⟩
  rintro ⟨q, file, hq⟩
  rw [hnil] at hq
  cases hq

/-- **Plan execution terminates.**  No interleaving of one query has more steps than `siteDict.length * scanCost n n`
for a plan of `n` nodes; a run that cannot go on has no process left, and then every node is flagged, the global
`is_finished` is 1 and the key `result` names a file the root has written. -/
theorem execution_terminates (htree : PlanTree plan root) (hsites : ∀ node ∈ plan, node.executeSite ∈ siteDict)
    (hstart : Started plan siteDict s) :
    (∀ schedule t, Runs.run (Pool.step (procStep selectSql)) (fun _ _ => True) schedule s = some t →
      schedule.length ≤ siteDict.length * scanCost plan.length plan.length) ∧
    ∀ t, Pool.Reachable (procStep selectSql) s t → (∀ c, Pool.step (procStep selectSql) t c = none) →
      t.procs = [] ∧ (∀ i < plan.length, t.store.flag i = 1) ∧ t.store.etcd.isFinished = 1 ∧
        ∃ data, Event.written root t.store.etcd.result data ∈ t.log := by
  constructor
  · intro schedule t hrun
    have hlen := Runs.length_le_of_run (I := Pool.Reachable (procStep selectSql) s)
      (μ := Pool.weight (Proc.cost plan))
      (fun u u' c hreach _ hstep => ⟨hreach.tail trivial hstep, weight_step htree hstart c hreach hstep⟩) .refl hrun
    rw [weight_started hstart] at hlen
    omega
  · intro t hreach hhalt
    obtain ⟨-, hok⟩ := ordered_of_reachable htree hstart hreach
    have hnil : t.procs = [] := by
      by_contra hne
      obtain ⟨p, rest, hprocs⟩ := List.exists_cons_of_ne_nil hne
      have hp := hok p (hprocs ▸ List.mem_cons_self ..)
      obtain ⟨o, ho⟩ : ∃ o, procStep selectSql ⟨"", 0⟩ t.store p = some o := exists_procStep htree hp
      obtain ⟨c, u, hstep, -⟩ := Pool.exists_step (.of_eq hprocs) ho
      rw [hhalt c] at hstep
      cases hstep
    obtain ⟨hflags, hfin⟩ := flagged_of_no_procs htree hsites hstart hreach hnil
    exact ⟨hnil, hflags, hfin, rootWritten_of_reachable htree hstart hreach (hflags root htree.root_node.lt)⟩

/-- The three nodes of `booksPlan` on four sites. -/
theorem booksPlan_terminates :
    (∀ schedule t, Runs.run (Pool.step (procStep booksSql)) (fun _ _ => True) schedule
      (startState booksPlan clusterSites) = some t →
      schedule.length ≤ clusterSites.length * scanCost booksPlan.length booksPlan.length) ∧
    ∀ t, Pool.Reachable (procStep booksSql) (startState booksPlan clusterSites) t →
      (∀ c, Pool.step (procStep booksSql) t c = none) →
      t.procs = [] ∧ (∀ i < booksPlan.length, t.store.flag i = 1) ∧ t.store.etcd.isFinished = 1 ∧
        ∃ data, Event.written 2 t.store.etcd.result data ∈ t.log :=
  execution_terminates planTree_booksPlan (by decide) (started_startState (by decide) clusterSites)

end

end EasyDDB.Execution
