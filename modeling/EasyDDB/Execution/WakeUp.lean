import EasyDDB.Execution.Order

/-! # No lost wake-up

A node that is not yet flagged is never forgotten: one of its children is not flagged either, or some process
serves it, that is, it is going to execute the node, to find it ready in a scan of the node's site, or to fork
such a scan.  When no process serves any node, the unflagged nodes would go down the tree without end. -/
namespace EasyDDB.Execution
set_option autoImplicit false

/-- The `data_push` has not yet set the flag of its node. -/
def Phase.beforeFlag : Phase → Prop
  | .selected | .opened _ | .written _ | .resultSet _ | .sent | .inserted => True
  | .nodeSet _ | .finishedSet _ | .flagged | .deleting _ => False

/-- The process is going to execute node `n` of `site`, or to scan the site and find the node ready unless one of
its children turns out to be unfinished. -/
def Proc.Serves (n : Nat) (site : String) : Proc → Prop
  | .scanStart s => s = site
  | .scanRead s _ nodes => s = site ∧ (∀ node, nodes[n]? = some node → node.isFinished = 0) ∧
      ∀ child ∈ nodes, child.parentId = (n : Int) → child.isFinished = 1
  | .execute _ _ todo => n ∈ todo
  | .push p phase => n ∈ p.rest ∨ (p.nodeId = n ∧ phase.beforeFlag) ∨ (phase = .flagged ∧ p.target = site)

/-- Nothing of the process is left but deletions: no scan, no node to execute, no message. -/
def Proc.Settled : Proc → Prop
  | .scanStart _ => False
  | .scanRead _ _ _ => False
  | .execute _ _ todo => todo = []
  | .push p (.deleting _) => p.rest = []
  | .push _ _ => False

theorem Proc.Settled.not_serves {p : Proc} (h : p.Settled) (n : Nat) (site : String) : ¬ p.Serves n site := by
  cases p with
  | scanStart s => exact h.elim
  | scanRead s nodeNum nodes => exact h.elim
  | execute s copy todo =>
    have htodo : todo = [] := h
    simp [Proc.Serves, htodo]
  | push q phase =>
    cases phase with
    | deleting children =>
      have hrest : q.rest = [] := h
      simp [Proc.Serves, Phase.beforeFlag, hrest]
    | _ => exact h.elim

/-- A `data_push` that has not just set its flag goes on serving its nodes when it goes on. -/
theorem Proc.Serves.next {q : Push} {phase phase' : Phase} {n : Nat} {site : String}
    (h : (Proc.push q phase).Serves n site) (hne : phase ≠ .flagged)
    (hnext : q.nodeId = n → phase.beforeFlag → phase'.beforeFlag) : (Proc.push q phase').Serves n site := by
  rcases h with h | ⟨hid, h⟩ | ⟨h, -⟩
  · exact .inl h
  · exact .inr (.inl ⟨hid, hnext hid h⟩)
  · exact absurd h hne

section
variable {plan : AugmentedPlan} {root : Nat} {selectSql : SelectSql} {env : Env} {st : Store}
  {log : List Event} {p : Proc} {o : Outcome}

/-! ## Steps of a process that serves a node -/

theorem serves_readNode {site : String} {nodes : AugmentedPlan} {n : Nat} {node : AugPlanNode}
    (hst : StoreOk plan st log) (hlt : nodes.length < plan.length) (hflag : st.flag n = 0)
    (h : (Proc.scanRead site plan.length nodes).Serves n node.executeSite) :
    (∃ c, IsChild plan c n ∧ st.flag c = 0) ∨
      (Proc.scanRead site plan.length (nodes ++ [st.etcd.node nodes.length])).Serves n node.executeSite := by
  obtain ⟨hsite, hself, hchildren⟩ := h
  have hget := List.getElem?_eq_getElem hlt
  have hparent := (AugPlanNode.keys_of_unflagged (hst.holds.node nodes.length _ hget)).1
  by_cases hc : (st.etcd.node nodes.length).parentId = (n : Int) ∧ st.flag nodes.length = 0
  · exact .inl ⟨nodes.length, ⟨plan[nodes.length], hget, hparent ▸ hc.1⟩, hc.2⟩
  · refine .inr ⟨hsite, fun node' hnode' => ?_, fun child hchild hpar => ?_⟩
    · obtain hnode' | ⟨rfl, rfl⟩ := Arena.getElem?_concat_cases hnode'
      · exact hself node' hnode'
      · exact hflag
    · rcases List.mem_append.1 hchild with hchild | hchild
      · exact hchildren child hchild hpar
      · rw [List.mem_singleton] at hchild
        subst hchild
        exact (hst.flags nodes.length hlt).resolve_left fun h0 => hc ⟨hpar, h0⟩

theorem serves_endScan {site : String} {nodes : AugmentedPlan} {n : Nat} {node : AugPlanNode}
    (hread : ReadKeys nodes plan) (hle : plan.length ≤ nodes.length) (hn : plan[n]? = some node)
    (h : (Proc.scanRead site plan.length nodes).Serves n node.executeSite) : n ∈ toExecute site nodes := by
  obtain ⟨rfl, hself, hchildren⟩ := h
  obtain ⟨node', hnode', hkeys⟩ := (hread.sameKeys hle).symm.getElem? hn
  exact mem_toExecute.2 ⟨node', hnode', hself node' hnode', (AugPlanNode.keys_of_unflagged hkeys).2.1.symm, hchildren⟩

/-- A process that serves an unflagged node is followed by one that does, unless it has met an unflagged child. -/
theorem Trans.serves {n : Nat} {node : AugPlanNode} (h : Trans selectSql env st p o) (hst : StoreOk plan st log)
    (hp : ProcOk plan root st log p) (hn : plan[n]? = some node) (hserves : p.Serves n node.executeSite)
    (hflag : o.store.flag n = 0) :
    (∃ c, IsChild plan c n ∧ o.store.flag c = 0) ∨ ∃ q ∈ o.procs, q.Serves n node.executeSite := by
  have hother : ∀ q : Push, (st.setNodeFinished q.nodeId).flag n = 0 → q.nodeId ≠ n := by
    rintro q hzero rfl
    rw [Store.flag_setNodeFinished_self] at hzero
    cases hzero
  cases h with
  | startScan site => exact .inr ⟨_, List.mem_singleton_self _, hserves, by simp, by simp⟩
  | readNode site nodeNum nodes hlt =>
    obtain ⟨rfl, -, -⟩ := hp
    exact (serves_readNode hst hlt hflag hserves).imp_right fun hq => ⟨_, List.mem_singleton_self _, hq⟩
  | endScan site nodeNum nodes hle =>
    obtain ⟨rfl, hread, -⟩ := hp
    exact .inr ⟨_, List.mem_singleton_self _, serves_endScan hread hle hn hserves⟩
  | finish site copy => cases hserves
  | startRoot site copy i rest node' hi hroot =>
    refine .inr ⟨_, List.mem_singleton_self _, ?_⟩
    exact (List.mem_cons.1 hserves).elim (fun h => .inr (.inl ⟨h.symm, trivial⟩)) .inl
  | startInner site copy i rest node' parent hi hroot hparent =>
    refine .inr ⟨_, List.mem_singleton_self _, ?_⟩
    exact (List.mem_cons.1 hserves).elim (fun h => .inr (.inl ⟨h.symm, trivial⟩)) .inl
  | openFile q hroot => exact .inr ⟨_, List.mem_singleton_self _, hserves.next nofun fun _ _ => trivial⟩
  | write q file => exact .inr ⟨_, List.mem_singleton_self _, hserves.next nofun fun _ _ => trivial⟩
  | setResult q file => exact .inr ⟨_, List.mem_singleton_self _, hserves.next nofun fun _ _ => trivial⟩
  | setNode q file =>
    exact .inr ⟨_, List.mem_singleton_self _, hserves.next nofun fun hid _ => absurd hid (hother q hflag)⟩
  | setFinished q file => exact .inr ⟨_, List.mem_singleton_self _, hserves.next nofun fun _ h => h.elim⟩
  | close q file => exact .inr ⟨_, List.mem_singleton_self _, hserves.next nofun fun _ h => h.elim⟩
  | insertHere q hroot htarget => exact .inr ⟨_, List.mem_singleton_self _, hserves.next nofun fun _ _ => trivial⟩
  | send q hroot htarget => exact .inr ⟨_, List.mem_singleton_self _, hserves.next nofun fun _ _ => trivial⟩
  | receive q => exact .inr ⟨_, List.mem_singleton_self _, hserves.next nofun fun _ _ => trivial⟩
  | setFlag q =>
    exact .inr ⟨_, List.mem_singleton_self _, hserves.next nofun fun hid _ => absurd hid (hother q hflag)⟩
  | fork q =>
    rcases hserves with hq | ⟨-, hq⟩ | ⟨-, htarget⟩
    · exact .inr ⟨_, List.mem_cons_self .., .inl hq⟩
    · exact hq.elim
    · exact .inr ⟨_, List.mem_cons_of_mem _ (List.mem_singleton_self _), htarget⟩
  | delete q i children => exact .inr ⟨_, List.mem_singleton_self _, hserves.next nofun fun _ h => h.elim⟩
  | goOn q =>
    rcases hserves with hq | ⟨-, hq⟩ | ⟨hq, -⟩
    · exact .inr ⟨_, List.mem_singleton_self _, hq⟩
    · exact hq.elim
    · cases hq

/-! ## No unflagged node is forgotten -/

/-- Every unflagged node has an unflagged child or a process that serves it. -/
def Awaited (plan : AugmentedPlan) (s : Pool.State Store Proc Event) : Prop :=
  ∀ n node, plan[n]? = some node → s.store.flag n = 0 →
    (∃ c, IsChild plan c n ∧ s.store.flag c = 0) ∨ ∃ p ∈ s.procs, p.Serves n node.executeSite

/-- When the root is flagged, the global `is_finished` is set or about to be set. -/
def FinishAwaited (root : Nat) (s : Pool.State Store Proc Event) : Prop :=
  s.store.flag root = 1 → s.store.etcd.isFinished = 1 ∨ ∃ p file, .push p (.nodeSet file) ∈ s.procs

theorem PushOf.target_eq {q : Push} {n : Nat} {node : AugPlanNode} (h : PushOf plan q) (hroot : q.isRoot = false)
    (hc : IsChild plan q.nodeId n) (hn : plan[n]? = some node) : q.target = node.executeSite := by
  obtain ⟨child, hchild, hparent⟩ := hc
  obtain ⟨child', hchild', -, ⟨htrue, -⟩ | ⟨-, parent, hpar, htarget⟩⟩ := h.route
  · rw [hroot] at htrue
    cases htrue
  · rw [hchild, Option.some.injEq] at hchild'
    rw [← hchild', hparent, nodeAt_natCast, hn, Option.some.injEq] at hpar
    rw [← htarget, hpar]

theorem Trans.forks_for_parent {c n : Nat} {node : AugPlanNode} (htree : PlanTree plan root)
    (h : Trans selectSql env st p o) (hp : ProcOk plan root st log p) (hflags : p.Flags c) (hc : IsChild plan c n)
    (hn : plan[n]? = some node) : ∃ q ∈ o.procs, q.Serves n node.executeSite := by
  obtain ⟨q, rfl, rfl | ⟨file, rfl⟩⟩ := hflags
  · cases h with
    | setFlag => exact ⟨_, List.mem_singleton_self _, .inr (.inr ⟨rfl, hp.1.target_eq hp.2.2.1 hc hn⟩)⟩
  · exact absurd (hp.1.nodeId_eq_root htree hp.2.2.1 ▸ hc) htree.root_node.not_up

theorem awaited_step {s t : Pool.State Store Proc Event} {c : Nat × Env} (htree : PlanTree plan root)
    (hst : StoreOk plan s.store s.log) (hok : ∀ p ∈ s.procs, ProcOk plan root s.store s.log p)
    (h : Awaited plan s) (hstep : Pool.step (procStep selectSql) s c = some t) : Awaited plan t := by
  obtain ⟨p, o, rest, ho, hperm, rfl⟩ := Pool.step_cases hstep
  have htrans := procStep_trans ho
  have hp := hok p (hperm.symm.subset (List.mem_cons_self ..))
  intro n node hn hflag
  have hbefore : s.store.flag n = 0 := by
    refine (hst.flags n (List.getElem?_eq_some_iff.1 hn).1).resolve_right fun hone => ?_
    rw [htrans.flag_mono hone] at hflag
    cases hflag
  have hnew : (∃ q ∈ o.procs, q.Serves n node.executeSite) →
      ∃ q ∈ rest ++ o.procs, q.Serves n node.executeSite :=
    fun ⟨q, hq, hserves⟩ => ⟨q, List.mem_append_right _ hq, hserves⟩
  rcases h n node hn hbefore with ⟨k, hk, hzero⟩ | ⟨q, hq, hserves⟩
  · rcases htrans.flag_cases k with heq | ⟨hflags, -⟩
    · exact .inl ⟨k, hk, heq.trans hzero⟩
    · exact .inr (hnew (htrans.forks_for_parent htree hp hflags hk hn))
  · rcases List.mem_cons.1 (hperm.subset hq) with rfl | hq
    · exact (htrans.serves hst hp hn hserves hflag).imp_right hnew
    · exact .inr ⟨q, List.mem_append_left _ hq, hserves⟩

theorem Trans.sets_finished (htree : PlanTree plan root) (h : Trans selectSql env st p o)
    (hp : ProcOk plan root st log p) (hflags : p.Flags root) : ∃ q file, .push q (.nodeSet file) ∈ o.procs := by
  obtain ⟨q, hid, rfl | ⟨file, rfl⟩⟩ := hflags
  · obtain ⟨node, hnode, -, ⟨htrue, -⟩ | ⟨-, parent, hparent, -⟩⟩ := hp.1.route
    · rw [hp.2.2.1] at htrue
      cases htrue
    · rw [(htree.parentId_eq_neg_one_iff hnode).2 hid] at hparent
      cases hparent
  · cases h with
    | setNode => exact ⟨q, file, List.mem_singleton_self _⟩

theorem finishAwaited_step {s t : Pool.State Store Proc Event} {c : Nat × Env} (htree : PlanTree plan root)
    (hok : ∀ p ∈ s.procs, ProcOk plan root s.store s.log p) (h : FinishAwaited root s)
    (hstep : Pool.step (procStep selectSql) s c = some t) : FinishAwaited root t := by
  obtain ⟨p, o, rest, ho, hperm, rfl⟩ := Pool.step_cases hstep
  have htrans := procStep_trans ho
  have hp := hok p (hperm.symm.subset (List.mem_cons_self ..))
  intro hroot
  rcases htrans.flag_cases root with heq | ⟨hflags, -⟩
  · rcases h (heq ▸ hroot) with hfin | ⟨q, file, hq⟩
    · refine .inl ?_
      cases htrans with
      | setFinished => rfl
      | _ => exact hfin
    · rcases List.mem_cons.1 (hperm.subset hq) with rfl | hq
      · cases htrans with
        | setFinished => exact .inl rfl
      · exact .inr ⟨q, file, List.mem_append_left _ hq⟩
  · obtain ⟨q, file, hq⟩ := htrans.sets_finished htree hp hflags
    exact .inr ⟨q, file, List.mem_append_right _ hq⟩

/-! ## Every process can go on -/

theorem exists_executeStep {site : String} {copy : AugmentedPlan} {i : Nat} {rest : List Nat}
    (htree : PlanTree plan root) (hcopy : SameKeys copy plan) (hi : Executable plan st site i) :
    ∃ o, executeStep selectSql st site copy i rest = some o := by
  obtain ⟨node, hnode, -⟩ := hi.node
  obtain ⟨node', hnode', hkeys⟩ := hcopy.symm.getElem? hnode
  have hparent := (AugPlanNode.keys_of_unflagged hkeys).1
  simp only [executeStep, hnode', Option.bind_eq_bind, Option.bind_some]
  by_cases hroot : node'.parentId = -1
  · rw [if_pos hroot]
    exact ⟨_, rfl⟩
  · rw [if_neg hroot]
    have hne : i ≠ root := fun heq => hroot (hparent ▸ (htree.parentId_eq_neg_one_iff hnode).2 heq)
    obtain ⟨p, hp, child, hchild, hpar⟩ := htree.exists_parent (List.getElem?_eq_some_iff.1 hnode).1 hne
    rw [hnode, Option.some.injEq] at hchild
    have hat : nodeAt plan node'.parentId = some plan[p] := by
      rw [← hparent, hchild, hpar, nodeAt_natCast, List.getElem?_eq_getElem hp]
    obtain ⟨parent, hparent', -⟩ := hcopy.symm.nodeAt hat
    rw [hparent']
    exact ⟨_, rfl⟩

theorem exists_procStep (htree : PlanTree plan root) (hp : ProcOk plan root st log p) :
    ∃ o, procStep selectSql env st p = some o := by
  cases p with
  | scanStart site => exact ⟨_, rfl⟩
  | scanRead site nodeNum nodes =>
    by_cases hlt : nodes.length < nodeNum
    · exact ⟨_, if_pos hlt⟩
    · exact ⟨_, if_neg hlt⟩
  | execute site copy todo =>
    cases todo with
    | nil => exact ⟨_, rfl⟩
    | cons i rest => exact exists_executeStep htree hp.1 (hp.2 i (List.mem_cons_self ..))
  | push q phase => exact ⟨_, rfl⟩

/-! ## Quiet states are finished -/

theorem awaited_of_reachable {siteDict : List String} {s t : Pool.State Store Proc Event} (htree : PlanTree plan root)
    (hsites : ∀ node ∈ plan, node.executeSite ∈ siteDict) (hstart : Started plan siteDict s)
    (h : Pool.Reachable (procStep selectSql) s t) : Awaited plan t ∧ FinishAwaited root t := by
  refine Runs.Reaches.invariant (I := fun u => Awaited plan u ∧ FinishAwaited root u) ?_ ⟨?_, ?_⟩ h
  · rintro u u' c hreach ⟨hawaited, hfinish⟩ - hstep
    obtain ⟨hst, hok⟩ := ordered_of_reachable htree hstart hreach
    exact ⟨awaited_step htree hst hok hawaited hstep, finishAwaited_step htree hok hfinish hstep⟩
  · intro n node hn _
    refine .inr ⟨.scanStart node.executeSite, ?_, rfl⟩
    rw [hstart.procs]
    exact List.mem_map_of_mem (hsites node (List.mem_of_getElem? hn))
  · intro hone
    rw [hstart.flags root htree.root_node.lt] at hone
    cases hone

/-- No wake-up is lost.  In every state of every interleaving of one query each process can take its next step,
and when nothing is left but deletions (no scan running or pending, no node left in a `to_execute`, no message
under way) every node is flagged and the global `is_finished` is 1. -/
theorem settled_finished {siteDict : List String} {s t : Pool.State Store Proc Event} (htree : PlanTree plan root)
    (hsites : ∀ node ∈ plan, node.executeSite ∈ siteDict) (hstart : Started plan siteDict s)
    (h : Pool.Reachable (procStep selectSql) s t) :
    (∀ p ∈ t.procs, ∀ env, ∃ o, procStep selectSql env t.store p = some o) ∧
    ((∀ p ∈ t.procs, p.Settled) → (∀ i < plan.length, t.store.flag i = 1) ∧ t.store.etcd.isFinished = 1) := by
  obtain ⟨hst, hok⟩ := ordered_of_reachable htree hstart h
  obtain ⟨hawaited, hfinish⟩ := awaited_of_reachable htree hsites hstart h
  refine ⟨fun p hp env => exists_procStep htree (hok p hp), fun hsettled => ?_⟩
  have hall : ∀ i < plan.length, t.store.flag i = 1 := by
    by_contra hnot
    push Not at hnot
    obtain ⟨i, hi, hne, hlowest⟩ := htree.exists_lowest (U := fun i => t.store.flag i ≠ 1) hnot
    rcases hawaited i plan[i] (List.getElem?_eq_getElem hi) ((hst.flags i hi).resolve_right hne) with
      ⟨c, hc, hzero⟩ | ⟨p, hp, hserves⟩
    · exact hlowest c hc (by rw [hzero]; decide)
    · exact (hsettled p hp).not_serves i _ hserves
  refine ⟨hall, (hfinish (hall root htree.root_node.lt)).resolve_right ?_⟩
  rintro ⟨q, file, hq⟩
  exact hsettled _ hq

theorem booksPlan_settled : ∃ t, Pool.Reachable (procStep booksSql) (startState booksPlan clusterSites) t ∧
    t.procs = [] ∧ (∀ i < booksPlan.length, t.store.flag i = 1) ∧ t.store.etcd.isFinished = 1 := by
  have hrun : (Runs.run (Pool.step (procStep booksSql)) (fun _ _ => True) (roundRobin 67)
      (startState booksPlan clusterSites)).any (fun t => t.procs.isEmpty) = true := by
    decide +kernel
  obtain ⟨t, hreach, hempty⟩ := Runs.exists_of_run hrun
  rw [List.isEmpty_iff] at hempty
  have h := settled_finished planTree_booksPlan (by decide) (started_startState (by decide) clusterSites) hreach
  exact ⟨t, hreach, hempty, h.2 (by simp [hempty])⟩

end

end EasyDDB.Execution
