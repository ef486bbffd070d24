import EasyDDB.Execution.Race
import Mathlib.Algebra.Order.Ring.Nat

/-! # At most one execution of every node

A plan whose nodes lie one above the other on a single site is executed by one process at a time: the work is
handed from a scan to the `data_push` of the one ready node and from there to the forked scan.  For every other
plan the scans of a site can race. -/
namespace EasyDDB.Execution
set_option autoImplicit false

/-- The rows of every node with a parent are inserted at the site of the parent at most once, and a result is
written at most once. -/
def AtMostOnce (plan : AugmentedPlan) (log : List Event) : Prop := ∀ i < plan.length, executions plan log i ≤ 1

/-- No node has two children, and all nodes are executed at one site. -/
structure OneSiteChain (plan : AugmentedPlan) : Prop where
  unary : ∀ p a b, IsChild plan a p → IsChild plan b p → a = b
  oneSite : ∀ a ∈ plan, ∀ b ∈ plan, a.executeSite = b.executeSite

/-! ## The work in hand -/

/-- How many executions the process may still start or has under way, when all nodes are at `site`. -/
def Proc.weight (site : String) : Proc → Nat
  | .scanStart s => if s = site then 1 else 0
  | .scanRead s _ _ => if s = site then 1 else 0
  | .execute _ _ todo => todo.length
  | .push p (.deleting _) => p.rest.length
  | .push p _ => p.rest.length + 1

/-- Flagged nodes have been executed once and the others not at all, but for a node whose flag is still to be
set. -/
def Counted (plan : AugmentedPlan) (st : Store) (log : List Event) (pending : Option Nat) : Prop :=
  ∀ i < plan.length, (executions plan log i : Int) = st.flag i + if pending = some i then 1 else 0

/-- What the process that holds the work knows. -/
def TokenOk (plan : AugmentedPlan) (st : Store) (log : List Event) : Proc → Prop
  | .scanStart _ => Counted plan st log none
  | .scanRead _ _ nodes =>
    Counted plan st log none ∧ ∀ i node, nodes[i]? = some node → node.isFinished = st.flag i
  | .execute _ _ todo => Counted plan st log none ∧ ∀ i ∈ todo, st.flag i = 0
  | .push p .selected | .push p (.opened _) | .push p .sent => Counted plan st log none ∧ st.flag p.nodeId = 0
  | .push p (.written _) | .push p (.resultSet _) | .push p .inserted =>
    Counted plan st log (some p.nodeId) ∧ st.flag p.nodeId = 0
  | .push _ (.nodeSet _) | .push _ (.finishedSet _) | .push _ .flagged => Counted plan st log none
  | .push _ (.deleting _) => False

/-- At most one process holds the work. -/
structure Handed (plan : AugmentedPlan) (site : String) (st : Store) (log : List Event) (procs : List Proc) : Prop where
  weight : (procs.map (Proc.weight site)).sum ≤ 1
  token : ∀ p ∈ procs, p.weight site ≠ 0 → TokenOk plan st log p
  counted : (procs.map (Proc.weight site)).sum = 0 → Counted plan st log none

section
variable {plan : AugmentedPlan} {root : Nat} {site : String} {selectSql : SelectSql} {env : Env} {st st' : Store}
  {log : List Event} {p : Proc} {procs rest : List Proc} {o : Outcome}

theorem Counted.congr {pending : Option Nat} (h : Counted plan st log pending) (hflag : ∀ i, st'.flag i = st.flag i) :
    Counted plan st' log pending := fun i hi => by
  rw [hflag]
  exact h i hi

theorem TokenOk.congr (h : TokenOk plan st log p) (hflag : ∀ i, st'.flag i = st.flag i) : TokenOk plan st' log p := by
  cases p with
  | scanStart s => exact Counted.congr h hflag
  | scanRead s nodeNum nodes => exact ⟨h.1.congr hflag, fun i node hi => (h.2 i node hi).trans (hflag i).symm⟩
  | execute s copy todo => exact ⟨h.1.congr hflag, fun i hi => (hflag i).trans (h.2 i hi)⟩
  | push q phase =>
    cases phase with
    | nodeSet file => exact Counted.congr h hflag
    | finishedSet file => exact Counted.congr h hflag
    | flagged => exact Counted.congr h hflag
    | deleting children => exact h
    | _ => exact ⟨h.1.congr hflag, (hflag _).trans h.2⟩

theorem Handed.congr (h : Handed plan site st log procs) (hflag : ∀ i, st'.flag i = st.flag i) :
    Handed plan site st' log procs :=
  ⟨h.weight, fun p hp hw => (h.token p hp hw).congr hflag, fun hsum => (h.counted hsum).congr hflag⟩

theorem Handed.perm {procs' : List Proc} (h : Handed plan site st log procs) (hperm : procs.Perm procs') :
    Handed plan site st log procs' := by
  have hsum : (procs.map (Proc.weight site)).sum = (procs'.map (Proc.weight site)).sum := (hperm.map _).sum_eq
  exact ⟨hsum ▸ h.weight, fun p hp => h.token p (hperm.symm.subset hp), fun hz => h.counted (hsum.trans hz)⟩

theorem weight_sum_eq_zero : (procs.map (Proc.weight site)).sum = 0 ↔ ∀ p ∈ procs, p.weight site = 0 := by
  rw [List.sum_eq_zero_iff_forall_eq_nat, List.forall_mem_map]

theorem Handed.append_idle_iff (hidle : ∀ q ∈ rest, q.weight site = 0) :
    Handed plan site st log (rest ++ procs) ↔ Handed plan site st log procs := by
  have hsum : ((rest ++ procs).map (Proc.weight site)).sum = (procs.map (Proc.weight site)).sum := by
    rw [List.map_append, List.sum_append, weight_sum_eq_zero.2 hidle, Nat.zero_add]
  constructor
  · intro h
    exact ⟨hsum ▸ h.weight, fun q hq => h.token q (List.mem_append_right _ hq), fun hz => h.counted (hsum.trans hz)⟩
  · intro h
    refine ⟨hsum ▸ h.weight, fun q hq hw => ?_, fun hz => h.counted (hsum ▸ hz)⟩
    rcases List.mem_append.1 hq with hq | hq
    · exact absurd (hidle q hq) hw
    · exact h.token q hq hw

theorem Handed.singleton (hw : p.weight site = 1) (h : TokenOk plan st log p) : Handed plan site st log [p] := by
  have hsum : ([p].map (Proc.weight site)).sum = 1 := by simp [hw]
  refine ⟨hsum.le, fun q hq _ => ?_, fun hz => ?_⟩
  · rw [List.mem_singleton] at hq
    exact hq ▸ h
  · rw [hsum] at hz
    cases hz

theorem Handed.idle (hw : ∀ q ∈ procs, q.weight site = 0) (h : Counted plan st log none) :
    Handed plan site st log procs :=
  ⟨(weight_sum_eq_zero.2 hw).le.trans (Nat.zero_le 1), fun q hq hne => absurd (hw q hq) hne, fun _ => h⟩

/-! ## A step of a process without work -/

theorem Trans.idle (hsite : ∀ node ∈ plan, node.executeSite = site) (h : Trans selectSql env st p o)
    (hp : ProcOk plan root st log p) (hw : p.weight site = 0) :
    (∀ i, o.store.flag i = st.flag i) ∧ o.events = [] ∧ ∀ q ∈ o.procs, q.weight site = 0 := by
  cases h with
  | startScan s => exact ⟨fun _ => rfl, rfl, List.forall_mem_singleton.2 hw⟩
  | readNode s nodeNum nodes hlt => exact ⟨fun _ => rfl, rfl, List.forall_mem_singleton.2 hw⟩
  | endScan s nodeNum nodes hle =>
    refine ⟨fun _ => rfl, rfl, List.forall_mem_singleton.2 ?_⟩
    obtain ⟨rfl, hread, hseen⟩ := hp
    have hne : s ≠ site := fun heq => by simp [Proc.weight, heq] at hw
    refine List.length_eq_zero_iff.2 (List.eq_nil_iff_forall_not_mem.2 fun i hi => ?_)
    obtain ⟨node, hnode, hs⟩ := (executable_of_mem_toExecute (hread.sameKeys hle) hseen hi).node
    exact hne (hs.symm.trans (hsite node (List.mem_of_getElem? hnode)))
  | finish s copy => exact ⟨fun _ => rfl, rfl, fun q hq => by cases hq⟩
  | delete q i children => exact ⟨fun _ => rfl, rfl, List.forall_mem_singleton.2 hw⟩
  | goOn q => exact ⟨fun _ => rfl, rfl, List.forall_mem_singleton.2 hw⟩
  | _ => simp [Proc.weight] at hw

/-! ## A step of the process that holds the work -/

/-- In a chain at most one node is ready. -/
theorem ready_unique {site' : String} {i j : Nat} (htree : PlanTree plan root)
    (hunary : ∀ p a b, IsChild plan a p → IsChild plan b p → a = b) (hst : StoreOk plan st log)
    (hi : Ready plan st site i) (hj : Ready plan st site' j) : i = j := by
  have hbelow : ∀ {s s' : String} {a b : Nat}, Ready plan st s a → Ready plan st s' b →
      Relation.ReflTransGen (IsChild plan) a b → a = b := by
    intro s s' a b ha hb hab
    rcases Relation.ReflTransGen.cases_tail hab with heq | ⟨c, hac, hcb⟩
    · exact heq.symm
    · have hone := hst.descendants htree hac (hb.1.children c hcb)
      rw [ha.2] at hone
      cases hone
  rcases Arena.comparable htree.descends hunary hi.lt hj.lt with hij | hji
  · exact hbelow hi hj hij
  · exact (hbelow hj hi hji).symm

theorem Counted.flag {k : Nat} (h : Counted plan st log (some k)) (hk : st.flag k = 0) :
    Counted plan (st.setNodeFinished k) log none := fun i hi => by
  have hi := h i hi
  rw [Store.flag_setNodeFinished]
  by_cases heq : i = k
  · subst heq
    simpa [hk] using hi
  · have hne : ¬ k = i := fun h => heq h.symm
    simpa [heq, hne] using hi

theorem Counted.snoc {event : Event} {k : Nat} (h : Counted plan st log none)
    (hevent : ∀ i < plan.length, executions plan [event] i = if i = k then 1 else 0) :
    Counted plan st (log ++ [event]) (some k) := fun i hi => by
  have hi' := h i hi
  rw [executions_append, hevent i hi]
  by_cases heq : i = k
  · subst heq
    simpa using hi'
  · have hne : ¬ k = i := fun h => heq h.symm
    simpa [heq, hne] using hi'

theorem PushOf.targetSite_eq {q : Push} (h : PushOf plan q) (hroot : q.isRoot = false) :
    targetSite plan q.nodeId = some q.target := by
  obtain ⟨node, hnode, -, ⟨htrue, -⟩ | ⟨-, parent, hparent, htarget⟩⟩ := h.route
  · rw [hroot] at htrue
    cases htrue
  · exact targetSite_eq_some_iff.2 ⟨node, parent, hnode, hparent, htarget⟩

theorem handed_endScan {nodes : AugmentedPlan} {nodeNum : Nat} (htree : PlanTree plan root)
    (hunary : ∀ p a b, IsChild plan a p → IsChild plan b p → a = b) (hst : StoreOk plan st log)
    (hp : ProcOk plan root st log (.scanRead site nodeNum nodes)) (hle : nodeNum ≤ nodes.length)
    (htok : TokenOk plan st log (.scanRead site nodeNum nodes)) :
    Handed plan site st log [.execute site nodes (toExecute site nodes)] := by
  obtain ⟨rfl, hread, hseen⟩ := hp
  have hready : ∀ i ∈ toExecute site nodes, Ready plan st site i := fun i hi => by
    obtain ⟨node, hnode, hzero, -⟩ := mem_toExecute.1 hi
    exact ⟨executable_of_mem_toExecute (hread.sameKeys hle) hseen hi, (htok.2 i node hnode).symm.trans hzero⟩
  have hnodup : (toExecute site nodes).Nodup := List.nodup_range.filter _
  match htodo : toExecute site nodes with
  | [] => exact .idle (List.forall_mem_singleton.2 rfl) htok.1
  | [i] => exact .singleton rfl ⟨htok.1, fun j hj => (hready j (htodo ▸ hj)).2⟩
  | i :: j :: todo =>
    have hij := ready_unique htree hunary hst (hready i (by simp [htodo])) (hready j (by simp [htodo]))
    rw [htodo, hij] at hnodup
    simp at hnodup

theorem Trans.handed (htree : PlanTree plan root)
    (hunary : ∀ p a b, IsChild plan a p → IsChild plan b p → a = b) (h : Trans selectSql env st p o)
    (hst : StoreOk plan st log) (hp : ProcOk plan root st log p) (hw : p.weight site = 1)
    (htok : TokenOk plan st log p) : Handed plan site o.store (log ++ o.events) o.procs := by
  cases h with
  | startScan s =>
    rw [List.append_nil]
    exact .singleton hw ⟨htok, fun i node hi => by cases hi⟩
  | readNode s nodeNum nodes hlt =>
    rw [List.append_nil]
    refine .singleton hw ⟨htok.1, fun i node hi => ?_⟩
    obtain hi | ⟨rfl, rfl⟩ := Arena.getElem?_concat_cases hi
    · exact htok.2 i node hi
    · rfl
  | endScan s nodeNum nodes hle =>
    rw [List.append_nil]
    obtain rfl : s = site := by
      by_contra hne
      simp [Proc.weight, hne] at hw
    exact handed_endScan htree hunary hst hp hle htok
  | finish s copy => cases hw
  | startRoot s copy i rest node hi hroot =>
    rw [List.append_nil]
    exact .singleton hw ⟨htok.1, htok.2 i (List.mem_cons_self ..)⟩
  | startInner s copy i rest node parent hi hroot hparent =>
    rw [List.append_nil]
    exact .singleton hw ⟨htok.1, htok.2 i (List.mem_cons_self ..)⟩
  | openFile q hroot =>
    rw [List.append_nil]
    exact .singleton hw ⟨htok.1.congr fun _ => rfl, htok.2⟩
  | write q file =>
    refine .singleton hw ⟨(htok.1.snoc fun i hi => ?_).congr fun _ => rfl, htok.2⟩
    rw [executions_written htree _ _ _ hi, hp.1.nodeId_eq_root htree hp.2.2]
  | setResult q file =>
    rw [List.append_nil]
    exact .singleton hw ⟨htok.1.congr fun _ => rfl, htok.2⟩
  | setNode q file =>
    rw [List.append_nil]
    exact .singleton hw (htok.1.flag htok.2)
  | setFinished q file =>
    rw [List.append_nil]
    exact .singleton hw (Counted.congr htok fun _ => rfl)
  | close q file =>
    rw [List.append_nil]
    exact .idle (List.forall_mem_singleton.2 (Nat.succ.inj hw)) (Counted.congr htok fun _ => rfl)
  | insertHere q hroot htarget =>
    refine .singleton hw ⟨(htok.1.snoc fun i hi => ?_).congr fun _ => rfl, htok.2⟩
    exact executions_inserted (hp.1.targetSite_eq hroot) _ i
  | send q hroot htarget =>
    rw [List.append_nil]
    exact .singleton hw htok
  | receive q =>
    refine .singleton hw ⟨(htok.1.snoc fun i hi => ?_).congr fun _ => rfl, htok.2⟩
    exact executions_inserted (hp.1.targetSite_eq hp.2.2) _ i
  | setFlag q =>
    rw [List.append_nil]
    exact .singleton hw (htok.1.flag htok.2)
  | fork q =>
    rw [List.append_nil]
    have hidle : ∀ q' ∈ [Proc.push q (.deleting (childrenOf q.plan q.nodeId))], q'.weight site = 0 :=
      List.forall_mem_singleton.2 (Nat.succ.inj hw)
    refine (Handed.append_idle_iff hidle).2 ?_
    by_cases htarget : q.target = site
    · exact .singleton (if_pos htarget) htok
    · exact .idle (List.forall_mem_singleton.2 (if_neg htarget)) htok
  | delete q i children => exact htok.elim
  | goOn q => exact htok.elim

/-! ## Whole runs of a chain -/

theorem handed_step {s t : Pool.State Store Proc Event} {c : Nat × Env} (htree : PlanTree plan root)
    (hunary : ∀ p a b, IsChild plan a p → IsChild plan b p → a = b)
    (hsite : ∀ node ∈ plan, node.executeSite = site) (hst : StoreOk plan s.store s.log)
    (hok : ∀ p ∈ s.procs, ProcOk plan root s.store s.log p) (h : Handed plan site s.store s.log s.procs)
    (hstep : Pool.step (procStep selectSql) s c = some t) : Handed plan site t.store t.log t.procs := by
  obtain ⟨p, o, rest, ho, hperm, rfl⟩ := Pool.step_cases hstep
  have htrans := procStep_trans ho
  have hp := hok p (hperm.symm.subset (List.mem_cons_self ..))
  have h := h.perm hperm
  have hsum := h.weight
  rw [List.map_cons, List.sum_cons] at hsum
  by_cases hw : p.weight site = 0
  · obtain ⟨hflag, hevents, hidle⟩ := htrans.idle hsite hp hw
    have hrest : Handed plan site s.store s.log rest :=
      (Handed.append_idle_iff (List.forall_mem_singleton.2 hw)).1 h
    rw [hevents, List.append_nil]
    exact (((Handed.append_idle_iff hidle).2 hrest).perm List.perm_append_comm).congr hflag
  · have hrest : ∀ q ∈ rest, q.weight site = 0 := weight_sum_eq_zero.1 (by omega)
    have htok := h.token p (List.mem_cons_self ..) hw
    exact (Handed.append_idle_iff hrest).2 (htrans.handed htree hunary hst hp (by omega) htok)

theorem TokenOk.executions_le {i : Nat} (h : TokenOk plan st log p)
    (hflags : ∀ i < plan.length, st.flag i = 0 ∨ st.flag i = 1) (hi : i < plan.length) :
    executions plan log i ≤ 1 := by
  have hnone : Counted plan st log none → executions plan log i ≤ 1 := fun hc => by
    have := hc i hi
    have := hflags i hi
    simp only [reduceCtorEq, if_false] at *
    omega
  have hsome : ∀ k, Counted plan st log (some k) → st.flag k = 0 → executions plan log i ≤ 1 := fun k hc hk => by
    have hci := hc i hi
    have := hflags i hi
    by_cases hik : k = i
    · subst hik
      rw [if_pos rfl] at hci
      omega
    · rw [if_neg (by simpa using hik)] at hci
      omega
  cases p with
  | scanStart s => exact hnone h
  | scanRead s nodeNum nodes => exact hnone h.1
  | execute s copy todo => exact hnone h.1
  | push q phase =>
    cases phase with
    | selected => exact hnone h.1
    | opened file => exact hnone h.1
    | sent => exact hnone h.1
    | written file => exact hsome _ h.1 h.2
    | resultSet file => exact hsome _ h.1 h.2
    | inserted => exact hsome _ h.1 h.2
    | deleting children => exact h.elim
    | nodeSet file => exact hnone h
    | finishedSet file => exact hnone h
    | flagged => exact hnone h

theorem Handed.atMostOnce (h : Handed plan site st log procs)
    (hflags : ∀ i < plan.length, st.flag i = 0 ∨ st.flag i = 1) : AtMostOnce plan log := by
  intro i hi
  by_cases hsum : (procs.map (Proc.weight site)).sum = 0
  · exact TokenOk.executions_le (p := .scanStart site) (h.counted hsum) hflags hi
  · rw [weight_sum_eq_zero] at hsum
    push Not at hsum
    obtain ⟨p, hp, hw⟩ := hsum
    exact (h.token p hp hw).executions_le hflags hi

end

section
variable {plan : AugmentedPlan} {root : Nat} {selectSql : SelectSql} {siteDict : List String}
  {s t : Pool.State Store Proc Event}

theorem weight_sum_scanStart (site : String) (sites : List String) :
    ((sites.map Proc.scanStart).map (Proc.weight site)).sum = sites.count site := by
  induction sites with
  | nil => rfl
  | cons a sites ih =>
    rw [List.map_cons, List.map_cons, List.sum_cons, ih, List.count_cons, Nat.add_comm]
    simp [Proc.weight]

theorem atMostOnce_of_chain (htree : PlanTree plan root) (hchain : OneSiteChain plan) (hnodup : siteDict.Nodup)
    (hstart : Started plan siteDict s) (h : Pool.Reachable (procStep selectSql) s t) : AtMostOnce plan t.log := by
  obtain ⟨node, hnode, -⟩ := htree.root_node
  have hsite : ∀ a ∈ plan, a.executeSite = node.executeSite :=
    fun a ha => hchain.oneSite a ha node (List.mem_of_getElem? hnode)
  have hcounted : Counted plan s.store s.log none := fun i hi => by
    rw [hstart.log, executions_nil, hstart.flags i hi]
    rfl
  have hinit : Handed plan node.executeSite s.store s.log s.procs := by
    refine ⟨?_, fun p hp _ => ?_, fun _ => hcounted⟩
    · rw [hstart.procs, weight_sum_scanStart]
      exact List.nodup_iff_count_le_one.1 hnodup _
    · rw [hstart.procs, List.mem_map] at hp
      obtain ⟨site, -, rfl⟩ := hp
      exact hcounted
  have hhanded := Runs.Reaches.invariant (I := fun u => Handed plan node.executeSite u.store u.log u.procs)
    (fun u u' c hreach hu _ hstep => by
      obtain ⟨hst, hok⟩ := ordered_of_reachable htree hstart hreach
      exact handed_step htree hchain.unary hsite hst hok hu hstep) hinit h
  exact hhanded.atMostOnce (ordered_of_reachable htree hstart h).1.flags

/-! ## Other plans race -/

theorem calm_of_started (hsites : ∀ node ∈ plan, node.executeSite ∈ siteDict) (hstart : Started plan siteDict s) :
    Calm plan s.store siteDict := by
  refine ⟨hstart.holds, fun i hi => .inl (hstart.flags i hi), fun site i hready => ?_⟩
  obtain ⟨node, hnode, rfl⟩ := hready.1.node
  exact hsites node (List.mem_of_getElem? hnode)

theorem not_twice_of_atMostOnce (h : ∀ t, Pool.Reachable (procStep selectSql) s t → AtMostOnce plan t.log) :
    ¬ Twice selectSql plan s := by
  rintro ⟨t, ⟨t', hreach, -, -, hlog⟩, i, hi, htwo⟩
  have := h t' hreach i hi
  rw [hlog] at this
  omega

theorem spare_of_started (htree : PlanTree plan root)
    (hunary : ∀ p a b, IsChild plan a p → IsChild plan b p → a = b)
    (hsites : ∀ node ∈ plan, node.executeSite ∈ siteDict) (hstart : Started plan siteDict s)
    (hst : StoreOk plan s.store s.log) {leaf : Nat} {site : String} (hleaf : Ready plan s.store site leaf)
    {node : AugPlanNode} (hnode : node ∈ plan)
    (hne : node.executeSite ≠ site) : Spare plan s.store siteDict node.executeSite := by
  obtain ⟨i, hi⟩ := List.getElem?_of_mem hnode
  refine ⟨hsites node hnode, ⟨i, node, hi, rfl, hstart.flags i (List.getElem?_eq_some_iff.1 hi).1⟩, fun j hj => ?_⟩
  obtain rfl := ready_unique htree hunary hst hj hleaf
  obtain ⟨a, ha, hsa⟩ := hj.1.node
  obtain ⟨b, hb, hsb⟩ := hleaf.1.node
  rw [ha, Option.some.injEq] at hb
  exact hne (hsa.symm.trans (hb ▸ hsb))

/-- A plan is executed at most once in every interleaving exactly when its nodes form a chain on one site. -/
theorem executed_at_most_once_iff (htree : PlanTree plan root)
    (hsites : ∀ node ∈ plan, node.executeSite ∈ siteDict) (hnodup : siteDict.Nodup)
    (hstart : Started plan siteDict s) :
    (∀ t, Pool.Reachable (procStep selectSql) s t → AtMostOnce plan t.log) ↔ OneSiteChain plan := by
  refine ⟨fun h => ?_, fun hchain t ht => atMostOnce_of_chain htree hchain hnodup hstart ht⟩
  have hnot := not_twice_of_atMostOnce h
  have hcalm := calm_of_started hsites hstart
  have hrefl : Pool.Reachable (procStep selectSql) s s := .refl
  have hst := (ordered_of_reachable htree hstart hrefl).1
  have hs : s = pendingState s.store siteDict s.log := by
    rw [pendingState, ← hstart.procs]
  rw [hs] at hnot
  have hunary : ∀ p a b, IsChild plan a p → IsChild plan b p → a = b := by
    intro p a b ha hb
    by_contra hab
    have hp := htree.parent_lt ha
    exact hnot (twice_of_two_children htree hcalm (List.getElem?_eq_getElem hp) hab ha hb (hstart.flags a ha.lt)
      (hstart.flags b hb.lt) (hstart.flags p hp))
  obtain ⟨site, leaf, hleaf⟩ := exists_ready htree hcalm.flags
    ⟨root, htree.root_node.lt, by rw [hstart.flags root htree.root_node.lt]; decide⟩
  have hall : ∀ node ∈ plan, node.executeSite = site := by
    intro node hnode
    by_contra hne
    exact hnot (twice_of_spare htree hcalm (spare_of_started htree hunary hsites hstart hst hleaf hnode hne))
  exact ⟨hunary, fun a ha b hb => (hall a ha).trans (hall b hb).symm⟩

/-- When the processes take turns, both scans forked at the site of the union find it ready, and its result is
written twice. -/
theorem booksPlan_written_twice : ∃ t, Pool.Reachable (procStep booksSql) (startState booksPlan clusterSites) t ∧
    executions booksPlan t.log 2 = 2 ∧ ¬ AtMostOnce booksPlan t.log := by
  have hrun : (Runs.run (Pool.step (procStep booksSql)) (fun _ _ => True) (roundRobin 67)
      (startState booksPlan clusterSites)).any (fun t => executions booksPlan t.log 2 == 2) = true := by
    decide +kernel
  obtain ⟨t, hreach, htwo⟩ := Runs.exists_of_run hrun
  rw [beq_iff_eq] at htwo
  refine ⟨t, hreach, htwo, fun honce => ?_⟩
  have := honce 2 (by decide)
  omega

/-- A chain of two nodes on one site. -/
def titleChain : AugmentedPlan :=
  [⟨0, 1, "ddb0", "select Book.title from Book", "(title char(100),)", 0⟩,
    ⟨1, -1, "ddb0", "select * from 0", "(title char(100),)", 0⟩]

theorem titleChain_once : OneSiteChain titleChain ∧
    ∀ t, Pool.Reachable (procStep booksSql) (startState titleChain clusterSites) t → AtMostOnce titleChain t.log := by
  have htree : PlanTree titleChain 1 := by
    refine ⟨⟨_, rfl, rfl⟩, fun i hi => ?_⟩
    match i, hi with
    | 0, _ => exact .single ⟨_, rfl, rfl⟩
    | 1, _ => exact .refl
  have hchild : ∀ p c, IsChild titleChain c p → c = 0 := by
    rintro p c ⟨node, hnode, hparent⟩
    match c with
    | 0 => rfl
    | 1 =>
      obtain rfl := Option.some.inj hnode
      cases hparent
    | _ + 2 => cases hnode
  have hchain : OneSiteChain titleChain :=
    ⟨fun p a b ha hb => (hchild p a ha).trans (hchild p b hb).symm, by decide⟩
  have hstart : Started titleChain clusterSites (startState titleChain clusterSites) :=
    started_startState (by decide) clusterSites
  exact ⟨hchain, (executed_at_most_once_iff htree (by decide) (by decide) hstart).2 hchain⟩

end

end EasyDDB.Execution
