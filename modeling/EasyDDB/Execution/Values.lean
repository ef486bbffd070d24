import EasyDDB.Execution.Calls
import EasyDDB.Execution.Termination

/-! # What plan execution delivers

A plan has a value: the text of each node's statement on the texts of its children, from the leaves up.  Processes
compute it in any order, on tables that grow and are emptied meanwhile.  As long as no node is executed twice, what
they insert and write are the values of the nodes, and at the end of the run the tables are as they were. -/
namespace EasyDDB.Execution
set_option autoImplicit false

/-! ## The value of a plan -/

def isChildOf (plan : AugmentedPlan) (c i : Nat) : Bool := (plan[c]?).any fun node => node.parentId == (i : Int)

/-- The statement of node `i` on tables that hold one text for each child. -/
def evalStatement (selectSql : SelectSql) (plan : AugmentedPlan) (i : Nat) (value : Nat → Text) : Text :=
  match plan[i]? with
  | none => []
  | some node => selectSql node.executeSite (fun c => if isChildOf plan c i then [value c] else []) node.sql

/-- The text of node `i` when the plan is evaluated from the leaves up. -/
def planValue (selectSql : SelectSql) (plan : AugmentedPlan) (i : Nat) : Text :=
  Arena.bottomUp (evalStatement selectSql plan) [] plan.length i

/-- The statement of a node reads no other tables of the plan than those of its children. -/
def ReadsChildren (selectSql : SelectSql) (plan : AugmentedPlan) : Prop :=
  ∀ i node, plan[i]? = some node → ∀ tables tables' : Nat → List Text,
    (∀ c, IsChild plan c i → tables c = tables' c) →
      selectSql node.executeSite tables node.sql = selectSql node.executeSite tables' node.sql

section
variable {selectSql : SelectSql} {plan : AugmentedPlan} {root : Nat}

theorem isChildOf_iff {c i : Nat} : isChildOf plan c i = true ↔ IsChild plan c i := by
  simp only [isChildOf, Option.any_eq_true, beq_iff_eq]
  rfl

theorem select_eq_planValue (htree : PlanTree plan root) (hreads : ReadsChildren selectSql plan) {i : Nat}
    {node : AugPlanNode} (hi : plan[i]? = some node) {tables : Nat → List Text}
    (htables : ∀ c, IsChild plan c i → tables c = [planValue selectSql plan c]) :
    selectSql node.executeSite tables node.sql = planValue selectSql plan i := by
  have hlocal : ∀ j < plan.length, ∀ g g' : Nat → Text, (∀ c, IsChild plan c j → g c = g' c) →
      evalStatement selectSql plan j g = evalStatement selectSql plan j g' := by
    intro j _ g g' hg
    unfold evalStatement
    cases hj : plan[j]? with
    | none => rfl
    | some node' =>
      refine hreads j node' hj _ _ fun c hc => ?_
      rw [if_pos (isChildOf_iff.2 hc), if_pos (isChildOf_iff.2 hc), hg c hc]
  have hlt := (List.getElem?_eq_some_iff.1 hi).1
  rw [planValue, Arena.bottomUp_eq
    (fun i hi => Arena.not_transGen_self htree.root_node (htree.descends i hi)) hlocal hlt, evalStatement, hi]
  refine hreads i node hi _ _ fun c hc => ?_
  rw [if_pos (isChildOf_iff.2 hc), htables c hc, planValue]

end

/-! ## Tables and events under a step -/

section
variable {selectSql : SelectSql} {plan : AugmentedPlan} {root : Nat} {env : Env} {st : Store} {log : List Event}
  {p : Proc} {o : Outcome}

theorem Store.tables_insert (st : Store) (site site' : String) (k c : Nat) (data : Text) :
    (st.insert site k data).tables site' c =
      if site' = site ∧ c = k then st.tables site k ++ [data] else st.tables site' c := by
  by_cases hsite : site' = site
  · subst hsite
    by_cases hc : c = k
    · subst hc
      simp [Store.insert]
    · simp [Store.insert, hc]
  · simp [Store.insert, hsite]

theorem Store.tables_deleteData (st : Store) (site site' : String) (k c : Nat) :
    (st.deleteData k site).tables site' c = if site' = site ∧ c = k then [] else st.tables site' c := by
  by_cases hsite : site' = site
  · subst hsite
    by_cases hc : c = k
    · subst hc
      simp [Store.deleteData]
    · simp [Store.deleteData, hc]
  · simp [Store.deleteData, hsite]

/-- The rows of the `data_push` are not yet stored. -/
def Phase.beforeStore : Phase → Prop
  | .selected | .opened _ | .sent => True
  | _ => False

/-- What a step does to the tables and the log: nothing, or it stores the rows of a node, or it writes the result, or it
empties the table of a child. -/
theorem Trans.stores (h : Trans selectSql env st p o) (hp : ProcOk plan root st log p) :
    (o.store.tables = st.tables ∧ o.events = []) ∨
    (∃ q phase, p = .push q phase ∧ phase.beforeStore ∧ q.isRoot = false ∧ o.procs = [.push q .inserted] ∧
      o.store = st.insert q.target q.nodeId q.data ∧ o.events = [.inserted q.nodeId q.target q.data]) ∨
    (∃ q file, p = .push q (.opened file) ∧ q.isRoot = true ∧ o.procs = [.push q (.written file)] ∧
      o.store.tables = st.tables ∧ o.events = [.written q.nodeId file q.data]) ∨
    ∃ q c children, p = .push q (.deleting (c :: children)) ∧ o.procs = [.push q (.deleting children)] ∧
      o.store = st.deleteData c q.site ∧ o.events = [] := by
  cases h with
  | insertHere q hroot htarget => exact .inr (.inl ⟨q, _, rfl, trivial, hroot, rfl, rfl, rfl⟩)
  | receive q => exact .inr (.inl ⟨q, _, rfl, trivial, hp.2.2, rfl, rfl, rfl⟩)
  | write q file => exact .inr (.inr (.inl ⟨q, file, rfl, hp.2.2, rfl, rfl, rfl⟩))
  | delete q c children => exact .inr (.inr (.inr ⟨q, c, children, rfl, rfl, rfl, rfl⟩))
  | _ => exact .inl ⟨rfl, rfl⟩

theorem executions_ne_zero_of_inserted {i : Nat} {site : String} {data : Text} (htarget : targetSite plan i = some site)
    (hmem : Event.inserted i site data ∈ log) : executions plan log i ≠ 0 := by
  simp only [executions, htarget]
  exact Nat.ne_of_gt (List.countP_pos_iff.2 ⟨_, hmem, by simp [Event.isInsertion]⟩)

theorem executions_ne_zero_of_written {file : String} {data : Text} {i : Nat} (htree : PlanTree plan root)
    (hmem : Event.written i file data ∈ log) : executions plan log root ≠ 0 := by
  simp only [executions, htree.targetSite_root]
  exact Nat.ne_of_gt (List.countP_pos_iff.2 ⟨_, hmem, rfl⟩)

end

/-- A flagged node has been executed. -/
theorem executed_of_flagged {selectSql : SelectSql} {plan : AugmentedPlan} {root : Nat} {siteDict : List String}
    {s t : Pool.State Store Proc Event} (htree : PlanTree plan root) (hstart : Started plan siteDict s)
    (h : Pool.Reachable (procStep selectSql) s t) {i : Nat} (hi : i < plan.length) (hflag : t.store.flag i = 1) :
    executions plan t.log i ≠ 0 := by
  by_cases hroot : i = root
  · subst hroot
    obtain ⟨data, hmem⟩ := rootWritten_of_reachable htree hstart h hflag
    exact executions_ne_zero_of_written htree hmem
  · obtain ⟨site, hsite⟩ := htree.exists_targetSite hi hroot
    obtain ⟨node, parent, hnode, hparent, rfl⟩ := targetSite_eq_some_iff.1 hsite
    obtain ⟨data, hmem⟩ := (ordered_of_reachable htree hstart h).1.inserted i hi hflag node parent hnode hparent
    exact executions_ne_zero_of_inserted hsite hmem

/-! ## The tables between insertion and deletion -/

/-- The text of an event is the value of its node. -/
def Event.Carries (V : Nat → Text) : Event → Prop
  | .inserted i _ data => data = V i
  | .written i _ data => data = V i

/-- The table of a node is empty until its rows arrive, and it holds them until the parent has been executed; tables that
are not a node's at the site of its parent stay as they were. -/
structure TablesOk (plan : AugmentedPlan) (V : Nat → Text) (tables₀ : String → Nat → List Text) (st : Store)
    (log : List Event) : Prop where
  before : ∀ c site, targetSite plan c = some site → executions plan log c = 0 → st.tables site c = []
  waiting : ∀ c i site, IsChild plan c i → targetSite plan c = some site → executions plan log c = 1 →
    executions plan log i = 0 → st.tables site c = [V c]
  other : ∀ c site, targetSite plan c ≠ some site → st.tables site c = tables₀ site c
  logged : ∀ e ∈ log, e.Carries V
  order : ∀ c i, IsChild plan c i → executions plan log i ≠ 0 → executions plan log c ≠ 0

section
variable {plan : AugmentedPlan} {root : Nat} {V : Nat → Text} {tables₀ : String → Nat → List Text} {st st' : Store}
  {log : List Event}

theorem TablesOk.congr (h : TablesOk plan V tables₀ st log) (htables : st'.tables = st.tables) :
    TablesOk plan V tables₀ st' log :=
  ⟨htables ▸ h.before, htables ▸ h.waiting, htables ▸ h.other, h.logged, h.order⟩

theorem TablesOk.insert (h : TablesOk plan V tables₀ st log) {k : Nat} {site : String} {data : Text}
    (hk : targetSite plan k = some site) (hzero : executions plan log k = 0) (hdata : data = V k)
    (hchildren : ∀ c, IsChild plan c k → executions plan log c ≠ 0) :
    TablesOk plan V tables₀ (st.insert site k data) (log ++ [.inserted k site data]) := by
  have hexec : ∀ j, executions plan (log ++ [.inserted k site data]) j =
      executions plan log j + if j = k then 1 else 0 := fun j => by
    rw [executions_append, executions_inserted hk]
  refine ⟨fun c site' hc hc0 => ?_, fun c i site' hci hc hc1 hi0 => ?_, fun c site' hc => ?_, fun e he => ?_,
    fun c i hci hi => ?_⟩
  · rw [hexec] at hc0
    have hne : c ≠ k := fun heq => by
      rw [if_pos heq] at hc0
      omega
    rw [Store.tables_insert, if_neg fun hand => hne hand.2]
    exact h.before c site' hc (by omega)
  · rw [hexec] at hc1 hi0
    by_cases hck : c = k
    · subst hck
      rw [hk, Option.some.injEq] at hc
      subst hc
      rw [Store.tables_insert, if_pos ⟨rfl, rfl⟩, h.before c site hk hzero, hdata]
      rfl
    · rw [if_neg hck] at hc1
      rw [Store.tables_insert, if_neg fun hand => hck hand.2]
      exact h.waiting c i site' hci hc hc1 (by omega)
  · rw [Store.tables_insert, if_neg]
    · exact h.other c site' hc
    · rintro ⟨rfl, rfl⟩
      exact hc hk
  · rcases List.mem_append.1 he with he | he
    · exact h.logged e he
    · rw [List.mem_singleton.1 he]
      exact hdata
  · rw [hexec] at hi ⊢
    by_cases hik : i = k
    · have := hchildren c (hik ▸ hci)
      omega
    · rw [if_neg hik] at hi
      have := h.order c i hci hi
      omega

theorem TablesOk.write (h : TablesOk plan V tables₀ st log) (htree : PlanTree plan root) {file : String} {data : Text}
    (hdata : data = V root) (hchildren : ∀ c, IsChild plan c root → executions plan log c ≠ 0) :
    TablesOk plan V tables₀ st (log ++ [.written root file data]) := by
  have hexec : ∀ j < plan.length, executions plan (log ++ [.written root file data]) j =
      executions plan log j + if j = root then 1 else 0 := fun j hj => by
    rw [executions_append, executions_written htree _ _ _ hj]
  refine ⟨fun c site hc hc0 => ?_, fun c i site hci hc hc1 hi0 => ?_, h.other, fun e he => ?_, fun c i hci hi => ?_⟩
  · rw [executions_append] at hc0
    exact h.before c site hc (by omega)
  · rw [hexec c hci.lt] at hc1
    rw [executions_append] at hi0
    have hne : c ≠ root := fun heq => htree.root_node.not_up (heq ▸ hci)
    rw [if_neg hne] at hc1
    exact h.waiting c i site hci hc hc1 (by omega)
  · rcases List.mem_append.1 he with he | he
    · exact h.logged e he
    · rw [List.mem_singleton.1 he]
      exact hdata
  · rw [hexec i (htree.parent_lt hci)] at hi
    rw [hexec c hci.lt]
    by_cases hir : i = root
    · have := hchildren c (hir ▸ hci)
      omega
    · rw [if_neg hir] at hi
      have := h.order c i hci hi
      omega

theorem TablesOk.delete (h : TablesOk plan V tables₀ st log) {k c : Nat} {site : String} (hc : IsChild plan c k)
    (hsite : targetSite plan c = some site) (hk : executions plan log k ≠ 0) :
    TablesOk plan V tables₀ (st.deleteData c site) log := by
  refine ⟨fun c' site' hc' hzero => ?_, fun c' i site' hci hc' hone hi0 => ?_, fun c' site' hc' => ?_, h.logged,
    h.order⟩
  · rw [Store.tables_deleteData]
    split_ifs with heq
    · rfl
    · exact h.before c' site' hc' hzero
  · rw [Store.tables_deleteData, if_neg]
    · exact h.waiting c' i site' hci hc' hone hi0
    · rintro ⟨-, rfl⟩
      exact hk (hci.unique hc ▸ hi0)
  · rw [Store.tables_deleteData, if_neg]
    · exact h.other c' site' hc'
    · rintro ⟨rfl, rfl⟩
      exact hc' hsite

end

/-! ## The rows under way and the tables to be emptied -/

/-- The `data_push` of a stored node is still going to empty the table of the child `c`. -/
def Phase.WillDelete (c : Nat) : Phase → Prop
  | .selected | .opened _ | .sent => False
  | .deleting children => c ∈ children
  | _ => True

/-- The rows a `data_push` carries are the value of its node, unless the node has been executed meanwhile; it deletes
children of its node only. -/
def Proc.CarriesValue (plan : AugmentedPlan) (V : Nat → Text) (log : List Event) : Proc → Prop
  | .push p phase =>
    (phase.beforeStore → executions plan log p.nodeId = 0 → p.data = V p.nodeId) ∧
      ∀ children, phase = .deleting children → ∀ c ∈ children, IsChild plan c p.nodeId
  | _ => True

/-- The tables of the children of an executed node are empty, or some process will empty them. -/
def Clearing (plan : AugmentedPlan) (s : Pool.State Store Proc Event) : Prop :=
  ∀ c i site, IsChild plan c i → targetSite plan c = some site → executions plan s.log i ≠ 0 →
    s.store.tables site c = [] ∨ ∃ p phase, .push p phase ∈ s.procs ∧ p.nodeId = i ∧ phase.WillDelete c

section
variable {selectSql : SelectSql} {plan : AugmentedPlan} {root : Nat} {V : Nat → Text}
  {tables₀ : String → Nat → List Text} {env : Env} {st : Store} {log : List Event} {p : Proc} {o : Outcome}

theorem mem_childrenOf {i c : Nat} : c ∈ childrenOf plan i ↔ IsChild plan c i := by
  rw [childrenOf, List.mem_filter, List.mem_range]
  constructor
  · rintro ⟨-, h⟩
    cases hc : plan[c]? with
    | none => simp [hc] at h
    | some node => exact ⟨node, hc, by simpa [hc] using h⟩
  · rintro ⟨node, hc, hparent⟩
    exact ⟨(List.getElem?_eq_some_iff.1 hc).1, by simp [hc, hparent]⟩

theorem Proc.CarriesValue.append {q : Proc} (h : q.CarriesValue plan V log) (events : List Event) :
    q.CarriesValue plan V (log ++ events) := by
  cases q with
  | push p phase =>
    refine ⟨fun hphase hzero => h.1 hphase ?_, h.2⟩
    rw [executions_append] at hzero
    omega
  | _ => trivial

/-- A node that is picked up before it has been executed finds the values of its children in its tables. -/
theorem Executable.select_eq {site : String} {copy : AugmentedPlan} {i : Nat} {node : AugPlanNode}
    (htree : PlanTree plan root) (hreads : ReadsChildren selectSql plan)
    (htables : TablesOk plan (planValue selectSql plan) tables₀ st log) (honce : AtMostOnce plan log)
    (hexec : ∀ i < plan.length, st.flag i = 1 → executions plan log i ≠ 0) (hcopy : SameKeys copy plan)
    (hi : Executable plan st site i) (hnode : copy[i]? = some node) (hzero : executions plan log i = 0) :
    selectSql site (st.tables site) node.sql = planValue selectSql plan i := by
  obtain ⟨node', hnode', hkeys⟩ := hcopy.getElem? hnode
  obtain ⟨node'', hnode'', hsite⟩ := hi.node
  obtain rfl : node' = node'' := Option.some.inj (hnode'.symm.trans hnode'')
  rw [(AugPlanNode.keys_of_unflagged hkeys).2.2, ← hsite]
  refine select_eq_planValue htree hreads hnode' fun c hc => ?_
  have hone : executions plan log c = 1 := by
    have hpos := hexec c hc.lt (hi.children c hc)
    have hle := honce c hc.lt
    omega
  exact htables.waiting c i _ hc (targetSite_of_isChild hc hnode') hone hzero

theorem Trans.carriesValue (htree : PlanTree plan root) (hreads : ReadsChildren selectSql plan)
    (h : Trans selectSql env st p o) (hp : ProcOk plan root st log p)
    (htables : TablesOk plan (planValue selectSql plan) tables₀ st log) (honce : AtMostOnce plan log)
    (hexec : ∀ i < plan.length, st.flag i = 1 → executions plan log i ≠ 0)
    (hcarries : p.CarriesValue plan (planValue selectSql plan) log) :
    ∀ q ∈ o.procs, q.CarriesValue plan (planValue selectSql plan) log := by
  have hstored : ∀ (q : Push) (phase : Phase), ¬ phase.beforeStore →
      (∀ children, phase = .deleting children → ∀ c ∈ children, IsChild plan c q.nodeId) →
      ∀ q' ∈ [Proc.push q phase], q'.CarriesValue plan (planValue selectSql plan) log := fun q phase hphase hdel =>
    List.forall_mem_singleton.2 ⟨fun hb => absurd hb hphase, hdel⟩
  have hchildren : ∀ q : Push, SameKeys q.plan plan → ∀ c ∈ childrenOf q.plan q.nodeId, IsChild plan c q.nodeId :=
    fun q hcopy c hc => hcopy.isChild (mem_childrenOf.1 hc)
  cases h with
  | startScan site => exact List.forall_mem_singleton.2 trivial
  | readNode site nodeNum nodes hlt => exact List.forall_mem_singleton.2 trivial
  | endScan site nodeNum nodes hle => exact List.forall_mem_singleton.2 trivial
  | finish site copy => exact fun q hq => by cases hq
  | startRoot site copy i rest node hi hroot =>
    refine List.forall_mem_singleton.2 ⟨fun _ hzero => ?_, fun _ heq => by cases heq⟩
    exact (hp.2 i (List.mem_cons_self ..)).select_eq htree hreads htables honce hexec hp.1 hi hzero
  | startInner site copy i rest node parent hi hroot hparent =>
    refine List.forall_mem_singleton.2 ⟨fun _ hzero => ?_, fun _ heq => by cases heq⟩
    exact (hp.2 i (List.mem_cons_self ..)).select_eq htree hreads htables honce hexec hp.1 hi hzero
  | openFile q hroot => exact List.forall_mem_singleton.2 ⟨fun _ => hcarries.1 trivial, fun _ heq => by cases heq⟩
  | send q hroot htarget =>
    exact List.forall_mem_singleton.2 ⟨fun _ => hcarries.1 trivial, fun _ heq => by cases heq⟩
  | write q file => exact hstored q _ (fun h => h) fun _ heq => by cases heq
  | setResult q file => exact hstored q _ (fun h => h) fun _ heq => by cases heq
  | setNode q file => exact hstored q _ (fun h => h) fun _ heq => by cases heq
  | setFinished q file => exact hstored q _ (fun h => h) fun _ heq => by cases heq
  | insertHere q hroot htarget => exact hstored q _ (fun h => h) fun _ heq => by cases heq
  | receive q => exact hstored q _ (fun h => h) fun _ heq => by cases heq
  | setFlag q => exact hstored q _ (fun h => h) fun _ heq => by cases heq
  | close q file =>
    refine hstored q _ (fun h => h) fun children heq => ?_
    cases heq
    exact hchildren q hp.1.copy
  | fork q =>
    refine List.forall_mem_cons.2 ⟨⟨fun hb => hb.elim, fun children heq => ?_⟩, List.forall_mem_singleton.2 trivial⟩
    cases heq
    exact hchildren q hp.1.copy
  | delete q i children =>
    refine hstored q _ (fun h => h) fun children' heq => ?_
    cases heq
    exact fun c hc => hcarries.2 _ rfl c (List.mem_cons_of_mem _ hc)
  | goOn q => exact List.forall_mem_singleton.2 trivial

/-- A process that will empty the table of a child goes on to do so, or has just done it. -/
theorem Trans.willDelete {q : Push} {phase : Phase} {c : Nat} (h : Trans selectSql env st (.push q phase) o)
    (hp : ProcOk plan root st log (.push q phase)) (hc : IsChild plan c q.nodeId) (hwill : phase.WillDelete c) :
    (∃ phase', .push q phase' ∈ o.procs ∧ phase'.WillDelete c) ∨ o.store.tables q.site c = [] := by
  have hmem : c ∈ childrenOf q.plan q.nodeId := mem_childrenOf.2 (hp.1.copy.symm.isChild hc)
  cases h with
  | openFile | write | insertHere | send | receive => exact hwill.elim
  | setResult => exact .inl ⟨_, List.mem_singleton_self _, trivial⟩
  | setNode => exact .inl ⟨_, List.mem_singleton_self _, trivial⟩
  | setFinished => exact .inl ⟨_, List.mem_singleton_self _, trivial⟩
  | close => exact .inl ⟨_, List.mem_singleton_self _, hmem⟩
  | setFlag => exact .inl ⟨_, List.mem_singleton_self _, trivial⟩
  | fork => exact .inl ⟨_, List.mem_cons_self .., hmem⟩
  | delete _ i children =>
    rcases List.mem_cons.1 hwill with rfl | hwill
    · exact .inr (by simp [Store.tables_deleteData])
    · exact .inl ⟨_, List.mem_singleton_self _, hwill⟩
  | goOn => cases hwill

theorem PushOf.site_eq {q : Push} {c : Nat} {site : String} (h : PushOf plan q) (hc : IsChild plan c q.nodeId)
    (hsite : targetSite plan c = some site) : q.site = site := by
  obtain ⟨node, hnode, heq, -⟩ := h.route
  rw [targetSite_of_isChild hc hnode, Option.some.injEq] at hsite
  exact heq.symm.trans hsite

end

/-! ## Whole runs -/

/-- What holds of a state while no node has been executed twice. -/
structure Delivering (plan : AugmentedPlan) (V : Nat → Text) (tables₀ : String → Nat → List Text)
    (s : Pool.State Store Proc Event) : Prop where
  tables : TablesOk plan V tables₀ s.store s.log
  carries : ∀ p ∈ s.procs, p.CarriesValue plan V s.log
  clearing : Clearing plan s

theorem AtMostOnce.of_append {plan : AugmentedPlan} {log events : List Event} (h : AtMostOnce plan (log ++ events)) :
    AtMostOnce plan log := by
  intro i hi
  have := h i hi
  rw [executions_append] at this
  omega

section
variable {selectSql : SelectSql} {plan : AugmentedPlan} {root : Nat} {siteDict : List String}
  {tables₀ : String → Nat → List Text} {s t u : Pool.State Store Proc Event}

section
variable {env : Env} {st : Store} {log : List Event} {p : Proc} {o : Outcome}

theorem Trans.tablesOk (htree : PlanTree plan root) (h : Trans selectSql env st p o)
    (hp : ProcOk plan root st log p) (honce : AtMostOnce plan (log ++ o.events))
    (hexec : ∀ i < plan.length, st.flag i = 1 → executions plan log i ≠ 0)
    (hdel : ∀ q children, p = .push q (.deleting children) → st.flag q.nodeId = 1)
    (hcarries : p.CarriesValue plan (planValue selectSql plan) log)
    (htables : TablesOk plan (planValue selectSql plan) tables₀ st log) :
    TablesOk plan (planValue selectSql plan) tables₀ o.store (log ++ o.events) := by
  have hchildren : ∀ (q : Push) phase, p = .push q phase → ∀ c, IsChild plan c q.nodeId →
      executions plan log c ≠ 0 := by
    rintro q phase rfl c hc
    exact hexec c hc.lt ((hp.2.1 q.nodeId (List.mem_cons_self ..)).children c hc)
  rcases h.stores hp with ⟨hsame, hevents⟩ | ⟨q, phase, rfl, hphase, hroot, -, hstore, hevents⟩ |
    ⟨q, file, rfl, hroot, -, hsame, hevents⟩ | ⟨q, c, children, rfl, -, hstore, hevents⟩
  · rw [hevents, List.append_nil]
    exact htables.congr hsame
  · have htarget := hp.1.targetSite_eq hroot
    have hlt : q.nodeId < plan.length := by
      obtain ⟨node, hnode, -⟩ := hp.1.route
      exact (List.getElem?_eq_some_iff.1 hnode).1
    have hzero : executions plan log q.nodeId = 0 := by
      have hle := honce q.nodeId hlt
      rw [hevents, executions_append, executions_inserted htarget, if_pos rfl] at hle
      omega
    rw [hstore, hevents]
    exact htables.insert htarget hzero (hcarries.1 hphase hzero) (hchildren q phase rfl)
  · have hid := hp.1.nodeId_eq_root htree hroot
    have hzero : executions plan log q.nodeId = 0 := by
      have hle := honce root htree.root_node.lt
      rw [hevents, executions_append, executions_written htree _ _ _ htree.root_node.lt, if_pos rfl] at hle
      rw [hid]
      omega
    have hdata := hcarries.1 trivial hzero
    have hbelow := hchildren q (.opened file) rfl
    rw [hevents]
    rw [hid] at hdata hbelow ⊢
    exact (htables.write htree hdata hbelow).congr hsame
  · have hc := hcarries.2 _ rfl c (List.mem_cons_self ..)
    obtain ⟨node, hnode, hsite, -⟩ := hp.1.route
    have hlt := (List.getElem?_eq_some_iff.1 hnode).1
    rw [hstore, hevents, List.append_nil]
    exact htables.delete hc (hsite ▸ targetSite_of_isChild hc hnode) (hexec _ hlt (hdel q _ rfl))

end

theorem clearing_step {c : Nat × Env} (htree : PlanTree plan root) (hstart : Started plan siteDict s)
    (hreach : Pool.Reachable (procStep selectSql) s t) (hstep : Pool.step (procStep selectSql) t c = some u)
    (honce : AtMostOnce plan u.log) (h : Delivering plan (planValue selectSql plan) tables₀ t) : Clearing plan u := by
  obtain ⟨-, hok⟩ := ordered_of_reachable htree hstart hreach
  obtain ⟨p, o, rest, ho, hperm, rfl⟩ := Pool.step_cases hstep
  have htrans := procStep_trans ho
  have hp := hok p (hperm.symm.subset (List.mem_cons_self ..))
  intro k i site hki hk hi
  by_cases hbefore : executions plan t.log i = 0
  · rw [executions_append, hbefore, Nat.zero_add] at hi
    rcases htrans.stores hp with ⟨-, hevents⟩ | ⟨q, phase, rfl, -, hroot, hprocs, -, hevents⟩ |
      ⟨q, file, rfl, hroot, hprocs, -, hevents⟩ | ⟨q, j, children, rfl, -, -, hevents⟩
    · rw [hevents, executions_nil] at hi
      exact absurd rfl hi
    · rw [hevents, executions_inserted (hp.1.targetSite_eq hroot)] at hi
      have hid : i = q.nodeId := by
        by_contra hne
        rw [if_neg hne] at hi
        exact hi rfl
      exact .inr ⟨q, .inserted, List.mem_append_right _ (by simp [hprocs]), hid.symm, trivial⟩
    · rw [hevents, executions_written htree _ _ _ (htree.parent_lt hki)] at hi
      have hid : i = root := by
        by_contra hne
        rw [if_neg hne] at hi
        exact hi rfl
      refine .inr ⟨q, .written file, List.mem_append_right _ (by simp [hprocs]), ?_, trivial⟩
      rw [hid, hp.1.nodeId_eq_root htree hroot]
    · rw [hevents, executions_nil] at hi
      exact absurd rfl hi
  · rcases h.clearing k i site hki hk hbefore with hempty | ⟨q, phase, hq, hid, hwill⟩
    · refine .inl ?_
      show o.store.tables site k = []
      rcases htrans.stores hp with ⟨hsame, -⟩ | ⟨q, phase, rfl, -, hroot, -, hstore, hevents⟩ |
        ⟨q, file, rfl, -, -, hsame, -⟩ | ⟨q, j, children, rfl, -, hstore, -⟩
      · rw [hsame, hempty]
      · rw [hstore, Store.tables_insert, if_neg]
        · exact hempty
        · rintro ⟨-, rfl⟩
          have hle := honce _ hki.lt
          have hpos := h.tables.order _ i hki hbefore
          simp only [hevents, executions_append, executions_inserted (hp.1.targetSite_eq hroot), if_true] at hle
          omega
      · rw [hsame, hempty]
      · rw [hstore, Store.tables_deleteData]
        split_ifs
        · rfl
        · exact hempty
    · rcases List.mem_cons.1 (hperm.subset hq) with rfl | hq
      · rw [← hid] at hki
        rcases htrans.willDelete hp hki hwill with ⟨phase', hmem, hwill'⟩ | hempty
        · exact .inr ⟨q, phase', List.mem_append_right _ hmem, hid, hwill'⟩
        · exact .inl (hp.1.site_eq hki hk ▸ hempty)
      · exact .inr ⟨q, phase, List.mem_append_left _ hq, hid, hwill⟩

theorem delivering_of_reachable (htree : PlanTree plan root) (hreads : ReadsChildren selectSql plan)
    (hempty : ∀ c site, targetSite plan c = some site → s.store.tables site c = []) (hstart : Started plan siteDict s)
    (h : Pool.Reachable (procStep selectSql) s t) (honce : AtMostOnce plan t.log) :
    Delivering plan (planValue selectSql plan) s.store.tables t := by
  refine Runs.Reaches.invariant
    (I := fun u => AtMostOnce plan u.log → Delivering plan (planValue selectSql plan) s.store.tables u) ?_ ?_ h honce
  · rintro u u' c hreach hdeliver - hstep honce'
    obtain ⟨-, hok⟩ := ordered_of_reachable htree hstart hreach
    have hexec : ∀ i < plan.length, u.store.flag i = 1 → executions plan u.log i ≠ 0 :=
      fun i hi hflag => executed_of_flagged htree hstart hreach hi hflag
    have hstep' := hstep
    obtain ⟨p, o, rest, ho, hperm, rfl⟩ := Pool.step_cases hstep
    have htrans := procStep_trans ho
    have hmem : p ∈ u.procs := hperm.symm.subset (List.mem_cons_self ..)
    have hp := hok p hmem
    have honce₀ : AtMostOnce plan u.log := honce'.of_append
    have hu := hdeliver honce₀
    refine ⟨?_, fun q hq => ?_, clearing_step htree hstart hreach hstep' honce' hu⟩
    · refine htrans.tablesOk htree hp honce' hexec ?_ (hu.carries p hmem) hu.tables
      rintro q children rfl
      exact hp.2.2
    · rcases List.mem_append.1 hq with hq | hq
      · exact (hu.carries q (hperm.symm.subset (List.mem_cons_of_mem _ hq))).append _
      · exact (htrans.carriesValue htree hreads hp hu.tables honce₀ hexec (hu.carries p hmem) q hq).append _
  · intro _
    have hnone : ∀ i, executions plan s.log i = 0 := fun i => by rw [hstart.log, executions_nil]
    refine ⟨⟨fun c site hc _ => hempty c site hc, fun c i site _ _ hone => ?_, fun _ _ _ => rfl, fun e he => ?_,
      fun c i _ hi => absurd (hnone i) hi⟩, fun p hp => ?_, fun c i site _ _ hi => absurd (hnone i) hi⟩
    · rw [hnone] at hone
      cases hone
    · rw [hstart.log] at he
      cases he
    · rw [hstart.procs, List.mem_map] at hp
      obtain ⟨site, -, rfl⟩ := hp
      trivial

/-! ## Runs that have ended -/

theorem running_of_reachable (hstart : Started plan siteDict s) (h : Pool.Reachable (procStep selectSql) s t) :
    Running plan t := by
  refine Runs.Reaches.invariant (I := Running plan) (fun u u' c _ hu _ hstep => (hu.step hstep).1) ?_ h
  have hscans : ∀ p ∈ s.procs, ∃ site, p = .scanStart site := fun p hp => by
    rw [hstart.procs, List.mem_map] at hp
    obtain ⟨site, -, rfl⟩ := hp
    exact ⟨site, rfl⟩
  refine ⟨⟨hstart.holds.nodeNum, fun i node hi => (AugPlanNode.keys_of_unflagged (hstart.holds.node i node hi)).1⟩,
    fun p hp => ?_, fun i file data hw => ?_, ?_⟩
  · obtain ⟨site, rfl⟩ := hscans p hp
    trivial
  · rw [hstart.log] at hw
    cases hw
  · rw [hstart.log]
    intro x hx
    obtain ⟨p, hp, hx⟩ := List.mem_filterMap.1 hx
    obtain ⟨site, rfl⟩ := hscans p hp
    cases hx

theorem length_results (log : List Event) : (results log).length = log.countP Event.isResult := by
  induction log with
  | nil => rfl
  | cons e log ih =>
    cases e with
    | inserted i site data => simpa [results, List.filterMap_cons, List.countP_cons, Event.result, Event.isResult] using ih
    | written i file data => simpa [results, List.filterMap_cons, List.countP_cons, Event.result, Event.isResult] using ih

/-- When the processes have ended and one result has been written, the key `result` names the file that holds it. -/
theorem Running.ended_file (h : Running plan t) (hnil : t.procs = []) {i : Nat} {file : String} {data : Text}
    (hres : results t.log = [(i, file, data)]) : t.store.files t.store.etcd.result = some data := by
  have hfiles := h.files
  rw [hres, hnil] at hfiles
  obtain ⟨-, hrest⟩ := hfiles
  obtain ⟨-, hname, hcontent⟩ := hrest fun x hx => by cases hx
  rw [hname fun x hx => by cases hx]
  exact hcontent fun x hx => by cases hx

section
variable (htree : PlanTree plan root) (hsites : ∀ node ∈ plan, node.executeSite ∈ siteDict)
  (hreads : ReadsChildren selectSql plan)
  (hempty : ∀ c site, targetSite plan c = some site → s.store.tables site c = []) (hstart : Started plan siteDict s)
  (h : Pool.Reachable (procStep selectSql) s t) (honce : AtMostOnce plan t.log)
include htree hsites hreads hempty hstart h honce

/-- **A run that executes no node twice delivers the value of the plan.**  In every interleaving everything that has
been inserted or written is the value of its node, and when the processes have ended the file that `result` names
holds the value of the root. -/
theorem run_delivers_planValue : (∀ e ∈ t.log, e.Carries (planValue selectSql plan)) ∧
    (t.procs = [] → t.store.files t.store.etcd.result = some (planValue selectSql plan root)) := by
  have hdeliver := delivering_of_reachable htree hreads hempty hstart h honce
  refine ⟨hdeliver.tables.logged, fun hnil => ?_⟩
  have hrunning := running_of_reachable hstart h
  obtain ⟨hflags, -⟩ := flagged_of_no_procs htree hsites hstart h hnil
  have hone : (results t.log).length = 1 := by
    have hpos := executed_of_flagged htree hstart h htree.root_node.lt (hflags root htree.root_node.lt)
    have hle := honce root htree.root_node.lt
    simp only [executions, htree.targetSite_root] at hpos hle
    rw [length_results]
    omega
  obtain ⟨⟨i, file, data⟩, hres⟩ := List.length_eq_one_iff.1 hone
  have hmem : Event.written i file data ∈ t.log := mem_results.1 (hres ▸ List.mem_singleton_self _)
  obtain ⟨node, hnode, hparent⟩ := hrunning.roots i file data hmem
  have hdata : data = planValue selectSql plan i := hdeliver.tables.logged _ hmem
  rw [hrunning.ended_file hnil hres, hdata, (htree.parentId_eq_neg_one_iff hnode).1 hparent]

/-- **A run that executes no node twice cleans up behind itself**: when its processes have ended, every table at every
site holds what it held before the query. -/
theorem run_restores_tables (hnil : t.procs = []) : t.store.tables = s.store.tables := by
  have hdeliver := delivering_of_reachable htree hreads hempty hstart h honce
  obtain ⟨hflags, -⟩ := flagged_of_no_procs htree hsites hstart h hnil
  funext site c
  by_cases hc : targetSite plan c = some site
  · rw [hempty c site hc]
    obtain ⟨node, parent, hnode, hparent, -⟩ := targetSite_eq_some_iff.1 hc
    have hne : c ≠ root := fun heq => by
      rw [heq, htree.targetSite_root] at hc
      cases hc
    obtain ⟨i, hi, hci⟩ := htree.exists_parent (List.getElem?_eq_some_iff.1 hnode).1 hne
    have hexec := executed_of_flagged htree hstart h hi (hflags i hi)
    refine (hdeliver.clearing c i site hci hc hexec).resolve_right ?_
    rintro ⟨q, phase, hq, -⟩
    rw [hnil] at hq
    cases hq
  · exact hdeliver.tables.other c site hc

end

end

/-! ## A run of three nodes -/

/-- Turns for `booksPlan` in which the process that was forked last goes on, so that every scan finds what the ones
before it have done. -/
def depthFirst : List (Nat × Env) :=
  ([(6, 3), (6, 2), (9, 1), (6, 2), (2, 1), (10, 0), (16, 1), (2, 0)] : List (Nat × Nat)).flatMap fun (n, k) =>
    List.replicate n (k, ⟨"202311149305.txt", 0⟩)

theorem booksSql_readsChildren : ReadsChildren booksSql booksPlan := by
  have hzero : IsChild booksPlan 0 2 := ⟨_, rfl, rfl⟩
  have hone : IsChild booksPlan 1 2 := ⟨_, rfl, rfl⟩
  intro i node hi tables tables' htables
  have hlt : i < 3 := (List.getElem?_eq_some_iff.1 hi).1
  obtain rfl | rfl | rfl : i = 0 ∨ i = 1 ∨ i = 2 := by omega
  · cases hi
    rfl
  · cases hi
    rfl
  · cases hi
    show ((tables 0 ++ tables 1).flatten : Text) = (tables' 0 ++ tables' 1).flatten
    rw [htables 0 hzero, htables 1 hone]

theorem booksPlan_once : ∃ t, Pool.Reachable (procStep booksSql) (startState booksPlan clusterSites) t ∧
    t.procs = [] ∧ AtMostOnce booksPlan t.log := by
  have hrun : (Runs.run (Pool.step (procStep booksSql)) (fun _ _ => True) depthFirst
      (startState booksPlan clusterSites)).any (fun t => t.procs.isEmpty &&
        decide (∀ i < booksPlan.length, executions booksPlan t.log i ≤ 1)) = true := by
    decide +kernel
  obtain ⟨t, hreach, hend⟩ := Runs.exists_of_run hrun
  rw [Bool.and_eq_true, List.isEmpty_iff, decide_eq_true_iff] at hend
  exact ⟨t, hreach, hend.1, hend.2⟩

theorem booksPlan_delivered : ∃ t, Pool.Reachable (procStep booksSql) (startState booksPlan clusterSites) t ∧
    t.procs = [] ∧ (∀ e ∈ t.log, e.Carries (planValue booksSql booksPlan)) ∧
    t.store.files t.store.etcd.result = some (planValue booksSql booksPlan 2) := by
  obtain ⟨t, hreach, hnil, honce⟩ := booksPlan_once
  obtain ⟨hlog, hfile⟩ := run_delivers_planValue planTree_booksPlan (by decide) booksSql_readsChildren
    (fun _ _ _ => rfl) (started_startState (by decide) clusterSites) hreach honce
  exact ⟨t, hreach, hnil, hlog, hfile hnil⟩

theorem booksPlan_restored : ∃ t, Pool.Reachable (procStep booksSql) (startState booksPlan clusterSites) t ∧
    t.procs = [] ∧ t.store.tables = (startState booksPlan clusterSites).store.tables := by
  obtain ⟨t, hreach, hnil, honce⟩ := booksPlan_once
  exact ⟨t, hreach, hnil, run_restores_tables planTree_booksPlan (by decide) booksSql_readsChildren
    (fun _ _ _ => rfl) (started_startState (by decide) clusterSites) hreach honce hnil⟩

end EasyDDB.Execution
