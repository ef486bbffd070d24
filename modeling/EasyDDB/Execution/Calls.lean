import EasyDDB.Execution.Once
import EasyDDB.Lib.Strings

/-! # Calls of `sql_execute`

A cluster serves one call of `sql_execute` after the other while the processes of `plan_scan` and `data_push` run.
The call is cut into the same kind of steps as the processes: one key of the plan saved, one site asked, one key of
`get_result` read.  The plan of a call is an argument, its files lie in one directory, and the log of the pool is
that of the current call. -/
namespace EasyDDB.Execution
set_option autoImplicit false

/-! ## Saving a plan -/

/-- One `etcd_set` of `save_plan_to_etcd`. -/
inductive Put where
  | nodeNum (n : Nat)
  | parentId (i : Nat) (parent : Int)
  | executeSite (i : Nat) (site : String)
  | sql (i : Nat) (text : String)
  | savesql (i : Nat) (text : String)
  | isFinished (i : Nat) (flag : Int)

def Etcd.setNode (e : Etcd) (i : Nat) (node : AugPlanNode) : Etcd :=
  { e with node := Function.update e.node i node }

def Put.apply (e : Etcd) : Put → Etcd
  | .nodeNum n => { e with nodeNum := n }
  | .parentId i parent => e.setNode i { e.node i with parentId := parent }
  | .executeSite i site => e.setNode i { e.node i with executeSite := site }
  | .sql i text => e.setNode i { e.node i with sql := text }
  | .savesql i text => e.setNode i { e.node i with savesql := text }
  | .isFinished i flag => e.setNode i { e.node i with isFinished := flag }

def nodePuts (i : Nat) (node : AugPlanNode) : List Put :=
  [.parentId i node.parentId, .executeSite i node.executeSite, .sql i node.sql, .savesql i node.savesql,
    .isFinished i node.isFinished]

/-- The `etcd_set`s of `save_plan_to_etcd` -/
def planPuts (plan : AugmentedPlan) : List Put :=
  .nodeNum plan.length :: plan.zipIdx.flatMap fun (node, i) => nodePuts i node

/-! ## The cluster -/

/-- How far the current call has come. From `polling` to `read` it is in `get_result`; in `removed` and in `cleared`
an `etcd_set` of `sql_execute` comes next. -/
inductive CallPhase where
  | idle
  | saving (puts : List Put)
  | sending (sites : List String)
  | polling
  | finished
  | named (file : String)
  | read (file : String) (text : Text)
  | removed (text : Text)
  | cleared (text : Text)

/-- A call that has returned: its plan, what was executed meanwhile, and its result. -/
structure Returned where
  plan : AugmentedPlan
  log : List Event
  text : Text

structure Cluster where
  pool : Pool.State Store Proc Event
  phase : CallPhase
  plan : AugmentedPlan
  returned : List Returned

/-- The lines of a file one after the other, without the line feeds; a missing file has no lines. -/
def linesOf (content : Option Text) : Text := (Strings.getlines '\n' (content.getD [])).flatten

def Cluster.withStore (s : Cluster) (store : Store) (phase : CallPhase) : Cluster :=
  { s with pool := { s.pool with store := store }, phase := phase }

/-- `sql_execute` from the saving of its plan on. -/
def callStep (siteDict : List String) (s : Cluster) : Option Cluster :=
  let st := s.pool.store
  match s.phase with
  | .idle => none
  | .saving (put :: puts) => some (s.withStore { st with etcd := put.apply st.etcd } (.saving puts))
  | .saving [] => some { s with phase := .sending siteDict }
  | .sending (site :: sites) =>
    some { s with pool := { s.pool with procs := s.pool.procs ++ [.scanStart site] }, phase := .sending sites }
  | .sending [] => some { s with phase := .polling }
  | .polling => some { s with phase := if st.etcd.isFinished = 1 then .finished else .polling }
  | .finished => some { s with phase := .named st.etcd.result }
  | .named file => some { s with phase := .read file (linesOf (st.files file)) }
  | .read file text => some (s.withStore { st with files := Function.update st.files file none } (.removed text))
  | .removed text => some (s.withStore (st.setResult "") (.cleared text))
  | .cleared text =>
    let s := s.withStore { st with etcd := { st.etcd with nodeNum := 0 } } .idle
    some { s with returned := s.returned ++ [⟨s.plan, s.pool.log, text⟩] }

/-- Who acts next: a client that sends a query, the call under way, or a process of the pool. -/
inductive Turn where
  | query (plan : AugmentedPlan)
  | call
  | site (c : Nat × Env)

def clusterStep (selectSql : SelectSql) (siteDict : List String) (s : Cluster) : Turn → Option Cluster
  | .query plan =>
    match s.phase with
    | .idle => some { s with pool := { s.pool with log := [] }, phase := .saving (planPuts plan), plan := plan }
    | _ => none
  | .call => callStep siteDict s
  | .site c => (Pool.step (procStep selectSql) s.pool c).map fun pool => { s with pool := pool }

/-- The text is the result that a root of the plan has written while the plan was executed. -/
def OwnResult (plan : AugmentedPlan) (log : List Event) (text : Text) : Prop :=
  ∃ i file, Arena.IsRoot AugPlanNode.parentId plan i ∧ Event.written i file text ∈ log

/-! ## Calls that wait for their result -/

inductive Stage where
  | opened | written | named
deriving DecidableEq

/-- The open stream of a root: how far it is, its file and the text it has taken. -/
structure Stream where
  stage : Stage
  file : String
  data : Text

def Proc.stream : Proc → Option Stream
  | .push p (.opened file) => some ⟨.opened, file, p.data⟩
  | .push p (.written file) => some ⟨.written, file, p.data⟩
  | .push p (.resultSet file) | .push p (.nodeSet file) | .push p (.finishedSet file) => some ⟨.named, file, p.data⟩
  | _ => none

def streams (procs : List Proc) : List Stream := procs.filterMap Proc.stream

def Event.result : Event → Option (Nat × String × Text)
  | .written i file data => some (i, file, data)
  | .inserted .. => none

/-- The results written so far. -/
def results (log : List Event) : List (Nat × String × Text) := log.filterMap Event.result

/-- One result has been written, it is on disk, and it is a single line. -/
def delivered (s : Pool.State Store Proc Event) : Bool :=
  match results s.log with
  | [(_, _, data)] => !data.contains '\n' && (streams s.procs).isEmpty
  | _ => false

/-- A query arrives when no process is left, and `get_result` reads the key `result` and the file when the result
has been delivered. -/
def ownCall (s : Cluster) (turn : Turn) : Bool :=
  match turn, s.phase with
  | .query _, _ => s.pool.procs.isEmpty
  | .call, .finished | .call, .named _ => delivered s.pool
  | _, _ => true

/-! ## What a saved plan keeps -/

/-- The parents of the plan as etcd holds them. -/
structure KeepsParents (e : Etcd) (plan : AugmentedPlan) : Prop where
  nodeNum : e.nodeNum = plan.length
  parent : ∀ i node, plan[i]? = some node → (e.node i).parentId = node.parentId

/-- The nodes read so far have the parents of the plan. -/
def ParentsOf (nodes plan : AugmentedPlan) : Prop :=
  ∀ (i : Nat) (node : AugPlanNode), nodes[i]? = some node → ∃ node', plan[i]? = some node' ∧ node'.parentId = node.parentId

theorem ParentsOf.isRoot {nodes plan : AugmentedPlan} (h : ParentsOf nodes plan) {i : Nat} {node : AugPlanNode}
    (hi : nodes[i]? = some node) (hroot : node.parentId = -1) : Arena.IsRoot AugPlanNode.parentId plan i := by
  obtain ⟨node', hi', hparent⟩ := h i node hi
  exact ⟨node', hi', hparent.trans hroot⟩

theorem parentId_foldl_nodePuts (i j : Nat) (node : AugPlanNode) (e : Etcd) :
    (((nodePuts i node).foldl Put.apply e).node j).parentId =
      if j = i then node.parentId else (e.node j).parentId := by
  by_cases hj : j = i
  · subst hj
    simp [nodePuts, Put.apply, Etcd.setNode]
  · simp [nodePuts, Put.apply, Etcd.setNode, hj]

theorem foldl_nodePuts (plan : AugmentedPlan) (k : Nat) (e : Etcd) :
    let e' := ((plan.zipIdx k).flatMap fun (node, i) => nodePuts i node).foldl Put.apply e
    e'.nodeNum = e.nodeNum ∧ (∀ j < k, (e'.node j).parentId = (e.node j).parentId) ∧
      ∀ j node, plan[j]? = some node → (e'.node (k + j)).parentId = node.parentId := by
  induction plan generalizing k e with
  | nil => exact ⟨rfl, fun _ _ => rfl, fun j node hj => by cases hj⟩
  | cons node plan ih =>
    simp only [List.zipIdx_cons, List.flatMap_cons, List.foldl_append]
    obtain ⟨hnum, hbefore, hat⟩ := ih (k + 1) ((nodePuts k node).foldl Put.apply e)
    refine ⟨hnum.trans rfl, fun j hj => ?_, fun j node' hj => ?_⟩
    · rw [hbefore j (by omega), parentId_foldl_nodePuts, if_neg (by omega)]
    · cases j with
      | zero =>
        rw [List.getElem?_cons_zero, Option.some.injEq] at hj
        rw [hbefore (k + 0) (by omega), parentId_foldl_nodePuts, if_pos (by omega), hj]
      | succ j =>
        rw [List.getElem?_cons_succ] at hj
        have := hat j node' hj
        rwa [show k + 1 + j = k + (j + 1) by omega] at this

theorem keepsParents_planPuts (plan : AugmentedPlan) (e : Etcd) :
    KeepsParents ((planPuts plan).foldl Put.apply e) plan := by
  obtain ⟨hnum, -, hat⟩ := foldl_nodePuts plan 0 (Put.apply e (.nodeNum plan.length))
  refine ⟨hnum, fun i node hi => ?_⟩
  have := hat i node hi
  rwa [Nat.zero_add] at this

/-! ## What the processes of a call know -/

section
variable (plan : AugmentedPlan)

def ProcOf : Proc → Prop
  | .scanStart _ => True
  | .scanRead _ nodeNum nodes => nodeNum = plan.length ∧ ParentsOf nodes plan
  | .execute _ copy _ => ParentsOf copy plan
  | .push p phase =>
    ParentsOf p.plan plan ∧ (p.isRoot = true → Arena.IsRoot AugPlanNode.parentId plan p.nodeId) ∧
      ((Proc.push p phase).stream.isSome → p.isRoot = true)

/-- The first result of a call, its file and its stream.  Before it all streams are just opened; once a second one
is written nothing is known. -/
def StreamsOk (st : Store) (opens : List Stream) : List (Nat × String × Text) → Prop
  | [] => ∀ s ∈ opens, s.stage = .opened ∧ st.files s.file = some []
  | [(_, file, data)] =>
    (∀ s ∈ opens, s.stage ≠ .opened → s.file = file ∧ s.data = data) ∧
      ((∀ s ∈ opens, s.stage ≠ .opened) →
        (∃ k, st.files file = some (data.take k)) ∧
        ((∀ s ∈ opens, s.stage = .named) → st.etcd.result = file) ∧
        ((∀ s ∈ opens, False) → st.files file = some data))
  | _ => True

structure Running (s : Pool.State Store Proc Event) : Prop where
  keeps : KeepsParents s.store.etcd plan
  procs : ∀ p ∈ s.procs, ProcOf plan p
  roots : ∀ i file data, Event.written i file data ∈ s.log → Arena.IsRoot AugPlanNode.parentId plan i
  files : StreamsOk s.store (streams s.procs) (results s.log)

end

section
variable {plan : AugmentedPlan} {selectSql : SelectSql} {env : Env} {st : Store} {p : Proc} {o : Outcome}

theorem Trans.keepsParents (h : Trans selectSql env st p o) (hst : KeepsParents st.etcd plan) :
    KeepsParents o.store.etcd plan := by
  have hnode : ∀ i j, ((st.setNodeFinished i).etcd.node j).parentId = (st.etcd.node j).parentId := by
    intro i j
    have := Store.unflagged_setNodeFinished st i j
    exact (AugPlanNode.keys_of_unflagged this).1
  cases h with
  | setNode q file => exact ⟨hst.nodeNum, fun i node hi => (hnode q.nodeId i).trans (hst.parent i node hi)⟩
  | setFlag q => exact ⟨hst.nodeNum, fun i node hi => (hnode q.nodeId i).trans (hst.parent i node hi)⟩
  | _ => exact ⟨hst.nodeNum, hst.parent⟩

theorem Trans.procOf (h : Trans selectSql env st p o) (hst : KeepsParents st.etcd plan) (hp : ProcOf plan p) :
    ∀ q ∈ o.procs, ProcOf plan q := by
  cases h with
  | startScan site =>
    exact List.forall_mem_singleton.2 ⟨hst.nodeNum, fun i node hi => by cases hi⟩
  | readNode site nodeNum nodes hlt =>
    obtain ⟨rfl, hread⟩ := hp
    refine List.forall_mem_singleton.2 ⟨rfl, fun i node hi => ?_⟩
    obtain hi | ⟨rfl, rfl⟩ := Arena.getElem?_concat_cases hi
    · exact hread i node hi
    · have hget := List.getElem?_eq_getElem hlt
      exact ⟨_, hget, (hst.parent _ _ hget).symm⟩
  | endScan site nodeNum nodes hle => exact List.forall_mem_singleton.2 hp.2
  | finish site copy => exact fun q hq => by cases hq
  | startRoot site copy i rest node hi hroot =>
    exact List.forall_mem_singleton.2 ⟨hp, fun _ => hp.isRoot hi hroot, fun hs => by cases hs⟩
  | startInner site copy i rest node parent hi hroot hparent =>
    exact List.forall_mem_singleton.2 ⟨hp, fun hr => (by cases hr), fun hs => by cases hs⟩
  | openFile q hroot => exact List.forall_mem_singleton.2 ⟨hp.1, hp.2.1, fun _ => hroot⟩
  | fork q =>
    refine List.forall_mem_cons.2 ⟨⟨hp.1, hp.2.1, fun hs => by cases hs⟩, ?_⟩
    exact List.forall_mem_singleton.2 trivial
  | goOn q => exact List.forall_mem_singleton.2 hp.1
  | write q | setResult q | setNode q | setFinished q =>
    exact List.forall_mem_singleton.2 ⟨hp.1, hp.2.1, fun _ => hp.2.2 rfl⟩
  | close q | insertHere q | send q | receive q | setFlag q | delete q =>
    exact List.forall_mem_singleton.2 ⟨hp.1, hp.2.1, fun hs => by cases hs⟩

theorem Trans.written_isRoot (h : Trans selectSql env st p o) (hp : ProcOf plan p) {i : Nat} {file : String}
    {data : Text} (hw : Event.written i file data ∈ o.events) : Arena.IsRoot AugPlanNode.parentId plan i := by
  cases h with
  | write q file' =>
    rw [List.mem_singleton] at hw
    cases hw
    exact hp.2.1 (hp.2.2 rfl)
  | insertHere | receive =>
    rw [List.mem_singleton] at hw
    cases hw
  | _ => cases hw

theorem StreamsOk.congr {opens opens' : List Stream} {res : List (Nat × String × Text)}
    (h : StreamsOk st opens res) (hmem : ∀ s, s ∈ opens' ↔ s ∈ opens) : StreamsOk st opens' res := by
  match res with
  | [] => exact fun s hs => h s ((hmem s).1 hs)
  | [_] => simpa only [StreamsOk, hmem] using h
  | _ :: _ :: _ => trivial

theorem StreamsOk.open {rest : List Stream} {res : List (Nat × String × Text)} (h : StreamsOk st rest res)
    (file : String) (data : Text) : StreamsOk (st.openFile file) (⟨.opened, file, data⟩ :: rest) res := by
  match res with
  | [] =>
    refine List.forall_mem_cons.2 ⟨⟨rfl, by simp [Store.openFile]⟩, fun s hs => ⟨(h s hs).1, ?_⟩⟩
    by_cases hf : s.file = file
    · simp [Store.openFile, hf]
    · simpa [Store.openFile, hf] using (h s hs).2
  | [(i, file', data')] =>
    refine ⟨List.forall_mem_cons.2 ⟨fun hne => absurd rfl hne, h.1⟩, fun hno => ?_⟩
    exact absurd rfl (hno _ (List.mem_cons_self ..))
  | _ :: _ :: _ => trivial

/-- The stream of the first result takes its text, and the file holds the part that is flushed. -/
theorem StreamsOk.write {rest : List Stream} {res : List (Nat × String × Text)} {file : String} {data : Text}
    (h : StreamsOk st (⟨.opened, file, data⟩ :: rest) res) (i k : Nat) :
    StreamsOk (st.writeFile file (data.take k)) (⟨.written, file, data⟩ :: rest) (res ++ [(i, file, data)]) := by
  match res with
  | [] =>
    obtain ⟨⟨-, hfile⟩, hrest⟩ := List.forall_mem_cons.1 h
    refine ⟨List.forall_mem_cons.2 ⟨fun _ => ⟨rfl, rfl⟩, fun s hs hne => absurd (hrest s hs).1 hne⟩, fun _ => ?_⟩
    refine ⟨⟨k, ?_⟩, fun hnamed => ?_, fun hnone => (hnone _ (List.mem_cons_self ..)).elim⟩
    · simp only [Store.writeFile, hfile, Function.update_self, Option.map_some, List.drop_nil, List.append_nil]
    · cases hnamed _ (List.mem_cons_self ..)
  | [_] => trivial
  | _ :: _ :: _ => trivial

theorem StreamsOk.setResult {rest : List Stream} {res : List (Nat × String × Text)} {file : String} {data : Text}
    (h : StreamsOk st (⟨.written, file, data⟩ :: rest) res) :
    StreamsOk (st.setResult file) (⟨.named, file, data⟩ :: rest) res := by
  match res with
  | [] => cases (h _ (List.mem_cons_self ..)).1
  | [(i, file', data')] =>
    obtain ⟨hsame, hlast⟩ := h
    obtain ⟨hhead, hrest⟩ := List.forall_mem_cons.1 hsame
    obtain ⟨hf, hd⟩ := hhead (by simp)
    refine ⟨List.forall_mem_cons.2 ⟨fun _ => ⟨hf, hd⟩, hrest⟩, fun hno => ?_⟩
    have hno' : ∀ s ∈ (⟨.written, file, data⟩ : Stream) :: rest, s.stage ≠ .opened :=
      List.forall_mem_cons.2 ⟨by simp, (List.forall_mem_cons.1 hno).2⟩
    exact ⟨(hlast hno').1, fun _ => hf, fun hnone => (hnone _ (List.mem_cons_self ..)).elim⟩
  | _ :: _ :: _ => trivial

theorem StreamsOk.close {rest : List Stream} {res : List (Nat × String × Text)} {file : String} {data : Text}
    (h : StreamsOk st (⟨.named, file, data⟩ :: rest) res) : StreamsOk (st.writeFile file data) rest res := by
  match res with
  | [] => cases (h _ (List.mem_cons_self ..)).1
  | [(i, file', data')] =>
    obtain ⟨hsame, hlast⟩ := h
    obtain ⟨hhead, hrest⟩ := List.forall_mem_cons.1 hsame
    obtain ⟨hf, hd⟩ := hhead (by simp)
    subst hf hd
    refine ⟨hrest, fun hno => ?_⟩
    obtain ⟨⟨k, hfile⟩, hnamed, -⟩ := hlast (List.forall_mem_cons.2 ⟨by simp, hno⟩)
    have hdone : (st.writeFile file data).files file = some data := by
      have hlen : (data.take k).length ≤ data.length := by simp
      simp only [Store.writeFile, hfile, Function.update_self, Option.map_some, List.drop_eq_nil_of_le hlen,
        List.append_nil]
    refine ⟨⟨data.length, by rw [hdone, List.take_length]⟩, fun hall => ?_, fun _ => hdone⟩
    exact hnamed (List.forall_mem_cons.2 ⟨rfl, hall⟩)
  | _ :: _ :: _ => trivial

theorem Trans.streamsOk (h : Trans selectSql env st p o) {rest : List Stream} {res : List (Nat × String × Text)}
    (hst : StreamsOk st (p.stream.toList ++ rest) res) :
    StreamsOk o.store (streams o.procs ++ rest) (res ++ results o.events) := by
  cases h with
  | openFile q hroot => exact (List.append_nil res).symm ▸ hst.open env.fileName q.data
  | write q file => exact hst.write q.nodeId env.flushed
  | setResult q file => exact (List.append_nil res).symm ▸ hst.setResult
  | close q file => exact (List.append_nil res).symm ▸ hst.close
  | _ =>
    simp only [results, streams, List.filterMap_cons, List.filterMap_nil, Proc.stream, Event.result,
      List.append_nil, List.nil_append] at hst ⊢
    exact hst

/-- Every step of a process keeps what the call knows. -/
theorem Running.step {s t : Pool.State Store Proc Event} {c : Nat × Env} (h : Running plan s)
    (hstep : Pool.step (procStep selectSql) s c = some t) :
    Running plan t ∧ ∃ events, t.log = s.log ++ events := by
  obtain ⟨p, o, rest, ho, hperm, rfl⟩ := Pool.step_cases hstep
  have htrans := procStep_trans ho
  have hp : ProcOf plan p := h.procs p (hperm.symm.subset (List.mem_cons_self ..))
  refine ⟨⟨htrans.keepsParents h.keeps, fun q hq => ?_, fun i file data hw => ?_, ?_⟩, o.events, rfl⟩
  · rcases List.mem_append.1 hq with hq | hq
    · exact h.procs q (hperm.symm.subset (List.mem_cons_of_mem p hq))
    · exact htrans.procOf h.keeps hp q hq
  · rcases List.mem_append.1 hw with hw | hw
    · exact h.roots i file data hw
    · exact htrans.written_isRoot hp hw
  · have hbefore : StreamsOk s.store (p.stream.toList ++ streams rest) (results s.log) := by
      refine h.files.congr fun x => ?_
      have := (hperm.filterMap Proc.stream).mem_iff (a := x)
      rw [streams, streams, this, List.filterMap_cons]
      cases p.stream <;> simp
    have hafter := htrans.streamsOk hbefore
    simp only [results, streams, List.filterMap_append] at hafter ⊢
    exact hafter.congr fun x => by simp only [List.mem_append, or_comm]

end

/-! ## Every guarded call returns its own result -/

section
variable {selectSql : SelectSql} {siteDict : List String} {s t : Cluster}

theorem OwnResult.append {plan : AugmentedPlan} {log : List Event} {text : Text} (h : OwnResult plan log text)
    (events : List Event) : OwnResult plan (log ++ events) text := by
  obtain ⟨i, file, hroot, hw⟩ := h
  exact ⟨i, file, hroot, List.mem_append_left _ hw⟩

theorem mem_results {log : List Event} {i : Nat} {file : String} {data : Text} :
    (i, file, data) ∈ results log ↔ Event.written i file data ∈ log := by
  rw [results, List.mem_filterMap]
  constructor
  · rintro ⟨e, he, hr⟩
    cases e with
    | inserted => cases hr
    | written =>
      cases hr
      exact he
  · exact fun h => ⟨_, h, rfl⟩

/-- What the phase of a call says about the pool. -/
def Cluster.PhaseOk (s : Cluster) : Prop :=
  match s.phase with
  | .idle => True
  | .saving puts =>
    s.pool.procs = [] ∧ s.pool.log = [] ∧ KeepsParents (puts.foldl Put.apply s.pool.store.etcd) s.plan
  | .sending _ | .polling | .finished => Running s.plan s.pool
  | .named file =>
    Running s.plan s.pool ∧ ∃ i data rest, results s.pool.log = (i, file, data) :: rest
  | .read _ text | .removed text | .cleared text => OwnResult s.plan s.pool.log text

/-- When the result has been delivered, the key `result` names its file and the file holds it. -/
theorem Running.delivered {plan : AugmentedPlan} {pool : Pool.State Store Proc Event} (h : Running plan pool)
    (hd : delivered pool = true) :
    ∃ i file data, results pool.log = [(i, file, data)] ∧ Arena.IsRoot AugPlanNode.parentId plan i ∧
      Event.written i file data ∈ pool.log ∧ pool.store.etcd.result = file ∧
      linesOf (pool.store.files file) = data := by
  unfold Execution.delivered at hd
  split at hd
  · next i file data hres =>
    rw [Bool.and_eq_true, List.isEmpty_iff] at hd
    obtain ⟨hline, hnone⟩ := hd
    have hline : '\n' ∉ data := by simpa using hline
    have hstreams := h.files
    rw [hres, hnone] at hstreams
    obtain ⟨-, hresult, hfile⟩ := hstreams.2 (fun s hs => by cases hs)
    have hw : Event.written i file data ∈ pool.log := mem_results.1 (hres ▸ List.mem_singleton_self _)
    refine ⟨i, file, data, hres, h.roots i file data hw, hw, hresult (fun s hs => by cases hs), ?_⟩
    rw [hfile (fun s hs => by cases hs), linesOf, Option.getD_some, Strings.flatten_getlines hline]
  · cases hd

theorem Running.push {plan : AugmentedPlan} {pool : Pool.State Store Proc Event} (h : Running plan pool)
    (site : String) : Running plan { pool with procs := pool.procs ++ [.scanStart site] } := by
  refine ⟨h.keeps, fun p hp => ?_, h.roots, ?_⟩
  · rcases List.mem_append.1 hp with hp | hp
    · exact h.procs p hp
    · rw [List.mem_singleton.1 hp]
      trivial
  · have hsame : streams (pool.procs ++ [.scanStart site]) = streams pool.procs := by
      rw [streams, List.filterMap_append]
      exact List.append_nil _
    exact hsame.symm ▸ h.files

theorem callStep_phaseOk (h : s.PhaseOk) (hguard : ownCall s .call = true) (hstep : callStep siteDict s = some t) :
    t.PhaseOk := by
  unfold Cluster.PhaseOk at h
  unfold ownCall at hguard
  unfold callStep at hstep
  cases hphase : s.phase with
  | idle => simp [hphase] at hstep
  | saving puts =>
    cases puts with
    | nil =>
      simp only [hphase, Option.some.injEq] at h hstep
      subst hstep
      obtain ⟨hprocs, hlog, hkeeps⟩ := h
      refine ⟨hkeeps, fun p hp => ?_, fun i file data hw => ?_, ?_⟩
      · rw [hprocs] at hp
        cases hp
      · rw [hlog] at hw
        cases hw
      · rw [hprocs, hlog]
        exact fun s hs => by cases hs
    | cons put puts =>
      simp only [hphase, Option.some.injEq] at h hstep
      subst hstep
      exact h
  | sending sites =>
    cases sites with
    | nil =>
      simp only [hphase, Option.some.injEq] at h hstep
      subst hstep
      exact h
    | cons site sites =>
      simp only [hphase, Option.some.injEq] at h hstep
      subst hstep
      exact h.push site
  | polling =>
    simp only [hphase, Option.some.injEq] at h hstep
    subst hstep
    unfold Cluster.PhaseOk
    dsimp only
    split_ifs <;> exact h
  | finished =>
    simp only [hphase, Option.some.injEq] at h hguard hstep
    subst hstep
    obtain ⟨i, file, data, hres, -, -, hresult, -⟩ := h.delivered hguard
    exact ⟨h, i, data, [], hresult ▸ hres⟩
  | named file =>
    simp only [hphase, Option.some.injEq] at h hguard hstep
    subst hstep
    obtain ⟨hrun, i, data, rest, hres⟩ := h
    obtain ⟨i', file', data', hres', hroot, hw, -, hlines⟩ := hrun.delivered hguard
    have hfile : file = file' := by
      rw [hres', List.cons.injEq, Prod.mk.injEq, Prod.mk.injEq] at hres
      exact hres.1.2.1.symm
    subst hfile
    exact ⟨i', file, hroot, by rw [hlines]; exact hw⟩
  | read file text =>
    simp only [hphase, Option.some.injEq] at h hstep
    subst hstep
    exact h
  | removed text =>
    simp only [hphase, Option.some.injEq] at h hstep
    subst hstep
    exact h
  | cleared text =>
    simp only [hphase, Option.some.injEq] at hstep
    subst hstep
    trivial

theorem siteStep_phaseOk {c : Nat × Env} {pool : Pool.State Store Proc Event} (h : s.PhaseOk)
    (hstep : Pool.step (procStep selectSql) s.pool c = some pool) : Cluster.PhaseOk { s with pool := pool } := by
  have hrun : Running s.plan s.pool → Running s.plan pool := fun hrun => (hrun.step hstep).1
  obtain ⟨p, o, rest, -, hperm, hpool⟩ := Pool.step_cases hstep
  have hlog : pool.log = s.pool.log ++ o.events := by rw [hpool]
  unfold Cluster.PhaseOk at h ⊢
  cases hphase : s.phase with
  | idle => trivial
  | saving puts =>
    simp only [hphase] at h
    have hmem := hperm.symm.subset (List.mem_cons_self ..)
    rw [h.1] at hmem
    cases hmem
  | sending | polling | finished =>
    simp only [hphase] at h ⊢
    exact hrun h
  | named file =>
    simp only [hphase] at h ⊢
    obtain ⟨h, i, data, others, hres⟩ := h
    refine ⟨hrun h, i, data, others ++ results o.events, ?_⟩
    rw [hlog, results, List.filterMap_append, ← results, hres]
    rfl
  | read | removed | cleared =>
    simp only [hphase] at h ⊢
    exact hlog ▸ h.append o.events

theorem callStep_returned (hstep : callStep siteDict s = some t) :
    t.returned = s.returned ∨
      ∃ text, s.phase = .cleared text ∧ t.returned = s.returned ++ [⟨s.plan, s.pool.log, text⟩] := by
  unfold callStep at hstep
  dsimp only at hstep
  split at hstep
  case h_11 text hphase =>
    rw [Option.some.injEq] at hstep
    exact .inr ⟨text, hphase, hstep ▸ rfl⟩
  all_goals
    cases hstep
  all_goals exact .inl rfl

theorem clusterStep_ok {turn : Turn} (hguard : ownCall s turn = true)
    (hstep : clusterStep selectSql siteDict s turn = some t) (hphase : s.PhaseOk)
    (hret : ∀ r ∈ s.returned, OwnResult r.plan r.log r.text) :
    t.PhaseOk ∧ ∀ r ∈ t.returned, OwnResult r.plan r.log r.text := by
  cases turn with
  | query plan =>
    rw [ownCall, List.isEmpty_iff] at hguard
    cases hidle : s.phase with
    | idle =>
      simp only [clusterStep, hidle, Option.some.injEq] at hstep
      subst hstep
      exact ⟨⟨hguard, rfl, keepsParents_planPuts plan _⟩, hret⟩
    | _ => simp [clusterStep, hidle] at hstep
  | call =>
    refine ⟨callStep_phaseOk hphase hguard hstep, ?_⟩
    rcases callStep_returned hstep with hsame | ⟨text, hcleared, hnew⟩
    · rw [hsame]
      exact hret
    · rw [hnew]
      intro r hr
      rcases List.mem_append.1 hr with hr | hr
      · exact hret r hr
      · rw [List.mem_singleton.1 hr]
        unfold Cluster.PhaseOk at hphase
        rw [hcleared] at hphase
        exact hphase
  | site c =>
    obtain ⟨pool, hpool, rfl⟩ := Option.map_eq_some_iff.1 hstep
    exact ⟨siteStep_phaseOk hphase hpool, hret⟩

/-- Queries arrive one after the other, each when the processes of the one before have ended, and every result is
read when it has been delivered: then each call returns the result of its own plan. -/
theorem calls_return_own_results (hidle : s.phase = .idle) (hfresh : s.returned = [])
    (h : Runs.Reaches (clusterStep selectSql siteDict) (fun s turn => ownCall s turn = true) s t) :
    ∀ r ∈ t.returned, OwnResult r.plan r.log r.text := by
  have hstart : s.PhaseOk ∧ ∀ r ∈ s.returned, OwnResult r.plan r.log r.text := by
    refine ⟨?_, fun r hr => ?_⟩
    · unfold Cluster.PhaseOk
      rw [hidle]
      trivial
    · rw [hfresh] at hr
      cases hr
  have hrun := h.invariant (I := fun s => s.PhaseOk ∧ ∀ r ∈ s.returned, OwnResult r.plan r.log r.text)
    (fun t t' turn _ hok hguard hstep => clusterStep_ok hguard hstep hok.1 hok.2) hstart
  exact hrun.2

end

/-! ## Two calls on a new cluster -/

/-- A cluster that has not served any query. -/
def newCluster : Cluster := ⟨startState [] [], .idle, [], []⟩

/-- The plan for the titles of the books with an id below 205000, which are all in one fragment. -/
def titlePlan : AugmentedPlan := [⟨0, -1, "ddb0", "select Book.title from Book", "(title char(100),)", 0⟩]

/-- The turns of a call: its plan is saved and every site asked, then `before` turns of the processes come before
`get_result` finds the key `is_finished` set, and `after` turns follow before it goes on. -/
def callTurns (plan : AugmentedPlan) (before after : Nat) : List Turn :=
  let saving := (planPuts plan).length + clusterSites.length + 2
  .query plan :: List.replicate saving .call ++ (roundRobin before).map .site ++ [.call] ++
    (roundRobin after).map .site ++ List.replicate 5 .call

/-- The second call finds `is_finished` as the first one has left it: it returns at once, before any node of its
plan has been executed. -/
theorem second_call_returns_nothing : ∃ t,
    Runs.Reaches (clusterStep booksSql clusterSites) (fun _ _ => True) newCluster t ∧
    ∃ r ∈ t.returned, r.plan = booksPlan ∧ r.text = [] ∧ ¬ OwnResult r.plan r.log r.text := by
  have hrun : (Runs.run (clusterStep booksSql clusterSites) (fun _ _ => True)
      (callTurns titlePlan 24 0 ++ callTurns booksPlan 0 0) newCluster).any (fun t => t.returned.any fun r =>
        r.plan == booksPlan && r.text.isEmpty && (results r.log).isEmpty) = true := by
    decide +kernel
  obtain ⟨t, hreach, hany⟩ := Runs.exists_of_run hrun
  obtain ⟨r, hr, htest⟩ := List.any_eq_true.1 hany
  simp only [Bool.and_eq_true, beq_iff_eq, List.isEmpty_iff] at htest
  obtain ⟨⟨hplan, htext⟩, hnone⟩ := htest
  refine ⟨t, hreach, r, hr, hplan, htext, ?_⟩
  rintro ⟨i, file, -, hw⟩
  have hmem := mem_results.2 hw
  rw [hnone] at hmem
  cases hmem

/-- The same plan twice; the second call leaves the loop of `get_result` at once as well, but its processes end
before it goes on. -/
theorem two_calls_own_results : ∃ t,
    Runs.Reaches (clusterStep booksSql clusterSites) (fun s turn => ownCall s turn = true) newCluster t ∧
    t.returned.length = 2 ∧ ∀ r ∈ t.returned, OwnResult r.plan r.log r.text := by
  have hrun : (Runs.run (clusterStep booksSql clusterSites) (fun s turn => ownCall s turn = true)
      (callTurns titlePlan 24 0 ++ callTurns titlePlan 0 24) newCluster).any
        (fun t => t.returned.length == 2) = true := by
    decide +kernel
  obtain ⟨t, hreach, htwo⟩ := Runs.exists_of_run hrun
  exact ⟨t, hreach, beq_iff_eq.1 htwo, calls_return_own_results rfl rfl hreach⟩

end EasyDDB.Execution
