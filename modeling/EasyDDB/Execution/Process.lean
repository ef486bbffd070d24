import EasyDDB.Execution.Plan
import EasyDDB.Lib.Pool

/-! # The processes that execute a plan

`plan_scan`, `data_push`, `delete_data` and `data_receive` of `db.cpp`, cut into the steps that touch what the
sites share: etcd, the tables of the sites and the result files.  Every key of a plan is written and read
under one name, the reader asks for `execute_site` as well, and SQL statements succeed; the tables that
`create table` makes are not represented, only what is inserted into them.  A `data_push` message is a
synchronous call, so the handler `data_receive` runs as a part of the process that sent the message. -/
namespace EasyDDB.Execution
set_option autoImplicit false

abbrev Text := List Char

/-! ## The shared store -/

/-- The keys of a plan in etcd: `node_num`, the keys of node `i`, the global `is_finished` and `result`. -/
structure Etcd where
  nodeNum : Nat
  node : Nat → AugPlanNode
  isFinished : Int
  result : String

structure Store where
  etcd : Etcd
  /-- What has been inserted at a site for a node, one text for each `insert`. -/
  tables : String → Nat → List Text
  files : String → Option Text

namespace Store

/-- The key `<i>is_finished`. -/
def flag (st : Store) (i : Nat) : Int := (st.etcd.node i).isFinished

/-- `etcd_set(std::to_string(i) + "is_finished", "1")` -/
def setNodeFinished (st : Store) (i : Nat) : Store :=
  { st with etcd := { st.etcd with node := Function.update st.etcd.node i { st.etcd.node i with isFinished := 1 } } }

/-- `etcd_set("is_finished", "1")` -/
def setIsFinished (st : Store) : Store := { st with etcd := { st.etcd with isFinished := 1 } }

/-- `etcd_set("result", file_name)` -/
def setResult (st : Store) (file : String) : Store := { st with etcd := { st.etcd with result := file } }

/-- `insert into <i> values data` at a site. -/
def insert (st : Store) (site : String) (i : Nat) (data : Text) : Store :=
  let table := Function.update (st.tables site) i (st.tables site i ++ [data])
  { st with tables := Function.update st.tables site table }

/-- `delete_data` -/
def deleteData (st : Store) (i : Nat) (site : String) : Store :=
  { st with tables := Function.update st.tables site (Function.update (st.tables site) i []) }

/-- `std::ofstream out(file_name)` creates the file or empties it. -/
def openFile (st : Store) (file : String) : Store := { st with files := Function.update st.files file (some []) }

/-- The stream writes `text` at the beginning of its file, unless the file has been removed. -/
def writeFile (st : Store) (file : String) (text : Text) : Store :=
  let content := (st.files file).map fun old => text ++ old.drop text.length
  { st with files := Function.update st.files file content }

@[simp] theorem flag_setNodeFinished_self (st : Store) (i : Nat) : (st.setNodeFinished i).flag i = 1 := by
  simp [flag, setNodeFinished]

theorem flag_setNodeFinished (st : Store) (i j : Nat) :
    (st.setNodeFinished i).flag j = if j = i then 1 else st.flag j := by
  by_cases h : j = i
  · subst h
    simp
  · simp [flag, setNodeFinished, h]

@[simp] theorem unflagged_setNodeFinished (st : Store) (i j : Nat) :
    ((st.setNodeFinished i).etcd.node j).unflagged = (st.etcd.node j).unflagged := by
  by_cases h : j = i
  · subst h
    simp [setNodeFinished, AugPlanNode.unflagged]
  · simp [setNodeFinished, h]

end Store

/-! ## Processes -/

/-- The arguments of a running `data_push` and the `plan_scan` it returns to. -/
structure Push where
  site : String
  plan : AugmentedPlan
  rest : List Nat
  nodeId : Nat
  target : String
  isRoot : Bool
  /-- The text of `select_sql`, the part of `datamsg` behind the comma. -/
  data : Text

/-- How far a `data_push` has come: the root writes its result file, from `opened` to `finishedSet`; the rows of another
node are stored at the target, from `sent` to `flagged`; then the data of the children is deleted, one after the
other. -/
inductive Phase where
  | selected
  | opened (file : String)
  | written (file : String)
  | resultSet (file : String)
  | nodeSet (file : String)
  | finishedSet (file : String)
  | sent
  | inserted
  | flagged
  | deleting (children : List Nat)

inductive Proc where
  /-- A `plan_scan` that has been asked for: a `site_execute` message under way or a forked process. -/
  | scanStart (site : String)
  /-- `get_plan_from_etcd` has read `node_num` and the keys of the first nodes. -/
  | scanRead (site : String) (nodeNum : Nat) (nodes : AugmentedPlan)
  /-- The second loop of `plan_scan`. -/
  | execute (site : String) (plan : AugmentedPlan) (todo : List Nat)
  | push (p : Push) (phase : Phase)

/-- What the logs keep: the rows of a node inserted at a site, and the result of a root written to a file. -/
inductive Event where
  | inserted (nodeId : Nat) (site : String) (data : Text)
  | written (nodeId : Nat) (file : String) (data : Text)
deriving DecidableEq, Repr

/-- What a step takes from outside: the file name the clock gives, and how much of a text the stream writes
before it is closed. -/
structure Env where
  fileName : String
  flushed : Nat

/-- `select_sql` at a site, over what has been inserted there for each node. -/
abbrev SelectSql := String → (Nat → List Text) → String → Text

abbrev Outcome := Pool.Outcome Store Proc Event

/-! ## Steps -/

/-- The call of `data_push` for the first node of `to_execute`, up to the end of its `select_sql`. -/
def executeStep (selectSql : SelectSql) (st : Store) (site : String) (plan : AugmentedPlan) (i : Nat)
    (rest : List Nat) : Option Outcome := do
  let node ← plan[i]?
  let data := selectSql site (st.tables site) node.sql
  if node.parentId = -1 then
    some ⟨st, [.push ⟨site, plan, rest, i, site, true, data⟩ .selected], []⟩
  else
    let parent ← nodeAt plan node.parentId
    some ⟨st, [.push ⟨site, plan, rest, i, parent.executeSite, false, data⟩ .selected], []⟩

/-- The steps of a `data_push`. The root's file is complete when the end of the block closes the stream; the site that has
stored the rows of another node forks a scan. -/
def pushStep (env : Env) (st : Store) (p : Push) : Phase → Outcome
  | .selected =>
    if p.isRoot then ⟨st.openFile env.fileName, [.push p (.opened env.fileName)], []⟩
    else if p.target = p.site then
      ⟨st.insert p.target p.nodeId p.data, [.push p .inserted], [.inserted p.nodeId p.target p.data]⟩
    else ⟨st, [.push p .sent], []⟩
  | .opened file =>
    ⟨st.writeFile file (p.data.take env.flushed), [.push p (.written file)], [.written p.nodeId file p.data]⟩
  | .written file => ⟨st.setResult file, [.push p (.resultSet file)], []⟩
  | .resultSet file => ⟨st.setNodeFinished p.nodeId, [.push p (.nodeSet file)], []⟩
  | .nodeSet file => ⟨st.setIsFinished, [.push p (.finishedSet file)], []⟩
  | .finishedSet file => ⟨st.writeFile file p.data, [.push p (.deleting (childrenOf p.plan p.nodeId))], []⟩
  | .sent => ⟨st.insert p.target p.nodeId p.data, [.push p .inserted], [.inserted p.nodeId p.target p.data]⟩
  | .inserted => ⟨st.setNodeFinished p.nodeId, [.push p .flagged], []⟩
  | .flagged => ⟨st, [.push p (.deleting (childrenOf p.plan p.nodeId)), .scanStart p.target], []⟩
  | .deleting (i :: children) => ⟨st.deleteData i p.site, [.push p (.deleting children)], []⟩
  | .deleting [] => ⟨st, [.execute p.site p.plan p.rest], []⟩

/-- One step of a process. -/
def procStep (selectSql : SelectSql) (env : Env) (st : Store) : Proc → Option Outcome
  | .scanStart site => some ⟨st, [.scanRead site st.etcd.nodeNum []], []⟩
  | .scanRead site nodeNum nodes =>
    if nodes.length < nodeNum then
      some ⟨st, [.scanRead site nodeNum (nodes ++ [st.etcd.node nodes.length])], []⟩
    else some ⟨st, [.execute site nodes (toExecute site nodes)], []⟩
  | .execute _ _ [] => some ⟨st, [], []⟩
  | .execute site plan (i :: rest) => executeStep selectSql st site plan i rest
  | .push p phase => some (pushStep env st p phase)

/-- The plan as etcd holds it. -/
structure Store.Holds (st : Store) (plan : AugmentedPlan) : Prop where
  nodeNum : st.etcd.nodeNum = plan.length
  node : ∀ i node, plan[i]? = some node → (st.etcd.node i).unflagged = node.unflagged

/-- One query from the moment its plan is saved: the plan is in etcd with all flags 0, and every site of
`site_dict` is asked for a `plan_scan`. -/
structure Started (plan : AugmentedPlan) (siteDict : List String) (s : Pool.State Store Proc Event) : Prop where
  holds : s.store.Holds plan
  flags : ∀ i < plan.length, s.store.flag i = 0
  procs : s.procs = siteDict.map .scanStart
  log : s.log = []

/-! ## What a step can do -/

/-- The steps of a process, one constructor for each. -/
inductive Trans (selectSql : SelectSql) (env : Env) (st : Store) : Proc → Outcome → Prop
  | startScan (site : String) :
      Trans selectSql env st (.scanStart site) ⟨st, [.scanRead site st.etcd.nodeNum []], []⟩
  | readNode (site : String) (nodeNum : Nat) (nodes : AugmentedPlan) (hlt : nodes.length < nodeNum) :
      Trans selectSql env st (.scanRead site nodeNum nodes)
        ⟨st, [.scanRead site nodeNum (nodes ++ [st.etcd.node nodes.length])], []⟩
  | endScan (site : String) (nodeNum : Nat) (nodes : AugmentedPlan) (hle : nodeNum ≤ nodes.length) :
      Trans selectSql env st (.scanRead site nodeNum nodes) ⟨st, [.execute site nodes (toExecute site nodes)], []⟩
  | finish (site : String) (plan : AugmentedPlan) : Trans selectSql env st (.execute site plan []) ⟨st, [], []⟩
  | startRoot (site : String) (plan : AugmentedPlan) (i : Nat) (rest : List Nat) (node : AugPlanNode)
      (hi : plan[i]? = some node) (hroot : node.parentId = -1) :
      Trans selectSql env st (.execute site plan (i :: rest))
        ⟨st, [.push ⟨site, plan, rest, i, site, true, selectSql site (st.tables site) node.sql⟩ .selected], []⟩
  | startInner (site : String) (plan : AugmentedPlan) (i : Nat) (rest : List Nat) (node parent : AugPlanNode)
      (hi : plan[i]? = some node) (hroot : node.parentId ≠ -1) (hparent : nodeAt plan node.parentId = some parent) :
      Trans selectSql env st (.execute site plan (i :: rest))
        ⟨st, [.push ⟨site, plan, rest, i, parent.executeSite, false,
          selectSql site (st.tables site) node.sql⟩ .selected], []⟩
  | openFile (p : Push) (hroot : p.isRoot = true) :
      Trans selectSql env st (.push p .selected) ⟨st.openFile env.fileName, [.push p (.opened env.fileName)], []⟩
  | write (p : Push) (file : String) :
      Trans selectSql env st (.push p (.opened file))
        ⟨st.writeFile file (p.data.take env.flushed), [.push p (.written file)], [.written p.nodeId file p.data]⟩
  | setResult (p : Push) (file : String) :
      Trans selectSql env st (.push p (.written file)) ⟨st.setResult file, [.push p (.resultSet file)], []⟩
  | setNode (p : Push) (file : String) :
      Trans selectSql env st (.push p (.resultSet file)) ⟨st.setNodeFinished p.nodeId, [.push p (.nodeSet file)], []⟩
  | setFinished (p : Push) (file : String) :
      Trans selectSql env st (.push p (.nodeSet file)) ⟨st.setIsFinished, [.push p (.finishedSet file)], []⟩
  | close (p : Push) (file : String) :
      Trans selectSql env st (.push p (.finishedSet file))
        ⟨st.writeFile file p.data, [.push p (.deleting (childrenOf p.plan p.nodeId))], []⟩
  | insertHere (p : Push) (hroot : p.isRoot = false) (htarget : p.target = p.site) :
      Trans selectSql env st (.push p .selected)
        ⟨st.insert p.target p.nodeId p.data, [.push p .inserted], [.inserted p.nodeId p.target p.data]⟩
  | send (p : Push) (hroot : p.isRoot = false) (htarget : p.target ≠ p.site) :
      Trans selectSql env st (.push p .selected) ⟨st, [.push p .sent], []⟩
  | receive (p : Push) :
      Trans selectSql env st (.push p .sent)
        ⟨st.insert p.target p.nodeId p.data, [.push p .inserted], [.inserted p.nodeId p.target p.data]⟩
  | setFlag (p : Push) :
      Trans selectSql env st (.push p .inserted) ⟨st.setNodeFinished p.nodeId, [.push p .flagged], []⟩
  | fork (p : Push) :
      Trans selectSql env st (.push p .flagged)
        ⟨st, [.push p (.deleting (childrenOf p.plan p.nodeId)), .scanStart p.target], []⟩
  | delete (p : Push) (i : Nat) (children : List Nat) :
      Trans selectSql env st (.push p (.deleting (i :: children)))
        ⟨st.deleteData i p.site, [.push p (.deleting children)], []⟩
  | goOn (p : Push) :
      Trans selectSql env st (.push p (.deleting [])) ⟨st, [.execute p.site p.plan p.rest], []⟩

variable {selectSql : SelectSql} {env : Env} {st : Store}

theorem executeStep_trans {site : String} {plan : AugmentedPlan} {i : Nat} {rest : List Nat} {o : Outcome}
    (h : executeStep selectSql st site plan i rest = some o) :
    Trans selectSql env st (.execute site plan (i :: rest)) o := by
  simp only [executeStep, Option.bind_eq_bind, Option.bind_eq_some_iff] at h
  obtain ⟨node, hi, h⟩ := h
  by_cases hroot : node.parentId = -1
  · rw [if_pos hroot, Option.some.injEq] at h
    exact h ▸ .startRoot site plan i rest node hi hroot
  · rw [if_neg hroot, Option.bind_eq_some_iff] at h
    obtain ⟨parent, hparent, h⟩ := h
    rw [Option.some.injEq] at h
    exact h ▸ .startInner site plan i rest node parent hi hroot hparent

theorem pushStep_trans (p : Push) (phase : Phase) :
    Trans selectSql env st (.push p phase) (pushStep env st p phase) := by
  cases phase with
  | selected =>
    unfold pushStep
    by_cases hroot : p.isRoot = true
    · rw [if_pos hroot]
      exact .openFile p hroot
    · rw [if_neg hroot]
      rw [Bool.not_eq_true] at hroot
      by_cases htarget : p.target = p.site
      · rw [if_pos htarget]
        exact .insertHere p hroot htarget
      · rw [if_neg htarget]
        exact .send p hroot htarget
  | opened file => exact .write p file
  | written file => exact .setResult p file
  | resultSet file => exact .setNode p file
  | nodeSet file => exact .setFinished p file
  | finishedSet file => exact .close p file
  | sent => exact .receive p
  | inserted => exact .setFlag p
  | flagged => exact .fork p
  | deleting children =>
    cases children with
    | nil => exact .goOn p
    | cons i children => exact .delete p i children

/-- Every step of a process is one of `Trans`. -/
theorem procStep_trans {p : Proc} {o : Outcome} (h : procStep selectSql env st p = some o) :
    Trans selectSql env st p o := by
  cases p with
  | scanStart site =>
    rw [procStep, Option.some.injEq] at h
    exact h ▸ .startScan site
  | scanRead site nodeNum nodes =>
    rw [procStep] at h
    by_cases hlt : nodes.length < nodeNum
    · rw [if_pos hlt, Option.some.injEq] at h
      exact h ▸ .readNode site nodeNum nodes hlt
    · rw [if_neg hlt, Option.some.injEq] at h
      exact h ▸ .endScan site nodeNum nodes (Nat.le_of_not_lt hlt)
  | execute site plan todo =>
    cases todo with
    | nil =>
      rw [procStep, Option.some.injEq] at h
      exact h ▸ .finish site plan
    | cons i rest => exact executeStep_trans h
  | push p phase =>
    rw [procStep, Option.some.injEq] at h
    exact h ▸ pushStep_trans p phase

end EasyDDB.Execution
