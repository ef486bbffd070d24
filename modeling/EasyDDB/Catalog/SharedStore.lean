import EasyDDB.Catalog.Loader
import EasyDDB.Catalog.Requests
import EasyDDB.Execution.SavedPlan
import EasyDDB.Lib.Bags

/-! # One store for the catalog and the plans

`putTables` writes the catalog to the etcd that also keeps the plans. A plan that is saved leaves the catalog alone, but
not every field of it is kept: a server that refuses texts that are not Base64 stores nothing of a text of more than 54
bytes, and the field of an earlier plan is read in its place. -/
namespace EasyDDB.Etcd
open Strings
set_option autoImplicit false

/-! ## Texts as bytes -/

def toBytes (text : List Char) : Bytes := text.map fun c => UInt8.ofNat c.toNat

def ofBytes (bytes : Bytes) : List Char := bytes.map fun b => Char.ofNat b.toNat

/-- Every character is a byte other than zero. -/
def ByteText (text : List Char) : Prop := ∀ c ∈ text, 0 < c.toNat ∧ c.toNat < 256

instance (text : List Char) : Decidable (ByteText text) := List.decidableBAll _ text

theorem ofBytes_toBytes {text : List Char} (h : ByteText text) : ofBytes (toBytes text) = text := by
  rw [ofBytes, toBytes, List.map_map]
  refine (List.map_congr_left fun c hc => ?_).trans (List.map_id text)
  simp only [Function.comp_apply, UInt8.toNat_ofNat', id_eq]
  rw [Nat.mod_eq_of_lt (h c hc).2, Char.ofNat_toNat]

theorem toBytes_inj {s t : List Char} (hs : ByteText s) (ht : ByteText t) : toBytes s = toBytes t ↔ s = t := by
  refine ⟨fun h => ?_, fun h => h ▸ rfl⟩
  rw [← ofBytes_toBytes hs, h, ofBytes_toBytes ht]

theorem toBytes_eq_nil {text : List Char} : toBytes text = [] ↔ text = [] := List.map_eq_nil_iff

theorem zero_notMem_toBytes {text : List Char} (h : ByteText text) : 0 ∉ toBytes text := by
  intro hmem
  obtain ⟨c, hc, hzero⟩ := List.mem_map.mp hmem
  have hnat := congrArg UInt8.toNat hzero
  rw [UInt8.toNat_ofNat', Nat.mod_eq_of_lt (h c hc).2] at hnat
  exact absurd hnat (h c hc).1.ne'

@[simp]
theorem length_toBytes (text : List Char) : (toBytes text).length = text.length := List.length_map ..

/-! ## Reading behind writing -/

/-- `etcd_set` on one key and value after the other. -/
def setTexts (transport : Transport) (server : Server) (junk : Junk) (puts : List (List Char × List Char))
    (pairs : Pairs) : Option Pairs :=
  (puts.map fun p => (toBytes p.1, toBytes p.2)).foldlM (putThrough transport server junk) pairs

theorem setTexts_append (transport : Transport) (server : Server) (junk : Junk) (puts puts' : List (List Char × List Char))
    (pairs : Pairs) :
    setTexts transport server junk (puts ++ puts') pairs =
      (setTexts transport server junk puts pairs).bind (setTexts transport server junk puts') := by
  rw [setTexts, List.map_append, List.foldlM_append]
  rfl

/-- `etcd_get` -/
def getText (transport : Transport) (server : Server) (junk : Junk) (pairs : Pairs) (key : List Char) :
    Option (List Char) :=
  (getThrough transport server junk pairs (toBytes key)).map ofBytes

/-- The values that are put under a key and fit one line. -/
def stored (puts : List (List Char × List Char)) (key : List Char) : List (List Char) :=
  (puts.filter fun p => p.1 = key ∧ p.2.length ≤ 54).map Prod.snd

theorem stored_append (puts puts' : List (List Char × List Char)) (key : List Char) :
    stored (puts ++ puts') key = stored puts key ++ stored puts' key := by
  rw [stored, List.filter_append, List.map_append]
  rfl

theorem stored_flatMap {α : Type} (l : List α) (f : α → List (List Char × List Char)) (key : List Char) :
    stored (l.flatMap f) key = l.flatMap fun a => stored (f a) key := by
  induction l with
  | nil => rfl
  | cons a l ih => rw [List.flatMap_cons, List.flatMap_cons, stored_append, ih]

/-- A put text can be sent: it has no zero byte, and the request fits the array. -/
def Sendable (p : List Char × List Char) : Prop :=
  ByteText p.1 ∧ ByteText p.2 ∧ requestLength p.1.length p.2.length < 1024

instance (p : List Char × List Char) : Decidable (Sendable p) := inferInstanceAs (Decidable (_ ∧ _ ∧ _))

section
variable (transport : Transport) {server : Server} {junk : Junk} {pairs : Pairs} {puts : List (List Char × List Char)}
  {key : List Char}

theorem OneLined.etcdSet (hstrict : server.Strict) (h : OneLined pairs) {key value : Bytes} (hkey : 0 ∉ key)
    (hvalue : 0 ∉ value) : OneLined (etcdSet junk server pairs (key, value)) := by
  rw [etcdSet_any hstrict junk pairs hkey hvalue]
  split
  · next hfit =>
    intro k v hkv
    by_cases hk : k = key
    · subst hk
      rw [Function.update_self, Option.some.injEq] at hkv
      exact ⟨hfit.1, hkv ▸ hfit.2⟩
    · rw [Function.update_of_ne hk] at hkv
      exact h k v hkv
  · exact h

/-- The last value under the key is the one that is kept. -/
theorem setTexts_run (hstrict : server.Strict) (hanswers : server.ShortAnswers) (hputs : ∀ p ∈ puts, Sendable p)
    (hpairs : OneLined pairs) :
    ∃ pairs', setTexts transport server junk puts pairs = some pairs' ∧ OneLined pairs' ∧
      ∀ key, ByteText key → key.length ≤ 54 →
        pairs' (toBytes key) = ((stored puts key).getLast?.map toBytes).or (pairs (toBytes key)) := by
  have hrun : setTexts transport server junk puts pairs =
      some ((puts.map fun p => (toBytes p.1, toBytes p.2)).foldl (Etcd.etcdSet junk server) pairs) := by
    refine puts_run transport junk hanswers ?_ ?_ pairs
    · rintro _ hmem
      obtain ⟨p, hp, rfl⟩ := List.mem_map.mp hmem
      exact ⟨zero_notMem_toBytes (hputs p hp).1, zero_notMem_toBytes (hputs p hp).2.1⟩
    · rintro _ hmem
      obtain ⟨p, hp, rfl⟩ := List.mem_map.mp hmem
      simpa using (hputs p hp).2.2
  refine ⟨_, hrun, ?_⟩
  clear hrun
  induction puts using List.reverseRecOn with
  | nil => exact ⟨hpairs, fun key _ _ => rfl⟩
  | append_singleton puts p ih =>
    obtain ⟨hlined, ih⟩ := ih fun q hq => hputs q (List.mem_append_left _ hq)
    obtain ⟨hkey, hvalue, -⟩ := hputs p (List.mem_append_right _ (List.mem_singleton_self p))
    have hkey0 := zero_notMem_toBytes hkey
    have hvalue0 := zero_notMem_toBytes hvalue
    rw [List.map_append, List.foldl_append, List.map_singleton, List.foldl_cons, List.foldl_nil]
    refine ⟨hlined.etcdSet hstrict hkey0 hvalue0, fun key hbytes hshort => ?_⟩
    rw [etcdSet_any hstrict junk _ hkey0 hvalue0, stored_append, length_toBytes, length_toBytes]
    by_cases hp : p.1 = key ∧ p.2.length ≤ 54
    · have hone : stored [p] key = [p.2] := by simp [stored, hp.1, hp.2]
      obtain ⟨rfl, hfit⟩ := hp
      rw [if_pos ⟨hshort, hfit⟩, Function.update_self, hone, List.getLast?_concat]
      rfl
    · have hnone : stored [p] key = [] := by simp [stored, hp]
      rw [hnone, List.append_nil, ← ih key hbytes hshort]
      split
      · next hfit =>
        refine Function.update_of_ne (fun heq => hp ⟨?_, hfit.2⟩) _ _
        exact ((toBytes_inj hbytes hkey).mp heq).symm
      · rfl

theorem getText_eq (hstrict : server.Strict) (hanswers : server.ShortAnswers) (hpairs : OneLined pairs)
    (hkey : ByteText key) (hshort : key.length ≤ 54) :
    getText transport server junk pairs key =
      some (match pairs (toBytes key) with
        | none => []
        | some value => if value = [] then ofBytes (decodeBase64 junk ['u', 'l']) else ofBytes value) := by
  have hrequest : requestLength key.length 0 < 1024 := by
    rw [requestLength, if_pos rfl, encodedLength]
    omega
  rw [getText, getThrough_eq transport junk hstrict hanswers (zero_notMem_toBytes hkey) hpairs, length_toBytes,
    if_pos hrequest, Option.map_some]
  cases pairs (toBytes key) with
  | none => rfl
  | some value =>
    dsimp only
    split <;> rfl

/-- What is read behind some `etcd_set`s: the last value that fits one line, or what was there before. -/
theorem setTexts_read (hstrict : server.Strict) (hanswers : server.ShortAnswers) (hputs : ∀ p ∈ puts, Sendable p)
    (hpairs : OneLined pairs) :
    ∃ pairs', setTexts transport server junk puts pairs = some pairs' ∧
      ∀ key, ByteText key → key.length ≤ 54 →
        (stored puts key = [] → pairs' (toBytes key) = pairs (toBytes key)) ∧
        getText transport server junk pairs' key =
          match (stored puts key).getLast? with
          | some value => some (if value = [] then ofBytes (decodeBase64 junk ['u', 'l']) else value)
          | none => getText transport server junk pairs key := by
  obtain ⟨pairs', hrun, hlined, hread⟩ := setTexts_run transport hstrict hanswers hputs hpairs
  refine ⟨pairs', hrun, fun key hkey hshort => ⟨fun hnone => ?_, ?_⟩⟩
  · rw [hread key hkey hshort, hnone]
    rfl
  rw [getText_eq transport hstrict hanswers hlined hkey hshort, getText_eq transport hstrict hanswers hpairs hkey hshort,
    hread key hkey hshort]
  cases hlast : (stored puts key).getLast? with
  | none => rfl
  | some value =>
    obtain ⟨p, hp, rfl⟩ := List.mem_map.mp (List.mem_of_getLast? hlast)
    have hbytes : ByteText p.2 := (hputs p (List.mem_filter.mp hp).1).2.1
    simp only [Option.map_some, Option.some_or, toBytes_eq_nil, ofBytes_toBytes hbytes]

end

/-! ## Plans -/

open Execution (AugPlanNode AugmentedPlan nodeKey savedField IsField)

/-- The `etcd_set`s of one round of `save_plan_to_etcd`. -/
def nodeTexts (i : Nat) (node : AugPlanNode) : List (List Char × List Char) :=
  [(nodeKey i "parent_id", toText node.parentId), (nodeKey i "execute_site", node.executeSite.toList),
    (nodeKey i "sql", node.sql.toList), (nodeKey i "savesql", node.savesql.toList),
    (nodeKey i "is_finished", toText node.isFinished)]

/-- The `etcd_set`s of `save_plan_to_etcd`. -/
def planTexts (plan : AugmentedPlan) : List (List Char × List Char) :=
  ("node_num".toList, toText plan.length) :: plan.zipIdx.flatMap fun p => nodeTexts p.2 p.1

/-- `save_plan_to_etcd` through the arrays of `etcd_opt` -/
def savePlan (transport : Transport) (server : Server) (junk : Junk) (pairs : Pairs) (plan : AugmentedPlan) :
    Option Pairs :=
  setTexts transport server junk (planTexts plan) pairs

theorem savePlans_eq (transport : Transport) (server : Server) (junk : Junk) (plans : List AugmentedPlan)
    (pairs : Pairs) :
    plans.foldlM (savePlan transport server junk) pairs =
      setTexts transport server junk (plans.flatMap planTexts) pairs := by
  induction plans generalizing pairs with
  | nil => rfl
  | cons plan plans ih =>
    rw [List.foldlM_cons, List.flatMap_cons, setTexts_append, Option.bind_eq_bind]
    exact Option.bind_congr fun pairs' _ => ih pairs'

theorem savePlanToEtcd_eq (plan : AugmentedPlan) (e : Execution.KeyValue) :
    Execution.savePlanToEtcd plan e = (planTexts plan).foldl (fun e p => Execution.etcdSet e p.1 p.2) e := by
  rw [Execution.savePlanToEtcd, planTexts, List.foldl_cons, List.foldl_flatMap]
  rfl

/-- The fields of a node that `save_plan_to_etcd` writes or `get_plan_from_etcd` reads. -/
def nodeFields : List String := ["parent_id", "execute_site", "sql", "savesql", "save_sql", "is_finished"]

theorem stored_nodeTexts (i j : Nat) (node : AugPlanNode) {field : String} (hfield : field ∈ nodeFields) :
    stored (nodeTexts i node) (nodeKey j field) =
      if i = j then (savedField node field).toList.filter fun value => value.length ≤ 54 else [] := by
  have hfields : ∀ f ∈ nodeFields, IsField f := by decide
  have hkey : ∀ f ∈ nodeFields, nodeKey i f = nodeKey j field ↔ i = j ∧ f = field := fun f hf =>
    Execution.nodeKey_inj (hfields f hf) (hfields field hfield)
  simp only [nodeFields, List.forall_mem_cons, List.not_mem_nil, false_implies, implies_true, and_true] at hkey
  obtain ⟨hparent, hsite, hsql, hsave, -, hflag⟩ := hkey
  simp only [stored, nodeTexts, List.filter_cons, List.filter_nil, hparent, hsite, hsql, hsave, hflag]
  by_cases hij : i = j
  · simp only [hij, true_and, if_true]
    simp only [nodeFields, List.mem_cons, List.not_mem_nil, or_false] at hfield
    obtain rfl | rfl | rfl | rfl | rfl | rfl := hfield <;>
      simp [savedField, List.filter_cons, apply_ite (List.map Prod.snd)]
  · simp [hij]

theorem stored_planTexts (plan : AugmentedPlan) (j : Nat) {field : String} (hfield : field ∈ nodeFields) :
    stored (planTexts plan) (nodeKey j field) =
      ((plan[j]?).bind fun node => savedField node field).toList.filter fun value => value.length ≤ 54 := by
  have hnum : nodeKey j field ≠ "node_num".toList := Execution.nodeKey_ne (by decide)
  have hhead : ∀ value, stored [("node_num".toList, value)] (nodeKey j field) = [] := by
    intro value
    rw [stored, List.filter_cons_of_neg fun h => hnum (of_decide_eq_true h).1.symm]
    rfl
  rw [planTexts, ← List.singleton_append, stored_append, hhead, List.nil_append, stored_flatMap,
    List.flatMap_congr fun p _ => stored_nodeTexts p.2 j p.1 hfield,
    Bags.flatMap_zipIdx_at plan fun node => (savedField node field).toList.filter fun value => value.length ≤ 54]
  cases plan[j]? <;> rfl

theorem byteText_nodeKey (i : Nat) {field : String} (hfield : field ∈ nodeFields) : ByteText (nodeKey i field) := by
  have hfields : ∀ f ∈ nodeFields, ByteText f.toList := by decide
  intro c hc
  obtain hc | hc := List.mem_append.mp hc
  · have hdigit := isDigit_of_mem_numeral hc
    simp only [Char.isDigit, Bool.and_eq_true, decide_eq_true_eq] at hdigit
    have hlow : 48 ≤ c.toNat := UInt32.le_iff_toNat_le.mp hdigit.1
    have hhigh : c.toNat ≤ 57 := UInt32.le_iff_toNat_le.mp hdigit.2
    omega
  · exact hfields field hfield c hc

theorem sendable_plans {plans : List AugmentedPlan} (h : ∀ plan ∈ plans, ∀ p ∈ planTexts plan, Sendable p) :
    ∀ p ∈ plans.flatMap planTexts, Sendable p := by
  intro p hp
  obtain ⟨plan, hplan, hp⟩ := List.mem_flatMap.mp hp
  exact h plan hplan p hp

section
open Catalog
variable (overflow : List Char → Int) (get : List Char → Option (List Char))

/-- One round of the inner loop of `getTables`, where a read may leave the arrays. -/
def loadFragment (x type : List Char) (i : Nat) : Option Fragment := do
  let pos ← get (fragmentKey x i "pos")
  if type = "hf".toList then
    let cons ← get (fragmentKey x i "conditions")
    some { fname := ⟨String.ofList x, 1⟩, site := atoi pos, type := schemaOf type, size := 0
           hfCondition := (string2list cons).map (Condition.ofText overflow), vfColumn := [] }
  else
    let columns ← get (fragmentKey x i "columns")
    some { fname := ⟨String.ofList x, 1⟩, site := atoi pos, type := schemaOf type, size := 0
           hfCondition := [], vfColumn := (string2list columns).map String.ofList }

/-- One round of the outer loop. -/
def loadTable (x : List Char) : Option MetadataTable := do
  let key ← get (tableKey x "key")
  let type ← get (tableKey x "schema")
  let attr ← get (tableKey x "attr")
  let fragNum ← get (tableKey x "fragment_num")
  let frags ← (List.range (atoi fragNum).toNat).mapM fun i => loadFragment overflow get x type (i + 1)
  some { name := String.ofList x, type := schemaOf type, keyColumn := String.ofList key
         attrs := (string2list attr).map String.ofList, frags := frags }

/-- The outer loop, with its counter. -/
def loadTablesFrom : Nat → List (List Char) → Option (List MetadataTable)
  | _, [] => some []
  | cnt, x :: tab =>
    if cnt + 1 > 1 then some []
    else do
      let table ← loadTable overflow get x
      let rest ← loadTablesFrom (cnt + 1) tab
      some (table :: rest)

/-- `getTables` through the arrays of `etcd_opt` -/
def loadTables : Option (List MetadataTable) := do
  let tab ← get "/table".toList
  loadTablesFrom overflow get 0 (string2list tab)

end

section
open Catalog
variable {overflow : List Char → Int} {get get' : List Char → Option (List Char)}

/-- Where every read is defined, this is the loader over point reads. -/
theorem loadTables_some (overflow : List Char → Int) (get : List Char → List Char) :
    loadTables overflow (fun key => some (get key)) = some (getTables overflow get) := by
  have hfrag : ∀ x type i, loadFragment overflow (fun key => some (get key)) x type i =
      some (getFragment overflow get x type i) := by
    intro x type i
    simp only [loadFragment, getFragment, Option.bind_eq_bind, Option.bind_some]
    by_cases htype : type = "hf".toList
    · simp only [if_pos htype]
    · simp only [if_neg htype]
  have htable : ∀ x, loadTable overflow (fun key => some (get key)) x = some (getTable overflow get x) := by
    intro x
    simp only [loadTable, getTable, hfrag, Option.bind_eq_bind, Option.bind_some]
    rw [Pointwise.mapM_eq_some_iff.mpr (List.forall₂_map_right_iff.mpr (List.forall₂_same.mpr fun _ _ => rfl))]
    rfl
  have hfrom : ∀ tab cnt, loadTablesFrom overflow (fun key => some (get key)) cnt tab =
      some (getTablesFrom overflow get cnt tab) := by
    intro tab
    induction tab with
    | nil => exact fun _ => rfl
    | cons x tab ih =>
      intro cnt
      simp only [loadTablesFrom, getTablesFrom, htable, ih, Option.bind_eq_bind, Option.bind_some]
      split <;> rfl
  rw [loadTables, Option.bind_eq_bind, Option.bind_some, hfrom]
  rfl

section
variable (hle : ∀ key value, get key = some value → get' key = some value)
include hle

/-- What is loaded does not depend on keys that are not read. -/
theorem loadFragment_mono {x type : List Char} {i : Nat} {F : Fragment}
    (h : loadFragment overflow get x type i = some F) : loadFragment overflow get' x type i = some F := by
  simp only [loadFragment, Option.bind_eq_bind, Option.bind_eq_some_iff] at h ⊢
  obtain ⟨pos, hpos, h⟩ := h
  refine ⟨pos, hle _ _ hpos, ?_⟩
  by_cases htype : type = "hf".toList
  · rw [if_pos htype, Option.bind_eq_some_iff] at h ⊢
    obtain ⟨cons, hcons, h⟩ := h
    exact ⟨cons, hle _ _ hcons, h⟩
  · rw [if_neg htype, Option.bind_eq_some_iff] at h ⊢
    obtain ⟨columns, hcolumns, h⟩ := h
    exact ⟨columns, hle _ _ hcolumns, h⟩

theorem loadTable_mono {x : List Char} {T : MetadataTable} (h : loadTable overflow get x = some T) :
    loadTable overflow get' x = some T := by
  simp only [loadTable, Option.bind_eq_bind, Option.bind_eq_some_iff, Pointwise.mapM_eq_some_iff] at h ⊢
  obtain ⟨key, hkey, type, htype, attr, hattr, num, hnum, frags, hfrags, h⟩ := h
  exact ⟨key, hle _ _ hkey, type, hle _ _ htype, attr, hle _ _ hattr, num, hle _ _ hnum, frags,
    hfrags.imp fun _ _ => loadFragment_mono hle, h⟩

theorem loadTables_mono {tables : List MetadataTable} (h : loadTables overflow get = some tables) :
    loadTables overflow get' = some tables := by
  have hfrom : ∀ tab cnt tables, loadTablesFrom overflow get cnt tab = some tables →
      loadTablesFrom overflow get' cnt tab = some tables := by
    intro tab
    induction tab with
    | nil => exact fun _ _ h => h
    | cons x tab ih =>
      intro cnt tables h
      simp only [loadTablesFrom, Option.bind_eq_bind] at h ⊢
      split at h
      · next hcnt => rw [if_pos hcnt, h]
      · next hcnt =>
        simp only [Option.bind_eq_some_iff] at h
        obtain ⟨table, htable, rest, hrest, h⟩ := h
        rw [if_neg hcnt, loadTable_mono hle htable, Option.bind_some, ih _ _ hrest, Option.bind_some, h]
  simp only [loadTables, Option.bind_eq_bind, Option.bind_eq_some_iff] at h ⊢
  obtain ⟨tab, htab, h⟩ := h
  exact ⟨tab, hle _ _ htab, hfrom _ _ _ h⟩

end

end

/-- The `etcd_opt`s of `putTables` -/
def tableTexts : List (List Char × List Char) :=
  [("/table", "Publisher,customer,book,order"),
    ("/table/Publisher/attr", "Publisher.id,Publisher.name,Publisher.nation"),
    ("/table/Publisher/attr/Publisher.id", "int"),
    ("/table/Publisher/attr/Publisher.name", "string"),
    ("/table/Publisher/attr/Publisher.nation", "string"),
    ("/table/Publisher/key", "Publisher.id"),
    ("/table/Publisher/schema", "hf"),
    ("/table/Publisher/fragment_num", "4"),
    ("/table/Publisher/fragment/1/pos", "1"),
    ("/table/Publisher/fragment/2/pos", "2"),
    ("/table/Publisher/fragment/3/pos", "3"),
    ("/table/Publisher/fragment/4/pos", "4"),
    ("/table/Publisher/fragment/1/conditions", "Publisher.id<104000,Publisher.nation=PRC"),
    ("/table/Publisher/fragment/2/conditions", "Publisher.id<104000,Publisher.nation=USA"),
    ("/table/Publisher/fragment/3/conditions", "Publisher.id>=104000,Publisher.nation=PRC"),
    ("/table/Publisher/fragment/4/conditions", "Publisher.id>=104000,Publisher.nation=USA")].map
    fun p : String × String => (p.1.toList, p.2.toList)

/-- `putTables` -/
def putTables (transport : Transport) (server : Server) (junk : Junk) (pairs : Pairs) : Option Pairs :=
  setTexts transport server junk tableTexts pairs

/-- `Publisher` of `getMetadata` with a qualified key, all its fragments under the number 1 and without sizes. -/
def publisherStored : MetadataTable :=
  { publisher with
    keyColumn := "Publisher.id"
    frags := publisher.frags.map fun F => { F with fname := ⟨"Publisher", 1⟩, size := 0 } }

theorem loadTables_tableTexts (overflow : List Char → Int) :
    loadTables overflow (fun key => tableTexts.lookup key) = some [publisherStored] := by
  rfl

/-- The keys of a plan begin with a digit, but for `node_num`. -/
theorem stored_planTexts_other (plans : List AugmentedPlan) {key : String} (hkey : IsField key)
    (hnum : key ≠ "node_num") : stored (plans.flatMap planTexts) key.toList = [] := by
  rw [stored, List.map_eq_nil_iff, List.filter_eq_nil_iff]
  intro p hp hkeep
  obtain ⟨plan, -, hp⟩ := List.mem_flatMap.mp hp
  have heq : p.1 = key.toList := (of_decide_eq_true hkeep).1
  obtain rfl | hp := List.mem_cons.mp hp
  · exact hnum (String.toList_injective heq).symm
  · obtain ⟨q, -, hq⟩ := List.mem_flatMap.mp hp
    have hnode : ∃ field, p.1 = nodeKey q.2 field := by
      simp only [nodeTexts, List.mem_cons, List.not_mem_nil, or_false] at hq
      obtain rfl | rfl | rfl | rfl | rfl := hq <;> exact ⟨_, rfl⟩
    obtain ⟨field, hfield⟩ := hnode
    exact Execution.nodeKey_ne hkey (hfield ▸ heq)

/-- What `putTables` needs: its keys differ from each other and from those of plans, and every text fits one line. -/
theorem tableTexts_keys : ∀ p ∈ tableTexts, Sendable p ∧ p.1.length ≤ 54 ∧ p.2 ≠ [] ∧ stored tableTexts p.1 = [p.2] ∧
    IsField (String.ofList p.1) ∧ String.ofList p.1 ≠ "node_num" := by
  decide +kernel

end EasyDDB.Etcd
