import EasyDDB.Catalog.Parse

/-! # Loading the catalog

`getTables` over point reads of etcd: `get key` is the value under a key, the empty text where there is none.  The
documented layout is the predicate `Stored`, which says what the reads give for a catalog. -/
namespace EasyDDB.Catalog
open Strings
set_option autoImplicit false

/-! ## The loader -/

/-- `string2list` -/
def string2list (inputStr : List Char) : List (List Char) := getlines ',' inputStr

/-- `"/table/" + x + "/" + field` -/
def tableKey (x : List Char) (field : String) : List Char := "/table/".toList ++ x ++ '/' :: field.toList

/-- `"/table/" + x + "/fragment/" + to_string(i) + "/" + field` -/
def fragmentKey (x : List Char) (i : Nat) (field : String) : List Char :=
  "/table/".toList ++ x ++ "/fragment/".toList ++ numeral i ++ '/' :: field.toList

section
variable (overflow : List Char → Int) (get : List Char → List Char)

/-- The schema a text stands for: the source distinguishes `"hf"` from everything else. -/
def schemaOf (type : List Char) : Schema := if type = "hf".toList then .hf else .vf

/-- One round of the inner loop.  `Fragment` has no size here. -/
def getFragment (x type : List Char) (i : Nat) : Fragment where
  fname := ⟨String.ofList x, 1⟩
  site := atoi (get (fragmentKey x i "pos"))
  type := schemaOf type
  size := 0
  hfCondition :=
    if type = "hf".toList then (string2list (get (fragmentKey x i "conditions"))).map (Condition.ofText overflow)
    else []
  vfColumn :=
    if type = "hf".toList then [] else (string2list (get (fragmentKey x i "columns"))).map String.ofList

/-- One round of the outer loop. -/
def getTable (x : List Char) : MetadataTable :=
  let type := get (tableKey x "schema")
  let fragNum := (atoi (get (tableKey x "fragment_num"))).toNat
  { name := String.ofList x
    type := schemaOf type
    keyColumn := String.ofList (get (tableKey x "key"))
    attrs := (string2list (get (tableKey x "attr"))).map String.ofList
    frags := (List.range fragNum).map fun i => getFragment overflow get x type (i + 1) }

/-- The outer loop, with its counter. -/
def getTablesFrom : Nat → List (List Char) → List MetadataTable
  | _, [] => []
  | cnt, x :: tab => if cnt + 1 > 1 then [] else getTable overflow get x :: getTablesFrom (cnt + 1) tab

/-- `getTables` -/
def getTables : List MetadataTable := getTablesFrom overflow get 0 (string2list (get "/table".toList))

end

/-! ## Catalogs and their layout -/

/-- A name or condition as it can stand in a list of etcd. -/
abbrev Item := { t : List Char // ',' ∉ t ∧ t ≠ [] }

/-- A fragment with its conditions or its columns. -/
structure CatalogFragment where
  site : Int
  items : List Item

structure CatalogTable where
  name : Item
  type : Schema
  key : Item
  attrs : List Item
  frags : List CatalogFragment

def itemList (items : List Item) : List Char := [','].intercalate (items.map Subtype.val)

def schemaText : Schema → List Char
  | .hf => "hf".toList
  | .vf => "vf".toList

def itemsField : Schema → String
  | .hf => "conditions"
  | .vf => "columns"

/-- The documented keys of a table. -/
structure StoredTable (get : List Char → List Char) (T : CatalogTable) : Prop where
  attr : get (tableKey T.name "attr") = itemList T.attrs
  key : get (tableKey T.name "key") = T.name ++ '.' :: T.key
  schema : get (tableKey T.name "schema") = schemaText T.type
  fragmentNum : get (tableKey T.name "fragment_num") = toText T.frags.length
  pos : ∀ (i : Nat) F, T.frags[i]? = some F → get (fragmentKey T.name (i + 1) "pos") = toText F.site
  items : ∀ (i : Nat) F, T.frags[i]? = some F →
    get (fragmentKey T.name (i + 1) (itemsField T.type)) = itemList F.items

structure Stored (get : List Char → List Char) (cat : List CatalogTable) : Prop where
  tables : get "/table".toList = itemList (cat.map CatalogTable.name)
  table : ∀ T ∈ cat, StoredTable get T

section
variable (overflow : List Char → Int)

def CatalogFragment.toFragment (table : String) (type : Schema) (num : Int) (F : CatalogFragment) : Fragment where
  fname := ⟨table, num⟩
  site := F.site
  type := type
  size := 0
  hfCondition := if type = .hf then F.items.map fun item => Condition.ofText overflow item.1 else []
  vfColumn := if type = .hf then [] else F.items.map fun item => String.ofList item.1

/-- A table with the given key column and numbering of its fragments. -/
def CatalogTable.toTable (T : CatalogTable) (keyColumn : List Char) (num : Nat → Int) : MetadataTable where
  name := String.ofList T.name
  type := T.type
  keyColumn := String.ofList keyColumn
  attrs := T.attrs.map fun item => String.ofList item.1
  frags := T.frags.zipIdx.map fun F => F.1.toFragment overflow (String.ofList T.name) T.type (num F.2)

/-- The table the planner needs: an unqualified key and fragments numbered from 1. -/
def CatalogTable.metadata (T : CatalogTable) : MetadataTable := T.toTable overflow T.key fun i => i + 1

/-- The table as it is loaded: the key is qualified and every fragment has the number 1. -/
def CatalogTable.loaded (T : CatalogTable) : MetadataTable :=
  T.toTable overflow (T.name ++ '.' :: T.key) fun _ => 1

end

/-! ## What is loaded -/

section
variable {overflow : List Char → Int} {get : List Char → List Char}

theorem string2list_itemList (items : List Item) : string2list (itemList items) = items.map Subtype.val := by
  refine getlines_intercalate fun piece hpiece => ?_
  obtain ⟨item, -, rfl⟩ := List.mem_map.1 hpiece
  exact item.2

theorem schemaOf_schemaText (s : Schema) : schemaOf (schemaText s) = s := by
  cases s <;> rfl

theorem getFragment_stored {T : CatalogTable} (h : StoredTable get T) {i : Nat} {F : CatalogFragment}
    (hF : T.frags[i]? = some F) :
    getFragment overflow get T.name (schemaText T.type) (i + 1) =
      F.toFragment overflow (String.ofList T.name) T.type 1 := by
  have hitems := h.items i F hF
  unfold getFragment CatalogFragment.toFragment
  rw [h.pos i F hF, atoi_toText, schemaOf_schemaText]
  cases htype : T.type with
  | hf =>
    rw [htype, itemsField] at hitems
    simp [schemaText, hitems, string2list_itemList]
  | vf =>
    rw [htype, itemsField] at hitems
    simp [schemaText, hitems, string2list_itemList]

theorem getTable_stored {T : CatalogTable} (h : StoredTable get T) :
    getTable overflow get T.name = T.loaded overflow := by
  have hfrags : (List.range T.frags.length).map
      (fun i => getFragment overflow get T.name (schemaText T.type) (i + 1)) =
        T.frags.zipIdx.map fun F => F.1.toFragment overflow (String.ofList T.name) T.type 1 := by
    refine List.ext_getElem (by simp) fun i hi hi' => ?_
    have hlt : i < T.frags.length := by simpa using hi
    simp only [List.getElem_map, List.getElem_range, List.getElem_zipIdx]
    exact getFragment_stored h (List.getElem?_eq_getElem hlt)
  simp only [getTable, h.schema, h.fragmentNum, h.key, h.attr, atoi_toText, Int.toNat_natCast, hfrags,
    schemaOf_schemaText, string2list_itemList, CatalogTable.loaded, CatalogTable.toTable, List.map_map,
    Function.comp_def]

/-- The loop is left before the second table. -/
theorem getTables_stored {cat : List CatalogTable} (h : Stored get cat) :
    getTables overflow get = (cat.take 1).map fun T => T.loaded overflow := by
  rw [getTables, h.tables, string2list_itemList]
  cases cat with
  | nil => rfl
  | cons T rest =>
    have hrest : ∀ tab, getTablesFrom overflow get 1 tab = [] := by
      intro tab
      cases tab with
      | nil => rfl
      | cons x tab => rfl
    simp only [List.map_cons, getTablesFrom, Nat.zero_add, gt_iff_lt, Nat.lt_irrefl, if_false, hrest,
      getTable_stored (h.table T (List.mem_cons_self ..)), List.take_succ_cons, List.take_zero, List.map_nil]

theorem loaded_ne_metadata (T : CatalogTable) : T.loaded overflow ≠ T.metadata overflow := by
  intro h
  have hkey : (T.name ++ '.' :: T.key : List Char) = T.key :=
    String.ofList_injective (congrArg MetadataTable.keyColumn h)
  have hlength := congrArg List.length hkey
  simp only [List.length_append, List.length_cons] at hlength
  omega

/-- Of a stored catalog the first table is loaded, with its key as it is stored and all its fragments under one
name; so only the catalog without tables is read back. -/
theorem catalog_read_back_iff {cat : List CatalogTable} (h : Stored get cat) :
    getTables overflow get = (cat.take 1).map (fun T => T.loaded overflow) ∧
      (getTables overflow get = cat.map (fun T => T.metadata overflow) ↔ cat = []) := by
  refine ⟨getTables_stored h, ?_⟩
  rw [getTables_stored h]
  cases cat with
  | nil => simp
  | cons T rest =>
    simp only [List.take_succ_cons, List.take_zero, List.map_cons, List.map_nil, List.cons.injEq, reduceCtorEq,
      iff_false, not_and]
    exact fun heq => absurd heq (loaded_ne_metadata T)

end

/-! ## A catalog of two tables -/

def item (s : String) (h : ',' ∉ s.toList ∧ s.toList ≠ [] := by decide) : Item := ⟨s.toList, h⟩

/-- `Publisher` with the first two fragments of `putTables`. -/
def publisherEntry : CatalogTable where
  name := item "Publisher"
  type := .hf
  key := item "id"
  attrs := [item "Publisher.id", item "Publisher.nation"]
  frags := [⟨1, [item "Publisher.id<104000", item "Publisher.nation=PRC"]⟩,
    ⟨2, [item "Publisher.id<104000", item "Publisher.nation=USA"]⟩]

def customerEntry : CatalogTable where
  name := item "Customer"
  type := .vf
  key := item "id"
  attrs := [item "Customer.id", item "Customer.name"]
  frags := [⟨1, [item "Customer.id", item "Customer.name"]⟩]

def catalogKeys : List (String × String) :=
  [("/table", "Publisher,Customer"),
    ("/table/Publisher/attr", "Publisher.id,Publisher.nation"), ("/table/Publisher/key", "Publisher.id"),
    ("/table/Publisher/schema", "hf"), ("/table/Publisher/fragment_num", "2"),
    ("/table/Publisher/fragment/1/pos", "1"), ("/table/Publisher/fragment/2/pos", "2"),
    ("/table/Publisher/fragment/1/conditions", "Publisher.id<104000,Publisher.nation=PRC"),
    ("/table/Publisher/fragment/2/conditions", "Publisher.id<104000,Publisher.nation=USA"),
    ("/table/Customer/attr", "Customer.id,Customer.name"), ("/table/Customer/key", "Customer.id"),
    ("/table/Customer/schema", "vf"), ("/table/Customer/fragment_num", "1"),
    ("/table/Customer/fragment/1/pos", "1"), ("/table/Customer/fragment/1/columns", "Customer.id,Customer.name")]

def getKey (key : List Char) : List Char := ((catalogKeys.lookup (String.ofList key)).getD "").toList

theorem storedTable_of_zipIdx {get : List Char → List Char} {T : CatalogTable}
    (hattr : get (tableKey T.name "attr") = itemList T.attrs)
    (hkey : get (tableKey T.name "key") = T.name ++ '.' :: T.key)
    (hschema : get (tableKey T.name "schema") = schemaText T.type)
    (hnum : get (tableKey T.name "fragment_num") = toText T.frags.length)
    (hfrags : ∀ F ∈ T.frags.zipIdx, get (fragmentKey T.name (F.2 + 1) "pos") = toText F.1.site ∧
      get (fragmentKey T.name (F.2 + 1) (itemsField T.type)) = itemList F.1.items) : StoredTable get T :=
  ⟨hattr, hkey, hschema, hnum, fun i F hF => (hfrags (F, i) (List.mem_zipIdx_iff_getElem?.2 hF)).1,
    fun i F hF => (hfrags (F, i) (List.mem_zipIdx_iff_getElem?.2 hF)).2⟩

theorem catalogKeys_stored : Stored getKey [publisherEntry, customerEntry] where
  tables := by decide +kernel
  table := by
    intro T hT
    simp only [List.mem_cons, List.not_mem_nil, or_false] at hT
    obtain rfl | rfl := hT
    · exact storedTable_of_zipIdx (by decide +kernel) (by decide +kernel) (by decide +kernel) (by decide +kernel)
        (by decide +kernel)
    · exact storedTable_of_zipIdx (by decide +kernel) (by decide +kernel) (by decide +kernel) (by decide +kernel)
        (by decide +kernel)

theorem catalogKeys_not_read_back : Stored getKey [publisherEntry, customerEntry] ∧
    getTables (fun _ => 0) getKey ≠ [publisherEntry.metadata fun _ => 0, customerEntry.metadata fun _ => 0] := by
  refine ⟨catalogKeys_stored, fun h => ?_⟩
  exact List.cons_ne_nil _ _ ((catalog_read_back_iff catalogKeys_stored).2.1 h)

/-- Only `Publisher` is loaded, with a qualified key and twice the same fragment name. -/
theorem catalogKeys_loaded : ∃ T, getTables (fun _ => 0) getKey = [T] ∧ T.keyColumn = "Publisher.id" ∧
    T.frags.map Fragment.fname = [⟨"Publisher", 1⟩, ⟨"Publisher", 1⟩] ∧
    getTables (fun _ => 0) getKey ≠ [publisherEntry.metadata fun _ => 0, customerEntry.metadata fun _ => 0] := by
  have hloaded : getTables (fun _ => 0) getKey = [publisherEntry.loaded fun _ => 0] :=
    getTables_stored catalogKeys_stored
  refine ⟨publisherEntry.loaded fun _ => 0, hloaded, rfl, rfl, fun h => ?_⟩
  rw [hloaded] at h
  exact absurd (congrArg List.length h) (by decide)

end EasyDDB.Catalog
