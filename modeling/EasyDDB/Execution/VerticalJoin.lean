import EasyDDB.Execution.PlanBuilder
import EasyDDB.Lib.Bags

/-! # The statement that rebuilds a vertically fragmented table

The Join node over the fragments of a table reads all of them, but its WHERE clause equates the keys of the first two
only.  Read as a filter on the product of the tables, it is checked here against what the node is for: one combination
for each key that all the fragments have. -/
namespace EasyDDB.Execution
open Optimizer
set_option autoImplicit false

/-! ## Combinations of rows -/

/-- The value of a column in a combination of one row of each table. -/
def ColumnRef.value (ref : ColumnRef) (comb : Comb) : Option Value :=
  (comb.lookup ref.table).bind fun r => r ref.column

/-- The product of the tables of a FROM list. -/
def tableProduct (content : String → List Row) (tables : List String) : List Comb :=
  List.sections (tables.map fun table => (content table).map fun r => (table, r))

/-- What a WHERE clause `left=right` keeps of the product. -/
def whereKept (content : String → List Row) (tables : List String) (left right : ColumnRef) : List Comb :=
  (tableProduct content tables).filter fun comb => sameValue (left.value comb) (right.value comb)

/-- Every row has a key, and no two rows have the same. -/
structure UniqueKey (key : String) (rows : List Row) : Prop where
  present : ∀ r ∈ rows, (r key).isSome = true
  distinct : (rows.map fun r => r key).Nodup

/-- All rows of the combination have the key `k`. -/
def hasKey (key : String) (k : Value) (comb : Comb) : Bool := comb.all fun e => e.2 key = some k

/-- The combinations are the rows of the whole table: each one has one key, and each key that all the tables have comes
once. -/
structure Rebuilds (key : String) (contents : List (List Row)) (combs : List Comb) : Prop where
  same : ∀ comb ∈ combs, ∃ k, hasKey key k comb = true
  once : ∀ k, (∀ rows ∈ contents, ∃ r ∈ rows, r key = some k) → (combs.filter (hasKey key k)).length = 1

section
variable {content : String → List Row} {key : String} {tables : List String} {table t₀ t₁ : String} {comb : Comb}

theorem mem_tableProduct_cons : comb ∈ tableProduct content (table :: tables) ↔
    ∃ r ∈ content table, ∃ rest ∈ tableProduct content tables, comb = (table, r) :: rest := by
  simp only [tableProduct, List.map_cons, List.sections, List.mem_flatMap, List.mem_map, exists_exists_and_eq_and]
  constructor
  · rintro ⟨rest, hrest, r, hr, rfl⟩
    exact ⟨r, hr, rest, hrest, rfl⟩
  · rintro ⟨r, hr, rest, hrest, rfl⟩
    exact ⟨rest, hrest, r, hr, rfl⟩

theorem rows_of_tableProduct (h : comb ∈ tableProduct content tables) :
    (∀ e ∈ comb, ∃ table ∈ tables, e.2 ∈ content table) ∧ ∀ table ∈ tables, content table ≠ [] := by
  induction tables generalizing comb with
  | nil =>
    obtain rfl : comb = [] := by simpa [tableProduct] using h
    simp
  | cons table tables ih =>
    obtain ⟨r, hr, rest, hrest, rfl⟩ := mem_tableProduct_cons.mp h
    obtain ⟨hrows, hfull⟩ := ih hrest
    refine ⟨List.forall_mem_cons.mpr ⟨⟨table, List.mem_cons_self .., hr⟩, fun e he => ?_⟩,
      List.forall_mem_cons.mpr ⟨List.ne_nil_of_mem hr, hfull⟩⟩
    obtain ⟨table', htable', he'⟩ := hrows e he
    exact ⟨table', List.mem_cons_of_mem table htable', he'⟩

/-- The clause looks at the first two rows. -/
theorem mem_whereKept (hne : t₀ ≠ t₁) : comb ∈ whereKept content (t₀ :: t₁ :: tables) ⟨t₀, key⟩ ⟨t₁, key⟩ ↔
    ∃ k, ∃ r₀ ∈ content t₀, ∃ r₁ ∈ content t₁, ∃ rest ∈ tableProduct content tables,
      r₀ key = some k ∧ r₁ key = some k ∧ comb = (t₀, r₀) :: (t₁, r₁) :: rest := by
  have hvalues : ∀ (r₀ r₁ : Row) (rest : Comb),
      ColumnRef.value ⟨t₀, key⟩ ((t₀, r₀) :: (t₁, r₁) :: rest) = r₀ key ∧
        ColumnRef.value ⟨t₁, key⟩ ((t₀, r₀) :: (t₁, r₁) :: rest) = r₁ key := by
    intro r₀ r₁ rest
    have hbeq : (t₁ == t₀) = false := beq_eq_false_iff_ne.mpr hne.symm
    simp [ColumnRef.value, List.lookup_cons, hbeq]
  simp only [whereKept, List.mem_filter, mem_tableProduct_cons]
  constructor
  · rintro ⟨⟨r₀, hr₀, _, ⟨r₁, hr₁, rest, hrest, rfl⟩, rfl⟩, hsame⟩
    obtain ⟨hleft, hright⟩ := hvalues r₀ r₁ rest
    rw [hleft, hright] at hsame
    obtain ⟨k, hk₀, hk₁⟩ := sameValue_iff.mp hsame
    exact ⟨k, r₀, hr₀, r₁, hr₁, rest, hrest, hk₀, hk₁, rfl⟩
  · rintro ⟨k, r₀, hr₀, r₁, hr₁, rest, hrest, hk₀, hk₁, rfl⟩
    obtain ⟨hleft, hright⟩ := hvalues r₀ r₁ rest
    refine ⟨⟨r₀, hr₀, _, ⟨r₁, hr₁, rest, hrest, rfl⟩, rfl⟩, ?_⟩
    rw [hleft, hright]
    exact sameValue_iff.mpr ⟨k, hk₀, hk₁⟩

theorem hasKey_iff {k : Value} : hasKey key k comb = true ↔ ∀ e ∈ comb, e.2 key = some k := by
  simp [hasKey]

/-- Tables with unique keys have one combination with a key that all of them have. -/
theorem product_hasKey_once (hkey : ∀ table ∈ tables, UniqueKey key (content table)) {k : Value}
    (hk : ∀ table ∈ tables, ∃ r ∈ content table, r key = some k) :
    ((tableProduct content tables).filter (hasKey key k)).length = 1 := by
  unfold tableProduct hasKey
  rw [Bags.filter_all_sections]
  refine Bags.length_sections_eq_one fun L hL => ?_
  simp only [List.map_map, List.mem_map, Function.comp_apply] at hL
  obtain ⟨table, htable, rfl⟩ := hL
  obtain ⟨r, hr, hrk⟩ := hk table htable
  have hone := Bags.filter_key_eq (hkey table htable).distinct hr
  rw [List.filter_map, List.length_map]
  simp only [hrk, eq_comm (a := some k)] at hone
  simp [Function.comp_def, hone]

theorem whereKept_once (hne : t₀ ≠ t₁) (hkey : ∀ table ∈ t₀ :: t₁ :: tables, UniqueKey key (content table)) {k : Value}
    (hk : ∀ table ∈ t₀ :: t₁ :: tables, ∃ r ∈ content table, r key = some k) :
    ((whereKept content (t₀ :: t₁ :: tables) ⟨t₀, key⟩ ⟨t₁, key⟩).filter (hasKey key k)).length = 1 := by
  rw [← product_hasKey_once hkey hk, whereKept, List.filter_filter]
  congr 1
  refine List.filter_congr fun comb hcomb => ?_
  by_cases hall : hasKey key k comb = true
  · have hkept : comb ∈ whereKept content (t₀ :: t₁ :: tables) ⟨t₀, key⟩ ⟨t₁, key⟩ := by
      obtain ⟨r₀, hr₀, _, htail, rfl⟩ := mem_tableProduct_cons.mp hcomb
      obtain ⟨r₁, hr₁, rest, hrest, rfl⟩ := mem_tableProduct_cons.mp htail
      have hrows := hasKey_iff.mp hall
      have hk₀ : r₀ key = some k := hrows (t₀, r₀) (by simp)
      have hk₁ : r₁ key = some k := hrows (t₁, r₁) (by simp)
      exact (mem_whereKept hne).mpr ⟨k, r₀, hr₀, r₁, hr₁, rest, hrest, hk₀, hk₁, rfl⟩
    rw [hall, (List.mem_filter.mp hkept).2, Bool.and_self]
  · rw [Bool.eq_false_iff.mpr hall, Bool.false_and]

/-- **The clause rebuilds the table exactly if** another table is empty or, for each key that the first two tables
share, all rows of all other tables have that key. -/
theorem rebuilds_iff (hne : t₀ ≠ t₁) (hkey : ∀ table ∈ t₀ :: t₁ :: tables, UniqueKey key (content table)) :
    Rebuilds key ((t₀ :: t₁ :: tables).map content) (whereKept content (t₀ :: t₁ :: tables) ⟨t₀, key⟩ ⟨t₁, key⟩) ↔
      (∃ table ∈ tables, content table = []) ∨
        ∀ k, (∃ r ∈ content t₀, r key = some k) → (∃ r ∈ content t₁, r key = some k) →
          ∀ table ∈ tables, ∀ r ∈ content table, r key = some k := by
  constructor
  · intro h
    refine or_iff_not_imp_left.mpr fun hempty k hk₀ hk₁ table htable r hr => ?_
    obtain ⟨r₀, hr₀, hk₀⟩ := hk₀
    obtain ⟨r₁, hr₁, hk₁⟩ := hk₁
    have hfull : ∀ L ∈ tables.map fun table => (content table).map fun r => (table, r), L ≠ [] := by
      intro L hL hnil
      obtain ⟨table', htable', rfl⟩ := List.mem_map.mp hL
      exact hempty ⟨table', htable', List.map_eq_nil_iff.mp hnil⟩
    obtain ⟨j, hj⟩ := List.getElem?_of_mem (List.mem_map_of_mem htable)
    obtain ⟨rest, hrest, hat⟩ := Bags.exists_section hfull hj (List.mem_map_of_mem hr)
    have hkept := (mem_whereKept hne).mpr ⟨k, r₀, hr₀, r₁, hr₁, rest, hrest, hk₀, hk₁, rfl⟩
    obtain ⟨k', hk'⟩ := h.same _ hkept
    have hrows := hasKey_iff.mp hk'
    have hfirst : r₀ key = some k' := hrows (t₀, r₀) (by simp)
    have hlater : r key = some k' := hrows (table, r) (by simp [List.mem_of_getElem? hat])
    rw [hlater, ← hfirst, hk₀]
  · intro h
    have honce : ∀ k, (∀ rows ∈ (t₀ :: t₁ :: tables).map content, ∃ r ∈ rows, r key = some k) →
        ((whereKept content (t₀ :: t₁ :: tables) ⟨t₀, key⟩ ⟨t₁, key⟩).filter (hasKey key k)).length = 1 :=
      fun k hk => whereKept_once hne hkey fun table htable => hk _ (List.mem_map_of_mem htable)
    refine ⟨fun comb hcomb => ?_, honce⟩
    obtain ⟨k, r₀, hr₀, r₁, hr₁, rest, hrest, hk₀, hk₁, rfl⟩ := (mem_whereKept hne).mp hcomb
    obtain ⟨hrows, hfull⟩ := rows_of_tableProduct hrest
    refine ⟨k, hasKey_iff.mpr ?_⟩
    rw [List.forall_mem_cons, List.forall_mem_cons]
    refine ⟨hk₀, hk₁, fun e he => ?_⟩
    obtain ⟨table, htable, hnil⟩ | h := h
    · exact absurd hnil (hfull table htable)
    · obtain ⟨table, htable, hrow⟩ := hrows e he
      exact h k ⟨r₀, hr₀, hk₀⟩ ⟨r₁, hr₁, hk₁⟩ table htable e.2 hrow

end

/-! ## The Join node of a vertically fragmented table -/

section
variable {nameMap : Int → String} {attrType : String → String} {getStr : Condition → String} {t : Tree} {i : Nat}
  {plan : List Draft} {d : Draft}

theorem tableRead_injective : Function.Injective tableRead := by
  intro c c' h
  exact Strings.numeral_injective (String.ofList_injective h)

theorem transferToAugNode_join {nd : TreeNode} {c₀ c₁ : Nat} {cs : List Nat} (hnd : t.tr[i]? = some nd)
    (htype : nd.type = .join) (hchild : nd.child = c₀ :: c₁ :: cs)
    (hd : transferToAugNode nameMap attrType getStr t i plan = some d) :
    ∃ columns, d.statement = .join columns (nd.child.map tableRead) ⟨tableRead c₀, nd.join.lcol⟩
      ⟨tableRead c₁, nd.join.rcol⟩ := by
  simp only [transferToAugNode, hnd, htype, hchild, Option.bind_eq_bind, Option.bind_some, List.getElem?_cons_zero,
    List.getElem?_cons_succ, Option.bind_eq_some_iff] at hd
  obtain ⟨left, -, columns, -, hd⟩ := hd
  cases hd
  rw [hchild]
  exact ⟨_, rfl⟩

variable {q : Query} {T : MetadataTable} {first : Fragment} {nodes : List TreeNode} {sz : Nat}

theorem vfJoinNode_child_nodup (hsz : nodes.length ≤ sz) : (vfJoinNode q T first nodes sz).child.Nodup := by
  refine List.Nodup.map_on ?_ List.nodup_range
  intro j hj j' hj' heq
  rw [List.mem_range] at hj hj'
  omega

/-- **The Join node over `n ≥ 2` vertical fragments rebuilds their table** exactly if one of the tables behind the
second is empty, or each key that the first two tables share is the key of every row of all the others; so always for two. -/
theorem vertical_join_rebuilds_iff {par : Int} (hn : 2 ≤ nodes.length) (hsz : nodes.length ≤ sz)
    (hnd : t.tr[i]? = some ((vfJoinNode q T first nodes sz).under par))
    (hd : transferToAugNode nameMap attrType getStr t i plan = some d) (content : String → List Row)
    (hkey : ∀ c ∈ (vfJoinNode q T first nodes sz).child, UniqueKey T.keyColumn (content (tableRead c))) :
    ∃ columns tables left right, d.statement = .join columns tables left right ∧
      tables = (vfJoinNode q T first nodes sz).child.map tableRead ∧
      (Rebuilds T.keyColumn (tables.map content) (whereKept content tables left right) ↔
        (∃ table ∈ tables.drop 2, content table = []) ∨
          ∀ k, (∀ table ∈ tables.take 2, ∃ r ∈ content table, r T.keyColumn = some k) →
            ∀ table ∈ tables.drop 2, ∀ r ∈ content table, r T.keyColumn = some k) := by
  have hlen : (vfJoinNode q T first nodes sz).child.length = nodes.length := by simp [vfJoinNode]
  have hnodup : (vfJoinNode q T first nodes sz).child.Nodup := vfJoinNode_child_nodup hsz
  generalize hcs : (vfJoinNode q T first nodes sz).child = cs at hlen hnodup hkey ⊢
  obtain _ | ⟨c₀, _ | ⟨c₁, cs⟩⟩ := cs
  · rw [List.length_nil] at hlen
    omega
  · rw [List.length_singleton] at hlen
    omega
  obtain ⟨columns, hstatement⟩ := transferToAugNode_join hnd rfl hcs hd
  have hchild : ((vfJoinNode q T first nodes sz).under par).child = c₀ :: c₁ :: cs := hcs
  rw [hchild] at hstatement
  refine ⟨columns, _, _, _, hstatement, rfl, ?_⟩
  have hne : tableRead c₀ ≠ tableRead c₁ := by
    intro heq
    have hout := (List.nodup_cons.mp hnodup).1
    rw [tableRead_injective heq] at hout
    exact hout (List.mem_cons_self ..)
  have hkeys : ∀ table ∈ tableRead c₀ :: tableRead c₁ :: cs.map tableRead, UniqueKey T.keyColumn (content table) := by
    simpa using hkey
  refine (rebuilds_iff hne hkeys).trans ?_
  simp

end

/-- A table in three vertical fragments. -/
def threeParts : MetadataTable where
  name := "V"
  type := .vf
  keyColumn := "id"
  frags :=
    [vfFragment "V" 1 10 ["V.id", "V.a"], vfFragment "V" 2 10 ["V.id", "V.b"], vfFragment "V" 3 10 ["V.id", "V.c"]]
  attrs := ["V.id", "V.a", "V.b", "V.c"]

/-- `select V.a, V.b, V.c from V` -/
def allParts : Query where
  fromTable := ["V"]
  selectAttr := ["V.a", "V.b", "V.c"]
  allAttr := ["V.a", "V.b", "V.c"]
  predicate := []
  join := []

/-- Every fragment has the rows with the keys 1 and 2. -/
def twoKeys (_ : String) : List Row := [Row.ofList [("id", .int 1)], Row.ofList [("id", .int 2)]]

theorem twoKeys_unique (table : String) : UniqueKey "id" (twoKeys table) where
  present := by simp [twoKeys, Row.ofList]
  distinct := by simp [twoKeys, Row.ofList]

/-- The statement also joins the rows with the key 1 of two fragments with the row with the key 2 of the third. -/
theorem threeParts_not_rebuilt :
    ∃ t d columns, buildQueryTree [threeParts] allParts = some t ∧
      transferToAugNode (fun _ => "ddb1") (fun _ => "int") (fun _ => "") t 3 [] = some d ∧
      d.statement = .join columns ["2", "1", "0"] ⟨"2", "id"⟩ ⟨"1", "id"⟩ ∧
      (∀ table, UniqueKey "id" (twoKeys table)) ∧
      ¬ Rebuilds "id" (["2", "1", "0"].map twoKeys) (whereKept twoKeys ["2", "1", "0"] ⟨"2", "id"⟩ ⟨"1", "id"⟩) := by
  have hrun : ((buildQueryTree [threeParts] allParts).bind fun t =>
      (transferToAugNode (fun _ => "ddb1") (fun _ => "int") (fun _ => "") t 3 []).map Draft.statement) =
      some (.join [⟨"1", "V.a"⟩, ⟨"1", "V.b"⟩, ⟨"2", "V.c"⟩] ["2", "1", "0"] ⟨"2", "id"⟩ ⟨"1", "id"⟩) := by
    decide +kernel
  obtain ⟨t, ht, hd⟩ := Option.bind_eq_some_iff.mp hrun
  obtain ⟨d, hd, hstatement⟩ := Option.map_eq_some_iff.mp hd
  refine ⟨t, d, _, ht, hd, hstatement, twoKeys_unique, fun h => ?_⟩
  have hcases := (rebuilds_iff (by decide) fun table _ => twoKeys_unique table).mp h
  obtain ⟨table, -, hnil⟩ | hsame := hcases
  · cases hnil
  · have hkey := hsame (.int 1) ⟨_, List.mem_cons_self .., rfl⟩ ⟨_, List.mem_cons_self .., rfl⟩ "0"
      (List.mem_singleton_self _) (Row.ofList [("id", .int 2)]) (by simp [twoKeys])
    exact absurd hkey (by decide)

/-- The first two fragments alone. -/
def twoParts : MetadataTable := { threeParts with frags := threeParts.frags.take 2, attrs := ["V.id", "V.a", "V.b"] }

def bothParts : Query := { allParts with selectAttr := ["V.a", "V.b"], allAttr := ["V.a", "V.b"] }

theorem twoParts_rebuilt :
    ∃ t d columns tables left right, buildQueryTree [twoParts] bothParts = some t ∧
      transferToAugNode (fun _ => "ddb1") (fun _ => "int") (fun _ => "") t 2 [] = some d ∧
      d.statement = .join columns tables left right ∧
      Rebuilds "id" (tables.map twoKeys) (whereKept twoKeys tables left right) := by
  have hrun : ((buildQueryTree [twoParts] bothParts).any fun t =>
      (transferToAugNode (fun _ => "ddb1") (fun _ => "int") (fun _ => "") t 2 []).isSome &&
        t.tr[2]? = some ((vfJoinNode bothParts twoParts (vfFragment "V" 1 10 ["V.id", "V.a"])
          (twoParts.frags.map fun frag => keepKey twoParts (vfNode bothParts twoParts frag)) 2).under (-1))) =
      true := by
    decide +kernel
  simp only [Option.any_eq_true, Bool.and_eq_true, decide_eq_true_eq] at hrun
  obtain ⟨t, ht, hsome, hnd⟩ := hrun
  obtain ⟨d, hd⟩ := Option.isSome_iff_exists.mp hsome
  obtain ⟨columns, tables, left, right, hstatement, htables, hiff⟩ :=
    vertical_join_rebuilds_iff (by decide) (by decide) hnd hd twoKeys fun c _ => twoKeys_unique (tableRead c)
  refine ⟨t, d, columns, tables, left, right, ht, hd, hstatement, hiff.mpr (.inr fun k _ table htable => ?_)⟩
  rw [htables] at htable
  cases htable

end EasyDDB.Execution
