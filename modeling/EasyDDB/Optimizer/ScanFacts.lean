import EasyDDB.Optimizer.Phases

/-! # Facts about the loop over the catalog -/
namespace EasyDDB.Optimizer
open OrderedMap
set_option autoImplicit false

/-! ## Sorted lists of columns -/

theorem mem_unique {α : Type} [DecidableEq α] {a : α} {l : List α} : a ∈ unique l ↔ a ∈ l := by
  fun_induction unique l with
  | case1 => simp
  | case2 => simp
  | case3 b l ih => simp [ih]
  | case4 b c l hne ih => simp [ih]

theorem mem_sortUnique {a : String} {l : List String} : a ∈ sortUnique l ↔ a ∈ l := by
  rw [sortUnique, mem_unique, List.mem_insertionSort]

/-! ## Sizes and sites -/

theorem largestRelation_isSome {m : List (String × Int)} (h : m ≠ []) : ∃ Rp, largestRelation m = some Rp := by
  obtain ⟨e, es, rfl⟩ := List.exists_cons_of_ne_nil h
  exact ⟨_, rfl⟩

theorem addRelationAt_inv {siteNums siteNums' : List SiteNum} {site size : Int} {table : String}
    (h : addRelationAt siteNums site table size = some siteNums') :
    1 ≤ site ∧ site ≤ siteNums.length ∧
      siteNums' = siteNums.modify (site - 1).toNat fun s => s.addRelation table size := by
  unfold addRelationAt at h
  split_ifs at h with hs
  cases h
  exact ⟨hs.1, hs.2, rfl⟩

theorem addRelationAt_length {siteNums siteNums' : List SiteNum} {site size : Int} {table : String}
    (h : addRelationAt siteNums site table size = some siteNums') : siteNums'.length = siteNums.length := by
  rw [(addRelationAt_inv h).2.2, List.length_modify]

theorem addRelationAt_some {siteNums : List SiteNum} {site : Int} (table : String) (size : Int)
    (hl : siteNums.length = 4) (h1 : 1 ≤ site) (h4 : site ≤ 4) :
    ∃ siteNums', addRelationAt siteNums site table size = some siteNums' := by
  unfold addRelationAt
  rw [if_pos ⟨h1, by omega⟩]
  exact ⟨_, rfl⟩

/-! ## Horizontal fragments -/

/-- The state after the node `top` of a kept fragment and the nodes below it have been pushed. -/
def Scan.record (s : Scan) (below : List TreeNode) (top : TreeNode) (table : MetadataTable) (frag : Fragment)
    (relationSize : List (String × Int)) (siteNums : List SiteNum) : Scan where
  tr := s.tr ++ (below ++ [top])
  pruning := Function.update s.pruning table.name (s.pruning table.name ++ [frag])
  relationSize := relationSize
  siteNums := siteNums
  allFrag := s.allFrag ++ [frag.fname]
  mpTr := Function.update s.mpTr frag.fname (s.tr.length + below.length)

theorem scanHfFrag_inv {q : Query} {table : MetadataTable} {s s' : Scan} {frag : Fragment}
    (h : scanHfFrag q table s frag = some s') :
    (fragSelect frag.hfCondition q.predicate = some none ∧ s' = s) ∨
      ∃ select siteNums, fragSelect frag.hfCondition q.predicate = some (some select) ∧
        addRelationAt s.siteNums frag.site table.name frag.size = some siteNums ∧
        s' = s.record [] (hfNode q table frag select) table frag
          (setKey table.name (readKey s.relationSize table.name + frag.size) s.relationSize) siteNums := by
  simp only [scanHfFrag, Option.bind_eq_bind, Option.bind_eq_some_iff] at h
  obtain ⟨o, ho, h⟩ := h
  cases o with
  | none =>
    cases h
    exact .inl ⟨ho, rfl⟩
  | some select =>
    simp only [Option.bind_eq_some_iff] at h
    obtain ⟨siteNums, hsite, h⟩ := h
    cases h
    exact .inr ⟨select, siteNums, ho, hsite, rfl⟩

theorem scanHfFrag_some {q : Query} {table : MetadataTable} {s : Scan} {frag : Fragment} (hl : s.siteNums.length = 4)
    (hsel : (fragSelect frag.hfCondition q.predicate).isSome) (h1 : 1 ≤ frag.site) (h4 : frag.site ≤ 4) :
    ∃ s', scanHfFrag q table s frag = some s' ∧ s'.siteNums.length = 4 := by
  obtain ⟨o, ho⟩ := Option.isSome_iff_exists.mp hsel
  simp only [scanHfFrag, ho, Option.bind_eq_bind, Option.bind_some]
  cases o with
  | none => exact ⟨s, rfl, hl⟩
  | some select =>
    obtain ⟨siteNums, hs⟩ := addRelationAt_some table.name frag.size hl h1 h4
    simp only [hs, Option.bind_some]
    exact ⟨_, rfl, (addRelationAt_length hs).trans hl⟩

/-- The nodes a fragment contributes. -/
def hfNodes (q : Query) (table : MetadataTable) (frag : Fragment) : List TreeNode :=
  match fragSelect frag.hfCondition q.predicate with
  | some (some select) => [hfNode q table frag select]
  | _ => []

/-- The fragments of a table that are kept. -/
def keptFrags (q : Query) (frags : List Fragment) : List Fragment :=
  frags.filter fun frag => (fragSelect frag.hfCondition q.predicate).join.isSome

theorem hfNodes_of_select {q : Query} {frag : Fragment} {select : List Condition} (table : MetadataTable)
    (h : fragSelect frag.hfCondition q.predicate = some (some select)) :
    hfNodes q table frag = [hfNode q table frag select] := by
  simp [hfNodes, h]

theorem hfNodes_of_dropped {q : Query} {frag : Fragment} (table : MetadataTable)
    (h : fragSelect frag.hfCondition q.predicate = some none) : hfNodes q table frag = [] := by
  simp [hfNodes, h]

theorem scanHf_tr {q : Query} {table : MetadataTable} {s s' : Scan} (h : scanHf q table s = some s') :
    s'.tr = s.tr ++ table.frags.flatMap (hfNodes q table) := by
  refine Loops.invariant_seen (I := fun pre (c : Scan) => c.tr = s.tr ++ pre.flatMap (hfNodes q table)) ?_ ?_ h
  · intro pre frag post _ c c' hc hstep
    rw [List.flatMap_append, List.flatMap_singleton, ← List.append_assoc, ← hc]
    obtain ⟨hsel, rfl⟩ | ⟨select, siteNums, hsel, -, rfl⟩ := scanHfFrag_inv hstep
    · rw [hfNodes_of_dropped table hsel, List.append_nil]
    · rw [hfNodes_of_select table hsel]
      rfl
  · simp

theorem scanHf_relationSize {q : Query} {table : MetadataTable} {s s' : Scan} (h : scanHf q table s = some s') :
    s'.relationSize ≠ [] := by
  refine Loops.invariant (I := fun (c : Scan) => c.relationSize ≠ []) ?_ (setKey_ne_nil _ _ _) h
  intro frag _ c c' hc hstep
  obtain ⟨-, rfl⟩ | ⟨select, siteNums, -, -, rfl⟩ := scanHfFrag_inv hstep
  · exact hc
  · exact setKey_ne_nil _ _ _

theorem scanHf_some {q : Query} {table : MetadataTable} {s : Scan} (hl : s.siteNums.length = 4)
    (hsel : ∀ frag ∈ table.frags, (fragSelect frag.hfCondition q.predicate).isSome)
    (hsite : ∀ frag ∈ table.frags, 1 ≤ frag.site ∧ frag.site ≤ 4) :
    ∃ s', scanHf q table s = some s' ∧ s'.siteNums.length = 4 := by
  refine Loops.progress (I := fun (c : Scan) => c.siteNums.length = 4) ?_ hl
  intro frag hfrag c hc
  exact scanHfFrag_some hc (hsel frag hfrag) (hsite frag hfrag).1 (hsite frag hfrag).2

/-! ## Vertical fragments -/

/-- The node of a table of which the query needs nothing but the key. -/
def vfKeyNode (q : Query) (table : MetadataTable) (first : Fragment) : TreeNode :=
  { type := .fragment, site := 1, size := first.size, fname := first.fname, attr := first.vfColumn
    select := tablePredicates q table, projection := [table.keyColumn] }

/-- The Fragment nodes under the Join node of a table. -/
def vfOperands (q : Query) (table : MetadataTable) : List TreeNode :=
  (table.frags.filter (vfMarked q table)).map fun frag => keepKey table (vfNode q table frag)

theorem keepKey_eq (table : MetadataTable) (n : TreeNode) :
    ∃ projection, keepKey table n = { n with projection := projection } := by
  unfold keepKey
  split_ifs <;> exact ⟨_, rfl⟩

theorem vfOperands_node {q : Query} {table : MetadataTable} {n : TreeNode} (h : n ∈ vfOperands q table) :
    ∃ frag ∈ table.frags.filter (vfMarked q table), ∃ projection,
      n = { vfNode q table frag with projection := projection } := by
  obtain ⟨frag, hfrag, rfl⟩ := List.mem_map.mp h
  exact ⟨frag, hfrag, keepKey_eq table _⟩

/-- The three shapes of the nodes of a vertically fragmented table: the key only, one fragment, or a Join
node over several. `sz` is the number of nodes before them. -/
inductive VfShape (q : Query) (table : MetadataTable) (first : Fragment) (sz : Nat) :
    Fragment → List TreeNode → TreeNode → Prop
  | key (h : table.frags.filter (vfMarked q table) = []) : VfShape q table first sz first [] (vfKeyNode q table first)
  | one (frag : Fragment) (h : table.frags.filter (vfMarked q table) = [frag]) :
      VfShape q table first sz frag [] (vfNode q table frag)
  | several (h : 2 ≤ (table.frags.filter (vfMarked q table)).length) :
      VfShape q table first sz first
        ((vfOperands q table).map fun n => n.under ((sz + (vfOperands q table).length : Nat) : Int))
        (vfJoinNode q table first (vfOperands q table) (sz + (vfOperands q table).length))

/-- The site whose share a vertically fragmented table is added to: that of its only useful fragment, else the first. -/
def vfSite (q : Query) (table : MetadataTable) (frag : Fragment) : Int :=
  if (table.frags.filter (vfMarked q table)).length = 1 then frag.site else 1

theorem scanVf_inv {q : Query} {table : MetadataTable} {s s' : Scan} (h : scanVf q table s = some s') :
    ∃ first frag below top siteNums, table.frags.head? = some first ∧ VfShape q table first s.tr.length frag below top ∧
      addRelationAt s.siteNums (vfSite q table frag) table.name frag.size = some siteNums ∧
      s' = s.record below top table frag (setKey table.name first.size s.relationSize) siteNums := by
  simp only [scanVf, Option.bind_eq_bind, Option.bind_eq_some_iff] at h
  obtain ⟨first, hfirst, h⟩ := h
  split at h
  case h_1 hm =>
    obtain ⟨siteNums, hs, h⟩ := Option.bind_eq_some_iff.mp h
    cases h
    exact ⟨first, first, [], _, siteNums, hfirst, .key hm, by rwa [vfSite, hm, if_neg (by simp)], rfl⟩
  case h_2 frag hm =>
    obtain ⟨siteNums, hs, h⟩ := Option.bind_eq_some_iff.mp h
    cases h
    exact ⟨first, frag, [], _, siteNums, hfirst, .one frag hm, by rwa [vfSite, hm, if_pos List.length_singleton], rfl⟩
  case h_3 hne hone =>
    obtain ⟨siteNums, hs, h⟩ := Option.bind_eq_some_iff.mp h
    cases h
    have hlen : 2 ≤ (table.frags.filter (vfMarked q table)).length := by
      match hm : table.frags.filter (vfMarked q table) with
      | [] => exact absurd hm hne
      | [frag] => exact absurd hm (hone frag)
      | _ :: _ :: l => simp
    refine ⟨first, first, _, _, siteNums, hfirst, .several hlen, by rwa [vfSite, if_neg (by omega)], ?_⟩
    simp only [Scan.record, vfOperands, List.append_assoc, List.length_map]

theorem scanTable_inv {q : Query} {table : MetadataTable} {s s' : Scan} (h : scanTable q s table = some s') :
    (table.name ∉ q.fromTable ∧ s' = s) ∨ (table.name ∈ q.fromTable ∧ table.type = .hf ∧ scanHf q table s = some s') ∨
      (table.name ∈ q.fromTable ∧ table.type = .vf ∧ scanVf q table s = some s') := by
  unfold scanTable at h
  split_ifs at h with hmem
  · cases htype : table.type with
    | hf =>
      rw [htype] at h
      exact .inr (.inl ⟨hmem, rfl, h⟩)
    | vf =>
      rw [htype] at h
      exact .inr (.inr ⟨hmem, rfl, h⟩)
  · cases h
    exact .inl ⟨hmem, rfl⟩

theorem scanVf_some {q : Query} {table : MetadataTable} {s : Scan} (hl : s.siteNums.length = 4)
    (hne : table.frags ≠ []) (hsite : ∀ frag ∈ table.frags, 1 ≤ frag.site ∧ frag.site ≤ 4) :
    ∃ s', scanVf q table s = some s' ∧ s'.siteNums.length = 4 := by
  suffices h : ∃ s', scanVf q table s = some s' by
    obtain ⟨s', h⟩ := h
    obtain ⟨_, _, _, _, siteNums, -, -, hadd, rfl⟩ := scanVf_inv h
    exact ⟨_, h, (addRelationAt_length hadd).trans hl⟩
  obtain ⟨first, rest, hfr⟩ := List.exists_cons_of_ne_nil hne
  have hhead : table.frags.head? = some first := by rw [hfr]; rfl
  have hfirst : first ∈ table.frags := hfr ▸ List.mem_cons_self ..
  simp only [scanVf, hhead, Option.bind_eq_bind, Option.bind_some]
  obtain ⟨siteNums, hone⟩ := addRelationAt_some table.name first.size hl (Int.le_refl 1) (by omega)
  split
  case h_1 => exact ⟨_, by rw [hone]; rfl⟩
  case h_2 frag hm =>
    have hfrag : frag ∈ table.frags := List.mem_of_mem_filter (hm ▸ List.mem_singleton_self frag)
    obtain ⟨siteNums, hs⟩ := addRelationAt_some table.name frag.size hl (hsite frag hfrag).1 (hsite frag hfrag).2
    exact ⟨_, by rw [hs]; rfl⟩
  case h_3 => exact ⟨_, by rw [hone]; rfl⟩

/-! ## One table -/

theorem scanTable_skip {q : Query} {table : MetadataTable} (h : table.name ∉ q.fromTable) (s : Scan) :
    scanTable q s table = some s := by
  unfold scanTable
  rw [if_neg h]

theorem scanTables_skip {q : Query} {Tables : List MetadataTable} (h : ∀ T ∈ Tables, T.name ∉ q.fromTable)
    (s : Scan) : Tables.foldlM (scanTable q) s = some s := by
  induction Tables with
  | nil => rfl
  | cons T Tables ih =>
    rw [List.foldlM_cons, scanTable_skip (h T (List.mem_cons_self ..))]
    exact ih fun T' hT' => h T' (List.mem_cons_of_mem T hT')

theorem scanTables_single {q : Query} {Tables : List MetadataTable} {T : MetadataTable}
    (hname : (Tables.map MetadataTable.name).Nodup) (hT : T ∈ Tables) (hfrom : q.fromTable = [T.name]) :
    scanTables q Tables = scanTable q Scan.init T := by
  obtain ⟨pre, post, rfl⟩ := List.append_of_mem hT
  rw [List.map_append, List.map_cons, List.nodup_append] at hname
  obtain ⟨-, hpost, hpre⟩ := hname
  have h1 : ∀ T' ∈ pre, T'.name ∉ q.fromTable := by
    intro T' hT' hmem
    rw [hfrom, List.mem_singleton] at hmem
    exact hpre T'.name (List.mem_map_of_mem hT') T.name (List.mem_cons_self ..) hmem
  have h2 : ∀ T' ∈ post, T'.name ∉ q.fromTable := by
    intro T' hT' hmem
    rw [hfrom, List.mem_singleton] at hmem
    exact (List.nodup_cons.mp hpost).1 (hmem ▸ List.mem_map_of_mem hT')
  unfold scanTables
  rw [List.foldlM_append, scanTables_skip h1]
  simp only [Option.bind_eq_bind, Option.bind_some, List.foldlM_cons]
  cases scanTable q Scan.init T with
  | none => rfl
  | some s => exact scanTables_skip h2 s

end EasyDDB.Optimizer
