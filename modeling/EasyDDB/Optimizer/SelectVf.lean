import EasyDDB.Optimizer.Single

/-! # Single-table SELECT over a vertically fragmented table

The fragments a query needs are filtered and projected one by one and joined on the key; with unique
keys this puts every row together again. -/
namespace EasyDDB.Optimizer
open Condition OrderedMap
set_option autoImplicit false

/-- Every fragment of a vertically fragmented table has the key, and together they have every column. -/
structure VfTable (T : MetadataTable) : Prop where
  vf : T.type = .vf
  key : ∀ F ∈ T.frags, T.key ∈ F.vfColumn
  cover : ∀ a ∈ T.attrs, ∃ F ∈ T.frags, a ∈ F.vfColumn

/-- Rows with unique keys, of which every fragment stores its own columns. -/
structure VfRows (T : MetadataTable) (db : Placement) (rows : List Row) : Prop where
  keys : (rows.map fun r => r T.key).Nodup
  present : ∀ r ∈ rows, (r T.key).isSome
  stored : ∀ F ∈ T.frags, (db F.fname).Perm (rows.map (Row.project F.vfColumn))

/-- A query on the columns of one table that mentions a column besides the key. -/
structure VfQuery (T : MetadataTable) (q : Query) : Prop where
  select : SelectOk T q.selectAttr q.allAttr
  predicates : ∀ p ∈ q.predicate, p.table = T.name ∧ p.column ∈ T.attrs
  mentioned : ∀ a ∈ q.selectAttr ++ q.predicate.map column, a ∈ q.allAttr
  nonkey : ∃ a ∈ selectColumns T q.selectAttr ++ q.predicate.map column, a ≠ T.key

/-! ## Joins on a unique key -/

theorem joinRows_perm (c : JoinCell) {ls ls' rs rs' : List Row} (hl : ls.Perm ls') (hr : rs.Perm rs') :
    (joinRows c ls rs).Perm (joinRows c ls' rs') :=
  hl.flatMap fun _ _ => (hr.filter _).map _

theorem sameValue_of_isSome {v w : Option Value} (h : v.isSome) : sameValue v w = decide (v = w) := by
  cases v with
  | none => cases h
  | some a => cases w <;> simp [sameValue]

section
variable {key : String} {rows : List Row} (hkeys : (rows.map fun r => r key).Nodup)
  (hsome : ∀ r ∈ rows, (r key).isSome)
include hkeys hsome

/-- Two selections of the rows, each projected on columns with the key, joined on the key. -/
theorem joinRows_key {c : JoinCell} (hl : c.left = key) (hr : c.right = key) {as bs : List String}
    (has : key ∈ as) (hbs : key ∈ bs) (p p' : Row → Bool) :
    joinRows c ((rows.filter p).map (Row.project as)) ((rows.filter p').map (Row.project bs)) =
      (rows.filter fun r => p r && p' r).map (Row.project (as ++ bs)) := by
  have hmatch : ∀ l ∈ rows.filter p,
      (((rows.filter p').map (Row.project bs)).filter fun r => sameValue (Row.project as l c.left) (r c.right)).map
          (Row.merge (Row.project as l)) =
        ((rows.filter p').filter fun r => l key = r key).map fun r => Row.merge (l.project as) (r.project bs) := by
    intro l hlmem
    rw [List.filter_map, List.map_map]
    congr 1
    refine List.filter_congr fun r _ => ?_
    simp only [Function.comp_apply, hl, hr, Row.project, has, hbs, if_true]
    exact sameValue_of_isSome (hsome l (List.mem_of_mem_filter hlmem))
  unfold joinRows
  rw [List.flatMap_map, List.flatMap_congr hmatch,
    Bags.flatMap_filter_key hkeys p p' fun l r => Row.merge (l.project as) (r.project bs)]
  simp only [merge_project]

theorem foldl_joinRows {c : JoinCell} (hl : c.left = key) (hr : c.right = key) {db : Placement} (ns : List TreeNode)
    (hns : ∀ n ∈ ns, key ∈ n.output ∧
      ((rowSemantics db).leaf n).Perm ((rows.filter (satisfiesAll n.select)).map (Row.project n.output)))
    {acc : List Row} {cs : List Condition} {as : List String} (has : key ∈ as)
    (hacc : acc.Perm ((rows.filter (satisfiesAll cs)).map (Row.project as))) :
    ((ns.map (rowSemantics db).leaf).foldl (joinRows c) acc).Perm
      ((rows.filter (satisfiesAll (cs ++ ns.flatMap TreeNode.select))).map
        (Row.project (as ++ ns.flatMap TreeNode.output))) := by
  induction ns generalizing acc cs as with
  | nil => simpa using hacc
  | cons n ns ih =>
    obtain ⟨hkey, hleaf⟩ := hns n (List.mem_cons_self ..)
    have hstep : (joinRows c acc ((rowSemantics db).leaf n)).Perm
        ((rows.filter (satisfiesAll (cs ++ n.select))).map (Row.project (as ++ n.output))) := by
      refine (joinRows_perm c hacc hleaf).trans (.of_eq ?_)
      rw [joinRows_key hkeys hsome hl hr has hkey, funext (satisfiesAll_append cs n.select)]
    rw [List.map_cons, List.foldl_cons, List.flatMap_cons, List.flatMap_cons, ← List.append_assoc, ← List.append_assoc]
    exact ih (fun n' hn' => hns n' (List.mem_cons_of_mem n hn')) (List.mem_append_left _ has) hstep

end

/-! ## The nodes of one table -/

/-- The expanded query, with what the proofs below need of it. -/
structure VfExpanded (T : MetadataTable) (q : Query) : Prop where
  join : q.join = []
  select : ∀ a ∈ q.selectAttr, a ∈ T.attrs
  selectNe : q.selectAttr ≠ []
  predicates : ∀ p ∈ q.predicate, p.table = T.name ∧ p.column ∈ T.attrs
  mentioned : ∀ a, a ∈ q.selectAttr ∨ a ∈ q.predicate.map column → a ∈ q.allAttr
  nonkey : ∃ a, (a ∈ q.selectAttr ∨ a ∈ q.predicate.map column) ∧ a ≠ T.key

section
variable {T : MetadataTable} {q : Query} (hT : VfTable T) (hq : VfExpanded T q)
include hq

theorem VfExpanded.needed_iff (a : String) : needed q a = true ↔ a ∈ q.selectAttr := by
  simp [needed, joinAttr, hq.join]

theorem VfExpanded.mem_attrs {a : String} (h : a ∈ q.selectAttr ∨ a ∈ q.predicate.map column) : a ∈ T.attrs := by
  obtain h | h := h
  · exact hq.select a h
  · obtain ⟨p, hp, rfl⟩ := List.mem_map.mp h
    exact (hq.predicates p hp).2

theorem VfExpanded.mem_select {F : Fragment} {p : Condition} :
    p ∈ (vfNode q T F).select ↔ p ∈ q.predicate ∧ p.column ∈ F.vfColumn := by
  simp only [vfNode, tablePredicates, List.mem_flatMap, List.mem_filter, decide_eq_true_eq]
  constructor
  · rintro ⟨a, ha, ⟨hp, -⟩, rfl⟩
    exact ⟨hp, ha⟩
  · rintro ⟨hp, ha⟩
    exact ⟨_, ha, ⟨hp, (hq.predicates p hp).1⟩, rfl⟩

theorem VfExpanded.mem_vfNode_projection {F : Fragment} {a : String} :
    a ∈ (vfNode q T F).projection →  a ∈ F.vfColumn ∧ a ∈ q.selectAttr := by
  unfold vfNode
  dsimp only
  split_ifs with h
  · rw [List.mem_filter, decide_eq_true_eq, hq.needed_iff]
    exact fun h => ⟨h.1, h.2.2⟩
  · rintro ⟨⟩

theorem VfExpanded.select_mem_output {F : Fragment} {a : String} (ha : a ∈ F.vfColumn) (hs : a ∈ q.selectAttr) :
    a ∈ (vfNode q T F).output := by
  unfold TreeNode.output
  split_ifs with h
  · exact ha
  · revert h
    unfold vfNode
    dsimp only
    split_ifs with h
    · intro _
      rw [List.mem_filter, decide_eq_true_eq, hq.needed_iff]
      exact ⟨ha, hq.mentioned a (.inl hs), hs⟩
    · exact fun h => absurd rfl h

theorem VfExpanded.output_subset {F : Fragment} {a : String} (h : a ∈ (vfNode q T F).output) : a ∈ F.vfColumn := by
  unfold TreeNode.output at h
  split_ifs at h
  · exact h
  · exact (hq.mem_vfNode_projection h).1

include hT

/-- Every mentioned column is stored in a fragment the query uses, the key in each of them. -/
theorem VfExpanded.exists_marked {a : String} (h : a ∈ q.selectAttr ∨ a ∈ q.predicate.map column) :
    ∃ F ∈ T.frags.filter (vfMarked q T), a ∈ F.vfColumn := by
  have hne : ∀ b, (b ∈ q.selectAttr ∨ b ∈ q.predicate.map column) → b ≠ T.key →
      ∃ F ∈ T.frags.filter (vfMarked q T), b ∈ F.vfColumn := by
    intro b hb hkey
    obtain ⟨F, hF, hbF⟩ := hT.cover b (hq.mem_attrs hb)
    refine ⟨F, List.mem_filter.mpr ⟨hF, List.any_eq_true.mpr ⟨b, hbF, ?_⟩⟩, hbF⟩
    exact decide_eq_true ⟨hq.mentioned b hb, hkey⟩
  by_cases hkey : a = T.key
  · obtain ⟨b, hb, hbk⟩ := hq.nonkey
    obtain ⟨F, hF, -⟩ := hne b hb hbk
    exact ⟨F, hF, hkey ▸ hT.key F (List.mem_of_mem_filter hF)⟩
  · exact hne a h hkey

theorem VfExpanded.keepKey_output {F : Fragment} (hF : F ∈ T.frags) :
    T.key ∈ (keepKey T (vfNode q T F)).output ∧
      (∀ a ∈ F.vfColumn, a ∈ q.selectAttr → a ∈ (keepKey T (vfNode q T F)).output) ∧
      ∀ a ∈ (keepKey T (vfNode q T F)).output, a ∈ F.vfColumn := by
  have hattr : (vfNode q T F).attr = F.vfColumn := rfl
  have hkey := hT.key F hF
  by_cases hadd : (vfNode q T F).projection ≠ [] ∧ T.key ∉ (vfNode q T F).projection
  · have hout : (vfNode q T F).output = (vfNode q T F).projection := if_neg hadd.1
    by_cases hlen : ((vfNode q T F).projection ++ [T.key]).length = (vfNode q T F).attr.length
    · have hk : (keepKey T (vfNode q T F)).output = F.vfColumn := by
        simp only [keepKey, if_pos hadd, hlen, TreeNode.output, if_true, hattr]
      rw [hk]
      exact ⟨hkey, fun a ha _ => ha, fun a ha => ha⟩
    · have hk : (keepKey T (vfNode q T F)).output = (vfNode q T F).output ++ [T.key] := by
        rw [hout]
        simp only [keepKey, if_pos hadd, hlen, TreeNode.output, if_false]
        exact if_neg (by simp)
      rw [hk]
      refine ⟨by simp, fun a ha hs => List.mem_append_left _ (hq.select_mem_output ha hs), fun a ha => ?_⟩
      obtain ha | ha := List.mem_append.mp ha
      · exact hq.output_subset ha
      · exact List.mem_singleton.mp ha ▸ hkey
  · have hk : keepKey T (vfNode q T F) = vfNode q T F := if_neg hadd
    rw [hk]
    refine ⟨?_, fun a ha hs => hq.select_mem_output ha hs, fun a ha => hq.output_subset ha⟩
    unfold TreeNode.output
    split_ifs with h
    · exact hkey
    · by_contra hn
      exact hadd ⟨h, hn⟩

theorem VfExpanded.select_exact {ns : List TreeNode}
    (hns : ∀ p, p ∈ ns.flatMap TreeNode.select ↔
      ∃ F ∈ T.frags.filter (vfMarked q T), p ∈ (vfNode q T F).select) :
    satisfiesAll (ns.flatMap TreeNode.select) = satisfiesAll q.predicate := by
  funext r
  rw [Bool.eq_iff_iff, satisfiesAll_iff, satisfiesAll_iff]
  refine forall_congr' fun p => imp_congr_left ?_
  rw [hns]
  constructor
  · rintro ⟨F, -, hp⟩
    exact (hq.mem_select.mp hp).1
  · intro hp
    obtain ⟨F, hF, ha⟩ := hq.exists_marked hT (.inr (List.mem_map_of_mem hp))
    exact ⟨F, hF, hq.mem_select.mpr ⟨hp, ha⟩⟩

theorem VfExpanded.mem_vfJoinNode_output (first : Fragment) (sz : Nat) (a : String) :
    a ∈ (vfJoinNode q T first (vfOperands q T) sz).output ↔ a ∈ q.selectAttr := by
  have hmem : ∀ b ∈ q.selectAttr, b ∈ (vfJoinNode q T first (vfOperands q T) sz).attr := by
    intro b hb
    obtain ⟨F, hF, hbF⟩ := hq.exists_marked hT (.inl hb)
    refine mem_sortUnique.mpr (List.mem_flatMap.mpr ⟨keepKey T (vfNode q T F), ?_, ?_⟩)
    · exact List.mem_reverse.mpr (List.mem_map_of_mem hF)
    · obtain ⟨projection, hnode⟩ := keepKey_eq T (vfNode q T F)
      exact hnode ▸ hbF
  generalize hn : vfJoinNode q T first (vfOperands q T) sz = n at hmem ⊢
  have hproj : n.projection = if n.attr.filter (needed q) = n.attr then [] else n.attr.filter (needed q) := by
    rw [← hn]
    rfl
  have hfilter : ∀ b, b ∈ n.attr.filter (needed q) ↔ b ∈ q.selectAttr := by
    intro b
    rw [List.mem_filter, hq.needed_iff]
    exact ⟨And.right, fun h => ⟨hmem b h, h⟩⟩
  by_cases hall : n.attr.filter (needed q) = n.attr
  · rw [if_pos hall] at hproj
    rw [TreeNode.output, if_pos hproj, ← hall, hfilter]
  · rw [if_neg hall] at hproj
    obtain ⟨b, bs, hb⟩ := List.exists_cons_of_ne_nil hq.selectNe
    have hne : n.projection ≠ [] := by
      rw [hproj]
      exact List.ne_nil_of_mem ((hfilter b).mpr (hb ▸ List.mem_cons_self ..))
    rw [TreeNode.output, if_neg hne, hproj, hfilter]

end

/-! ## Evaluation -/

theorem leaf_perm {T : MetadataTable} {db : Placement} {rows : List Row} (hdb : VfRows T db rows) {F : Fragment}
    (hF : F ∈ T.frags) {n : TreeNode} (hname : n.fname = F.fname) (hsel : ∀ c ∈ n.select, c.column ∈ F.vfColumn)
    (hout : ∀ a ∈ n.output, a ∈ F.vfColumn) :
    ((rowSemantics db).leaf n).Perm ((rows.filter (satisfiesAll n.select)).map (Row.project n.output)) := by
  change ((selected db n).map (Row.project n.output)).Perm _
  unfold selected
  rw [hname]
  refine (((hdb.stored F hF).filter _).map _).trans (.of_eq ?_)
  rw [List.filter_map, List.map_map]
  have h1 : (satisfiesAll n.select ∘ Row.project F.vfColumn) = satisfiesAll n.select :=
    funext fun r => satisfiesAll_project hsel r
  have h2 : (Row.project n.output ∘ Row.project F.vfColumn) = Row.project n.output :=
    funext fun r => project_project hout r
  rw [h1, h2]

theorem map_evalNode_operands {α : Type} (sem : Semantics α) (ns : List TreeNode) (top : TreeNode) (fuel : Nat)
    (par : Int) (hns : ∀ n ∈ ns, n.type = .fragment) (hleaf : ∀ n : TreeNode, sem.leaf (n.under par) = sem.leaf n) :
    ((List.range ns.length).map fun i => ns.length - (i + 1)).map
        (evalNode sem (ns.map (fun n => n.under par) ++ [top]) (fuel + 1)) = ns.reverse.map sem.leaf := by
  refine List.ext_getElem (by simp) fun i h1 h2 => ?_
  have hi : i < ns.length := by simpa using h1
  have hget : (ns.map (fun n => n.under par) ++ [top])[ns.length - (i + 1)]? =
      some ((ns[ns.length - 1 - i]).under par) := by
    rw [List.getElem?_append_left (by rw [List.length_map]; omega), List.getElem?_map, List.getElem?_eq_getElem (by omega)]
    simp only [Option.map_some, show ns.length - (i + 1) = ns.length - 1 - i by omega]
  simp only [List.getElem_map, List.getElem_range, List.getElem_reverse]
  have htype : (ns[ns.length - 1 - i].under par).type = .fragment := by
    change (ns[ns.length - 1 - i]).type = .fragment
    exact hns _ (List.getElem_mem _)
  rw [evalNode_fragment sem fuel hget htype, hleaf]

theorem parentless_under (ns : List TreeNode) (top : TreeNode) (par : Nat) :
    (parentless (ns.map (fun n => n.under par) ++ [top])).length ≤ 1 := by
  unfold parentless
  rw [List.length_append, List.length_map, List.length_singleton, List.range_succ, List.filter_append]
  have hnil : (List.range ns.length).filter
      (fun i => ((ns.map (fun n => n.under par) ++ [top])[i]?).any fun n => n.parent = -1) = [] := by
    rw [List.filter_eq_nil_iff]
    intro i hi
    have hi' := List.mem_range.mp hi
    rw [List.getElem?_append_left (by rwa [List.length_map]), List.getElem?_map, List.getElem?_eq_getElem hi']
    simp only [Option.map_some, Option.any_some, TreeNode.under, decide_eq_true_eq]
    omega
  rw [hnil, List.nil_append]
  exact List.length_filter_le ..

theorem VfExpanded.mem_vfNode_output_iff {T : MetadataTable} {q : Query} (hq : VfExpanded T q) {F : Fragment}
    (hcols : ∀ a ∈ q.selectAttr, a ∈ F.vfColumn) {a : String} :
    a ∈ (vfNode q T F).output ↔ a ∈ q.selectAttr := by
  refine ⟨fun ha => ?_, fun ha => hq.select_mem_output (hcols a ha) ha⟩
  obtain ⟨b, bs, hb⟩ := List.exists_cons_of_ne_nil hq.selectNe
  have hbS : b ∈ q.selectAttr := hb ▸ List.mem_cons_self ..
  unfold TreeNode.output at ha
  split_ifs at ha with hnil
  · revert hnil ha
    unfold vfNode
    dsimp only
    split_ifs with hall
    · intro hnil _
      have hbm : b ∈ F.vfColumn.filter fun x => x ∈ q.allAttr ∧ needed q x :=
        List.mem_filter.mpr ⟨hcols b hbS, decide_eq_true ⟨hq.mentioned b (.inl hbS), (hq.needed_iff b).mpr hbS⟩⟩
      rw [hnil] at hbm
      cases hbm
    · intro _ ha
      rw [not_not] at hall
      rw [hall, List.mem_filter, decide_eq_true_eq, hq.needed_iff] at ha
      exact ha.2.2
  · exact (hq.mem_vfNode_projection ha).2

/-- The tree of the Join node over the Fragment nodes `ns`, which it joins from the last to the first. -/
theorem eval_vfJoinNode (db : Placement) (q : Query) (T : MetadataTable) (first : Fragment) {n : TreeNode}
    {ns ms : List TreeNode} (htype : ∀ n ∈ ns, n.type = .fragment) (hrev : ns.reverse = n :: ms) (site : Int)
    (S : List String) :
    (unionPhase site S (ns.map (fun n => n.under (ns.length : Nat)) ++
        [vfJoinNode q T first ns ns.length])).eval (rowSemantics db) =
      ((ms.map (rowSemantics db).leaf).foldl (joinRows (vfJoinNode q T first ns ns.length).join)
        ((rowSemantics db).leaf n)).map (Row.project (vfJoinNode q T first ns ns.length).output) := by
  have hlen : ns.length = ms.length + 1 := by rw [← List.length_reverse, hrev, List.length_cons]
  have hchild : (vfJoinNode q T first ns ns.length).child = (List.range ns.length).map fun i => ns.length - (i + 1) :=
    rfl
  have hkids := map_evalNode_operands (rowSemantics db) ns (vfJoinNode q T first ns ns.length) ms.length
    (ns.length : Nat) htype fun _ => rfl
  rw [← hlen] at hkids
  rw [unionPhase_of_le site S (parentless_under ns _ ns.length)]
  unfold Tree.eval
  simp only [List.length_append, List.length_map, List.length_singleton]
  rw [if_pos (by omega), show ((ns.length + 1 : Nat) : Int) - 1 = (ns.length : Nat) by omega, Int.toNat_natCast,
    evalNode_join _ _ (by rw [List.getElem?_append_right (by simp), List.length_map, Nat.sub_self]; rfl) rfl]
  rw [hchild, hkids, hrev]
  rfl

theorem keepKey_same (T : MetadataTable) (n : TreeNode) :
    (keepKey T n).type = n.type ∧ (keepKey T n).fname = n.fname ∧ (keepKey T n).select = n.select := by
  obtain ⟨projection, hnode⟩ := keepKey_eq T n
  rw [hnode]
  exact ⟨rfl, rfl, rfl⟩

theorem mem_vfOperands {T : MetadataTable} {q : Query} {n : TreeNode} :
    n ∈ vfOperands q T ↔ ∃ F ∈ T.frags.filter (vfMarked q T), keepKey T (vfNode q T F) = n := List.mem_map

section
variable {T : MetadataTable} {q : Query} {db : Placement} {rows : List Row} (hT : VfTable T)
  (hq : VfExpanded T q) (hdb : VfRows T db rows)
include hT hq hdb

theorem eval_one {F : Fragment} (hF : T.frags.filter (vfMarked q T) = [F]) (site : Int) (S : List String) :
    ((unionPhase site S [vfNode q T F]).eval (rowSemantics db)).Perm
      ((rows.filter (satisfiesAll q.predicate)).map (Row.project q.selectAttr)) := by
  have hmem : F ∈ T.frags := List.mem_of_mem_filter (hF ▸ List.mem_singleton_self F)
  have hcols : ∀ a ∈ q.selectAttr, a ∈ F.vfColumn := by
    intro a ha
    obtain ⟨F', hF', haF⟩ := hq.exists_marked hT (.inl ha)
    rw [hF, List.mem_singleton] at hF'
    exact hF' ▸ haF
  have hout : ∀ a, a ∈ (vfNode q T F).output ↔ a ∈ q.selectAttr := fun a => hq.mem_vfNode_output_iff hcols
  have heval : (unionPhase site S [vfNode q T F]).eval (rowSemantics db) = (rowSemantics db).leaf (vfNode q T F) := by
    have hle : (parentless [vfNode q T F]).length ≤ 1 := List.length_filter_le ..
    rw [unionPhase_of_le site S hle]
    have hget : [vfNode q T F][0]? = some (vfNode q T F) := rfl
    exact evalNode_fragment (rowSemantics db) 0 hget rfl
  have hsel : satisfiesAll (vfNode q T F).select = satisfiesAll q.predicate := by
    have hexact : satisfiesAll ([vfNode q T F].flatMap TreeNode.select) = satisfiesAll q.predicate :=
      hq.select_exact hT (by intro p; rw [hF]; simp)
    rwa [List.flatMap_singleton] at hexact
  rw [heval, ← hsel, ← project_congr hout]
  exact leaf_perm hdb hmem rfl (fun c hc => (hq.mem_select.mp hc).2) fun a ha => hq.output_subset ha

theorem vfOperands_leaf {n : TreeNode} (hn : n ∈ vfOperands q T) :
    T.key ∈ n.output ∧
      ((rowSemantics db).leaf n).Perm ((rows.filter (satisfiesAll n.select)).map (Row.project n.output)) := by
  obtain ⟨F, hF, rfl⟩ := mem_vfOperands.mp hn
  obtain ⟨hkey, -, hsub⟩ := hq.keepKey_output hT (List.mem_of_mem_filter hF)
  obtain ⟨-, hname, hsel⟩ := keepKey_same T (vfNode q T F)
  refine ⟨hkey, leaf_perm hdb (List.mem_of_mem_filter hF) hname ?_ hsub⟩
  intro c hc
  rw [hsel] at hc
  exact (hq.mem_select.mp hc).2

theorem eval_several (first : Fragment) (h2 : 2 ≤ (T.frags.filter (vfMarked q T)).length) (site : Int)
    (S : List String) :
    ((unionPhase site S ((vfOperands q T).map (fun n => n.under ((vfOperands q T).length : Nat)) ++
        [vfJoinNode q T first (vfOperands q T) (vfOperands q T).length])).eval (rowSemantics db)).Perm
      ((rows.filter (satisfiesAll q.predicate)).map (Row.project q.selectAttr)) := by
  have hrev : (vfOperands q T).reverse ≠ [] := by
    intro h
    rw [List.reverse_eq_nil_iff, vfOperands, List.map_eq_nil_iff] at h
    rw [h] at h2
    simp at h2
  obtain ⟨n, ms, hrev⟩ := List.exists_cons_of_ne_nil hrev
  have hmem : ∀ m, m ∈ n :: ms ↔ m ∈ vfOperands q T := fun m => by rw [← hrev, List.mem_reverse]
  have htype : ∀ m ∈ vfOperands q T, m.type = .fragment := by
    intro m hm
    obtain ⟨F, -, rfl⟩ := mem_vfOperands.mp hm
    exact (keepKey_same T _).1
  have hleaf := fun m hm => vfOperands_leaf hT hq hdb ((hmem m).mp hm)
  obtain ⟨hkey, hn⟩ := hleaf n (List.mem_cons_self ..)
  have hjoin := foldl_joinRows hdb.keys hdb.present
    (c := (vfJoinNode q T first (vfOperands q T) (vfOperands q T).length).join) rfl rfl ms
    (fun m hm => hleaf m (List.mem_cons_of_mem n hm)) hkey hn
  have hcons : ∀ {β : Type} (f : TreeNode → List β), f n ++ ms.flatMap f = (n :: ms).flatMap f := fun _ => rfl
  have hexact : satisfiesAll ((n :: ms).flatMap TreeNode.select) = satisfiesAll q.predicate := by
    refine hq.select_exact hT fun p => ?_
    simp only [List.mem_flatMap, hmem, mem_vfOperands]
    constructor
    · rintro ⟨_, ⟨F, hF, rfl⟩, hp⟩
      exact ⟨F, hF, (keepKey_same T _).2.2 ▸ hp⟩
    · rintro ⟨F, hF, hp⟩
      exact ⟨_, ⟨F, hF, rfl⟩, (keepKey_same T _).2.2.symm ▸ hp⟩
  rw [eval_vfJoinNode db q T first htype hrev]
  rw [hcons, hcons, hexact] at hjoin
  refine (hjoin.map _).trans (.of_eq ?_)
  rw [List.map_map, project_congr (hq.mem_vfJoinNode_output hT first (vfOperands q T).length)]
  congr 1
  funext r
  refine project_project (fun a ha => ?_) r
  obtain ⟨F, hF, haF⟩ := hq.exists_marked hT (.inl ha)
  refine List.mem_flatMap.mpr ⟨keepKey T (vfNode q T F), (hmem _).mpr (List.mem_map_of_mem hF), ?_⟩
  exact (hq.keepKey_output hT (List.mem_of_mem_filter hF)).2.1 a haF ha

end

theorem VfQuery.expanded {Tables : List MetadataTable} {T : MetadataTable} {q : Query}
    (hname : (Tables.map MetadataTable.name).Nodup) (hT : T ∈ Tables) (hfrom : q.fromTable = [T.name])
    (hj : q.join = []) (hq : VfQuery T q) :
    ∃ q', expandStar Tables q = some q' ∧ q'.fromTable = [T.name] ∧ q'.predicate = q.predicate ∧
      q'.selectAttr = selectColumns T q.selectAttr ∧ VfExpanded T q' := by
  obtain ⟨q', hq', hsel, hall⟩ := expandStar_single hname hT hfrom hq.select
  obtain ⟨hfrom', hpred, hj'⟩ := expandStar_fields hq'
  have hattrs : T.attrs ≠ [] := by
    obtain ⟨a, ha, -⟩ := hq.nonkey
    obtain ha | ha := List.mem_append.mp ha
    · exact List.ne_nil_of_mem (selectColumns_subset hq.select a ha)
    · obtain ⟨p, hp, rfl⟩ := List.mem_map.mp ha
      exact List.ne_nil_of_mem (hq.predicates p hp).2
  refine ⟨q', hq', hfrom'.trans hfrom, hpred, hsel, ⟨hj'.trans hj, ?_, ?_, ?_, ?_, ?_⟩⟩
  · rw [hsel]
    exact selectColumns_subset hq.select
  · rw [hsel]
    exact selectColumns_ne_nil hq.select hattrs
  · rw [hpred]
    exact hq.predicates
  · rw [hsel, hpred]
    rintro a (ha | ha)
    · refine hall a (selectColumns_subset hq.select a ha) ?_
      by_cases hstar : q.selectAttr = ["*"]
      · exact .inl hstar
      · rw [selectColumns, if_neg hstar] at ha
        exact .inr (hq.mentioned a (List.mem_append_left _ ha))
    · obtain ⟨p, hp, rfl⟩ := List.mem_map.mp ha
      exact hall _ (hq.predicates p hp).2 (.inr (hq.mentioned _ (List.mem_append_right _ ha)))
  · rw [hsel, hpred]
    obtain ⟨a, ha, hne⟩ := hq.nonkey
    exact ⟨a, List.mem_append.mp ha, hne⟩

/-- **A single-table SELECT over a vertically fragmented table keeps its meaning.** -/
theorem vf_select_meaning (Tables : List MetadataTable) (T : MetadataTable) (q : Query) (db : Placement)
    (rows : List Row) (hname : (Tables.map MetadataTable.name).Nodup) (hT : T ∈ Tables)
    (hfrom : q.fromTable = [T.name]) (hj : q.join = []) (hvf : VfTable T) (hq : VfQuery T q) (hdb : VfRows T db rows) :
    ((∀ F ∈ T.frags, 1 ≤ F.site ∧ F.site ≤ 4) → ∃ t, buildQueryTree Tables q = some t) ∧
    ∀ t, buildQueryTree Tables q = some t →
      (t.eval (rowSemantics db)).Perm
        ((rows.filter (satisfiesAll q.predicate)).map (Row.project (selectColumns T q.selectAttr))) := by
  obtain ⟨q', hq', hfrom', hpred, hsel, hexp⟩ := hq.expanded hname hT hfrom hj
  have hscan : scanTables q' Tables = scanVf q' T Scan.init := by
    rw [scanTables_single hname hT hfrom']
    simp only [scanTable, hfrom', List.mem_singleton, if_true, hvf.vf]
  obtain ⟨a, ha, -⟩ := hexp.nonkey
  obtain ⟨F, hF, -⟩ := hexp.exists_marked hvf ha
  have hne : T.frags.filter (vfMarked q' T) ≠ [] := List.ne_nil_of_mem hF
  have hbuild : ∀ s, scanVf q' T Scan.init = some s →
      ∃ site, buildQueryTree Tables q = some (unionPhase site q'.selectAttr s.tr) := by
    intro s hs
    obtain ⟨first, frag, below, top, siteNums, -, -, -, hsEq⟩ := scanVf_inv hs
    obtain ⟨Rp, hRp⟩ := largestRelation_isSome (m := s.relationSize) (by rw [hsEq]; exact setKey_ne_nil _ _ _)
    exact buildQueryTree_noJoin hj hq' (hscan.trans hs) hRp
  constructor
  · intro hsite
    obtain ⟨s, hs, -⟩ := scanVf_some (q := q') (s := Scan.init) rfl (List.ne_nil_of_mem (List.mem_of_mem_filter hF)) hsite
    obtain ⟨site, ht⟩ := hbuild s hs
    exact ⟨_, ht⟩
  · intro t ht
    obtain ⟨p, tr, hplan, -, -⟩ := buildQueryTree_inv ht
    have hs : scanVf q' T Scan.init = some p.scan := by
      obtain ⟨q'', hq'', hpq⟩ := hplan.query
      obtain rfl : q' = q'' := Option.some.inj (hq'.symm.trans hq'')
      rw [← hscan, ← extendPredicate_of_join_nil hexp.join, ← hpq]
      exact hplan.scan
    obtain ⟨site, ht'⟩ := hbuild p.scan hs
    obtain rfl : t = _ := Option.some.inj (ht.symm.trans ht')
    obtain ⟨first, frag, below, top, siteNums, -, hshape, -, hsEq⟩ := scanVf_inv hs
    rw [hsEq, ← hpred, ← hsel]
    cases hshape with
    | key h => exact absurd h hne
    | one frag h => exact eval_one hvf hexp hdb h site _
    | several h =>
      have hz : Scan.init.tr.length + (vfOperands q' T).length = (vfOperands q' T).length := Nat.zero_add _
      rw [hz]
      exact eval_several hvf hexp hdb first h site _

/-- `select Customer.name from Customer where Customer.rank>1 and Customer.id!=7`. -/
def customerName : Query where
  fromTable := ["Customer"]
  selectAttr := ["Customer.name"]
  allAttr := ["Customer.id", "Customer.name", "Customer.rank"]
  predicate := [⟨"Customer", "rank", .gt, .int, 1, ""⟩, ⟨"Customer", "id", .ne, .int, 7, ""⟩]
  join := []

/-- Two customers. -/
def twoCustomers : List Row :=
  [Row.ofList [("Customer.id", .int 7), ("Customer.name", .str "A"), ("Customer.rank", .int 3)],
   Row.ofList [("Customer.id", .int 8), ("Customer.name", .str "B"), ("Customer.rank", .int 2)]]

def customerPlacement : Placement := fun f =>
  (customer.frags.find? fun F => F.fname = f).elim [] fun F => twoCustomers.map (Row.project F.vfColumn)

theorem customerName_meaning :
    ∃ t, buildQueryTree getMetadata customerName = some t ∧
      (t.eval (rowSemantics customerPlacement)).Perm
        ((twoCustomers.filter (satisfiesAll customerName.predicate)).map (Row.project ["Customer.name"])) := by
  have hstored : ∀ F ∈ customer.frags, (customerPlacement F.fname).Perm (twoCustomers.map (Row.project F.vfColumn)) := by
    intro F hF
    simp only [customer, List.mem_cons, List.not_mem_nil, or_false] at hF
    obtain rfl | rfl := hF <;> exact .refl _
  have h := vf_select_meaning getMetadata customer customerName customerPlacement twoCustomers (by decide)
    (by decide) rfl rfl ⟨rfl, by decide, by decide⟩
    ⟨by decide, by decide, by decide, by decide⟩ ⟨by decide, by decide, hstored⟩
  obtain ⟨t, ht⟩ := h.1 (by decide)
  exact ⟨t, ht, h.2 t ht⟩

end EasyDDB.Optimizer
