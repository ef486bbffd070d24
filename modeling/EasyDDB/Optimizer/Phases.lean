import EasyDDB.Lib.Loops
import EasyDDB.Optimizer.Build

/-! # The phases of `build_query_tree`

What a completed run says about the values that flow from one phase to the next, and the final phase
in terms of look-ups in the node vector. -/
namespace EasyDDB.Optimizer
set_option autoImplicit false

/-! ## Inversion -/

/-- The results of the phases before the join subtrees are built. -/
structure Planned (Tables : List MetadataTable) (q : Query) (p : JoinPlan) : Prop where
  query : ∃ q', expandStar Tables q = some q' ∧ p.query = extendPredicate q'
  scan : scanTables p.query Tables = some p.scan
  join : p.join = sortJoin p.query.join
  edges : buildEdges p.scan.pruning p.join = some p.edges
  joinList : p.joinList = joinLists p.scan.pruning p.edges.edge p.join
  processSite : ∃ Rp, largestRelation p.scan.relationSize = some Rp ∧
    p.processSite = Optimizer.processSite Tables p.scan (sortSites p.scan.siteNums) p.edges.conflict Rp
  joinSite : p.joinSite = fun i =>
    p.joinList.filter fun x => Optimizer.joinSite (sortSites p.scan.siteNums) p.processSite x = i

theorem planJoins_planned {Tables : List MetadataTable} {q : Query} {p : JoinPlan}
    (h : planJoins Tables q = some p) : Planned Tables q p := by
  simp only [planJoins, Option.bind_eq_bind, Option.bind_eq_some_iff, Option.map_eq_some_iff] at h
  obtain ⟨_, ⟨q', hq, rfl⟩, scan, hscan, edges, hedges, Rp, hRp, h⟩ := h
  cases h
  exact ⟨⟨q', hq, rfl⟩, hscan, rfl, hedges, rfl, ⟨Rp, hRp, rfl⟩, rfl⟩

theorem buildQueryTree_inv {Tables : List MetadataTable} {q : Query} {t : Tree}
    (h : buildQueryTree Tables q = some t) :
    ∃ p tr, Planned Tables q p ∧ buildForest p = some tr ∧
      t = unionPhase (p.processSite.head?.getD 0) p.query.selectAttr tr := by
  simp only [buildQueryTree, Option.bind_eq_bind, Option.bind_eq_some_iff] at h
  obtain ⟨p, hp, tr, htr, h⟩ := h
  cases h
  exact ⟨p, tr, planJoins_planned hp, htr, rfl⟩

/-- The tree of a completed plan: the final phase applied to the vector of the join phase. -/
theorem buildQueryTree_forest {Tables : List MetadataTable} {q : Query} {p : JoinPlan} {t : Tree}
    (hp : planJoins Tables q = some p) (ht : buildQueryTree Tables q = some t) :
    ∃ tr, buildForest p = some tr ∧ unionPhase (p.processSite.head?.getD 0) p.query.selectAttr tr = t := by
  simpa [buildQueryTree, hp, Option.bind_eq_some_iff] using ht

theorem expandStar_fields {Tables : List MetadataTable} {q q' : Query} (h : expandStar Tables q = some q') :
    q'.fromTable = q.fromTable ∧ q'.predicate = q.predicate ∧ q'.join = q.join := by
  unfold expandStar at h
  split at h
  · cases h
  · split at h
    · simp only [Option.bind_eq_bind, Option.bind_eq_some_iff] at h
      obtain ⟨_, -, _, -, h⟩ := h
      split at h
      · cases h
        exact ⟨rfl, rfl, rfl⟩
      · cases h
    · cases h
      exact ⟨rfl, rfl, rfl⟩

/-- The query the later phases work with: FROM tables and joins as given, the predicates extended. -/
theorem Planned.query_fields {Tables : List MetadataTable} {q : Query} {p : JoinPlan} (h : Planned Tables q p) :
    p.query.fromTable = q.fromTable ∧ p.query.predicate = (extendPredicate q).predicate ∧ p.query.join = q.join := by
  obtain ⟨q', hq', hpq⟩ := h.query
  obtain ⟨hfrom, hpred, hjoin⟩ := expandStar_fields hq'
  rw [hpq]
  refine ⟨hfrom, ?_, hjoin⟩
  simp only [extendPredicate, hpred, hjoin]

/-! ## Queries without join -/

theorem addPred_nil (P : List Condition) : addPred P [] = [] := by
  simp [addPred]

theorem extendPredicate_of_join_nil {q : Query} (h : q.join = []) : extendPredicate q = q := by
  cases q
  cases h
  simp [extendPredicate, addPred_nil]

theorem buildForest_of_joinList_nil {p : JoinPlan} (h : ∀ i ∈ ([1, 2, 3, 4] : List Int), p.joinSite i = []) :
    buildForest p = some p.scan.tr := by
  simp only [List.forall_mem_cons, List.not_mem_nil, false_imp_iff, implies_true, and_true] at h
  simp [buildForest, buildSite, h, List.foldlM_cons]

theorem Planned.joinSite_nil {Tables : List MetadataTable} {q : Query} {p : JoinPlan} (h : Planned Tables q p)
    (hl : p.joinList = []) (i : Int) : p.joinSite i = [] := by
  simp [h.joinSite, hl]

theorem Planned.joinList_nil {Tables : List MetadataTable} {q : Query} {p : JoinPlan} (h : Planned Tables q p)
    (hj : q.join = []) : p.joinList = [] := by
  rw [h.joinList, h.join, h.query_fields.2.2, hj]
  rfl

theorem planJoins_some {Tables : List MetadataTable} {q q' : Query} {s : Scan} {e : Edges} {Rp : String}
    (hq : expandStar Tables q = some q') (hs : scanTables (extendPredicate q') Tables = some s)
    (he : buildEdges s.pruning (sortJoin q'.join) = some e) (hRp : largestRelation s.relationSize = some Rp) :
    ∃ p, planJoins Tables q = some p ∧ p.query = extendPredicate q' ∧ p.scan = s := by
  have hj : (extendPredicate q').join = q'.join := rfl
  have hsome : (planJoins Tables q).isSome := by
    simp only [planJoins, hq, Option.map_some, Option.bind_eq_bind, Option.bind_some, hs, hj, he, hRp,
      Option.isSome_some]
  obtain ⟨p, hp⟩ := Option.isSome_iff_exists.mp hsome
  have hplan := planJoins_planned hp
  obtain ⟨q'', hq'', hpq⟩ := hplan.query
  obtain rfl : q' = q'' := Option.some.inj (hq.symm.trans hq'')
  refine ⟨p, hp, hpq, ?_⟩
  have hscan := hplan.scan
  rw [hpq, hs] at hscan
  exact (Option.some.inj hscan).symm

theorem buildQueryTree_noJoin {Tables : List MetadataTable} {q q' : Query} {s : Scan} {Rp : String}
    (hj : q.join = []) (hq : expandStar Tables q = some q') (hs : scanTables q' Tables = some s)
    (hRp : largestRelation s.relationSize = some Rp) :
    ∃ site, buildQueryTree Tables q = some (unionPhase site q'.selectAttr s.tr) := by
  have hj' : q'.join = [] := (expandStar_fields hq).2.2.trans hj
  have hs' : scanTables (extendPredicate q') Tables = some s := by rwa [extendPredicate_of_join_nil hj']
  obtain ⟨p, hp, hpq, rfl⟩ := planJoins_some (e := ⟨fun _ => [], []⟩) hq hs' (by rw [hj']; rfl) hRp
  have hplan := planJoins_planned hp
  have hsel : p.query.selectAttr = q'.selectAttr := by rw [hpq]; rfl
  refine ⟨p.processSite.head?.getD 0, ?_⟩
  simp only [buildQueryTree, hp, Option.bind_eq_bind, Option.bind_some, hsel,
    buildForest_of_joinList_nil fun i _ => hplan.joinSite_nil (hplan.joinList_nil hj) i]

/-! ## The final phase -/

theorem setParent_length (tr : List TreeNode) (i par : Nat) : (setParent tr i par).length = tr.length :=
  List.length_modify ..

theorem setParent_getElem? (tr : List TreeNode) (i par j : Nat) :
    (setParent tr i par)[j]? = (tr[j]?).map fun n => if i = j then n.under par else n := by
  unfold setParent
  rw [List.getElem?_modify]
  rfl

theorem foldl_setParent_length (is : List Nat) (par : Nat) (tr : List TreeNode) :
    (is.foldl (fun tr i => setParent tr i par) tr).length = tr.length := by
  induction is generalizing tr with
  | nil => rfl
  | cons i is ih => rw [List.foldl_cons, ih, setParent_length]

theorem foldl_setParent_getElem? (is : List Nat) (par j : Nat) (tr : List TreeNode) :
    (is.foldl (fun tr i => setParent tr i par) tr)[j]? =
      (tr[j]?).map fun n => if j ∈ is then n.under par else n := by
  induction is generalizing tr with
  | nil => simp
  | cons i is ih =>
    rw [List.foldl_cons, ih, setParent_getElem?, Option.map_map]
    congr 1
    funext n
    by_cases hij : i = j
    · subst hij
      by_cases h : i ∈ is <;> simp [h, TreeNode.under]
    · by_cases h : j ∈ is <;> simp [h, hij, Ne.symm hij]

theorem mem_parentless {tr : List TreeNode} {i : Nat} :
    i ∈ parentless tr ↔ ∃ n, tr[i]? = some n ∧ n.parent = -1 := by
  simp only [parentless, List.mem_filter, List.mem_range, Option.any_eq_true, decide_eq_true_eq]
  constructor
  · rintro ⟨-, n, hn, hp⟩
    exact ⟨n, hn, hp⟩
  · rintro ⟨n, hn, hp⟩
    exact ⟨(List.getElem?_eq_some_iff.mp hn).1, n, hn, hp⟩

theorem parentless_nodup (tr : List TreeNode) : (parentless tr).Nodup := List.nodup_range.filter _

theorem unionPhase_of_le (site : Int) (S : List String) {tr : List TreeNode} (h : (parentless tr).length ≤ 1) :
    unionPhase site S tr = { tr := tr, root := (tr.length : Int) - 1 } := by
  unfold unionPhase
  rw [if_neg (by omega)]

section
variable (site : Int) (S : List String) {tr : List TreeNode} (h : 1 < (parentless tr).length)
include h

theorem unionPhase_root : (unionPhase site S tr).root = tr.length := by
  unfold unionPhase
  rw [if_pos h]

theorem unionPhase_length : (unionPhase site S tr).tr.length = tr.length + 1 := by
  unfold unionPhase
  rw [if_pos h, List.length_append, foldl_setParent_length]
  rfl

theorem unionPhase_getElem? {i : Nat} (hi : i < tr.length) :
    (unionPhase site S tr).tr[i]? =
      (tr[i]?).map fun n => if i ∈ parentless tr then n.under tr.length else n := by
  unfold unionPhase
  rw [if_pos h, List.getElem?_append_left (by rw [foldl_setParent_length]; exact hi), foldl_setParent_getElem?]

theorem unionPhase_getElem?_root :
    ∃ n, (unionPhase site S tr).tr[tr.length]? = some n ∧ n.type = .union ∧ n.child = parentless tr ∧
      n.parent = -1 ∧ n.projection ∈ [S, []] := by
  unfold unionPhase
  rw [if_pos h]
  refine ⟨_, by rw [List.getElem?_append_right (by rw [foldl_setParent_length]), foldl_setParent_length,
    Nat.sub_self]; rfl, rfl, rfl, rfl, ?_⟩
  dsimp only
  split_ifs <;> simp

end

end EasyDDB.Optimizer
