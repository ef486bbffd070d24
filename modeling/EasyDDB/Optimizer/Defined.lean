import EasyDDB.Optimizer.Pruning
import EasyDDB.Optimizer.ScanFacts

/-! # Where the plan is defined

Conditions under which no phase before the construction of the join subtrees reads an unset value or
indexes outside a vector, and what the kept fragments are. -/
namespace EasyDDB.Optimizer
open OrderedMap
set_option autoImplicit false

/-! ## Kept fragments -/

/-- The kept fragments belong to the tables of the catalog. -/
def KeptFrom (Tables : List MetadataTable) (pruning : String → List Fragment) : Prop :=
  ∀ t, ∀ X ∈ pruning t, ∃ T ∈ Tables, T.name = t ∧ X ∈ T.frags

theorem KeptFrom.record {Tables : List MetadataTable} {s : Scan} (h : KeptFrom Tables s.pruning)
    {table : MetadataTable} (ht : table ∈ Tables) {frag : Fragment} (hf : frag ∈ table.frags) (below : List TreeNode)
    (top : TreeNode) (relationSize : List (String × Int)) (siteNums : List SiteNum) :
    KeptFrom Tables (s.record below top table frag relationSize siteNums).pruning := by
  intro t X hX
  simp only [Scan.record] at hX
  by_cases htn : t = table.name
  · subst htn
    rw [Function.update_self, List.mem_append, List.mem_singleton] at hX
    obtain hX | rfl := hX
    · exact h _ X hX
    · exact ⟨table, ht, rfl, hf⟩
  · rw [Function.update_of_ne htn] at hX
    exact h t X hX

theorem VfShape.mem_frags {q : Query} {table : MetadataTable} {first frag : Fragment} {sz : Nat}
    {below : List TreeNode} {top : TreeNode} (h : VfShape q table first sz frag below top)
    (hfirst : table.frags.head? = some first) : frag ∈ table.frags := by
  cases h with
  | key _ => exact List.mem_of_mem_head? hfirst
  | one frag h => exact List.mem_of_mem_filter (h ▸ List.mem_singleton_self frag)
  | several _ => exact List.mem_of_mem_head? hfirst

/-- What a scanned table does to the state: nothing, or one node after the other is recorded. -/
theorem scanTable_invariant {q : Query} {table : MetadataTable} {s s' : Scan} (I : Scan → Prop)
    (hsize : ∀ c r, I c → I { c with relationSize := r })
    (hhf : ∀ c frag select r siteNums, frag ∈ table.frags → table.type = .hf → I c →
      fragSelect frag.hfCondition q.predicate = some (some select) →
      addRelationAt c.siteNums frag.site table.name frag.size = some siteNums →
      I (c.record [] (hfNode q table frag select) table frag r siteNums))
    (hvf : ∀ c first frag below top r siteNums, frag ∈ table.frags → I c →
      VfShape q table first c.tr.length frag below top → siteNums.length = c.siteNums.length →
      I (c.record below top table frag r siteNums))
    (hs : I s) (h : scanTable q s table = some s') : I s' := by
  unfold scanTable at h
  split_ifs at h with hmem
  · cases htype : table.type with
    | hf =>
      rw [htype] at h
      refine Loops.invariant (I := I) ?_ (hsize s _ hs) h
      intro frag hfrag c c' hc hstep
      obtain ⟨-, rfl⟩ | ⟨select, siteNums, hsel, hadd, rfl⟩ := scanHfFrag_inv hstep
      · exact hc
      · exact hhf c frag select _ siteNums hfrag htype hc hsel hadd
    | vf =>
      rw [htype] at h
      obtain ⟨first, frag, below, top, siteNums, hfirst, hshape, hadd, rfl⟩ := scanVf_inv h
      exact hvf s first frag below top _ siteNums (hshape.mem_frags hfirst) hs hshape (addRelationAt_length hadd)
  · cases h
    exact hs

/-- When the FROM tables are horizontally fragmented the loop records Fragment nodes only. -/
theorem scanTables_hf_invariant {q : Query} {Tables : List MetadataTable} {s : Scan}
    (hhf : ∀ T ∈ Tables, T.name ∈ q.fromTable → T.type = .hf) (I : Scan → Prop)
    (hsize : ∀ c r, I c → I { c with relationSize := r })
    (hrec : ∀ T ∈ Tables, T.name ∈ q.fromTable → ∀ F ∈ T.frags, ∀ c select r siteNums, I c →
      fragSelect F.hfCondition q.predicate = some (some select) →
      addRelationAt c.siteNums F.site T.name F.size = some siteNums →
      I (c.record [] (hfNode q T F select) T F r siteNums))
    (hinit : I Scan.init) (h : scanTables q Tables = some s) : I s := by
  refine Loops.invariant (I := I) ?_ hinit h
  intro T hT c c' hc hstep
  by_cases hmem : T.name ∈ q.fromTable
  · simp only [scanTable, hmem, if_true, hhf T hT hmem] at hstep
    refine Loops.invariant (I := I) ?_ (hsize c _ hc) hstep
    intro F hF d d' hd hdstep
    obtain ⟨-, rfl⟩ | ⟨select, siteNums, hsel, hadd, rfl⟩ := scanHfFrag_inv hdstep
    · exact hd
    · exact hrec T hT hmem F hF d select _ siteNums hd hsel hadd
  · rw [scanTable_skip hmem] at hstep
    cases hstep
    exact hc

theorem scanTable_keptFrom {Tables : List MetadataTable} {q : Query} {table : MetadataTable} {s s' : Scan}
    (ht : table ∈ Tables) (hs : KeptFrom Tables s.pruning) (h : scanTable q s table = some s') :
    KeptFrom Tables s'.pruning :=
  scanTable_invariant (fun c => KeptFrom Tables c.pruning) (fun _ _ hc => hc)
    (fun _ _ _ _ _ hfrag _ hc _ _ => hc.record ht hfrag _ _ _ _)
    (fun _ _ _ _ _ _ _ hfrag hc _ _ => hc.record ht hfrag _ _ _ _) hs h

theorem scanTables_keptFrom {Tables : List MetadataTable} {q : Query} {s : Scan} (h : scanTables q Tables = some s) :
    KeptFrom Tables s.pruning := by
  refine Loops.invariant (I := fun (c : Scan) => KeptFrom Tables c.pruning) ?_ ?_ h
  · exact fun table ht c c' hc hstep => scanTable_keptFrom ht hc hstep
  · intro t X hX
    cases hX

/-! ## Edges -/

theorem overlaps_isSome {x y : Condition} (hx : x.getSection.isSome) (hy : y.getSection.isSome) :
    (overlaps x y).isSome := by
  obtain ⟨s, hs⟩ := Option.isSome_iff_exists.mp hx
  obtain ⟨s', hs'⟩ := Option.isSome_iff_exists.mp hy
  unfold overlaps
  rw [hs, hs']
  split_ifs <;> rfl

theorem connects_isSome (p : JoinCell) {x y : Fragment} (hx : ∀ c ∈ x.hfCondition, c.getSection.isSome)
    (hy : ∀ c ∈ y.hfCondition, c.getSection.isSome) : (connects p x y).isSome := by
  have hstep : ∀ o ∈ (findAttr x.hfCondition p.ltab p.lcol).flatMap (fun conx =>
      (findAttr y.hfCondition p.rtab p.rcol).map (overlaps conx)), ∀ mark : Bool, True →
        ∃ b, (o.map fun b => mark && b) = some b ∧ True := by
    intro o ho mark _
    obtain ⟨conx, hconx, ho⟩ := List.mem_flatMap.mp ho
    obtain ⟨cony, hcony, rfl⟩ := List.mem_map.mp ho
    obtain ⟨b, hb⟩ := Option.isSome_iff_exists.mp
      (overlaps_isSome (hx conx (List.mem_of_mem_filter hconx)) (hy cony (List.mem_of_mem_filter hcony)))
    exact ⟨mark && b, by rw [hb]; rfl, trivial⟩
  obtain ⟨b, hb, -⟩ := Loops.progress (I := fun _ => True) (b := true) hstep trivial
  simp only [connects]
  split_ifs
  · rfl
  · rfl
  · rw [hb]
    rfl

theorem buildEdges_some {pruning : String → List Fragment} {Join : List JoinCell}
    (h : ∀ t, ∀ X ∈ pruning t, ∀ c ∈ X.hfCondition, c.getSection.isSome) :
    ∃ e, buildEdges pruning Join = some e := by
  have hcell : ∀ p ∈ Join, ∀ c : Edges, True → ∃ c', (cellPairs pruning p).foldlM (addEdge p) c = some c' ∧ True := by
    intro p _ c _
    refine Loops.progress (I := fun (_ : Edges) => True) (fun xy hxy d _ => ?_) trivial
    obtain ⟨X, hX, hxy⟩ := List.mem_flatMap.mp hxy
    obtain ⟨Y, hY, rfl⟩ := List.mem_map.mp hxy
    obtain ⟨mark, hmark⟩ := Option.isSome_iff_exists.mp (connects_isSome p (h _ X hX) (h _ Y hY))
    simp only [addEdge, hmark, Option.bind_eq_bind, Option.bind_some]
    split_ifs <;> exact ⟨_, rfl, trivial⟩
  obtain ⟨e, he, -⟩ := Loops.progress (I := fun _ => True) (b := (⟨fun _ => [], []⟩ : Edges)) hcell trivial
  exact ⟨e, he⟩

/-! ## The plan -/

/-- No phase of the plan leaves the defined behaviour: there is a select list, `*` stands for a table of
the catalog, a FROM table is in the catalog, fragments lie on the four sites, vertically fragmented tables
have fragments, and conditions have interval bounds wherever they are compared. -/
structure PlanDefined (Tables : List MetadataTable) (q : Query) : Prop where
  select : q.selectAttr ≠ []
  star : q.selectAttr.head? = some "*" → "*" ∈ q.allAttr ∧ ∃ t ∈ q.fromTable.head?, (findTable Tables t).isSome
  table : ∃ T ∈ Tables, T.name ∈ q.fromTable
  sites : ∀ T ∈ Tables, ∀ F ∈ T.frags, 1 ≤ F.site ∧ F.site ≤ 4
  vf : ∀ T ∈ Tables, T.type = .vf → T.frags ≠ []
  pruning : PruningDefined Tables q
  sections : ∀ T ∈ Tables, ∀ F ∈ T.frags, ∀ c ∈ F.hfCondition, c.getSection.isSome

theorem expandStar_some {Tables : List MetadataTable} {q : Query} (h : PlanDefined Tables q) :
    ∃ q', expandStar Tables q = some q' := by
  obtain ⟨s, S, hs⟩ := List.exists_cons_of_ne_nil h.select
  by_cases hstar : s = "*"
  · subst hstar
    obtain ⟨hall, t, ht, hfind⟩ := h.star (by rw [hs]; rfl)
    obtain ⟨T, hT⟩ := Option.isSome_iff_exists.mp hfind
    simp [expandStar, hs, Option.mem_def.mp ht, hT, hall]
  · exact ⟨q, by simp [expandStar, hs, hstar]⟩

section
variable {Tables : List MetadataTable} {q q' : Query} (h : PlanDefined Tables q)
  (hfrom : q'.fromTable = q.fromTable) (hpred : q'.predicate = (extendPredicate q).predicate)
include h hfrom hpred

theorem scanTable_some {T : MetadataTable} (hT : T ∈ Tables) {s : Scan} (hl : s.siteNums.length = 4) :
    ∃ s', scanTable q' s T = some s' ∧ s'.siteNums.length = 4 := by
  unfold scanTable
  split_ifs with hmem
  · rw [hfrom] at hmem
    cases htype : T.type with
    | hf =>
      refine scanHf_some hl (fun frag hfrag => ?_) (h.sites T hT)
      obtain ⟨hown, hset⟩ := h.pruning T hT hmem htype frag hfrag
      rw [hpred, fragSelect_spec hown hset]
      rfl
    | vf => exact scanVf_some hl (h.vf T hT htype) (h.sites T hT)
  · exact ⟨s, rfl, hl⟩

theorem scanTables_some : ∃ s, scanTables q' Tables = some s ∧ s.relationSize ≠ [] := by
  obtain ⟨s, hs, -⟩ := Loops.progress (I := fun (c : Scan) => c.siteNums.length = 4) (l := Tables)
    (f := scanTable q') (b := Scan.init) (fun T hT c hc => scanTable_some h hfrom hpred hT hc) rfl
  refine ⟨s, hs, ?_⟩
  have hsize : ∀ {T : MetadataTable} {c c' : Scan}, scanTable q' c T = some c' →
      c.relationSize ≠ [] ∨ T.name ∈ q'.fromTable → c'.relationSize ≠ [] := by
    intro T c c' hstep hor
    unfold scanTable at hstep
    split_ifs at hstep with hmem
    · cases htype : T.type with
      | hf =>
        rw [htype] at hstep
        exact scanHf_relationSize hstep
      | vf =>
        rw [htype] at hstep
        obtain ⟨_, _, _, _, _, -, -, -, rfl⟩ := scanVf_inv hstep
        exact setKey_ne_nil _ _ _
    · cases hstep
      exact hor.resolve_right hmem
  have hseen := Loops.invariant_seen
    (I := fun seen (c : Scan) => (∃ T ∈ seen, T.name ∈ q'.fromTable) → c.relationSize ≠ []) ?_ (by simp) hs
  · exact hseen (by rw [hfrom]; exact h.table)
  · rintro pre T post - c c' hc hstep ⟨T', hT', hmem⟩
    refine hsize hstep ?_
    obtain hT' | hT' := List.mem_append.mp hT'
    · exact .inl (hc ⟨T', hT', hmem⟩)
    · exact .inr (List.mem_singleton.mp hT' ▸ hmem)

end

theorem planJoins_defined {Tables : List MetadataTable} {q : Query} (h : PlanDefined Tables q) :
    ∃ p, planJoins Tables q = some p := by
  obtain ⟨q', hq'⟩ := expandStar_some h
  obtain ⟨hfrom, hpred, hjoin⟩ := expandStar_fields hq'
  have hpred' : (extendPredicate q').predicate = (extendPredicate q).predicate := by
    simp only [extendPredicate, hpred, hjoin]
  have hfrom' : (extendPredicate q').fromTable = q.fromTable := hfrom
  obtain ⟨s, hs, hsize⟩ := scanTables_some h hfrom' hpred'
  obtain ⟨Rp, hRp⟩ := largestRelation_isSome hsize
  have hsections : ∀ t, ∀ X ∈ s.pruning t, ∀ c ∈ X.hfCondition, c.getSection.isSome := by
    intro t X hX
    obtain ⟨T, hT, -, hXT⟩ := scanTables_keptFrom hs t X hX
    exact h.sections T hT X hXT
  obtain ⟨e, he⟩ : ∃ e, buildEdges s.pruning (sortJoin q'.join) = some e := buildEdges_some hsections
  obtain ⟨p, hp, -, -⟩ := planJoins_some hq' hs he hRp
  exact ⟨p, hp⟩

end EasyDDB.Optimizer
