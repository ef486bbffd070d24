import EasyDDB.Optimizer.KeptRows
import EasyDDB.Optimizer.SitesFacts
import EasyDDB.Optimizer.TopJoins

/-! # The join subtrees compute the join

The join lists stand for all sequences of kept fragments that can contribute a combination, every join
list is assigned to one site, the patterns of a site cover its join lists once, and the subtree of a
pattern delivers the combinations of the join lists it covers. -/
namespace EasyDDB.Optimizer
open scoped List
set_option autoImplicit false

/-! ## Combinations of the join lists -/

theorem value_of_mem {comb : Comb} (hnd : (comb.map Prod.fst).Nodup) {b : String × Row} (hb : b ∈ comb)
    (col : String) : Comb.value comb b.1 col = b.2 (b.1 ++ "." ++ col) := by
  obtain ⟨l, m, rfl⟩ := List.append_of_mem hb
  rw [List.map_append, List.map_cons, List.nodup_append] at hnd
  have hnot : b.1 ∉ l.map Prod.fst := fun hmem => hnd.2.2 b.1 hmem b.1 (List.mem_cons_self ..) rfl
  rw [value_append_right hnot, value_cons_self]

section
variable {s : Scan} {J : List JoinCell} {rowsOf : FragName → List (String × Row)} (hchain : Chain J) (hne : J ≠ [])
  (hrows : ∀ t, ∀ X ∈ s.pruning t, ∀ b ∈ rowsOf X.fname,
    b.1 = t ∧ b.2.InRange ∧ satisfiesAll X.hfCondition b.2 = true)
  (hplain : ∀ t, ∀ X ∈ s.pruning t, ∀ c ∈ X.hfCondition, c.Plain)
include hchain hne hrows hplain

theorem links_of_holdsAll {l : List FragName}
    (hl : List.Forall₂ (fun f t => ∃ X ∈ s.pruning t, X.fname = f) l (relation J)) {comb : Comb}
    (hcomb : comb ∈ (l.map rowsOf).sections) (hholds : holdsAll J comb = true) :
    l.IsChain fun a b => ∃ p ∈ J, Linked s.pruning p a b := by
  have hsec : List.Forall₂ (fun b f => b ∈ rowsOf f) comb l := List.forall₂_map_right_iff.mp (List.mem_sections.mp hcomb)
  obtain ⟨hlen, hlget⟩ := List.forall₂_iff_get.mp hl
  obtain ⟨hclen, hcget⟩ := List.forall₂_iff_get.mp hsec
  have hat : ∀ i (hi : i < l.length), ∃ X ∈ s.pruning ((relation J).get ⟨i, by omega⟩), X.fname = l[i] ∧
      comb[i] ∈ rowsOf X.fname := by
    intro i hi
    obtain ⟨X, hX, hXf⟩ := hlget i hi (by omega)
    exact ⟨X, hX, hXf, by rw [hXf]; exact hcget i (by omega) hi⟩
  have hkeys : comb.map Prod.fst = relation J := by
    refine List.ext_getElem (by rw [List.length_map]; omega) fun i h1 h2 => ?_
    obtain ⟨X, hX, -, hb⟩ := hat i (by omega)
    rw [List.getElem_map, (hrows _ X hX _ hb).1]
    rfl
  have hnd : (comb.map Prod.fst).Nodup := hkeys ▸ hchain.distinct
  have hJlen := length_relation hne
  rw [List.isChain_iff_getElem]
  intro i hi
  have hiJ : i < J.length := by omega
  have hleft : (relation J).get ⟨i, by omega⟩ = J[i].ltab := by
    simp only [relation, List.get_eq_getElem]
    rw [List.getElem_append_left (by simpa using hiJ), List.getElem_map]
  have hright : (relation J).get ⟨i + 1, by omega⟩ = J[i].rtab := by
    obtain ⟨c, cs, rfl⟩ := List.exists_cons_of_ne_nil hne
    simp only [relation_cons hchain.linked, List.get_eq_getElem, List.getElem_cons_succ, List.getElem_map]
  obtain ⟨X, hX, hXf, hb⟩ := hat i (by omega)
  obtain ⟨Y, hY, hYf, hb'⟩ := hat (i + 1) hi
  rw [hleft] at hX
  rw [hright] at hY
  obtain ⟨ht, hr, hsat⟩ := hrows _ X hX _ hb
  obtain ⟨ht', -, hsat'⟩ := hrows _ Y hY _ hb'
  have hcell : cellHolds comb J[i] = true := List.all_eq_true.mp hholds J[i] (List.getElem_mem hiJ)
  unfold cellHolds at hcell
  rw [← ht, ← ht', value_of_mem hnd (List.getElem_mem _), value_of_mem hnd (List.getElem_mem _), ht, ht'] at hcell
  exact ⟨J[i], List.getElem_mem hiJ, X, hX, Y, hY, hXf, hYf,
    connects_of_sameValue (hplain _ X hX) (hplain _ Y hY) hr hsat hsat' hcell⟩

/-- **The join lists contribute all matching combinations of the kept rows, each once.** -/
theorem joinLists_combs (hnamed : NamedAfter s.pruning) (hnd : ∀ t, ((s.pruning t).map Fragment.fname).Nodup) {e : Edges}
    (he : buildEdges s.pruning J = some e) :
    ((joinLists s.pruning e.edge J).flatMap (tupleCombs J rowsOf)).Perm
      (selectCombs J ((relation J).map fun t => (s.pruning t).flatMap fun X => rowsOf X.fname)) := by
  obtain ⟨c, cs, rfl⟩ := List.exists_cons_of_ne_nil hne
  have hmemnames : ∀ {l : List FragName}, l ∈ ((relation (c :: cs)).map fun t => (s.pruning t).map Fragment.fname).sections ↔
      List.Forall₂ (fun f t => ∃ X ∈ s.pruning t, X.fname = f) l (relation (c :: cs)) := by
    intro l
    rw [List.mem_sections, List.forall₂_map_right_iff]
    simp only [List.mem_map]
  have hsub : ∀ l ∈ joinLists s.pruning e.edge (c :: cs),
      List.Forall₂ (fun f t => ∃ X ∈ s.pruning t, X.fname = f) l (relation (c :: cs)) := by
    intro l hl
    obtain ⟨hlen, ⟨X, hX, hhead⟩, hch⟩ := (mem_joinLists he).mp hl
    rw [← links_of_chain hnamed hchain hlen ⟨_, hhead, hnamed _ X hX⟩ hch, List.forall₂_map_right_iff, List.forall₂_same]
    intro f hf
    obtain ⟨t, Y, hY, rfl⟩ := kept_of_mem_joinLists he hl f hf
    exact ⟨Y, by rwa [hnamed t Y hY], rfl⟩
  have hperm : (joinLists s.pruning e.edge (c :: cs)).Perm
      (((relation (c :: cs)).map fun t => (s.pruning t).map Fragment.fname).sections.filter
        fun l => l ∈ joinLists s.pruning e.edge (c :: cs)) := by
    have hnames : ∀ L ∈ (relation (c :: cs)).map fun t => (s.pruning t).map Fragment.fname, L.Nodup := by
      intro L hL
      obtain ⟨t, -, rfl⟩ := List.mem_map.mp hL
      exact hnd t
    refine (List.perm_ext_iff_of_nodup (joinLists_nodup he hnd) ((Bags.sections_nodup hnames).filter _)).mpr fun l => ?_
    rw [List.mem_filter, decide_eq_true_eq, hmemnames]
    exact ⟨fun hl => ⟨hsub l hl, hl⟩, And.right⟩
  have hnil : ∀ l ∈ ((relation (c :: cs)).map fun t => (s.pruning t).map Fragment.fname).sections,
      decide (l ∈ joinLists s.pruning e.edge (c :: cs)) = false → tupleCombs (c :: cs) rowsOf l = [] := by
    intro l hl hout
    have hl' := hmemnames.mp hl
    refine List.filter_eq_nil_iff.mpr fun comb hcomb hholds => of_decide_eq_false hout ?_
    refine (mem_joinLists he).mpr ⟨by rw [hl'.length_eq, length_relation hne], ?_,
      links_of_holdsAll hchain hne hrows hplain hl' hcomb hholds⟩
    rw [relation_cons hchain.linked] at hl'
    cases hl' with
    | cons hf _ =>
      obtain ⟨X, hX, rfl⟩ := hf
      exact ⟨X, hX, rfl⟩
  refine (hperm.flatMap_right _).trans ?_
  rw [Bags.flatMap_filter_of_nil hnil]
  refine (selectCombs_flatMap (c :: cs) rowsOf _).symm.trans (.of_eq ?_)
  rw [List.map_map]
  simp only [Function.comp_def, List.flatMap_map]

end

/-! ## The loops over sites and patterns -/

/-- While the subtrees are built the topmost Join nodes deliver the combinations `bag`. -/
structure Built (db : Placement) (s : Scan) (rowsOf : FragName → List (String × Row)) (J : List JoinCell) (c : Build)
    (bag : List Comb) : Prop where
  ready : Ready s.mpTr (Kept s) c []
  leaves : Leaves db s.mpTr (Kept s) (fun f => (rowsOf f).map fun b => [b]) c.tr
  tops : ∃ vals, Tops db (J.length + 2) c.tr vals ∧ (vals ≠ [] → J.length + 2 ≤ c.tr.length) ∧
    (vals.flatMap Prod.snd).Perm bag

section
variable {db : Placement} {s : Scan} {rowsOf : FragName → List (String × Row)} {J : List JoinCell} {c : Build}
  {bag : List Comb}

theorem Built.perm {bag' : List Comb} (h : Built db s rowsOf J c bag) (hp : bag.Perm bag') :
    Built db s rowsOf J c bag' := by
  obtain ⟨vals, htops, hlen, hperm⟩ := h.tops
  exact ⟨h.ready, h.leaves, vals, htops, hlen, hperm.trans hp⟩

variable (hforest : ScanForest s) (hchain : Chain J) (hne : J ≠ []) (htag : TaggedRows rowsOf)
include hforest hne

theorem buildPattern_built (site : Int) (S : List String) {plist : Pattern}
    (hx : List.Forall₂ (fun rel nums => ∀ num ∈ nums, Kept s ⟨rel, num⟩) (relation J) plist)
    (h : Built db s rowsOf J c bag) :
    ∃ c', buildPattern site s.mpTr S J c plist = some c' ∧
      Built db s rowsOf J c' (bag ++ patternValue (fun f => (rowsOf f).map fun b => [b]) J plist) := by
  obtain ⟨vals, htops, -, hperm⟩ := h.tops
  obtain ⟨c', i, hc', hready, hleaves, htops', hlen⟩ :
      ∃ c' i, buildPattern site s.mpTr S J c plist = some c' ∧ _ :=
    buildPattern_tops (fun x y => hforest.mpTr_inj) hne hx h.ready h.leaves htops
  refine ⟨c', hc', hready, hleaves, _, htops', fun _ => hlen, ?_⟩
  rw [List.flatMap_append, List.flatMap_singleton]
  exact hperm.append_right _

include hchain htag

theorem buildSite_built (S : List String) {JoinSite : Int → List (List FragName)} {site : Int}
    (hl : ∀ l ∈ JoinSite site, l.map FragName.table = relation J ∧ ∀ f ∈ l, Kept s f)
    (h300 : (JoinSite site).length ≤ 300) (h : Built db s rowsOf J c bag) :
    ∃ c', buildSite s.mpTr S J JoinSite c site = some c' ∧
      Built db s rowsOf J c' (bag ++ (JoinSite site).flatMap (tupleCombs J rowsOf)) := by
  unfold buildSite
  split_ifs with hnil
  · exact ⟨c, rfl, h.perm (.of_eq (by rw [hnil]; simp))⟩
  have hrel := length_relation hne
  have hsz : ∀ l ∈ JoinSite site, l.length = J.length + 1 := fun l hl' => by
    rw [← hrel, ← (hl l hl').1, List.length_map]
  obtain ⟨res, hres, hsec, hfull⟩ := getPattern_exact hsz h300
  have hstep : ∀ pre plist post, res = pre ++ plist :: post → ∀ d : Build,
      Built db s rowsOf J d (bag ++ pre.flatMap (patternValue (fun f => (rowsOf f).map fun b => [b]) J)) →
      ∃ d', buildPattern site s.mpTr S J d plist = some d' ∧ Built db s rowsOf J d'
        (bag ++ (pre ++ [plist]).flatMap (patternValue (fun f => (rowsOf f).map fun b => [b]) J)) := by
    intro pre plist post hsplit d hd
    have hplist : plist ∈ res := hsplit ▸ List.mem_append_right pre (List.mem_cons_self ..)
    have hx : List.Forall₂ (fun rel nums => ∀ num ∈ nums, Kept s ⟨rel, num⟩) (relation J) plist := by
      refine pattern_kept (fun l hl' => (hl l hl').1) (fun l hl' => (hl l hl').2) (hfull plist hplist) hrel.symm
        fun t ht => ?_
      obtain ⟨l, hl', rfl⟩ := List.mem_map.mp (hsec.mem_iff.mp (List.mem_flatMap.mpr ⟨plist, hplist, ht⟩))
      exact ⟨l, hl', rfl⟩
    obtain ⟨d', hd', hbuilt⟩ := buildPattern_built hforest hne site S hx hd
    refine ⟨d', hd', hbuilt.perm (.of_eq ?_)⟩
    rw [List.flatMap_append, List.flatMap_singleton, List.append_assoc]
  obtain ⟨c', hc', hbuilt⟩ := Loops.progress_seen hstep (by simpa using h)
  refine ⟨c', by rw [hres]; exact hc', hbuilt.perm (.append_left bag ?_)⟩
  calc res.flatMap (patternValue (fun f => (rowsOf f).map fun b => [b]) J)
    _ ~ res.flatMap fun plist => plist.sections.flatMap fun nums =>
          tupleCombs J rowsOf (List.zipWith FragName.mk (relation J) nums) :=
        List.Perm.flatMap_left _ fun plist hp => patternValue_perm hchain hne htag (by rw [(hfull plist hp).1, hrel])
    _ = (res.flatMap List.sections).flatMap fun nums =>
          tupleCombs J rowsOf (List.zipWith FragName.mk (relation J) nums) := List.flatMap_assoc.symm
    _ ~ ((JoinSite site).map fun l => l.map FragName.num).flatMap fun nums =>
          tupleCombs J rowsOf (List.zipWith FragName.mk (relation J) nums) := hsec.flatMap_right _
    _ = (JoinSite site).flatMap (tupleCombs J rowsOf) := by
        rw [List.flatMap_map]
        exact List.flatMap_congr fun l hl' => by rw [zipWith_mk_of_tables (hl l hl').1]

theorem buildSites_built (S : List String) {JoinSite : Int → List (List FragName)}
    (hl : ∀ site, ∀ l ∈ JoinSite site, l.map FragName.table = relation J ∧ ∀ f ∈ l, Kept s f)
    (sites : List Int) (h300 : ∀ site ∈ sites, (JoinSite site).length ≤ 300) (h : Built db s rowsOf J c []) :
    ∃ c', sites.foldlM (buildSite s.mpTr S J JoinSite) c = some c' ∧
      Built db s rowsOf J c' (sites.flatMap fun site => (JoinSite site).flatMap (tupleCombs J rowsOf)) := by
  refine Loops.progress_seen (I := fun pre (d : Build) =>
    Built db s rowsOf J d (pre.flatMap fun site => (JoinSite site).flatMap (tupleCombs J rowsOf))) ?_ h
  intro pre site post hsplit d hd
  have hsite : site ∈ sites := hsplit ▸ List.mem_append_right pre (List.mem_cons_self ..)
  obtain ⟨d', hd', hbuilt⟩ := buildSite_built hforest hchain hne htag S (hl site) (h300 site hsite) hd
  refine ⟨d', hd', hbuilt.perm (.of_eq ?_)⟩
  rw [List.flatMap_append, List.flatMap_singleton]

end

/-! ## From the catalog to the topmost Join nodes -/

theorem sameValue_comm (v w : Option Value) : sameValue v w = sameValue w v := by
  cases v <;> cases w <;> simp [sameValue, eq_comm]

theorem cellHolds_swap (comb : Comb) (c : JoinCell) : cellHolds comb c.swap = cellHolds comb c := sameValue_comm ..

/-- The same equalities, in any order and with any orientation, hold in the same combinations. -/
theorem holdsAll_of_edges {J J' : List JoinCell} (h : (J.map JoinCell.edge).Perm (J'.map JoinCell.edge)) :
    holdsAll J = holdsAll J' := by
  have hsub : ∀ {J J' : List JoinCell}, (J.map JoinCell.edge).Perm (J'.map JoinCell.edge) → ∀ comb,
      holdsAll J comb = true → holdsAll J' comb = true := by
    intro J J' h comb hall
    refine List.all_eq_true.mpr fun c hc => ?_
    obtain ⟨d, hd, heq⟩ := List.mem_map.mp (h.mem_iff.mpr (List.mem_map_of_mem hc))
    have hd' : cellHolds comb d = true := List.all_eq_true.mp hall d hd
    obtain rfl | rfl := JoinCell.edge_eq_iff.mp heq
    · exact hd'
    · rwa [cellHolds_swap] at hd'
  funext comb
  rw [Bool.eq_iff_iff]
  exact ⟨hsub h comb, hsub h.symm comb⟩

/-- The rows the recorded node of a fragment delivers, with the name of the table. -/
def recordedRows (db : Placement) (s : Scan) (f : FragName) : List (String × Row) :=
  (((s.tr[s.mpTr f]?).map (selected db)).getD []).map fun r => (f.table, r)

theorem recordedRows_tagged (db : Placement) (s : Scan) : TaggedRows (recordedRows db s) := by
  intro f b hb
  obtain ⟨r, -, rfl⟩ := List.mem_map.mp hb
  rfl

section
variable {Tables : List MetadataTable} {q : Query} {s : Scan} {db : Placement} (h : HfScan Tables q s)
include h

theorem HfScan.recordedRows_eq {t : String} {X : Fragment} (hX : X ∈ s.pruning t) :
    recordedRows db s X.fname = (keptRows db q.predicate X).map fun r => (X.fname.table, r) := by
  obtain ⟨T, select, hn, hsel⟩ := h.node t X hX
  unfold recordedRows keptRows
  rw [hn, hsel]
  rfl

theorem HfScan.leaves : Leaves db s.mpTr (Kept s) (fun f => (recordedRows db s f).map fun b => [b]) s.tr := by
  rintro _ ⟨t, X, hX, rfl⟩
  obtain ⟨T, select, hn, -⟩ := h.node t X hX
  refine ⟨_, hn, rfl, ?_⟩
  simp only [recordedRows, hn, Option.map_some, Option.getD_some, List.map_map]
  rfl

theorem HfScan.built (hforest : ScanForest s) (J : List JoinCell) :
    Built db s (recordedRows db s) J ⟨s.tr, fun _ => false⟩ [] := by
  refine ⟨hforest.ready, h.leaves, [], ⟨List.nodup_nil, fun e he => (List.not_mem_nil he).elim, ?_⟩,
    fun hne => absurd rfl hne, .refl _⟩
  intro j n hn ht
  exact NodeType.noConfusion ((h.fragment n (List.mem_of_getElem? hn)).symm.trans ht)

end

/-! ## The plan of a query over horizontally fragmented tables -/

section
variable {Tables : List MetadataTable} {q : Query} {p : JoinPlan} (hplan : Planned Tables q p)
include hplan

theorem Planned.kept_of_mem {l : List FragName} (hl : l ∈ p.joinList) : ∀ f ∈ l, Kept p.scan f := by
  rw [hplan.joinList] at hl
  exact kept_of_mem_joinLists hplan.edges hl

variable (hcat : HfCatalog Tables q.fromTable)
include hcat

theorem Planned.hfCatalog : HfCatalog Tables p.query.fromTable := by rwa [hplan.query_fields.1]

theorem Planned.hfScan : HfScan Tables p.query p.scan := scanTables_hfScan (hplan.hfCatalog hcat) hplan.scan

theorem Planned.kept_frag {tab : String} {X : Fragment} (hX : X ∈ p.scan.pruning tab) :
    ∃ T ∈ Tables, T.name = tab ∧ T.name ∈ q.fromTable ∧ X ∈ T.frags := by
  obtain ⟨T, hT, rfl, hmem, hXT⟩ := (hplan.hfScan hcat).kept tab X hX
  exact ⟨T, hT, rfl, hplan.query_fields.1 ▸ hmem, hXT⟩

theorem Planned.namedAfter : NamedAfter p.scan.pruning := by
  intro tab X hX
  obtain ⟨T, hT, rfl, hmem, hXT⟩ := hplan.kept_frag hcat hX
  rw [(hcat.frag T hT hmem X hXT).1]

theorem Planned.recordedRows_table (db : Placement) (tab : String) :
    ((p.scan.pruning tab).flatMap fun X => recordedRows db p.scan X.fname) =
      (keptTableRows Tables q db tab).map fun r => (tab, r) := by
  obtain ⟨hfrom, hpred, -⟩ := hplan.query_fields
  rw [keptTableRows_eq hfrom hpred (hplan.hfCatalog hcat).type hplan.scan, List.map_flatMap]
  refine List.flatMap_congr fun X hX => ?_
  rw [(hplan.hfScan hcat).recordedRows_eq hX, hplan.namedAfter hcat tab X hX]

theorem Planned.joinSite_perm : (([1, 2, 3, 4] : List Int).flatMap p.joinSite).Perm p.joinList := by
  have hcat' := hplan.hfCatalog hcat
  have hnumbered : NumberedSites Tables p.query.fromTable := by
    intro T hT hmem
    refine ⟨hcat'.type T hT hmem, fun F hF => ?_⟩
    obtain ⟨hfname, hsize, -⟩ := hcat'.frag T hT hmem F hF
    exact ⟨by rw [hfname], hsize⟩
  have hshares := (scanTables_shares hnumbered hplan.scan).sorted
  have hne : sortSites p.scan.siteNums ≠ [] := by
    intro hnil
    have hlen := hshares.sites.length_eq
    rw [hnil] at hlen
    cases hlen
  obtain ⟨Rp, -, hproc⟩ := hplan.processSite
  rw [hplan.joinSite]
  refine Bags.flatMap_filter_keys (by decide) fun l hl => ?_
  rw [hproc]
  refine joinSite_mem hshares (processSite_subset hne).1 (processSite_subset hne).2 fun f hf => ?_
  obtain ⟨tab, X, hX, rfl⟩ := hplan.kept_of_mem hl f hf
  exact ⟨X, by rwa [hplan.namedAfter hcat tab X hX], rfl⟩

end

/-- **The join subtrees compute the join without loss or duplication.** The topmost Join nodes together
deliver exactly the combinations of one kept row of each table that satisfy all the join equalities. -/
theorem join_subtrees_meaning (Tables : List MetadataTable) (q : Query) (db : Placement) (ch : List JoinCell)
    (hcat : HfCatalog Tables q.fromTable)
    (hdb : ∀ T ∈ Tables, T.name ∈ q.fromTable → ∀ F ∈ T.frags, ∀ r ∈ db F.fname,
      r.InRange ∧ satisfiesAll F.hfCondition r = true)
    (hne : q.join ≠ []) (hpath : Path ch q.join)
    (hstart : ch.head?.map JoinCell.ltab = q.join.head?.map JoinCell.ltab) :
    (PlanDefined Tables q → ∃ p, planJoins Tables q = some p) ∧
    ∀ p, planJoins Tables q = some p → (∀ site ∈ ([1, 2, 3, 4] : List Int), (p.joinSite site).length ≤ 300) →
      ∃ t, buildQueryTree Tables q = some t ∧
        ((topJoins t.tr).flatMap (evalNode (combSemantics db) t.tr t.tr.length)).Perm
          (selectCombs q.join ((relation ch).map fun tab => (keptTableRows Tables q db tab).map fun r => (tab, r))) := by
  refine ⟨planJoins_defined, fun p hp h300 => ?_⟩
  have hplan := planJoins_planned hp
  have hsorted := sortJoin_eq_of_path hpath hstart
  have hpj : p.join = ch := by rw [hplan.join, hplan.query_fields.2.2, hsorted]
  have hchne : ch ≠ [] := by
    have hlen : ch.length = q.join.length := by simpa using hpath.edges.length_eq
    exact List.ne_nil_of_length_pos (by rw [hlen]; exact List.length_pos_of_ne_nil hne)
  have hedges := hplan.edges
  have hlists := hplan.joinList
  rw [hpj] at hedges hlists
  have hforest := scanTables_forest hplan.scan
  have hscan := hplan.hfScan hcat
  have hnamed := hplan.namedAfter hcat
  have hrows : ∀ tab, ∀ X ∈ p.scan.pruning tab, ∀ b ∈ recordedRows db p.scan X.fname,
      b.1 = tab ∧ b.2.InRange ∧ satisfiesAll X.hfCondition b.2 = true := by
    intro tab X hX b hb
    rw [hscan.recordedRows_eq hX] at hb
    obtain ⟨r, hr, rfl⟩ := List.mem_map.mp hb
    obtain ⟨T, hT, -, hmem, hXT⟩ := hplan.kept_frag hcat hX
    exact ⟨hnamed tab X hX, hdb T hT hmem X hXT r (keptRows_subset hr)⟩
  have hplain : ∀ tab, ∀ X ∈ p.scan.pruning tab, ∀ c ∈ X.hfCondition, c.Plain := by
    intro tab X hX
    obtain ⟨T, hT, -, hmem, hXT⟩ := hplan.kept_frag hcat hX
    exact (hcat.frag T hT hmem X hXT).2.2
  have hsite : ∀ site, ∀ l ∈ p.joinSite site, l.map FragName.table = relation ch ∧ ∀ f ∈ l, Kept p.scan f := by
    intro site l hl
    rw [hplan.joinSite] at hl
    have hmem := List.mem_of_mem_filter hl
    refine ⟨?_, hplan.kept_of_mem hmem⟩
    rw [hlists] at hmem
    have htab := joinLists_of_path hnamed hpath (hsorted.symm ▸ hedges) (hsorted.symm ▸ hmem)
    rw [hsorted] at htab
    exact htab.2
  obtain ⟨c, hc, hbuilt⟩ := buildSites_built hforest hpath.toChain hchne (recordedRows_tagged db p.scan)
    p.query.selectAttr hsite [1, 2, 3, 4] h300 (hscan.built hforest ch)
  obtain ⟨vals, htops, hlen, hperm⟩ := hbuilt.tops
  refine ⟨unionPhase (p.processSite.head?.getD 0) p.query.selectAttr c.tr, ?_, ?_⟩
  · simp only [buildQueryTree, buildForest, hp, hpj, hc, Option.bind_eq_bind, Option.bind_some, Option.map_some]
  have hcombs := joinLists_combs hpath.toChain hchne hrows hplain hnamed
    (scanTables_pruning_nodup (hplan.hfCatalog hcat).names (hplan.hfCatalog hcat).fnames hplan.scan) hedges
  rw [← hlists] at hcombs
  refine (htops.final _ _ hbuilt.ready.forest.closed hlen).trans (hperm.trans ?_)
  rw [← List.flatMap_assoc]
  refine ((hplan.joinSite_perm hcat).flatMap_right _).trans (hcombs.trans (.of_eq ?_))
  unfold selectCombs
  rw [holdsAll_of_edges hpath.edges, List.map_congr_left fun tab _ => hplan.recordedRows_table hcat db tab]

/-! ## A join of the catalog -/

/-- `select Book.title from Book, Publisher where Book.publisher_id = Publisher.id`. -/
def booksOfPublishers : Query := { bookPublisher with predicate := [] }

theorem booksOfPublishers_hfCatalog : HfCatalog getMetadata booksOfPublishers.fromTable where
  names := by decide
  type := by decide
  fnames := by decide
  frag := by decide

theorem booksOfPublishers_path : Path booksOfPublishers.join booksOfPublishers.join where
  linked := by simp [booksOfPublishers, bookPublisher]
  distinct := by decide
  edges := .refl _

theorem onePublisher_stored : ∀ T ∈ getMetadata, T.name ∈ booksOfPublishers.fromTable → ∀ F ∈ T.frags,
    ∀ r ∈ onePublisher F.fname, r.InRange ∧ satisfiesAll F.hfCondition r = true := by
  intro T hT hmem F hF r hr
  refine ⟨?_, (show ∀ T ∈ getMetadata, T.name ∈ booksOfPublishers.fromTable → ∀ F ∈ T.frags,
    ∀ r ∈ onePublisher F.fname, satisfiesAll F.hfCondition r = true by decide) T hT hmem F hF r hr⟩
  unfold onePublisher at hr
  split_ifs at hr
  · rw [List.mem_singleton.mp hr]
    exact Row.ofList_inRange (by decide)
  · rw [List.mem_singleton.mp hr]
    exact Row.ofList_inRange (by decide)
  · cases hr

/-- The book is delivered with its publisher, once. -/
theorem booksOfPublishers_combinations :
    ∃ t, buildQueryTree getMetadata booksOfPublishers = some t ∧
      ((topJoins t.tr).flatMap (evalNode (combSemantics onePublisher) t.tr t.tr.length)).Perm
        (selectCombs booksOfPublishers.join (["Book", "Publisher"].map fun tab =>
          (keptTableRows getMetadata booksOfPublishers onePublisher tab).map fun r => (tab, r))) ∧
      (selectCombs booksOfPublishers.join (["Book", "Publisher"].map fun tab =>
        (keptTableRows getMetadata booksOfPublishers onePublisher tab).map fun r => (tab, r))).length = 1 := by
  have h := join_subtrees_meaning getMetadata booksOfPublishers onePublisher booksOfPublishers.join
    booksOfPublishers_hfCatalog onePublisher_stored (by decide) booksOfPublishers_path rfl
  obtain ⟨p, hp⟩ := h.1 ⟨by decide, by decide, by decide, by decide, by decide, by decide, by decide⟩
  have hall : ((planJoins getMetadata booksOfPublishers).all fun p => p.joinList.length ≤ 300) = true := by decide
  rw [hp, Option.all_some, decide_eq_true_eq] at hall
  obtain ⟨t, ht, hperm⟩ := h.2 p hp fun site _ => ((planJoins_planned hp).joinSite_length site).trans hall
  exact ⟨t, ht, hperm, by decide⟩

end EasyDDB.Optimizer
