import EasyDDB.Optimizer.JoinMeaning
import EasyDDB.Optimizer.LineUp

/-! # What the root of a join query delivers

The final phase unites whatever has no parent: the topmost Join nodes, and the Fragment nodes that no join list has asked
for. The result of the query is therefore the matching combinations of kept rows, and besides them every kept row of a
stray fragment, alone. -/
namespace EasyDDB.Optimizer
open Arena
set_option autoImplicit false

/-! ## The final phase -/

section
variable {α : Type} {sem : Semantics α} (hsem : sem.IgnoresLinks) {tr : List TreeNode} (hc : Closed tr) (site : Int)
  (S : List String)
include hsem hc

/-- Several nodes without a parent are united by the node that the final phase adds. -/
theorem unionPhase_eval_many (h : 1 < (parentless tr).length) :
    (unionPhase site S tr).eval sem =
      sem.union (rootNode site S tr) ((parentless tr).map (evalNode sem tr tr.length)) := by
  have hroot : (contents (unionPhase site S tr).tr)[tr.length]? = some (rootNode site S tr) := by
    rw [contents_unionPhase, if_pos h, ← contents_length tr]
    exact List.getElem?_concat_length
  rw [contents_getElem?] at hroot
  obtain ⟨n, hn, hnode⟩ := Option.map_eq_some_iff.mp hroot
  have htype : n.type = .union := congrArg TreeNode.type hnode
  have hchild : n.child = parentless tr := congrArg TreeNode.child hnode
  rw [Tree.eval, unionPhase_root site S h, if_pos (Int.natCast_nonneg _), unionPhase_length site S h,
    Int.toNat_natCast, evalNode_union sem _ hn htype, hchild, ← hnode, hsem.union]
  refine congrArg _ (List.map_congr_left fun i hi => ?_)
  obtain ⟨m, hm, -⟩ := mem_parentless.mp hi
  exact evalNode_grown hsem (unionPhase_grown site S tr) hc _ (List.getElem?_eq_some_iff.mp hm).1

omit hsem hc in
/-- A single node without a parent is the last one. -/
theorem unionPhase_eval_one (hlast : tr ≠ [] → Root tr (tr.length - 1)) (h : (parentless tr).length ≤ 1) :
    (unionPhase site S tr).eval sem = (parentless tr).flatMap (evalNode sem tr tr.length) := by
  rw [unionPhase_of_le site S h, Tree.eval]
  by_cases hnil : tr = []
  · subst hnil
    rfl
  have hmem : tr.length - 1 ∈ parentless tr := mem_parentless_iff_root.mpr (hlast hnil)
  have hone : parentless tr = [tr.length - 1] := by
    obtain ⟨i, hi⟩ := List.length_eq_one_iff.mp (Nat.le_antisymm h (List.length_pos_of_mem hmem))
    rw [hi] at hmem ⊢
    rw [List.mem_singleton.mp hmem]
  have hpos := List.length_pos_of_ne_nil hnil
  rw [hone, List.flatMap_singleton, if_pos (show (0 : Int) ≤ (tr.length : Int) - 1 by omega),
    show ((tr.length : Int) - 1).toNat = tr.length - 1 by omega]

end

theorem unionPhase_eval_combs {db : Placement} {tr : List TreeNode} (hc : Closed tr)
    (hlast : tr ≠ [] → Root tr (tr.length - 1)) (site : Int) (S : List String) :
    (unionPhase site S tr).eval (combSemantics db) =
      (parentless tr).flatMap (evalNode (combSemantics db) tr tr.length) := by
  by_cases h : 1 < (parentless tr).length
  · rw [unionPhase_eval_many (combSemantics_ignoresLinks db) hc site S h, List.flatMap_def]
    rfl
  · exact unionPhase_eval_one site S hlast (Nat.le_of_not_lt h)

/-! ## The nodes without a parent -/

/-- The node is no Join node. -/
def notJoin (tr : List TreeNode) (i : Nat) : Bool := (tr[i]?).all fun n => n.type ≠ .join

section
variable {db : Placement} {k : Nat} {tr : List TreeNode} {vals : List (Nat × List Comb)} (h : Tops db k tr vals)
include h

theorem Tops.parentless_perm :
    (parentless tr).Perm (vals.map Prod.fst ++ (parentless tr).filter (notJoin tr)) := by
  have hjoins : ((parentless tr).filter fun i => !notJoin tr i).Perm (vals.map Prod.fst) := by
    refine (List.perm_ext_iff_of_nodup ((parentless_nodup tr).filter _) h.nodup).mpr fun i => ?_
    rw [List.mem_filter, mem_parentless]
    constructor
    · rintro ⟨⟨n, hn, hp⟩, hjoin⟩
      have ht : n.type = .join := by
        by_contra hne
        simp [notJoin, hn, hne] at hjoin
      obtain hmem | ⟨par, m, hpar, -⟩ := h.linked i n hn ht
      · exact hmem
      · omega
    · intro hi
      obtain ⟨e, he, rfl⟩ := List.mem_map.mp hi
      obtain ⟨⟨n, hn, ht, hp⟩, -⟩ := h.top e he
      exact ⟨⟨n, hn, hp⟩, by simp [notJoin, hn, ht]⟩
  refine (List.filter_append_perm (notJoin tr) (parentless tr)).symm.trans ?_
  exact (List.Perm.append_left _ hjoins).trans List.perm_append_comm

theorem Tops.eval_parentless (hk : vals ≠ [] → k ≤ tr.length) :
    ((parentless tr).flatMap (evalNode (combSemantics db) tr tr.length)).Perm
      (vals.flatMap Prod.snd ++ ((parentless tr).filter (notJoin tr)).flatMap
        (evalNode (combSemantics db) tr tr.length)) := by
  refine (h.parentless_perm.flatMap_right _).trans (.of_eq ?_)
  rw [List.flatMap_append, List.flatMap_map]
  congr 1
  exact List.flatMap_congr fun e he => (h.top e he).2.2 _ (hk (List.ne_nil_of_mem he))

end

/-! ## Stray fragments -/

/-- The rows of the kept fragments that occur in no join list, each as a combination of its own. -/
def strayRows (Tables : List MetadataTable) (q : Query) (db : Placement) (joinList : List (List FragName)) : List Comb :=
  (Tables.filter fun T => T.name ∈ q.fromTable).flatMap fun T =>
    (T.frags.filter fun F => ∀ l ∈ joinList, F.fname ∉ l).flatMap fun F =>
      (keptRows db (extendPredicate q).predicate F).map fun r => [(T.name, r)]

theorem scanTables_tr {q : Query} {Tables : List MetadataTable} {s : Scan}
    (hhf : ∀ T ∈ Tables, T.name ∈ q.fromTable → T.type = .hf) (h : scanTables q Tables = some s) :
    s.tr = (Tables.filter fun T => T.name ∈ q.fromTable).flatMap fun T => T.frags.flatMap (hfNodes q T) := by
  refine Loops.invariant_seen (I := fun pre (c : Scan) =>
    c.tr = (pre.filter fun T => T.name ∈ q.fromTable).flatMap fun T => T.frags.flatMap (hfNodes q T)) ?_ rfl h
  intro pre T post hsplit c c' hc hstep
  have hT : T ∈ Tables := hsplit ▸ List.mem_append_right pre (List.mem_cons_self ..)
  rw [List.filter_append, List.flatMap_append, ← hc]
  by_cases hmem : T.name ∈ q.fromTable
  · simp only [scanTable, hmem, if_true, hhf T hT hmem] at hstep
    rw [scanHf_tr hstep]
    simp [hmem]
  · rw [scanTable_skip hmem] at hstep
    cases hstep
    simp [hmem]

/-- What the node of a fragment delivers, if the fragment is kept. -/
theorem hfNodes_leaf {q : Query} {T : MetadataTable} {F : Fragment} (db : Placement) {p : FragName → Bool}
    (hp : p F.fname = true) :
    (hfNodes q T F).flatMap (fun n => if p n.fname then (combSemantics db).leaf n else []) =
      (keptRows db q.predicate F).map fun r => [(F.fname.table, r)] := by
  unfold hfNodes keptRows
  cases fragSelect F.hfCondition q.predicate with
  | none => rfl
  | some select? =>
    cases select? with
    | none => rfl
    | some select =>
      simp only [List.flatMap_singleton]
      exact if_pos hp

theorem mem_hfNodes {q : Query} {T : MetadataTable} {F : Fragment} {n : TreeNode} (hn : n ∈ hfNodes q T F) :
    ∃ select, n = hfNode q T F select := by
  unfold hfNodes at hn
  split at hn
  · exact ⟨_, List.mem_singleton.mp hn⟩
  · cases hn

theorem hfNodes_map_fname (q : Query) (T : MetadataTable) (frags : List Fragment) :
    ((frags.flatMap (hfNodes q T)).map TreeNode.fname).Sublist (frags.map Fragment.fname) := by
  rw [List.map_flatMap, ← List.flatMap_pure_eq_map]
  induction frags with
  | nil => exact .slnil
  | cons F frags ih =>
    rw [List.flatMap_cons, List.flatMap_cons]
    refine List.Sublist.append ?_ ih
    unfold hfNodes
    split
    · exact .refl _
    · exact List.nil_sublist _

section
variable {Tables : List MetadataTable} {q : Query} {s : Scan} (hcat : HfCatalog Tables q.fromTable)
  (h : scanTables q Tables = some s)
include hcat h

/-- No two nodes of the scan carry the same name. -/
theorem scanTables_fnames_nodup : (s.tr.map TreeNode.fname).Nodup := by
  rw [scanTables_tr hcat.type h, List.map_flatMap, List.nodup_flatMap]
  have hfrom : ∀ T ∈ Tables.filter fun T => T.name ∈ q.fromTable, T ∈ Tables ∧ T.name ∈ q.fromTable := by
    intro T hT
    rw [List.mem_filter] at hT
    exact ⟨hT.1, of_decide_eq_true hT.2⟩
  refine ⟨fun T hT => ?_, ?_⟩
  · obtain ⟨hmem, hfromT⟩ := hfrom T hT
    exact (hcat.fnames T hmem hfromT).sublist (hfNodes_map_fname q T T.frags)
  · have hnames : ((Tables.filter fun T => T.name ∈ q.fromTable).map MetadataTable.name).Nodup :=
      hcat.names.sublist (List.filter_sublist.map _)
    refine (List.pairwise_map.mp hnames).imp_of_mem fun {T T'} hT hT' hne x hx hx' => hne ?_
    have htable : ∀ U ∈ Tables.filter fun T => T.name ∈ q.fromTable,
        x ∈ (U.frags.flatMap (hfNodes q U)).map TreeNode.fname → x.table = U.name := by
      intro U hU hxU
      obtain ⟨hmem, hfromU⟩ := hfrom U hU
      obtain ⟨F, hF, rfl⟩ := List.mem_map.mp ((hfNodes_map_fname q U U.frags).subset hxU)
      rw [(hcat.frag U hmem hfromU F hF).1]
    rw [← htable T hT hx, ← htable T' hT' hx']

end

section
variable {Tables : List MetadataTable} {q : Query} {p : JoinPlan} (hplan : Planned Tables q p)
  (hcat : HfCatalog Tables q.fromTable)
include hplan hcat

theorem Planned.strayRows_eq (db : Placement) :
    (p.scan.tr.flatMap fun n =>
      if decide (∀ l ∈ p.joinList, n.fname ∉ l) then (combSemantics db).leaf n else []) =
      strayRows Tables q db p.joinList := by
  obtain ⟨hfrom, hpred, -⟩ := hplan.query_fields
  rw [scanTables_tr (hplan.hfCatalog hcat).type hplan.scan, List.flatMap_assoc, strayRows, hfrom]
  refine List.flatMap_congr fun T hT => ?_
  rw [List.mem_filter] at hT
  obtain ⟨hT, hmem⟩ := hT
  rw [List.flatMap_assoc, ← hpred]
  rw [← Bags.flatMap_filter_of_nil (l := T.frags) (p := fun F => decide (∀ l ∈ p.joinList, F.fname ∉ l))]
  · refine List.flatMap_congr fun F hF => ?_
    rw [List.mem_filter] at hF
    rw [hfNodes_leaf (p := fun x => decide (∀ l ∈ p.joinList, x ∉ l)) db hF.2,
      (hcat.frag T hT (of_decide_eq_true hmem) F hF.1).1]
  · intro F _ hF
    refine List.flatMap_eq_nil_iff.mpr fun n hn => ?_
    obtain ⟨select, rfl⟩ := mem_hfNodes hn
    exact if_neg (Bool.eq_false_iff.mp hF)

omit hcat in
theorem Planned.scanned_hf (htype : ∀ T ∈ Tables, T.name ∈ q.fromTable → T.type = .hf) {i : Nat} {n : TreeNode}
    (hn : p.scan.tr[i]? = some n) :
    ∃ T ∈ Tables, T.name ∈ q.fromTable ∧ ∃ F ∈ T.frags, ∃ select, n = hfNode p.query T F select := by
  have hmem := List.mem_of_getElem? hn
  rw [scanTables_tr (fun T hT hfrom => htype T hT (hplan.query_fields.1 ▸ hfrom)) hplan.scan] at hmem
  obtain ⟨T, hT, hmem⟩ := List.mem_flatMap.mp hmem
  obtain ⟨F, hF, hmem⟩ := List.mem_flatMap.mp hmem
  rw [List.mem_filter, hplan.query_fields.1, decide_eq_true_eq] at hT
  exact ⟨T, hT.1, hT.2, F, hF, mem_hfNodes hmem⟩

variable (hnamed : ∀ T ∈ Tables, ∀ F ∈ T.frags, F.fname.table = T.name) {ch : List JoinCell} (hpath : Path ch q.join)
  {tr : List TreeNode} (htr : buildForest p = some tr)
include hnamed hpath htr

omit hcat in
theorem Planned.scanned_node {i : Nat} {n : TreeNode} (hn : p.scan.tr[i]? = some n) :
    ∃ par, tr[i]? = some (n.under par) := by
  obtain ⟨cp, hg, -⟩ := buildForest_grows (hplan.asks_kept hnamed hpath) htr
  have hC : (contents tr)[i]? = some (n.under (-1)) := by
    refine prefix_getElem? hg.kept ?_
    rw [contents_getElem?, hn]
    rfl
  rw [contents_getElem?] at hC
  obtain ⟨m, hm, hmn⟩ := Option.map_eq_some_iff.mp hC
  refine ⟨m.parent, hm.trans (congrArg some ?_)⟩
  show (m.under (-1)).under m.parent = (n.under (-1)).under m.parent
  rw [hmn]

/-- The nodes without a parent that are no Join nodes are those of the stray fragments. -/
theorem Planned.mem_stray_iff {i : Nat} : i ∈ (parentless tr).filter (notJoin tr) ↔
    ∃ n, p.scan.tr[i]? = some n ∧ ∀ l ∈ p.joinList, n.fname ∉ l := by
  obtain ⟨T, htops, hroots⟩ := buildForest_roots hplan hnamed hpath htr
  have hforest := scanTables_forest hplan.scan
  have hscan := hplan.hfScan hcat
  have hlists : ∀ l, l ∈ p.joinList ↔ ∃ site ∈ ([1, 2, 3, 4] : List Int), l ∈ p.joinSite site := by
    intro l
    rw [← (hplan.joinSite_perm hcat).mem_iff, List.mem_flatMap]
  have hindex : ∀ n, p.scan.tr[i]? = some n → ∀ x, Kept p.scan x → (p.scan.mpTr x = i ↔ n.fname = x) := by
    intro n hn x hx
    obtain ⟨t, X, hX, rfl⟩ := hx
    obtain ⟨m, hm, -, hname⟩ := hforest.recorded t X hX
    constructor
    · rintro rfl
      rw [← Option.some.inj (hm.symm.trans hn), hname]
    · intro hfname
      have hlt := (List.getElem?_eq_some_iff.mp hm).1
      refine (List.getElem?_inj (by simpa using hlt)
        (scanTables_fnames_nodup (hplan.hfCatalog hcat) hplan.scan)).mp ?_
      rw [List.getElem?_map, List.getElem?_map, hm, hn, Option.map_some, Option.map_some, hname, hfname]
  rw [List.mem_filter, mem_parentless_iff_root, hroots]
  constructor
  · rintro ⟨htop | ⟨⟨n, hn, -⟩, hnone⟩, hnot⟩
    · obtain ⟨-, n, hn, ht, -⟩ := htops i htop
      simp [notJoin, hn, ht] at hnot
    · refine ⟨n, hn, fun l hl hmem => ?_⟩
      obtain ⟨site, hsite, hls⟩ := (hlists l).mp hl
      exact hnone site hsite l hls _ hmem ((hindex n hn _ (hplan.kept_of_mem hl _ hmem)).mpr rfl)
  · rintro ⟨n, hn, hnone⟩
    have hmem := List.mem_of_getElem? hn
    have hroot : Root p.scan.tr i := by
      obtain ⟨T, -, -, F, -, select, rfl⟩ := hplan.scanned_hf hcat.type hn
      exact ⟨_, hn, rfl⟩
    refine ⟨.inr ⟨hroot, fun site hsite l hl x hx heq => ?_⟩, ?_⟩
    · have hl := (hlists l).mpr ⟨site, hsite, hl⟩
      exact hnone l hl ((hindex n hn x (hplan.kept_of_mem hl x hx)).mp heq ▸ hx)
    · obtain ⟨par, hm⟩ := hplan.scanned_node hnamed hpath htr hn
      simp [notJoin, hm, TreeNode.under, hscan.fragment n hmem]

theorem Planned.eval_stray (db : Placement) :
    (((parentless tr).filter (notJoin tr)).flatMap (evalNode (combSemantics db) tr tr.length)).Perm
      (strayRows Tables q db p.joinList) := by
  have hscan := hplan.hfScan hcat
  let stray : TreeNode → Bool := fun n => decide (∀ l ∈ p.joinList, n.fname ∉ l)
  let value : Nat → List Comb := fun i =>
    (p.scan.tr[i]?).elim [] fun n => if stray n then (combSemantics db).leaf n else []
  have hperm : ((parentless tr).filter (notJoin tr)).Perm
      ((List.range p.scan.tr.length).filter fun i => (p.scan.tr[i]?).any stray) := by
    refine (List.perm_ext_iff_of_nodup ((parentless_nodup tr).filter _) (List.nodup_range.filter _)).mpr fun i => ?_
    rw [hplan.mem_stray_iff hcat hnamed hpath htr, List.mem_filter, List.mem_range, Option.any_eq_true]
    constructor
    · rintro ⟨n, hn, hnone⟩
      exact ⟨(List.getElem?_eq_some_iff.mp hn).1, n, hn, decide_eq_true hnone⟩
    · rintro ⟨-, n, hn, hnone⟩
      exact ⟨n, hn, of_decide_eq_true hnone⟩
  have heval : ∀ i ∈ (List.range p.scan.tr.length).filter fun i => (p.scan.tr[i]?).any stray,
      evalNode (combSemantics db) tr tr.length i = value i := by
    intro i hi
    rw [List.mem_filter, Option.any_eq_true] at hi
    obtain ⟨-, n, hn, hstray⟩ := hi
    obtain ⟨par, hm⟩ := hplan.scanned_node hnamed hpath htr hn
    have ht : (n.under par).type = .fragment := hscan.fragment n (List.mem_of_getElem? hn)
    have hpos : 0 < tr.length := Nat.zero_lt_of_lt (List.getElem?_eq_some_iff.mp hm).1
    obtain ⟨fuel, hfuel⟩ : ∃ fuel, tr.length = fuel + 1 := ⟨tr.length - 1, by omega⟩
    have hvalue : value i = (combSemantics db).leaf n := by
      simp only [value, hn, Option.elim_some, hstray, if_true]
    rw [hfuel, evalNode_fragment _ fuel hm ht, hvalue]
    exact (combSemantics_ignoresLinks db).leaf n par n.child
  have hnil : ∀ i ∈ List.range p.scan.tr.length, (p.scan.tr[i]?).any stray = false → value i = [] := by
    intro i _ hi
    cases hn : p.scan.tr[i]? with
    | none => simp only [value, hn, Option.elim_none]
    | some n =>
      rw [hn] at hi
      simp only [value, hn, Option.elim_some]
      exact if_neg (by simpa using hi)
  refine (hperm.flatMap_right _).trans (.of_eq ?_)
  rw [List.flatMap_congr heval, Bags.flatMap_filter_of_nil hnil, ← hplan.strayRows_eq hcat db]
  exact Bags.flatMap_range_getElem? _ _

end

/-! ## The whole query -/

section
variable {Tables : List MetadataTable} {q : Query} {p : JoinPlan} (hplan : Planned Tables q p)
  (hcat : HfCatalog Tables q.fromTable) {db : Placement}
  (hdb : ∀ T ∈ Tables, T.name ∈ q.fromTable → ∀ F ∈ T.frags, ∀ r ∈ db F.fname,
    r.InRange ∧ satisfiesAll F.hfCondition r = true)
  (hne : q.join ≠ []) {ch : List JoinCell} (hpath : Path ch q.join)
  (hstart : ch.head?.map JoinCell.ltab = q.join.head?.map JoinCell.ltab)
include hplan hpath hstart

theorem Planned.join_eq : p.join = ch := by
  rw [hplan.join, hplan.query_fields.2.2, sortJoin_eq_of_path hpath hstart]

include hcat hdb hne

/-- The vector before the final phase, with the values of its topmost Join nodes. -/
theorem Planned.forest_tops (h300 : ∀ site ∈ ([1, 2, 3, 4] : List Int), (p.joinSite site).length ≤ 300) :
    ∃ tr vals, buildForest p = some tr ∧ Forested tr ∧ Tops db (ch.length + 2) tr vals ∧
      (vals ≠ [] → ch.length + 2 ≤ tr.length) ∧ (vals.flatMap Prod.snd).Perm
        (selectCombs q.join ((relation ch).map fun tab => (keptTableRows Tables q db tab).map fun r => (tab, r))) := by
  have hpj := hplan.join_eq hpath hstart
  have hsorted := sortJoin_eq_of_path hpath hstart
  have hchne : ch ≠ [] := by
    have hlen : ch.length = q.join.length := by simpa using hpath.edges.length_eq
    exact List.ne_nil_of_length_pos (hlen ▸ List.length_pos_of_ne_nil hne)
  have hedges := hplan.edges
  have hlists := hplan.joinList
  rw [hpj] at hedges hlists
  have hforest := scanTables_forest hplan.scan
  have hscan := hplan.hfScan hcat
  have hnamed := hplan.namedAfter hcat
  have hkept : ∀ tab, ∀ X ∈ p.scan.pruning tab, (∀ c ∈ X.hfCondition, c.Plain) ∧
      ∀ b ∈ recordedRows db p.scan X.fname, b.1 = tab ∧ b.2.InRange ∧ satisfiesAll X.hfCondition b.2 = true := by
    intro tab X hX
    obtain ⟨T, hT, -, hmem, hXT⟩ := hplan.kept_frag hcat hX
    refine ⟨(hcat.frag T hT hmem X hXT).2.2, fun b hb => ?_⟩
    rw [hscan.recordedRows_eq hX] at hb
    obtain ⟨r, hr, rfl⟩ := List.mem_map.mp hb
    exact ⟨hnamed tab X hX, hdb T hT hmem X hXT r (keptRows_subset hr)⟩
  have hsite : ∀ site, ∀ l ∈ p.joinSite site, l.map FragName.table = relation ch ∧ ∀ f ∈ l, Kept p.scan f := by
    intro site l hl
    have hmem := (hplan.mem_joinSite_iff.mp hl).1
    refine ⟨?_, hplan.kept_of_mem hmem⟩
    rw [hlists] at hmem
    have htab := joinLists_of_path hnamed hpath (hsorted.symm ▸ hedges) (hsorted.symm ▸ hmem)
    rw [hsorted] at htab
    exact htab.2
  obtain ⟨c, hc, hbuilt⟩ := buildSites_built hforest hpath.toChain hchne (recordedRows_tagged db p.scan)
    p.query.selectAttr hsite [1, 2, 3, 4] h300 (hscan.built hforest ch)
  obtain ⟨vals, htops, hlen, hperm⟩ := hbuilt.tops
  refine ⟨c.tr, vals, ?_, hbuilt.ready.forest, htops, hlen, hperm.trans ?_⟩
  · simp only [buildForest, hpj, hc, Option.map_some]
  have hcombs := joinLists_combs hpath.toChain hchne (fun tab X hX => (hkept tab X hX).2)
    (fun tab X hX => (hkept tab X hX).1) hnamed
    (scanTables_pruning_nodup (hplan.hfCatalog hcat).names (hplan.hfCatalog hcat).fnames hplan.scan) hedges
  rw [← hlists] at hcombs
  rw [← List.flatMap_assoc]
  refine ((hplan.joinSite_perm hcat).flatMap_right _).trans (hcombs.trans (.of_eq ?_))
  unfold selectCombs
  rw [holdsAll_of_edges hpath.edges, List.map_congr_left fun tab _ => hplan.recordedRows_table hcat db tab]

end

theorem Planned.forest_last {Tables : List MetadataTable} {q : Query} {p : JoinPlan} (hplan : Planned Tables q p)
    (hnamed : ∀ T ∈ Tables, ∀ F ∈ T.frags, F.fname.table = T.name) {ch : List JoinCell} (hpath : Path ch q.join)
    {tr : List TreeNode} (htr : buildForest p = some tr) (hne : tr ≠ []) : Root tr (tr.length - 1) := by
  by_cases hnil : p.scan.tr = []
  · exact absurd (Option.some.inj ((buildForest_nil hplan hnamed hpath hnil).symm.trans htr)).symm hne
  · exact (buildForest_forest hplan hnamed hpath hnil htr).2.2

section
variable {Tables : List MetadataTable} {q : Query} {p : JoinPlan} (hplan : Planned Tables q p)
  (hcat : HfCatalog Tables q.fromTable) (hnamed : ∀ T ∈ Tables, ∀ F ∈ T.frags, F.fname.table = T.name) {db : Placement}
  (hdb : ∀ T ∈ Tables, T.name ∈ q.fromTable → ∀ F ∈ T.frags, ∀ r ∈ db F.fname,
    r.InRange ∧ satisfiesAll F.hfCondition r = true)
  (hne : q.join ≠ []) {ch : List JoinCell} (hpath : Path ch q.join)
  (hstart : ch.head?.map JoinCell.ltab = q.join.head?.map JoinCell.ltab)
include hplan hcat hnamed hdb hne hpath hstart

/-- The value of the tree that the final phase makes of the join subtrees. -/
theorem Planned.eval_combs (h300 : ∀ site ∈ ([1, 2, 3, 4] : List Int), (p.joinSite site).length ≤ 300) :
    ∃ tr, buildForest p = some tr ∧ ∀ site S, ((unionPhase site S tr).eval (combSemantics db)).Perm
      (selectCombs q.join ((relation ch).map fun tab => (keptTableRows Tables q db tab).map fun r => (tab, r)) ++
        strayRows Tables q db p.joinList) := by
  obtain ⟨tr, vals, htr, hforest, htops, hlen, hperm⟩ := hplan.forest_tops hcat hdb hne hpath hstart h300
  refine ⟨tr, htr, fun site S => ?_⟩
  rw [unionPhase_eval_combs hforest.closed (hplan.forest_last hnamed hpath htr)]
  refine (htops.eval_parentless hlen).trans (hperm.append ?_)
  exact hplan.eval_stray hcat hnamed hpath htr db

end

end EasyDDB.Optimizer
