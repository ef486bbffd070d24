import EasyDDB.Optimizer.Reorder
import EasyDDB.Optimizer.Single
import EasyDDB.Optimizer.WellFormed

/-! # Reordered queries with the same sorted joins

With the same sorted join list the construction of the join subtrees runs in lockstep on the scans of two
reordered queries. Which sorted list comes out depends on the first join of the clause: `sortJoin` chains
the cells to the right of the first one only. -/
namespace EasyDDB.Optimizer
set_option autoImplicit false

/-! ## Construction in lockstep -/

/-- Build states that differ in the selections and sites of their nodes only. -/
structure SameBuild (s s' : Build) : Prop where
  cpTr : s'.cpTr = s.cpTr
  tr : List.Forall₂ SameNode s.tr s'.tr

section
variable {mpTr : FragName → Nat} {s s' : Build} (hs : SameBuild s s')
include hs

theorem getTreeNode_same {x : FragName} {i : Nat} {r : Build} (h : getTreeNode mpTr x s = some (i, r)) :
    ∃ r', getTreeNode mpTr x s' = some (i, r') ∧ SameBuild r r' := by
  unfold getTreeNode at h ⊢
  rw [hs.cpTr]
  split_ifs at h ⊢
  · simp only [Option.bind_eq_bind, Option.bind_eq_some_iff] at h
    obtain ⟨n, hn, h⟩ := h
    obtain ⟨m, hm, hnm⟩ := Pointwise.getElem? hs.tr hn
    cases h
    rw [hm, hs.tr.length_eq]
    cases hnm with
    | mk select site hp => exact ⟨_, rfl, rfl, List.rel_append hs.tr (.cons ⟨select, site, hp⟩ .nil)⟩
  · cases h
    exact ⟨_, rfl, rfl, hs.tr⟩

theorem addChild_same {rel : String} {par : Nat} {num : Int} {r : Build} (h : addChild mpTr rel par s num = some r) :
    ∃ r', addChild mpTr rel par s' num = some r' ∧ SameBuild r r' := by
  simp only [addChild, Option.bind_eq_bind, Option.bind_eq_some_iff] at h ⊢
  obtain ⟨⟨i, s₁⟩, hget, n, hn, h⟩ := h
  obtain ⟨s₁', hget', hs₁⟩ := getTreeNode_same hs hget
  obtain ⟨m, hm, hnm⟩ := Pointwise.getElem? hs₁.tr hn
  have hout : m.output = n.output := by
    cases hnm
    rfl
  cases h
  refine ⟨_, ⟨_, hget', m, hm, rfl⟩, hs₁.cpTr, ?_⟩
  dsimp only
  rw [hout]
  refine Pointwise.modify (Pointwise.modify hs₁.tr ?_ par) (fun a b hab => hab.under par) i
  intro a b hab
  cases hab with
  | mk select site hp => exact ⟨select, site, hp⟩

theorem operand_same {site : Int} {rel : String} {nums : List Int} {i : Nat} {r : Build}
    (h : operand site mpTr rel nums s = some (i, r)) :
    ∃ r', operand site mpTr rel nums s' = some (i, r') ∧ SameBuild r r' := by
  unfold operand at h ⊢
  split at h
  · exact getTreeNode_same hs h
  · simp only [Option.bind_eq_bind, Option.bind_eq_some_iff] at h ⊢
    obtain ⟨s₁, hfold, h⟩ := h
    cases h
    have hstart : SameBuild { s with tr := s.tr ++ [{ type := .union, site := site }] }
        { s' with tr := s'.tr ++ [{ type := .union, site := site }] } :=
      ⟨hs.cpTr, List.rel_append hs.tr (.cons ⟨_, _, .refl _⟩ .nil)⟩
    have hstep : ∀ num ∈ nums, ∀ d e d' : Build, SameBuild d e → addChild mpTr rel s.tr.length d num = some d' →
        ∃ e', addChild mpTr rel s.tr.length e num = some e' ∧ SameBuild d' e' :=
      fun num _ d e d' hde hd => addChild_same hde hd
    obtain ⟨s₁', hfold', hs₁⟩ := Loops.forward hstep hstart hfold
    rw [← hs.tr.length_eq]
    exact ⟨s₁', ⟨s₁', hfold', rfl⟩, hs₁⟩

end

theorem operands_same {mpTr : FragName → Nat} {site : Int} {rels : List String} {plist : Pattern} {s s' r : Build}
    {is : List Nat} (hs : SameBuild s s') (h : operands site mpTr rels plist s = some (is, r)) :
    ∃ r', operands site mpTr rels plist s' = some (is, r') ∧ SameBuild r r' := by
  induction rels generalizing plist s s' is with
  | nil =>
    cases h
    exact ⟨s', rfl, hs⟩
  | cons rel rels ih =>
    cases plist with
    | nil =>
      cases h
      exact ⟨s', rfl, hs⟩
    | cons nums plist =>
      simp only [operands, Option.bind_eq_bind, Option.bind_eq_some_iff] at h ⊢
      obtain ⟨⟨i, s₁⟩, hop, ⟨js, s₂⟩, hops, h⟩ := h
      cases h
      obtain ⟨s₁', hop', hs₁⟩ := operand_same hs hop
      obtain ⟨s₂', hops', hs₂⟩ := ih hs₁ hops
      exact ⟨s₂', ⟨_, hop', _, hops', rfl⟩, hs₂⟩

theorem pushJoin_same {site : Int} {S : List String} {c : JoinCell} {next : Option JoinCell} {l k i : Nat}
    {s s' r : Build} (hs : SameBuild s s') (h : pushJoin site S c next l k s = some (i, r)) :
    ∃ r', pushJoin site S c next l k s' = some (i, r') ∧ SameBuild r r' := by
  simp only [pushJoin, Option.bind_eq_bind, Option.bind_eq_some_iff] at h ⊢
  obtain ⟨x, hx, y, hy, h⟩ := h
  obtain ⟨x', hx', hxx⟩ := Pointwise.getElem? hs.tr hx
  obtain ⟨y', hy', hyy⟩ := Pointwise.getElem? hs.tr hy
  have hattr : getAttr x' y' = getAttr x y := by
    cases hxx
    cases hyy
    rfl
  cases h
  rw [hs.tr.length_eq]
  refine ⟨_, ⟨x', hx', y', hy', rfl⟩, hs.cpTr, ?_⟩
  dsimp only
  rw [hattr]
  refine Pointwise.modify (Pointwise.modify (List.rel_append hs.tr (.cons ⟨_, _, .refl _⟩ .nil)) ?_ l) ?_ k
  · exact fun a b hab => hab.under _
  · exact fun a b hab => hab.under _

theorem joinChain_same {site : Int} {S : List String} {cs : List JoinCell} {is : List Nat} {par i : Nat}
    {s s' r : Build} (hs : SameBuild s s') (h : joinChain site S cs is par s = some (i, r)) :
    ∃ r', joinChain site S cs is par s' = some (i, r') ∧ SameBuild r r' := by
  induction cs generalizing is par s s' with
  | nil =>
    cases h
    exact ⟨s', rfl, hs⟩
  | cons c cs ih =>
    cases is with
    | nil =>
      cases h
      exact ⟨s', rfl, hs⟩
    | cons j is =>
      simp only [joinChain, Option.bind_eq_bind, Option.bind_eq_some_iff] at h ⊢
      obtain ⟨⟨par₁, s₁⟩, hpush, h⟩ := h
      obtain ⟨s₁', hpush', hs₁⟩ := pushJoin_same hs hpush
      obtain ⟨r', hr', hrr⟩ := ih hs₁ h
      exact ⟨r', ⟨_, hpush', hr'⟩, hrr⟩

theorem buildPattern_same {mpTr : FragName → Nat} {site : Int} {S : List String} {J : List JoinCell} {plist : Pattern}
    {s s' r : Build} (hs : SameBuild s s') (h : buildPattern site mpTr S J s plist = some r) :
    ∃ r', buildPattern site mpTr S J s' plist = some r' ∧ SameBuild r r' := by
  simp only [buildPattern, Option.bind_eq_bind, Option.bind_eq_some_iff] at h ⊢
  obtain ⟨⟨is, s₁⟩, hops, h⟩ := h
  obtain ⟨s₁', hops', hs₁⟩ := operands_same hs hops
  cases is with
  | nil => cases h
  | cons i is =>
    simp only [Option.bind_eq_some_iff] at h
    obtain ⟨⟨par, s₂⟩, hchain, h⟩ := h
    obtain ⟨s₂', hchain', hs₂⟩ := joinChain_same hs₁ hchain
    cases h
    refine ⟨s₂', ⟨_, hops', ?_⟩, hs₂⟩
    simp only [hchain', Option.bind_some]

theorem buildSite_same {mpTr : FragName → Nat} {S : List String} {J : List JoinCell}
    {JoinSite : Int → List (List FragName)} {site : Int} {s s' r : Build} (hs : SameBuild s s')
    (h : buildSite mpTr S J JoinSite s site = some r) :
    ∃ r', buildSite mpTr S J JoinSite s' site = some r' ∧ SameBuild r r' := by
  unfold buildSite at h ⊢
  split_ifs at h ⊢
  · cases h
    exact ⟨s', rfl, hs⟩
  · simp only [Option.bind_eq_bind, Option.bind_eq_some_iff] at h ⊢
    obtain ⟨res, hres, h⟩ := h
    have hstep : ∀ plist ∈ res, ∀ d e d' : Build, SameBuild d e → buildPattern site mpTr S J d plist = some d' →
        ∃ e', buildPattern site mpTr S J e plist = some e' ∧ SameBuild d' e' :=
      fun plist _ d e d' hde hd => buildPattern_same hde hd
    obtain ⟨r', hr', hrr⟩ := Loops.forward hstep hs h
    exact ⟨r', ⟨res, hres, hr'⟩, hrr⟩

/-! ## The final phase and the evaluation -/

section
variable {tr tr' : List TreeNode} (h : List.Forall₂ SameNode tr tr')
include h

theorem parentless_same : parentless tr' = parentless tr := by
  have hpar : tr.map TreeNode.parent = tr'.map TreeNode.parent :=
    Pointwise.map_eq h fun n m hnm => by cases hnm; rfl
  have hget : ∀ i : Nat, (tr'[i]?).map TreeNode.parent = (tr[i]?).map TreeNode.parent := by
    intro i
    rw [← List.getElem?_map, ← List.getElem?_map, hpar]
  unfold parentless
  rw [h.length_eq]
  refine List.filter_congr fun i _ => ?_
  have hany : ∀ o : Option TreeNode, (o.any fun n => decide (n.parent = -1)) =
      (o.map TreeNode.parent).any fun p => decide (p = -1) := by
    intro o
    cases o <;> rfl
  rw [hany, hany, hget]

theorem setParents_same (is : List Nat) (par : Nat) :
    List.Forall₂ SameNode (is.foldl (fun tr i => setParent tr i par) tr) (is.foldl (fun tr i => setParent tr i par) tr') := by
  induction is generalizing tr tr' with
  | nil => exact h
  | cons i is ih => exact ih (Pointwise.modify h (fun a b hab => hab.under par) i)

theorem unionPhase_same (site site' : Int) (S : List String) :
    (unionPhase site' S tr').root = (unionPhase site S tr).root ∧
      List.Forall₂ SameNode (unionPhase site S tr).tr (unionPhase site' S tr').tr := by
  have hout : tr.map TreeNode.output = tr'.map TreeNode.output :=
    Pointwise.map_eq h fun n m hnm => by cases hnm; rfl
  have hget : ∀ i : Nat, (tr'[i]?).map TreeNode.output = (tr[i]?).map TreeNode.output := by
    intro i
    rw [← List.getElem?_map, ← List.getElem?_map, hout]
  have hroots := setParents_same h (parentless tr) tr.length
  unfold unionPhase
  dsimp only
  rw [parentless_same h, ← h.length_eq]
  simp only [hget]
  by_cases hlen : (parentless tr).length > 1
  · rw [if_pos hlen, if_pos hlen]
    exact ⟨rfl, List.rel_append hroots (.cons ⟨_, _, .refl _⟩ .nil)⟩
  · rw [if_neg hlen, if_neg hlen]
    exact ⟨rfl, h⟩

theorem evalNode_same (db : Placement) (fuel i : Nat) :
    evalNode (rowSemantics db) tr' fuel i = evalNode (rowSemantics db) tr fuel i := by
  induction fuel generalizing i with
  | zero => rfl
  | succ fuel ih =>
    cases hn : tr[i]? with
    | none =>
      have hm : tr'[i]? = none := by
        rw [List.getElem?_eq_none_iff] at hn ⊢
        rwa [← h.length_eq]
      simp only [evalNode, hn, hm]
    | some n =>
      obtain ⟨m, hm, hnm⟩ := Pointwise.getElem? h hn
      have hkids : evalNode (rowSemantics db) tr' fuel = evalNode (rowSemantics db) tr fuel := funext ih
      cases hnm with
      | mk select site hp =>
        simp only [evalNode, hn, hm, hkids]
        cases n.type with
        | fragment =>
          change ((db n.fname).filter (satisfiesAll select)).map _ = ((db n.fname).filter (satisfiesAll n.select)).map _
          rw [satisfiesAll_perm hp]
          rfl
        | union => rfl
        | join => rfl

end

/-! ## The first join -/

/-- The left table of the first join is an end of the path. -/
def StartsAtEnd (Join : List JoinCell) : Prop :=
  ∃ ch, Path ch Join ∧ ch.head?.map JoinCell.ltab = Join.head?.map JoinCell.ltab

theorem startsAtEnd_of_chain {Join : List JoinCell} (h : Chain (sortJoin Join)) : StartsAtEnd Join :=
  ⟨sortJoin Join, ⟨h, edges_sortJoin Join⟩, congrArg _ (head?_sortJoin Join)⟩

theorem StartsAtEnd.chain {Join : List JoinCell} (h : StartsAtEnd Join) : Chain (sortJoin Join) := by
  obtain ⟨ch, hpath, hstart⟩ := h
  rw [sortJoin_eq_of_path hpath hstart]
  exact hpath.toChain

theorem sortJoin_eq_of_sameJoins {J J' : List JoinCell} (h : SameJoins J J') (hJ : StartsAtEnd J)
    (hhead : J'.head?.map JoinCell.ltab = J.head?.map JoinCell.ltab) : sortJoin J' = sortJoin J := by
  obtain ⟨ch, hpath, hstart⟩ := hJ
  have hpath' : Path ch J' := ⟨hpath.toChain, hpath.edges.trans h.edges⟩
  rw [sortJoin_eq_of_path hpath hstart, sortJoin_eq_of_path hpath' (hstart.trans hhead.symm)]

theorem sortJoin_eq_or_turned {J J' : List JoinCell} (h : SameJoins J J') (hJ : StartsAtEnd J) (hJ' : StartsAtEnd J') :
    sortJoin J' = sortJoin J ∨ sortJoin J' = turned (sortJoin J) := by
  obtain ⟨ch, hpath, hstart⟩ := hJ
  obtain ⟨ch', hpath', hstart'⟩ := hJ'
  rw [sortJoin_eq_of_path hpath hstart, sortJoin_eq_of_path hpath' hstart']
  exact Path.eq_or_turned ⟨hpath.toChain, hpath.edges.trans (h.edges.trans hpath'.edges.symm)⟩ hpath'.toChain

theorem Planned.joinList_nil_of_inner {Tables : List MetadataTable} {q : Query} {p : JoinPlan} (hplan : Planned Tables q p)
    (hnamed : ∀ T ∈ Tables, ∀ F ∈ T.frags, F.fname.table = T.name) {ch : List JoinCell} (hpath : Path ch q.join)
    (hinner : ¬ StartsAtEnd q.join) : p.joinList = [] := by
  refine List.eq_nil_iff_forall_not_mem.mpr fun l hl => hinner (startsAtEnd_of_chain ?_)
  have hchain := (hplan.joinList_chain hnamed hpath hl).1
  rwa [hplan.join, hplan.query_fields.2.2] at hchain

/-! ## Two plans -/

theorem processSite_congr {s s' : Scan} (hsize : s'.relationSize = s.relationSize) (hpruning : s'.pruning = s.pruning)
    {conflict conflict' : List (FragName × FragName)} (hconflict : ∀ xy, xy ∈ conflict' ↔ xy ∈ conflict)
    (Tables : List MetadataTable) (siteNums : List SiteNum) (Rp : String) :
    processSite Tables s' siteNums conflict' Rp = processSite Tables s siteNums conflict Rp := by
  have hsum : transferSum Tables s' conflict' Rp = transferSum Tables s conflict Rp := by
    unfold transferSum
    simp only [hsize, hpruning, hconflict]
  have hcand : ∀ xs, candidateSites Tables s' conflict' Rp xs = candidateSites Tables s conflict Rp xs := by
    intro xs
    induction xs with
    | nil => rfl
    | cons x xs ih => rw [candidateSites, candidateSites, hsum, ih]
  unfold processSite
  rw [hcand]

section
variable {Tables : List MetadataTable} {q q' : Query} {p p' : JoinPlan} (hp : Planned Tables q p)
  (hp' : Planned Tables q' p')
include hp hp'

theorem Planned.joinSite_same (hscan : SameScan p.scan p'.scan) (hsort : sortJoin q'.join = sortJoin q.join) :
    p'.join = p.join ∧ p'.joinSite = p.joinSite := by
  have hjoin : p'.join = p.join := by
    rw [hp.join, hp'.join, hp.query_fields.2.2, hp'.query_fields.2.2, hsort]
  have hpruning : p'.scan.pruning = p.scan.pruning := by rw [hscan.eq]
  have hsize : p'.scan.relationSize = p.scan.relationSize := by rw [hscan.eq]
  have hsites : p'.scan.siteNums = p.scan.siteNums := by rw [hscan.eq]
  have hedges : p'.edges = p.edges := by
    have h1 := hp'.edges
    rw [hpruning, hjoin, hp.edges] at h1
    exact (Option.some.inj h1).symm
  obtain ⟨Rp, hRp, hproc⟩ := hp.processSite
  obtain ⟨Rp', hRp', hproc'⟩ := hp'.processSite
  have hRpeq : Rp' = Rp := by
    rw [hsize, hRp] at hRp'
    exact (Option.some.inj hRp').symm
  have hprocess : p'.processSite = p.processSite := by
    rw [hproc, hproc', hRpeq, hedges, hsites, processSite_congr hsize hpruning fun _ => Iff.rfl]
  refine ⟨hjoin, ?_⟩
  rw [hp.joinSite, hp'.joinSite, hp.joinList, hp'.joinList, hpruning, hsites, hedges, hjoin, hprocess]

variable (h : q.Reordered q')
include h

theorem Planned.query_reordered : p.query.Reordered p'.query := by
  obtain ⟨r, hr, hpr⟩ := hp.query
  obtain ⟨r', hr', hpr'⟩ := hp'.query
  obtain ⟨r'', hr'', hrr⟩ := h.expandStar_some hr
  obtain rfl : r' = r'' := Option.some.inj (hr'.symm.trans hr'')
  rw [hpr, hpr']
  exact hrr.extendPredicate_same

/-- The forests agree when both clauses start at an end of the path and chain it alike, or both start inside. -/
theorem buildForest_same (hnamed : ∀ T ∈ Tables, ∀ F ∈ T.frags, F.fname.table = T.name) {ch : List JoinCell}
    (hpath : Path ch q.join) (hends : StartsAtEnd q.join ↔ StartsAtEnd q'.join)
    (hsort : StartsAtEnd q.join → sortJoin q'.join = sortJoin q.join)
    {tr : List TreeNode} (htr : buildForest p = some tr) :
    ∃ tr', buildForest p' = some tr' ∧ List.Forall₂ SameNode tr tr' := by
  have hscan := scanTables_same (hp.query_reordered hp' h) hp.scan hp'.scan
  by_cases hstart : StartsAtEnd q.join
  · obtain ⟨hjoin, hsite⟩ := hp.joinSite_same hp' hscan (hsort hstart)
    have hsel : p'.query.selectAttr = p.query.selectAttr := (hp.query_reordered hp' h).selectAttr
    have hmp : p'.scan.mpTr = p.scan.mpTr := by rw [hscan.eq]
    unfold buildForest at htr ⊢
    rw [Option.map_eq_some_iff] at htr
    obtain ⟨c, hc, rfl⟩ := htr
    have hinit : SameBuild ⟨p.scan.tr, fun _ => false⟩ ⟨p'.scan.tr, fun _ => false⟩ := ⟨rfl, hscan.tr⟩
    have hstep : ∀ site ∈ ([1, 2, 3, 4] : List Int), ∀ d e d' : Build, SameBuild d e →
        buildSite p.scan.mpTr p.query.selectAttr p.join p.joinSite d site = some d' →
        ∃ e', buildSite p.scan.mpTr p.query.selectAttr p.join p.joinSite e site = some e' ∧ SameBuild d' e' :=
      fun site _ d e d' hde hd => buildSite_same hde hd
    obtain ⟨c', hc', hcc⟩ := Loops.forward hstep hinit hc
    rw [hmp, hsel, hjoin, hsite, hc']
    exact ⟨c'.tr, rfl, hcc.tr⟩
  · have hpath' : Path ch q'.join := ⟨hpath.toChain, hpath.edges.trans h.join.edges⟩
    have hnil := hp.joinList_nil_of_inner hnamed hpath hstart
    have hnil' := hp'.joinList_nil_of_inner hnamed hpath' fun h' => hstart (hends.mpr h')
    rw [buildForest_of_joinList_nil fun i _ => hp.joinSite_nil hnil i] at htr
    rw [buildForest_of_joinList_nil fun i _ => hp'.joinSite_nil hnil' i]
    cases htr
    exact ⟨_, rfl, hscan.tr⟩

end

theorem Query.Reordered.planDefined {Tables : List MetadataTable} {q q' : Query} (h : q.Reordered q')
    (hd : PlanDefined Tables q) : PlanDefined Tables q' where
  select := by rw [h.selectAttr]; exact hd.select
  star := by rw [h.selectAttr, h.allAttr, h.fromTable]; exact hd.star
  table := by rw [h.fromTable]; exact hd.table
  sites := hd.sites
  vf := hd.vf
  pruning := by
    intro T hT hmem htype F hF
    rw [h.fromTable] at hmem
    obtain ⟨hown, hne, hpair⟩ := hd.pruning T hT hmem htype F hF
    exact ⟨hown, .inr hown.ne_nil, fun x hx => hpair x (h.extendPredicate_same.predicate.mem_iff.mpr hx)⟩
  sections := hd.sections

theorem eval_same {t t' : Tree} (hroot : t'.root = t.root) (htr : List.Forall₂ SameNode t.tr t'.tr) (db : Placement) :
    t'.eval (rowSemantics db) = t.eval (rowSemantics db) := by
  unfold Tree.eval
  rw [hroot, ← htr.length_eq, evalNode_same htr]

end EasyDDB.Optimizer
