import EasyDDB.Lib.Pointwise
import EasyDDB.Optimizer.ScanNodes
import EasyDDB.Optimizer.SitesFacts
import EasyDDB.Optimizer.TopJoins

/-! # Every join list has its joins

A join list that is assigned to one of the four sites is joined below a topmost Join node there. A join list is left
without a site when its fragments have the numbers of process sites that store nothing of their tables. -/
namespace EasyDDB.Optimizer
open Arena
set_option autoImplicit false

/-! ## Process sites -/

theorem addRelationAt_sites {siteNums siteNums' : List SiteNum} {site size : Int} {table : String}
    (h : addRelationAt siteNums site table size = some siteNums') :
    siteNums'.map SiteNum.site = siteNums.map SiteNum.site := by
  rw [(addRelationAt_inv h).2.2, map_site_addRelation]

theorem scanTables_sites {q : Query} {Tables : List MetadataTable} {s : Scan} (h : scanTables q Tables = some s) :
    s.siteNums.map SiteNum.site = [1, 2, 3, 4] := by
  refine Loops.invariant (I := fun (c : Scan) => c.siteNums.map SiteNum.site = [1, 2, 3, 4]) ?_ rfl h
  intro T _ c c' hc hstep
  obtain ⟨-, rfl⟩ | ⟨-, -, hhf⟩ | ⟨-, -, hvf⟩ := scanTable_inv hstep
  · exact hc
  · unfold scanHf at hhf
    refine Loops.invariant (I := fun (c : Scan) => c.siteNums.map SiteNum.site = [1, 2, 3, 4]) ?_ ?_ hhf
    case refine_2 => exact hc
    intro F _ d d' hd hfrag
    obtain ⟨-, rfl⟩ | ⟨_, siteNums, -, hadd, rfl⟩ := scanHfFrag_inv hfrag
    · exact hd
    · exact (addRelationAt_sites hadd).trans hd
  · obtain ⟨_, _, _, _, siteNums, -, -, hadd, rfl⟩ := scanVf_inv hvf
    exact (addRelationAt_sites hadd).trans hc

theorem Planned.processSite_four {Tables : List MetadataTable} {q : Query} {p : JoinPlan} (hplan : Planned Tables q p) :
    p.processSite ≠ [] ∧ ∀ i ∈ p.processSite, i ∈ ([1, 2, 3, 4] : List Int) := by
  have hperm : (sortSites p.scan.siteNums).Perm p.scan.siteNums := List.perm_insertionSort ..
  have hsites : ((sortSites p.scan.siteNums).map SiteNum.site).Perm [1, 2, 3, 4] :=
    (hperm.map _).trans (.of_eq (scanTables_sites hplan.scan))
  have hne : sortSites p.scan.siteNums ≠ [] := by
    intro hnil
    rw [hnil] at hsites
    cases hsites.nil_eq
  obtain ⟨Rp, -, hproc⟩ := hplan.processSite
  rw [hproc]
  exact (processSite_subset hne).imp_right fun hsub i hi => hsites.mem_iff.mp (hsub i hi)

theorem Planned.mem_joinSite_iff {Tables : List MetadataTable} {q : Query} {p : JoinPlan} (hplan : Planned Tables q p)
    {site : Int} {l : List FragName} : l ∈ p.joinSite site ↔
      l ∈ p.joinList ∧ Optimizer.joinSite (sortSites p.scan.siteNums) p.processSite l = site := by
  rw [hplan.joinSite, List.mem_filter, decide_eq_true_eq]

/-! ## What a Join node combines -/

/-- The fragments whose rows a node combines: the one whose name it carries, those of a child of a Union node, or those
of both operands of a Join node. -/
inductive Combines (tr : List TreeNode) : Nat → List FragName → Prop
  | leaf {i : Nat} {n : TreeNode} (hn : tr[i]? = some n) : Combines tr i [n.fname]
  | union {i j : Nat} {n : TreeNode} {l : List FragName} (hn : tr[i]? = some n) (ht : n.type = .union) (hj : j ∈ n.child)
      (h : Combines tr j l) : Combines tr i l
  | join {i l r : Nat} {n : TreeNode} {xs ys : List FragName} (hn : tr[i]? = some n) (ht : n.type = .join)
      (hchild : n.child = [l, r]) (hl : Combines tr l xs) (hr : Combines tr r ys) : Combines tr i (xs ++ ys)

theorem Combines.of_contents {tr : List TreeNode} {i : Nat} {l : List FragName} (h : Combines (contents tr) i l) :
    Combines tr i l := by
  have hnode : ∀ {j : Nat} {m : TreeNode}, (contents tr)[j]? = some m → ∃ n, tr[j]? = some n ∧ m = n.under (-1) := by
    intro j m hm
    rw [contents_getElem?, Option.map_eq_some_iff] at hm
    exact hm.imp fun n hn => ⟨hn.1, hn.2.symm⟩
  induction h with
  | leaf hn =>
    obtain ⟨n, hn', rfl⟩ := hnode hn
    exact .leaf (n := n) hn'
  | union hn ht hj _ ih =>
    obtain ⟨n, hn', rfl⟩ := hnode hn
    exact .union hn' ht hj ih
  | join hn ht hchild _ _ ihl ihr =>
    obtain ⟨n, hn', rfl⟩ := hnode hn
    exact .join hn' ht hchild ihl ihr

section
variable {sc : Scan} {ok : FragName → Prop} {C : List TreeNode}
  (hrec : ∀ x n, ok x → (contents sc.tr)[sc.mpTr x]? = some n → n.fname = x)
include hrec

theorem NodeFor.combines {x : FragName} {i : Nat} (h : NodeFor sc ok C x i) : Combines C i [x] := by
  obtain ⟨hx, n, hn, ⟨-, hi⟩ | hi⟩ := h
  · have := Combines.leaf hi
    rwa [hrec x n hx hn] at this
  · have := Combines.leaf hi
    rwa [show ({ n with child := [] } : TreeNode).fname = x from hrec x n hx hn] at this

theorem OperandFor.combines {rel : String} {nums : List Int} {i : Nat} (h : OperandFor sc ok C rel nums i) {num : Int}
    (hnum : num ∈ nums) : Combines C i [⟨rel, num⟩] := by
  cases h with
  | node h =>
    obtain rfl := List.mem_singleton.mp hnum
    exact h.combines hrec
  | union _ _ hnode hchild _ =>
    obtain ⟨j, hj, hx⟩ := Pointwise.mem_right hchild hnum
    exact .union hnode rfl hj (hx.combines hrec)

theorem ChainFor.combines {S : List String} {J : List JoinCell} {plist : Pattern} {l : List FragName}
    (htab : l.map FragName.table = relation J) (hnums : l.map FragName.num ∈ List.sections plist) {k i : Nat}
    (h : ChainFor sc ok C S J plist k i) : Combines C i (l.take (k + 1)) := by
  have hentry : ∀ {m : Nat} {rel : String} {nums : List Int} {j : Nat}, (relation J)[m]? = some rel →
      plist[m]? = some nums → OperandFor sc ok C rel nums j → ∃ x, l[m]? = some x ∧ Combines C j [x] := by
    intro m rel nums j hrel hm hop
    rw [← htab, List.getElem?_map, Option.map_eq_some_iff] at hrel
    obtain ⟨x, hx, rfl⟩ := hrel
    have hnum : (l.map FragName.num)[m]? = some x.num := by
      rw [List.getElem?_map, hx]
      rfl
    obtain ⟨nums', hm', hmem⟩ := Pointwise.getElem? (List.mem_sections.mp hnums) hnum
    obtain rfl : nums = nums' := Option.some.inj (hm.symm.trans hm')
    exact ⟨x, hx, hop.combines hrec hmem⟩
  induction h with
  | start hrel hm hop =>
    obtain ⟨x, hx, hc⟩ := hentry hrel hm hop
    rwa [List.take_add_one, hx, List.take_zero, List.nil_append]
  | step _ hrel hm hop _ _ _ hnode ih =>
    obtain ⟨x, hx, hc⟩ := hentry hrel hm hop
    rw [List.take_add_one, hx]
    exact .join hnode rfl rfl ih hc

end

/-! ## The top of a pattern -/

theorem Scanned.cell {q : Query} {Tables : List MetadataTable} {tr : List TreeNode} (h : Scanned q Tables Tables tr)
    {n : TreeNode} (hn : n ∈ tr) : n.join.ltab = n.join.rtab := by
  obtain ⟨i, hi⟩ := List.mem_iff_getElem?.mp hn
  cases h.nodes i n hi with
  | hf _ _ _ _ => rfl
  | vf _ _ _ hb hk _ =>
    have hmem := List.mem_of_getElem? hk
    have hshape := hb.shape
    cases hshape with
    | key _ =>
      obtain rfl := List.mem_singleton.mp hmem
      rfl
    | one _ _ =>
      obtain rfl := List.mem_singleton.mp hmem
      rfl
    | several _ =>
      obtain hmem | hmem := List.mem_append.mp hmem
      · obtain ⟨m, hm, rfl⟩ := List.mem_map.mp hmem
        obtain ⟨F, -, projection, rfl⟩ := vfOperands_node hm
        rfl
      · obtain rfl := List.mem_singleton.mp hmem
        rfl

section
variable {p : JoinPlan} {tr : List TreeNode} {cp : FragName → Bool}
  (hg : Grows p.scan (Kept p.scan) p.query.selectAttr p.join (TreeNodeCall p) ⟨p.scan.tr, fun _ => false⟩ ⟨tr, cp⟩)
  (hcell : ∀ n ∈ p.scan.tr, n.join.ltab = n.join.rtab) (hsides : ∀ c ∈ p.join, c.ltab ≠ c.rtab)
include hg hcell hsides

/-- The Join nodes of a chain come behind the nodes of the scan, and nothing but a chain asks for them. -/
theorem chain_behind {plist : Pattern} {k i : Nat}
    (h : ChainFor p.scan (Kept p.scan) (contents tr) p.query.selectAttr p.join plist (k + 1) i) :
    p.scan.tr.length ≤ i := by
  by_contra hlt
  have hlt := Nat.lt_of_not_le hlt
  cases h with
  | @step _ _ _ _ _ _ c _ _ _ _ _ _ _ hc _ _ hnode =>
    obtain ⟨n, hn⟩ : ∃ n, p.scan.tr[i]? = some n := ⟨_, List.getElem?_eq_getElem hlt⟩
    have hat := prefix_getElem? hg.kept (show (contents p.scan.tr)[i]? = some (n.under (-1)) by
      rw [contents_getElem?, hn]; rfl)
    have hsame : n.join = c := congrArg TreeNode.join (Option.some.inj (hat.symm.trans hnode))
    exact hsides c (List.mem_of_getElem? hc) (hsame ▸ hcell n (List.mem_of_getElem? hn))

theorem chain_not_nodeFor {plist : Pattern} {k i : Nat} {x : FragName}
    (h : ChainFor p.scan (Kept p.scan) (contents tr) p.query.selectAttr p.join plist (k + 1) i)
    (hx : NodeFor p.scan (Kept p.scan) (contents tr) x i) : False := by
  have hge := chain_behind hg hcell hsides h
  obtain ⟨-, n, hn, ⟨rfl, -⟩ | hi⟩ := hx
  · have hlt := (List.getElem?_eq_some_iff.mp hn).1
    rw [contents_length] at hlt
    omega
  · cases h with
    | step _ _ _ _ _ _ _ hnode =>
      have hchild := congrArg TreeNode.child (Option.some.inj (hi.symm.trans hnode))
      cases hchild

theorem chain_not_operand {plist : Pattern} {k i : Nat} {rel : String} {nums : List Int}
    (h : ChainFor p.scan (Kept p.scan) (contents tr) p.query.selectAttr p.join plist (k + 1) i)
    (hop : OperandFor p.scan (Kept p.scan) (contents tr) rel nums i) : False := by
  cases hop with
  | node hx => exact chain_not_nodeFor hg hcell hsides h hx
  | union _ _ hu _ _ =>
    cases h with
    | step _ _ _ _ _ _ _ hnode =>
      have htype := congrArg TreeNode.type (Option.some.inj (hu.symm.trans hnode))
      cases htype

/-- **The node that joins all tables of a pattern has no parent.** -/
theorem chain_top_root (hforest : Forested tr) (hclosed : Closed p.scan.tr) (hnd : p.join.Nodup) {plist : Pattern}
    {top : Nat} (hJ : p.join ≠ [])
    (h : ChainFor p.scan (Kept p.scan) (contents tr) p.query.selectAttr p.join plist p.join.length top) :
    Root tr top ∧ ∃ n, tr[top]? = some n ∧ n.type = .join := by
  obtain ⟨k, hk⟩ := Nat.exists_eq_succ_of_ne_zero (List.length_pos_of_ne_nil hJ).ne'
  rw [hk] at h
  obtain ⟨c, hc, n, hn, hnt, hnc⟩ : ∃ c, p.join[k]? = some c ∧
      ∃ n, tr[top]? = some n ∧ n.type = .join ∧ n.join = c := by
    cases h with
    | @step _ _ _ _ _ _ c _ _ _ _ _ _ _ hc _ _ hnode =>
      rw [contents_getElem?, Option.map_eq_some_iff] at hnode
      obtain ⟨n, hn, hnode⟩ := hnode
      exact ⟨c, hc, n, hn, congrArg TreeNode.type hnode, congrArg TreeNode.join hnode⟩
  refine ⟨?_, n, hn, hnt⟩
  obtain hroot | ⟨i, m, -, hm, hmem⟩ := hforest.parent top (List.getElem?_eq_some_iff.mp hn).1
  · exact hroot
  exfalso
  have hmC : (contents tr)[i]? = some (m.under (-1)) := by
    rw [contents_getElem?, hm]
    rfl
  have hge := chain_behind hg hcell hsides h
  by_cases hlt : i < p.scan.tr.length
  · obtain ⟨m₀, hm₀⟩ : ∃ m₀, p.scan.tr[i]? = some m₀ := ⟨_, List.getElem?_eq_getElem hlt⟩
    have hat := prefix_getElem? hg.kept (show (contents p.scan.tr)[i]? = some (m₀.under (-1)) by
      rw [contents_getElem?, hm₀]; rfl)
    have hsame : m.under (-1) = m₀.under (-1) := Option.some.inj (hmC.symm.trans hat)
    have hchild : (m.under (-1)).child = (m₀.under (-1)).child := congrArg TreeNode.child hsame
    have := hclosed i m₀ hm₀ top (hchild ▸ hmem)
    omega
  · cases hg.origin i (Nat.le_of_not_lt hlt) (List.getElem?_eq_some_iff.mp hm).1 with
    | scanned hi => exact hlt hi
    | copied _ _ _ hnode =>
      have hchild : m.child = [] := congrArg TreeNode.child (Option.some.inj (hmC.symm.trans hnode))
      rw [hchild] at hmem
      cases hmem
    | union _ hnums hop =>
      cases hop with
      | node _ => exact absurd rfl (hnums _)
      | @union _ _ site child attr _ _ hnode hchild _ =>
        have heq : m.child = child := congrArg TreeNode.child (Option.some.inj (hmC.symm.trans hnode))
        obtain ⟨num, -, hx⟩ := Pointwise.mem_left hchild (heq ▸ hmem)
        exact chain_not_nodeFor hg hcell hsides h hx
    | @join plist' k' _ hch _ =>
      cases hch with
      | @step _ l r _ _ _ _ _ _ _ hl _ _ hr hc' _ _ hnode =>
        have heq : m.child = [l, r] := congrArg TreeNode.child (Option.some.inj (hmC.symm.trans hnode))
        rw [heq] at hmem
        have hcases : top = l ∨ top = r := by simpa using hmem
        obtain rfl | rfl := hcases
        · cases hl with
          | start _ _ hop => exact chain_not_operand hg hcell hsides h hop
          | @step k'' _ _ _ _ _ d _ _ _ _ _ _ _ hd _ _ hnode' =>
            rw [contents_getElem?, hn] at hnode'
            have hcd : c = d := hnc.symm.trans (congrArg TreeNode.join (Option.some.inj hnode'))
            subst hcd
            have hkk : k = k'' := by
              obtain ⟨hk₁, he₁⟩ := List.getElem?_eq_some_iff.mp hc
              obtain ⟨hk₂, he₂⟩ := List.getElem?_eq_some_iff.mp hd
              exact hnd.getElem_inj_iff.mp (he₁.trans he₂.symm)
            have := (List.getElem?_eq_some_iff.mp hc').1
            omega
        · exact chain_not_operand hg hcell hsides h hr

end

/-! ## The whole construction -/

theorem topJoins_of_root (site : Int) (S : List String) {tr : List TreeNode} {i : Nat} {n : TreeNode}
    (hn : tr[i]? = some n) (hp : n.parent = -1) (ht : n.type = .join) : i ∈ topJoins (unionPhase site S tr).tr := by
  obtain ⟨par, hpar, -, hroot⟩ := unionPhase_node site S hn
  refine mem_topJoins.mpr ⟨_, hpar, ht, (hroot hp).imp_right ?_⟩
  rintro ⟨u, hu, hut⟩ m hm
  obtain rfl : u = m := Option.some.inj (hu.symm.trans hm)
  rw [hut]
  exact NodeType.noConfusion

theorem Planned.cells {Tables : List MetadataTable} {q : Query} {p : JoinPlan} (hplan : Planned Tables q p)
    {ch : List JoinCell} (hpath : Path ch q.join) : p.join.Nodup ∧ ∀ c ∈ p.join, c.ltab ≠ c.rtab := by
  have hedges := hpath.edges.trans hplan.edges_perm.symm
  refine ⟨(hedges.nodup_iff.mp hpath.toChain.edges_nodup).of_map, fun c hc heq => ?_⟩
  have hpath' : Path ch p.join := ⟨hpath.toChain, hedges⟩
  obtain h | h := (hpath'.pos_step hc).1
  · rw [heq] at h
    omega
  · rw [heq] at h
    omega

section
variable {Tables : List MetadataTable} {q : Query} {p : JoinPlan} (hplan : Planned Tables q p)
  (hnamed : ∀ T ∈ Tables, ∀ F ∈ T.frags, F.fname.table = T.name) {ch : List JoinCell} (hpath : Path ch q.join)
  {tr : List TreeNode} (htr : buildForest p = some tr)
include hplan hnamed hpath htr

/-- **A join list of a site has a pattern with a topmost Join node.** -/
theorem site_top {site : Int} (hsite : site ∈ ([1, 2, 3, 4] : List Int)) {l : List FragName} (hl : l ∈ p.joinSite site) :
    ∃ plist top, l.map FragName.num ∈ List.sections plist ∧
      ChainFor p.scan (Kept p.scan) (contents tr) p.query.selectAttr p.join plist p.join.length top ∧ Root tr top ∧
      ∃ n, tr[top]? = some n ∧ n.type = .join := by
  obtain ⟨cp, hg, htops⟩ := buildForest_grows (hplan.asks_kept hnamed hpath) htr
  obtain ⟨plist, top, hnums, hch⟩ := htops site hsite l hl
  obtain ⟨hnd, hsides⟩ := hplan.cells hpath
  obtain ⟨-, hJ, -⟩ := hplan.joinList_tables hnamed hpath (hplan.mem_joinSite hl)
  exact ⟨plist, top, hnums, hch, chain_top_root hg (fun n hn => (scanTables_nodes hplan.scan).cell hn) hsides
    (buildForest_forested hplan hnamed hpath htr) (scanTables_forest hplan.scan).forest.closed hnd hJ hch⟩

end

/-- **Every join list is put on a site and joined below a topmost Join node** exactly if each join list has no fragment
with the number of a process site, or one whose number is a process site that stores some of its table. -/
theorem lists_assigned_iff (Tables : List MetadataTable) (q : Query)
    (hnamed : ∀ T ∈ Tables, ∀ F ∈ T.frags, F.fname.table = T.name) (hpath : ∃ ch, Path ch q.join) (p : JoinPlan)
    (t : Tree) (hp : planJoins Tables q = some p) (ht : buildQueryTree Tables q = some t) :
    (∀ l ∈ p.joinList, ∃ site ∈ ([1, 2, 3, 4] : List Int), l ∈ p.joinSite site ∧
        ∃ i ∈ topJoins t.tr, Combines t.tr i l) ↔
      ∀ l ∈ p.joinList, (∀ y ∈ l, y.num ∉ p.processSite) ∨
        ∃ y ∈ l, y.num ∈ p.processSite ∧ 0 < siteShare (sortSites p.scan.siteNums) y := by
  obtain ⟨ch, hpath⟩ := hpath
  have hplan := planJoins_planned hp
  obtain ⟨hne, hfour⟩ := hplan.processSite_four
  obtain ⟨tr, htr, ht⟩ := buildQueryTree_forest hp ht
  refine forall₂_congr fun l hl => ?_
  rw [← joinSite_mem_iff hne hfour l]
  constructor
  · rintro ⟨site, hsite, hmem, -⟩
    rwa [(hplan.mem_joinSite_iff.mp hmem).2]
  · intro hsite
    have hmem := hplan.mem_joinSite_iff.mpr ⟨hl, rfl⟩
    refine ⟨_, hsite, hmem, ?_⟩
    obtain ⟨plist, top, hnums, hch, ⟨n, hn, hroot⟩, n', hn', hjoin⟩ := site_top hplan hnamed hpath htr hsite hmem
    obtain rfl : n = n' := Option.some.inj (hn.symm.trans hn')
    refine ⟨top, ht ▸ topJoins_of_root _ _ hn hroot hjoin, ?_⟩
    have hrec : ∀ x n, Kept p.scan x → (contents p.scan.tr)[p.scan.mpTr x]? = some n → n.fname = x := by
      rintro _ n ⟨tab, X, hX, rfl⟩ hn
      obtain ⟨m, hm, -, hf⟩ := (scanTables_forest hplan.scan).recorded tab X hX
      rw [contents_getElem?, hm] at hn
      cases hn
      exact hf
    have hpre : contents tr <+: contents t.tr := by
      rw [← ht, contents_unionPhase]
      exact List.prefix_append _ _
    obtain ⟨htab, hJ, -⟩ := hplan.joinList_tables hnamed hpath hl
    have hall := (hch.mono hpre).combines hrec htab hnums
    rw [List.take_of_length_le (by rw [← length_relation hJ, ← htab, List.length_map])] at hall
    exact hall.of_contents

theorem bookOrdersCustomer_assigned : ∃ p t, planJoins getMetadata bookOrdersCustomer = some p ∧
    buildQueryTree getMetadata bookOrdersCustomer = some t ∧ p.joinList ≠ [] ∧
    ∀ l ∈ p.joinList, ∃ site ∈ ([1, 2, 3, 4] : List Int), l ∈ p.joinSite site ∧ ∃ i ∈ topJoins t.tr, Combines t.tr i l := by
  have hrun : ((planJoins getMetadata bookOrdersCustomer).any fun p =>
      (buildQueryTree getMetadata bookOrdersCustomer).isSome && !p.joinList.isEmpty &&
      p.joinList.all fun l => (l.all fun y => y.num ∉ p.processSite) || l.any fun y =>
        y.num ∈ p.processSite && decide (0 < siteShare (sortSites p.scan.siteNums) y)) = true := by
    decide +kernel
  simp only [Option.any_eq_true, Bool.and_eq_true, Bool.or_eq_true, Bool.not_eq_true', List.isEmpty_eq_false_iff,
    List.all_eq_true, List.any_eq_true, decide_eq_true_eq] at hrun
  obtain ⟨p, hp, ⟨hsome, hne⟩, hall⟩ := hrun
  obtain ⟨t, ht⟩ := Option.isSome_iff_exists.mp hsome
  exact ⟨p, t, hp, ht, hne, (lists_assigned_iff getMetadata bookOrdersCustomer (by decide) ⟨_, bookOrdersCustomer_path⟩
    p t hp ht).mpr hall⟩

/-- Fragment 2 of `A` on site 1 and fragment 1 of `B` on site 2. -/
def crossedCatalog : List MetadataTable :=
  [⟨"A", .hf, "id", [{ hfFragment "A" 2 10 [condLt "A" "id" 100] with site := 1 }], ["A.id", "A.x"]⟩,
    ⟨"B", .hf, "id", [{ hfFragment "B" 1 100 [condLt "B" "id" 100] with site := 2 }], ["B.id", "B.a"]⟩]

def crossedJoin : Query where
  fromTable := ["A", "B"]
  selectAttr := ["A.x"]
  allAttr := ["A.id", "A.x", "B.a"]
  predicate := []
  join := [⟨"A", "id", "B", "a"⟩]

/-- Both sites are process sites, but neither stores anything of the table whose fragment has its number. -/
theorem crossedJoin_unassigned : Path crossedJoin.join crossedJoin.join ∧
    (∀ T ∈ crossedCatalog, ∀ F ∈ T.frags, F.fname.table = T.name ∧ 1 ≤ F.site ∧ F.site ≤ 4 ∧ 0 ≤ F.size) ∧
    ∃ p t, planJoins crossedCatalog crossedJoin = some p ∧ buildQueryTree crossedCatalog crossedJoin = some t ∧
      ∃ l ∈ p.joinList, l ∈ p.joinSite 0 ∧ ¬ ∃ site ∈ ([1, 2, 3, 4] : List Int), l ∈ p.joinSite site := by
  refine ⟨⟨⟨by simp [crossedJoin], by decide⟩, .refl _⟩, by decide, ?_⟩
  have hrun : ((planJoins crossedCatalog crossedJoin).any fun p =>
      (buildQueryTree crossedCatalog crossedJoin).isSome && p.joinList.any fun l =>
        l ∈ p.joinSite 0 && ([1, 2, 3, 4] : List Int).all fun site => l ∉ p.joinSite site) = true := by
    decide +kernel
  simp only [Option.any_eq_true, Bool.and_eq_true, List.any_eq_true, List.all_eq_true, decide_eq_true_eq] at hrun
  obtain ⟨p, hp, hsome, l, hl, hzero, hnone⟩ := hrun
  obtain ⟨t, ht⟩ := Option.isSome_iff_exists.mp hsome
  exact ⟨p, t, hp, ht, l, hl, hzero, fun ⟨site, hsite, hmem⟩ => hnone site hsite hmem⟩

end EasyDDB.Optimizer
