import EasyDDB.Optimizer.Assigned
import EasyDDB.Optimizer.Columns
import EasyDDB.Optimizer.RootJoins

/-! # Columns below Union nodes

A Union node over fragments unites nodes of one table, and the patterns all end with the same columns, whatever their
site. What does not line up at the root are nodes of the scan whose join lists have no site: the share of a vertically
fragmented table with none or several useful fragments is added to the first site, wherever the table is stored. -/
namespace EasyDDB.Optimizer
open Arena
set_option autoImplicit false

/-- All nodes of a list deliver the same columns in the same order. -/
def LinedUp (tr : List TreeNode) (is : List Nat) : Prop :=
  ∃ out, ∀ i ∈ is, ∃ n, tr[i]? = some n ∧ n.output = out

theorem output_contents {tr : List TreeNode} {i : Nat} {Q : List String → Prop} :
    (∃ n, (contents tr)[i]? = some n ∧ Q n.output) ↔ ∃ n, tr[i]? = some n ∧ Q n.output := by
  rw [contents_getElem?]
  constructor
  · rintro ⟨_, hn, hout⟩
    obtain ⟨n, hn', rfl⟩ := Option.map_eq_some_iff.mp hn
    exact ⟨n, hn', hout⟩
  · rintro ⟨n, hn, hout⟩
    exact ⟨n.under (-1), by rw [hn]; rfl, hout⟩

theorem linedUp_contents {tr : List TreeNode} {is : List Nat} : LinedUp (contents tr) is ↔ LinedUp tr is :=
  exists_congr fun out => forall₂_congr fun _ _ => output_contents (Q := (· = out))

theorem linedUp_grows {C C' : List TreeNode} (h : C <+: C') {is : List Nat} (his : ∀ i ∈ is, i < C.length) :
    LinedUp C' is ↔ LinedUp C is := by
  refine exists_congr fun out => forall₂_congr fun i hi => ?_
  have hn := List.getElem?_eq_getElem (his i hi)
  rw [prefix_getElem? h hn, hn]

theorem linedUp_of_length_le {tr : List TreeNode} {is : List Nat} (h : is.length ≤ 1) (his : ∀ i ∈ is, i < tr.length) :
    LinedUp tr is := by
  cases is with
  | nil => exact ⟨[], by simp⟩
  | cons i is =>
    obtain rfl : is = [] := List.length_eq_zero_iff.mp (by simpa using h)
    obtain ⟨n, hn⟩ : ∃ n, tr[i]? = some n := ⟨_, List.getElem?_eq_getElem (his i (List.mem_cons_self ..))⟩
    exact ⟨n.output, by simpa using ⟨n, hn, rfl⟩⟩

/-! ## Unions of fragments -/

section
variable {sc : Scan} {ok : FragName → Prop} {C : List TreeNode} {S : List String} {J : List JoinCell}
  {again : FragName → Prop} {out : String → List String}
  (hout : ∀ x n, ok x → (contents sc.tr)[sc.mpTr x]? = some n → n.output = out x.table)
  (hkept : contents sc.tr <+: C) (hplain : ∀ n ∈ sc.tr, n.type ≠ .union)
include hout hkept hplain

/-- Only the operands of patterns are Union nodes, and these unite fragments of one table. -/
theorem Origin.union_linedUp {i : Nat} (h : Origin sc ok C S J again i) {m : TreeNode} (hm : C[i]? = some m)
    (ht : m.type = .union) : LinedUp C m.child := by
  have hscan : ∀ n : TreeNode, n ∈ contents sc.tr → n.type ≠ .union := by
    intro n hn
    obtain ⟨n₀, hn₀, rfl⟩ := List.mem_map.mp hn
    exact hplain n₀ hn₀
  cases h with
  | scanned hi =>
    have hn := List.getElem?_eq_getElem (l := contents sc.tr) (i := i) (by rwa [contents_length])
    obtain rfl := Option.some.inj ((prefix_getElem? hkept hn).symm.trans hm)
    exact absurd ht (hscan _ (List.getElem_mem _))
  | @copied _ n _ _ _ hn hnode =>
    obtain rfl := Option.some.inj (hnode.symm.trans hm)
    exact absurd ht (hscan n (List.mem_of_getElem? hn))
  | @union rel _ _ _ hnums hop =>
    cases hop with
    | node _ => exact absurd rfl (hnums _)
    | union _ _ hnode hchild _ =>
      obtain rfl := Option.some.inj (hnode.symm.trans hm)
      refine ⟨out rel, fun j hj => ?_⟩
      obtain ⟨num, -, hx⟩ := Pointwise.mem_left hchild hj
      exact hx.columns hout
  | join hch _ =>
    cases hch with
    | step _ _ _ _ _ _ _ hnode =>
      obtain rfl := Option.some.inj (hnode.symm.trans hm)
      cases ht

end

theorem unions_linedUp_iff {sc : Scan} {ok : FragName → Prop} {J : List JoinCell} {call : FragName → Build → Prop}
    {tr : List TreeNode} {cp cp' : FragName → Bool} {S : List String} {out : String → List String}
    (hout : ∀ x n, ok x → (contents sc.tr)[sc.mpTr x]? = some n → n.output = out x.table)
    (hplain : ∀ n ∈ sc.tr, n.type ≠ .union) (hg : Grows sc ok S J call ⟨sc.tr, cp⟩ ⟨tr, cp'⟩) (site : Int) :
    (∀ n ∈ (unionPhase site S tr).tr, n.type = .union → LinedUp (unionPhase site S tr).tr n.child) ↔
      LinedUp tr (parentless tr) := by
  have hpre : contents tr <+: contents (unionPhase site S tr).tr := by
    rw [contents_unionPhase]
    exact List.prefix_append _ _
  have hroots : ∀ i ∈ parentless tr, i < (contents tr).length := by
    intro i hi
    obtain ⟨n, hn, -⟩ := mem_parentless.mp hi
    rw [contents_length]
    exact (List.getElem?_eq_some_iff.mp hn).1
  have hcontents : (∀ n ∈ (unionPhase site S tr).tr, n.type = .union → LinedUp (unionPhase site S tr).tr n.child) ↔
      ∀ m ∈ contents (unionPhase site S tr).tr, m.type = .union →
        LinedUp (contents (unionPhase site S tr).tr) m.child := by
    rw [contents, List.forall_mem_map]
    exact forall₂_congr fun n _ => imp_congr_right fun _ => linedUp_contents.symm
  have hold : ∀ m ∈ contents tr, m.type = .union → LinedUp (contents (unionPhase site S tr).tr) m.child := by
    intro m hm ht
    obtain ⟨i, hi⟩ := List.mem_iff_getElem?.mp hm
    obtain ⟨cols, hcols⟩ := (hg.origin_of_scan rfl hi).union_linedUp hout hg.kept hplain hi ht
    refine ⟨cols, fun j hj => ?_⟩
    obtain ⟨n, hn, hn'⟩ := hcols j hj
    exact ⟨n, prefix_getElem? hpre hn, hn'⟩
  rw [hcontents, contents_unionPhase, List.forall_mem_append, ← contents_unionPhase, and_iff_right hold]
  split_ifs with hlen
  · rw [List.forall_mem_singleton]
    simp only [rootNode, true_imp_iff]
    rw [linedUp_grows hpre hroots, linedUp_contents]
  · refine iff_of_true (by simp) (linedUp_of_length_le (Nat.le_of_not_lt hlen) fun i hi => ?_)
    rw [← contents_length]
    exact hroots i hi

/-! ## Nodes left without a parent -/

/-- The join list is assigned to one of the four sites. -/
def HasSite (p : JoinPlan) (l : List FragName) : Prop :=
  (∀ y ∈ l, y.num ∉ p.processSite) ∨ ∃ y ∈ l, y.num ∈ p.processSite ∧ 0 < siteShare (sortSites p.scan.siteNums) y

theorem Planned.hasSite_iff {Tables : List MetadataTable} {q : Query} {p : JoinPlan} (hplan : Planned Tables q p)
    {l : List FragName} : (l ∈ p.joinList ∧ HasSite p l) ↔ ∃ site ∈ ([1, 2, 3, 4] : List Int), l ∈ p.joinSite site := by
  obtain ⟨hne, hfour⟩ := hplan.processSite_four
  rw [HasSite, ← joinSite_mem_iff hne hfour l]
  constructor
  · rintro ⟨hl, hsite⟩
    exact ⟨_, hsite, hplan.mem_joinSite_iff.mpr ⟨hl, rfl⟩⟩
  · rintro ⟨site, hsite, hl⟩
    obtain ⟨hmem, rfl⟩ := hplan.mem_joinSite_iff.mp hl
    exact ⟨hmem, hsite⟩

/-- A node of the scan without a parent that no join list with a site asks for. -/
def LeftOver (p : JoinPlan) (i : Nat) : Prop :=
  i ∈ parentless p.scan.tr ∧ ∀ l ∈ p.joinList, HasSite p l → ∀ x ∈ l, p.scan.mpTr x ≠ i

theorem Planned.leftOver_iff {Tables : List MetadataTable} {q : Query} {p : JoinPlan} (hplan : Planned Tables q p) {i : Nat} :
    LeftOver p i ↔ Root p.scan.tr i ∧
      ∀ site ∈ ([1, 2, 3, 4] : List Int), ∀ l ∈ p.joinSite site, ∀ x ∈ l, p.scan.mpTr x ≠ i := by
  refine and_congr mem_parentless ⟨fun h site hsite l hl => ?_, fun h l hl hs => ?_⟩
  · obtain ⟨hl, hs⟩ := hplan.hasSite_iff.mpr ⟨site, hsite, hl⟩
    exact h l hl hs
  · obtain ⟨site, hsite, hl⟩ := hplan.hasSite_iff.mp ⟨hl, hs⟩
    exact h site hsite l hl

theorem scanRoot_table {Tables : List MetadataTable} {q : Query} {p : JoinPlan} (hplan : Planned Tables q p)
    (hnamed : ∀ T ∈ Tables, ∀ F ∈ T.frags, F.fname.table = T.name) {i : Nat} (hi : i ∈ parentless p.scan.tr)
    {n : TreeNode} (hn : p.scan.tr[i]? = some n) : ∃ T ∈ Tables, T.name = n.fname.table ∧ T.name ∈ q.fromTable := by
  obtain ⟨n', hn', hparent⟩ := mem_parentless.mp hi
  obtain rfl : n = n' := Option.some.inj (hn.symm.trans hn')
  obtain ⟨T, hT, hfrom, ⟨F, hF, hf⟩, -⟩ := (scanTables_nodes hplan.scan).root_columns hn hparent
  refine ⟨T, hT, ?_, hplan.query_fields.1 ▸ hfrom⟩
  rw [hf, hnamed T hT F hF]

section
variable {Tables : List MetadataTable} {q : Query} {p : JoinPlan} (hplan : Planned Tables q p)
  (hname : (Tables.map MetadataTable.name).Nodup) (hnamed : ∀ T ∈ Tables, ∀ F ∈ T.frags, F.fname.table = T.name)
include hplan hname hnamed

theorem scanRoot_columns {i : Nat} {n : TreeNode} (hn : p.scan.tr[i]? = some n) (hp : n.parent = -1) :
    n.output = columnsOf p.query Tables n.fname.table := by
  obtain ⟨T, hT, -, ⟨F, hF, hf⟩, hout⟩ := (scanTables_nodes hplan.scan).root_columns hn hp
  rw [hf, hnamed T hT F hF, columnsOf_name hname hT, hout]

variable {ch : List JoinCell} (hpath : Path ch q.join) {tr : List TreeNode} (htr : buildForest p = some tr)
include hpath htr

omit hname in
/-- A Join node left without a parent joins all tables of a pattern. -/
theorem patternTop_chain {i : Nat} (hroot : Root tr i) (hbehind : p.scan.tr.length ≤ i) (hjoin : JoinOfTwo tr i) :
    ∃ plist, ChainFor p.scan (Kept p.scan) (contents tr) p.query.selectAttr p.join plist p.join.length i := by
  obtain ⟨n, hn, htype, hlen⟩ := hjoin
  have hnC : (contents tr)[i]? = some (n.under (-1)) := by
    rw [contents_getElem?, hn]
    rfl
  obtain ⟨cp, hg, -⟩ := buildForest_grows (hplan.asks_kept hnamed hpath) htr
  cases hg.origin i hbehind hroot.lt with
  | scanned hi => omega
  | copied _ _ _ hnode =>
    have hchild : n.child = [] := congrArg TreeNode.child (Option.some.inj (hnC.symm.trans hnode))
    rw [hchild] at hlen
    cases hlen
  | union _ hnums hop =>
    cases hop with
    | node _ => exact absurd rfl (hnums _)
    | union _ _ hnode _ _ =>
      have hunion : n.type = .union := congrArg TreeNode.type (Option.some.inj (hnC.symm.trans hnode))
      rw [htype] at hunion
      cases hunion
  | @join plist k _ hch hnext =>
    have hk : k + 1 = p.join.length := by
      refine hnext.resolve_right ?_
      rintro ⟨j, m, hm, hmem⟩
      rw [contents_getElem?, Option.map_eq_some_iff] at hm
      obtain ⟨m₀, hm₀, rfl⟩ := hm
      exact hroot.not_up ((buildForest_forested hplan hnamed hpath htr).child j m₀ hm₀ i hmem)
    rw [← hk]
    exact ⟨plist, hch⟩

theorem patternTop_columns {i : Nat} (hroot : Root tr i) (hbehind : p.scan.tr.length ≤ i) (hjoin : JoinOfTwo tr i) :
    ∃ n, tr[i]? = some n ∧
      n.output = chainColumns (columnsOf p.query Tables) p.query.selectAttr p.join p.join.length := by
  obtain ⟨plist, hch⟩ := patternTop_chain hplan hnamed hpath htr hroot hbehind hjoin
  exact (output_contents (Q := (· = _))).mp (hch.columns (hplan.recorded_output hname hnamed))

/-- **What is left at the root**: the nodes left over and, if any join list has a site, the rows of all tables joined. -/
theorem roots_columns_iff {Q : List String → Prop} : (∀ i ∈ parentless tr, ∃ n, tr[i]? = some n ∧ Q n.output) ↔
    (∀ i, LeftOver p i → ∃ n, p.scan.tr[i]? = some n ∧ Q (columnsOf p.query Tables n.fname.table)) ∧
      ((∃ l ∈ p.joinList, HasSite p l) →
        Q (chainColumns (columnsOf p.query Tables) p.query.selectAttr p.join p.join.length)) := by
  obtain ⟨cp, hg, -⟩ := buildForest_grows (hplan.asks_kept hnamed hpath) htr
  obtain ⟨T, htops, hroots⟩ := buildForest_roots hplan hnamed hpath htr
  have hscan : ∀ {i : Nat} {n : TreeNode}, p.scan.tr[i]? = some n → n.parent = -1 →
      ((∃ m, tr[i]? = some m ∧ Q m.output) ↔ Q (columnsOf p.query Tables n.fname.table)) := by
    intro i n hn hp
    have hnC : (contents p.scan.tr)[i]? = some (n.under (-1)) := by
      rw [contents_getElem?, hn]
      rfl
    rw [← output_contents, prefix_getElem? hg.kept hnC, ← scanRoot_columns hplan hname hnamed hn hp]
    simp [output_under]
  constructor
  · intro h
    refine ⟨fun i hi => ?_, ?_⟩
    · obtain ⟨⟨n, hn, hp⟩, hnone⟩ := hplan.leftOver_iff.mp hi
      have hroot : Root tr i := (hroots i).mpr (.inr ⟨⟨n, hn, hp⟩, hnone⟩)
      exact ⟨n, hn, (hscan hn hp).mp (h i (mem_parentless.mpr hroot))⟩
    · rintro ⟨l, hl, hs⟩
      obtain ⟨site, hsite, hl⟩ := hplan.hasSite_iff.mp ⟨hl, hs⟩
      obtain ⟨plist, top, -, hch, hroot, -⟩ := site_top hplan hnamed hpath htr hsite hl
      obtain ⟨n, hn, hcol⟩ := (output_contents (Q := (· = _))).mp (hch.columns (hplan.recorded_output hname hnamed))
      obtain ⟨n', hn', hQ⟩ := h top (mem_parentless.mpr hroot)
      obtain rfl : n = n' := Option.some.inj (hn.symm.trans hn')
      exact hcol ▸ hQ
  · rintro ⟨hover, hchain⟩ i hi
    obtain hT | hrest := (hroots i).mp (mem_parentless.mp hi)
    · have hsome : ∃ l ∈ p.joinList, HasSite p l := by
        by_contra hnone
        have hnil : ∀ site ∈ ([1, 2, 3, 4] : List Int), p.joinSite site = [] := by
          intro site hsite
          refine List.eq_nil_iff_forall_not_mem.mpr fun l hl => hnone ?_
          exact ⟨l, hplan.hasSite_iff.mpr ⟨site, hsite, hl⟩⟩
        obtain rfl := Option.some.inj (htr.symm.trans (buildForest_of_joinList_nil hnil))
        have := (htops i hT).1
        have := (mem_parentless_iff_root.mp hi).lt
        omega
      obtain ⟨n, hn, hcol⟩ := patternTop_columns hplan hname hnamed hpath htr (mem_parentless.mp hi) (htops i hT).1
        (htops i hT).2
      exact ⟨n, hn, hcol ▸ hchain hsome⟩
    · obtain ⟨n, hn, hcol⟩ := hover i (hplan.leftOver_iff.mpr hrest)
      obtain ⟨⟨n', hn', hp⟩, -⟩ := hrest
      obtain rfl : n = n' := Option.some.inj (hn.symm.trans hn')
      exact (hscan hn hp).mpr hcol

end

/-! ## The columns that reach the root -/

theorem unique_pairwise {l : List String} (h : l.Pairwise (· ≤ ·)) : (unique l).Pairwise (· < ·) := by
  fun_induction unique l with
  | case1 => exact .nil
  | case2 a => exact List.pairwise_singleton _ a
  | case3 b l ih => exact ih h.of_cons
  | case4 a b l hne ih =>
    refine .cons (fun x hx => ?_) (ih h.of_cons)
    have hab : a < b := lt_of_le_of_ne (List.rel_of_pairwise_cons h List.mem_cons_self) hne
    obtain rfl | hx := List.mem_cons.mp (mem_unique.mp hx)
    · exact hab
    · exact hab.trans_le (List.rel_of_pairwise_cons h.of_cons hx)

theorem sortUnique_nodup (l : List String) : (sortUnique l).Nodup :=
  (unique_pairwise (List.pairwise_insertionSort (· ≤ ·) l)).imp ne_of_lt

theorem rootAttr_nodup (tr : List TreeNode) : (rootAttr tr).Nodup := by
  unfold rootAttr
  induction parentless tr using List.reverseRecOn with
  | nil => exact List.nodup_nil
  | append_singleton is i _ =>
    rw [List.foldl_append]
    exact sortUnique_nodup _

theorem mem_rootAttr {tr : List TreeNode} {a : String} :
    a ∈ rootAttr tr ↔ ∃ i ∈ parentless tr, ∃ n, tr[i]? = some n ∧ a ∈ n.output := by
  have hfold : ∀ (is : List Nat) (attr : List String),
      a ∈ is.foldl (fun attr i => sortUnique (attr ++ ((tr[i]?).map TreeNode.output).getD [])) attr ↔
        a ∈ attr ∨ ∃ i ∈ is, ∃ n, tr[i]? = some n ∧ a ∈ n.output := by
    intro is
    induction is with
    | nil => simp
    | cons i is ih =>
      intro attr
      rw [List.foldl_cons, ih, mem_sortUnique, List.mem_append, or_assoc, List.exists_mem_cons_iff]
      refine or_congr_right (or_congr_left ?_)
      cases tr[i]? with
      | none => simp
      | some n => simp
  rw [rootAttr, hfold]
  simp

instance (p : JoinPlan) (l : List FragName) : Decidable (HasSite p l) := inferInstanceAs (Decidable (_ ∨ _))
instance (p : JoinPlan) (i : Nat) : Decidable (LeftOver p i) := inferInstanceAs (Decidable (_ ∧ _))

/-- The columns that reach the root, each once: those of the tables with a node left over and, if any join list has a
site, those of the joined rows. -/
def remainingColumns (Tables : List MetadataTable) (p : JoinPlan) : List String :=
  let spare := ((List.range p.scan.tr.length).filter fun i => LeftOver p i).flatMap fun i =>
    ((p.scan.tr[i]?).map fun n => columnsOf p.query Tables n.fname.table).getD []
  let joined := if ∃ l ∈ p.joinList, HasSite p l then
    chainColumns (columnsOf p.query Tables) p.query.selectAttr p.join p.join.length else []
  (spare ++ joined).dedup

theorem mem_remainingColumns {Tables : List MetadataTable} {p : JoinPlan} {a : String} :
    a ∈ remainingColumns Tables p ↔
      (∃ i, LeftOver p i ∧ ∃ n, p.scan.tr[i]? = some n ∧ a ∈ columnsOf p.query Tables n.fname.table) ∨
        ((∃ l ∈ p.joinList, HasSite p l) ∧
          a ∈ chainColumns (columnsOf p.query Tables) p.query.selectAttr p.join p.join.length) := by
  have hover : ∀ i, (i < p.scan.tr.length ∧ LeftOver p i) ∧
        a ∈ ((p.scan.tr[i]?).map fun n => columnsOf p.query Tables n.fname.table).getD [] ↔
      LeftOver p i ∧ ∃ n, p.scan.tr[i]? = some n ∧ a ∈ columnsOf p.query Tables n.fname.table := by
    intro i
    cases hn : p.scan.tr[i]? with
    | none => simp
    | some n => simp [(List.getElem?_eq_some_iff.mp hn).1]
  have hjoined : (a ∈ if ∃ l ∈ p.joinList, HasSite p l then
        chainColumns (columnsOf p.query Tables) p.query.selectAttr p.join p.join.length else []) ↔
      (∃ l ∈ p.joinList, HasSite p l) ∧
        a ∈ chainColumns (columnsOf p.query Tables) p.query.selectAttr p.join p.join.length := by
    split_ifs with h
    · exact (and_iff_right h).symm
    · exact iff_of_false List.not_mem_nil fun hmem => h hmem.1
  rw [remainingColumns, List.mem_dedup, List.mem_append, hjoined]
  refine or_congr_left ?_
  simp only [List.mem_flatMap, List.mem_filter, List.mem_range, decide_eq_true_eq, hover]

section
variable {Tables : List MetadataTable} {q : Query} {p : JoinPlan} (hplan : Planned Tables q p)
  (hname : (Tables.map MetadataTable.name).Nodup) (hnamed : ∀ T ∈ Tables, ∀ F ∈ T.frags, F.fname.table = T.name)
  {ch : List JoinCell} (hpath : Path ch q.join) {tr : List TreeNode} (htr : buildForest p = some tr)
include hplan hname hnamed hpath htr

theorem mem_rootAttr_iff {a : String} : a ∈ rootAttr tr ↔ a ∈ remainingColumns Tables p := by
  have hroots := roots_columns_iff hplan hname hnamed hpath htr (Q := fun out => a ∉ out)
  rw [mem_rootAttr, mem_remainingColumns]
  constructor
  · rintro ⟨i, hi, n, hn, ha⟩
    by_contra hnone
    push Not at hnone
    have hover : ∀ j, LeftOver p j → ∃ m, p.scan.tr[j]? = some m ∧ a ∉ columnsOf p.query Tables m.fname.table := by
      intro j hj
      obtain ⟨m, hm, -⟩ := mem_parentless.mp hj.1
      exact ⟨m, hm, hnone.1 j hj m hm⟩
    obtain ⟨m, hm, hnot⟩ := hroots.mpr ⟨hover, fun ⟨l, hl, hs⟩ => hnone.2 ⟨l, hl, hs⟩⟩ i hi
    exact hnot (Option.some.inj (hn.symm.trans hm) ▸ ha)
  · intro hmem
    by_contra hnone
    push Not at hnone
    have hall : ∀ i ∈ parentless tr, ∃ n, tr[i]? = some n ∧ a ∉ n.output := by
      intro i hi
      obtain ⟨n, hn, -⟩ := mem_parentless.mp hi
      exact ⟨n, hn, hnone i hi n hn⟩
    obtain ⟨hover, hjoined⟩ := hroots.mp hall
    obtain ⟨i, hi, n, hn, ha⟩ | ⟨hsome, ha⟩ := hmem
    · obtain ⟨m, hm, hnot⟩ := hover i hi
      exact hnot (Option.some.inj (hn.symm.trans hm) ▸ ha)
    · exact hjoined hsome ha

/-- The Union node at the root has the remaining columns. -/
theorem rootAttr_perm : (rootAttr tr).Perm (remainingColumns Tables p) :=
  (List.perm_ext_iff_of_nodup (rootAttr_nodup tr) (List.nodup_dedup _)).mpr fun _ =>
    mem_rootAttr_iff hplan hname hnamed hpath htr

end

/-! ## Shares of vertically fragmented tables -/

/-- The share of a vertically fragmented table is added to the site with the number of the fragment recorded for it, if
that number is 1 whenever none or several fragments are useful. -/
def FirstOnSiteOne (q : Query) (Tables : List MetadataTable) : Prop :=
  ∀ T ∈ Tables, T.name ∈ q.fromTable → T.type = .vf → (T.frags.filter (vfMarked q T)).length ≠ 1 →
    ∀ F, T.frags.head? = some F → F.fname.num = 1

theorem scanTables_vfShares {q : Query} {Tables : List MetadataTable} {s : Scan}
    (hnum : ∀ T ∈ Tables, T.name ∈ q.fromTable → ∀ F ∈ T.frags, F.fname.num = F.site ∧ 0 < F.size)
    (hfirst : FirstOnSiteOne q Tables) (h : scanTables q Tables = some s) : ScanShares s := by
  refine Loops.invariant (I := ScanShares) ?_ ⟨rfl, fun t X hX => by cases hX⟩ h
  intro T hT c c' hc hstep
  obtain ⟨-, rfl⟩ | ⟨hfrom, -, hhf⟩ | ⟨hfrom, htype, hvf⟩ := scanTable_inv hstep
  · exact hc
  · unfold scanHf at hhf
    refine Loops.invariant (I := ScanShares) ?_ ?_ hhf
    case refine_2 => exact hc
    intro F hF d d' hd hfrag
    obtain ⟨-, rfl⟩ | ⟨_, siteNums, -, hadd, rfl⟩ := scanHfFrag_inv hfrag
    · exact hd
    · obtain ⟨hsite, hsize⟩ := hnum T hT hfrom F hF
      exact hd.record hsite hsize hadd _ _ _
  · obtain ⟨first, frag, below, top, siteNums, hhead, hshape, hadd, rfl⟩ := scanVf_inv hvf
    have hfrag := hshape.mem_frags hhead
    obtain ⟨hsite, hsize⟩ := hnum T hT hfrom frag hfrag
    refine hc.record ?_ hsize hadd _ _ _
    unfold vfSite
    split_ifs with hone
    · exact hsite
    · obtain rfl : frag = first := by
        cases hshape with
        | key _ => rfl
        | one _ hm =>
          rw [hm] at hone
          exact absurd rfl hone
        | several _ => rfl
      exact hfirst T hT hfrom htype hone frag hhead

theorem hasSite_of_first {Tables : List MetadataTable} {q : Query} {p : JoinPlan} (hplan : Planned Tables q p)
    (hnamed : ∀ T ∈ Tables, ∀ F ∈ T.frags, F.fname.table = T.name) {ch : List JoinCell} (hpath : Path ch q.join)
    (hnum : ∀ T ∈ Tables, T.name ∈ q.fromTable → ∀ F ∈ T.frags, F.fname.num = F.site ∧ 0 < F.size)
    (hfirst : FirstOnSiteOne p.query Tables) {l : List FragName} (hl : l ∈ p.joinList) : HasSite p l := by
  obtain ⟨hfrom, -, -⟩ := hplan.query_fields
  have hshares := (scanTables_vfShares (by rwa [hfrom]) hfirst hplan.scan).sorted
  refine (hplan.hasSite_iff.mpr ⟨_, ?_, hplan.mem_joinSite_iff.mpr ⟨hl, rfl⟩⟩).2
  obtain ⟨hne, hfour⟩ := hplan.processSite_four
  refine joinSite_mem hshares hne (fun i hi => hshares.sites.mem_iff.mpr (hfour i hi)) fun f hf => ?_
  obtain ⟨t, X, hX, rfl⟩ := (hplan.joinList_tables hnamed hpath hl).2.2 f hf
  obtain ⟨T, hT, rfl, hXT⟩ := scanTables_keptFrom hplan.scan t X hX
  exact ⟨X, by rwa [hnamed T hT X hXT], rfl⟩

/-! ## The whole tree -/

/-- **All children of every Union node deliver the same list of columns** exactly if those nodes of the scan line up, with
each other and with the joined rows, that no join list with a site asks for. In a query over one table all of them do. In
a join in which every kept fragment occurs in a join list none are left, if the share of every table is added to the site
with the number of its fragment. -/
theorem unions_line_up_iff (Tables : List MetadataTable) (q : Query) (hname : (Tables.map MetadataTable.name).Nodup)
    (hnamed : ∀ T ∈ Tables, ∀ F ∈ T.frags, F.fname.table = T.name) (hpath : ∃ ch, Path ch q.join) (p : JoinPlan)
    (t : Tree) (hp : planJoins Tables q = some p) (ht : buildQueryTree Tables q = some t) :
    ((∀ n ∈ t.tr, n.type = .union → LinedUp t.tr n.child) ↔
      ∃ out, (∀ i, LeftOver p i → ∃ n, p.scan.tr[i]? = some n ∧ columnsOf p.query Tables n.fname.table = out) ∧
        ((∃ l ∈ p.joinList, HasSite p l) →
          chainColumns (columnsOf p.query Tables) p.query.selectAttr p.join p.join.length = out)) ∧
    ((q.join = [] ∧ ∃ name, q.fromTable = [name]) ∨
        ((∀ T ∈ Tables, T.name ∈ q.fromTable → ∀ F ∈ T.frags, F.fname.num = F.site ∧ 0 < F.size) ∧
          (∀ i ∈ parentless p.scan.tr, ∃ l ∈ p.joinList, ∃ x ∈ l, p.scan.mpTr x = i) ∧ FirstOnSiteOne p.query Tables) →
      ∀ n ∈ t.tr, n.type = .union → LinedUp t.tr n.child) := by
  have hplan := planJoins_planned hp
  obtain ⟨tr, htr, rfl⟩ := buildQueryTree_forest hp ht
  obtain ⟨ch, hpath⟩ := hpath
  obtain ⟨cp, hg, -⟩ := buildForest_grows (hplan.asks_kept hnamed hpath) htr
  rw [unions_linedUp_iff (hplan.recorded_output hname hnamed) (scanTables_types hplan.scan).plain hg]
  have hroots : LinedUp tr (parentless tr) ↔ _ :=
    exists_congr fun out => roots_columns_iff hplan hname hnamed hpath htr (Q := (· = out))
  refine ⟨hroots, fun h => hroots.mpr ?_⟩
  obtain ⟨hj, name, hfrom⟩ | ⟨hnum, hcover, hfirst⟩ := h
  · refine ⟨columnsOf p.query Tables name, fun i hi => ?_, ?_⟩
    · obtain ⟨n, hn, -⟩ := mem_parentless.mp hi.1
      obtain ⟨T, -, htable, hT⟩ := scanRoot_table hplan hnamed hi.1 hn
      rw [hfrom, List.mem_singleton] at hT
      exact ⟨n, hn, by rw [← htable, hT]⟩
    · rintro ⟨l, hl, -⟩
      rw [hplan.joinList_nil hj] at hl
      cases hl
  · refine ⟨_, fun i hi => ?_, fun _ => rfl⟩
    obtain ⟨l, hl, x, hx, hxi⟩ := hcover i hi.1
    exact absurd hxi (hi.2 l hl (hasSite_of_first hplan hnamed hpath hnum hfirst hl) x hx)

theorem bookOrdersCustomer_line_up : ∃ p t, planJoins getMetadata bookOrdersCustomer = some p ∧
    buildQueryTree getMetadata bookOrdersCustomer = some t ∧ (∃ n ∈ t.tr, n.type = .union) ∧
    ∀ n ∈ t.tr, n.type = .union → LinedUp t.tr n.child := by
  have hrun : ((planJoins getMetadata bookOrdersCustomer).any fun p =>
      (buildQueryTree getMetadata bookOrdersCustomer).any (fun t => t.tr.any fun n => n.type = .union) &&
      ((parentless p.scan.tr).all fun i => p.joinList.any fun l => l.any fun x => p.scan.mpTr x = i) &&
      getMetadata.all fun T => decide (T.type = .vf ∧ (T.frags.filter (vfMarked p.query T)).length ≠ 1 →
        T.frags.head?.all fun F => F.fname.num = 1)) = true := by
    decide +kernel
  simp only [Option.any_eq_true, Bool.and_eq_true, List.any_eq_true, List.all_eq_true, Option.all_eq_true,
    decide_eq_true_eq] at hrun
  obtain ⟨p, hp, ⟨⟨t, ht, hunion⟩, hcover⟩, hfirst⟩ := hrun
  refine ⟨p, t, hp, ht, hunion, (unions_line_up_iff getMetadata bookOrdersCustomer (by decide) (by decide)
    ⟨_, bookOrdersCustomer_path⟩ p t hp ht).2 (.inr ⟨by decide, hcover, ?_⟩)⟩
  exact fun T hT _ htype hlen F hF => hfirst T hT ⟨htype, hlen⟩ F hF

/-- A vertically fragmented table whose fragments are numbered from 2 on. -/
def shiftedCatalog : List MetadataTable :=
  [⟨"V", .vf, "id", [vfFragment "V" 2 50 ["V.id", "V.name"], vfFragment "V" 3 50 ["V.id", "V.rank"]],
      ["V.id", "V.name", "V.rank"]⟩,
    ⟨"H", .hf, "id", [hfFragment "H" 2 200 [condLt "H" "id" 100], hfFragment "H" 3 10 [condGe "H" "id" 100]],
      ["H.id", "H.v"]⟩]

def shiftedJoin : Query where
  fromTable := ["V", "H"]
  selectAttr := ["V.name", "V.rank", "H.id"]
  allAttr := ["H.id", "H.v", "V.id", "V.name", "V.rank"]
  predicate := []
  join := [⟨"V", "id", "H", "v"⟩]

/-- The share of `V` is added to site 1, so site 2 looks as if it had nothing of `V`: the join list of the fragments `V` 2
and `H` 3 gets no site, and the root unites the node of `H` 3 with the joined rows. -/
theorem shiftedJoin_not_lined_up : (shiftedCatalog.map MetadataTable.name).Nodup ∧
    (∀ T ∈ shiftedCatalog, ∀ F ∈ T.frags, F.fname.table = T.name ∧ F.fname.num = F.site ∧ 1 ≤ F.site ∧ F.site ≤ 4 ∧
      0 < F.size) ∧ Path shiftedJoin.join shiftedJoin.join ∧
    ∃ p t, planJoins shiftedCatalog shiftedJoin = some p ∧ buildQueryTree shiftedCatalog shiftedJoin = some t ∧
      (∀ i ∈ parentless p.scan.tr, ∃ l ∈ p.joinList, ∃ x ∈ l, p.scan.mpTr x = i) ∧
      ∃ n ∈ t.tr, n.type = .union ∧ ¬ LinedUp t.tr n.child := by
  refine ⟨by decide, by decide, ⟨⟨by simp [shiftedJoin], by decide⟩, .refl _⟩, ?_⟩
  have hrun : ((planJoins shiftedCatalog shiftedJoin).any fun p =>
      ((parentless p.scan.tr).all fun i => p.joinList.any fun l => l.any fun x => p.scan.mpTr x = i) &&
      (buildQueryTree shiftedCatalog shiftedJoin).any fun t => t.tr.any fun n => decide (n.type = .union) &&
        n.child.any fun i => n.child.any fun j => decide ((t.tr[i]?).map TreeNode.output ≠ (t.tr[j]?).map TreeNode.output))
      = true := by
    decide +kernel
  simp only [Option.any_eq_true, Bool.and_eq_true, List.any_eq_true, List.all_eq_true, decide_eq_true_eq] at hrun
  obtain ⟨p, hp, hcover, t, ht, n, hn, htype, i, hi, j, hj, hne⟩ := hrun
  refine ⟨p, t, hp, ht, hcover, n, hn, htype, ?_⟩
  rintro ⟨out, hout⟩
  obtain ⟨m, hm, hmout⟩ := hout i hi
  obtain ⟨m', hm', hmout'⟩ := hout j hj
  refine hne ?_
  rw [hm, hm', Option.map_some, Option.map_some, hmout, hmout']

end EasyDDB.Optimizer
