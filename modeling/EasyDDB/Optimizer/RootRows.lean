import EasyDDB.Optimizer.NodeRows

/-! # The rows at the root

The patterns of the four sites cover the join lists that are assigned to one. The root unites the rows of these join lists
with the rows of the nodes left over. -/
namespace EasyDDB.Optimizer
open Arena
open scoped List
set_option autoImplicit false

/-! ## The tops of the patterns -/

/-- While the subtrees are built, `tops` are the Join nodes on top of the patterns built so far. -/
structure Topped (p : JoinPlan) (tops : List (Nat × Pattern)) (c : Build) : Prop where
  rooted : Rooted p.scan.mpTr (Kept p.scan) p.scan.tr c [] (tops.map Prod.fst)
  base : contents p.scan.tr <+: contents c.tr
  chains : ∀ e ∈ tops, ChainFor p.scan (Kept p.scan) (contents c.tr) p.query.selectAttr p.join e.2 p.join.length e.1
  full : ∀ e ∈ tops, Pattern.Full (relation p.join).length e.2

/-- The join lists of the four sites. -/
def assigned (p : JoinPlan) : List (List FragName) := ([1, 2, 3, 4] : List Int).flatMap p.joinSite

section
variable {Tables : List MetadataTable} {q : Query} {p : JoinPlan} (hplan : Planned Tables q p)
  (hnamed : ∀ T ∈ Tables, ∀ F ∈ T.frags, F.fname.table = T.name) {ch : List JoinCell} (hpath : Path ch q.join)
include hplan hnamed hpath

theorem buildSite_topped {s s' : Build} {tops : List (Nat × Pattern)} {site : Int} (h : Topped p tops s)
    (hbuild : buildSite p.scan.mpTr p.query.selectAttr p.join p.joinSite s site = some s') :
    ∃ tops', Topped p tops' s' ∧ (tops'.flatMap fun e => e.2.sections).Perm
      ((tops.flatMap fun e => e.2.sections) ++ (p.joinSite site).map fun l => l.map FragName.num) := by
  have hforest := scanTables_forest hplan.scan
  have hasks := hplan.asks_kept hnamed hpath
  unfold buildSite at hbuild
  split_ifs at hbuild with hnil
  · cases hbuild
    exact ⟨tops, h, .of_eq (by rw [hnil, List.map_nil, List.append_nil])⟩
  · rw [Option.bind_eq_bind, Option.bind_eq_some_iff] at hbuild
    obtain ⟨res, hres, hbuild⟩ := hbuild
    obtain ⟨hJ, hsec, hasked⟩ := hasks.patterns site res hnil hres
    have hloop := Loops.invariant_seen (I := fun seen (c : Build) => ∃ tops', Topped p tops' c ∧
      (tops'.map Prod.snd).Perm (tops.map Prod.snd ++ seen)) (fun pre plist post hsplit c c' hc hstep => ?_)
      ⟨tops, h, .of_eq (List.append_nil _).symm⟩ hbuild
    · obtain ⟨tops', htops', hperm⟩ := hloop
      refine ⟨tops', htops', ?_⟩
      have hall : (tops'.flatMap fun e => e.2.sections).Perm
          ((tops.flatMap fun e => e.2.sections) ++ res.flatMap List.sections) := by
        have hmap : ∀ l : List (Nat × Pattern), (l.flatMap fun e => e.2.sections) =
            (l.map Prod.snd).flatMap List.sections := fun l => by rw [List.flatMap_map]
        rw [hmap, hmap, ← List.flatMap_append]
        exact hperm.flatMap_right _
      exact hall.trans (hsec.append_left _)
    · obtain ⟨tops', htops', hperm⟩ := hc
      have hplist : plist ∈ res := by
        rw [hsplit]
        simp
      obtain ⟨hg, htop⟩ := buildPattern_grows hasks.valid hasks.types.plain hJ (hasked plist hplist) htops'.base hstep
      obtain ⟨hrooted, -⟩ := buildPattern_rooted (fun x y => hforest.mpTr_inj)
        (fun x hx => hforest.ready.free x hx rfl) hJ ((hasked plist hplist).imp fun _ _ hk => hk.2) htops'.rooted hstep
      refine ⟨(c'.tr.length - 1, plist) :: tops', ⟨hrooted, htops'.base.trans hg.kept, ?_, ?_⟩, ?_⟩
      · exact List.forall_mem_cons.mpr ⟨htop, fun e he => (htops'.chains e he).mono hg.kept⟩
      · refine List.forall_mem_cons.mpr ⟨⟨(hasked plist hplist).length_eq.symm, fun nums hnums => ?_⟩, htops'.full⟩
        obtain ⟨rel, -, hne, -⟩ := Pointwise.mem_right (hasked plist hplist) hnums
        exact hne
      · rw [List.map_cons, ← List.append_assoc]
        exact (hperm.cons plist).trans (List.perm_append_singleton plist _).symm

omit hplan hnamed hpath in
theorem Pattern.Full.exists_section {sz : Nat} {plist : Pattern} (h : Pattern.Full sz plist) (hsz : 0 < sz) :
    ∃ nums, nums ∈ plist.sections := by
  obtain ⟨L, plist, rfl⟩ := List.exists_cons_of_ne_nil (List.ne_nil_of_length_pos (h.1 ▸ hsz))
  obtain ⟨num, hnum⟩ := List.exists_mem_of_ne_nil L (h.2 L (List.mem_cons_self ..))
  obtain ⟨nums, hnums, -⟩ := Bags.exists_section h.2 List.getElem?_cons_zero hnum
  exact ⟨nums, hnums⟩

/-- **The nodes without a parent before the final phase**: the tops of patterns that cover the join lists of the four
sites, and the nodes left over. -/
theorem buildForest_tops {tr : List TreeNode} (htr : buildForest p = some tr) :
    ∃ (tops : List (Nat × Pattern)) (left : List Nat), (parentless tr).Perm (tops.map Prod.fst ++ left) ∧
      (∀ e ∈ tops, Pattern.Full (relation p.join).length e.2 ∧
        ChainFor p.scan (Kept p.scan) (contents tr) p.query.selectAttr p.join e.2 p.join.length e.1) ∧
      (tops.flatMap fun e => e.2.sections).Perm ((assigned p).map fun l => l.map FragName.num) ∧
      left.Perm ((List.range p.scan.tr.length).filter fun i => LeftOver p i) := by
  obtain ⟨s, hs, rfl⟩ := Option.map_eq_some_iff.mp htr
  have hstart : Topped p [] ⟨p.scan.tr, fun _ => false⟩ :=
    ⟨⟨⟨parentless p.scan.tr, .refl _, fun i => by rw [mem_parentless_iff_root]; simp⟩, le_rfl, by simp⟩,
      List.prefix_refl _, by simp, by simp⟩
  have hrun := Loops.invariant_seen (I := fun seen (c : Build) =>
    (∃ tops, Topped p tops c ∧ (tops.flatMap fun e => e.2.sections).Perm
      ((seen.flatMap p.joinSite).map fun l => l.map FragName.num)) ∧
      ∀ y, c.cpTr y = true ↔ ∃ site ∈ seen, ∃ l ∈ p.joinSite site, y ∈ l)
    (fun pre site post _ c c' hc hstep => by
      obtain ⟨⟨tops, htops, hperm⟩, hused⟩ := hc
      obtain ⟨tops', htops', hperm'⟩ := buildSite_topped hplan hnamed hpath htops hstep
      obtain ⟨-, hused'⟩ := buildSite_rooted hplan hnamed hpath htops.rooted hstep
      refine ⟨⟨tops', htops', hperm'.trans ?_⟩, fun y => ?_⟩
      · rw [List.flatMap_append, List.flatMap_singleton, List.map_append]
        exact hperm.append_right _
      · rw [hused', hused]
        simp [or_and_right, exists_or]) ⟨⟨[], hstart, .refl _⟩, fun y => by simp⟩ hs
  obtain ⟨⟨tops, htops, hsec⟩, hused⟩ := hrun
  obtain ⟨left, hleft, hmem⟩ := htops.rooted.roots
  refine ⟨tops, left, hleft, fun e he => ⟨htops.full e he, htops.chains e he⟩, hsec, ?_⟩
  have hnd : left.Nodup := by
    have := hleft.nodup_iff.mp (parentless_nodup s.tr)
    rw [List.nil_append] at this
    exact (List.nodup_append.mp this).2.1
  refine (List.perm_ext_iff_of_nodup hnd (List.nodup_range.filter _)).mpr fun i => ?_
  rw [hmem, List.mem_filter, List.mem_range, decide_eq_true_eq, hplan.leftOver_iff, unused_iff hplan hnamed hpath hused]
  exact ⟨fun h => ⟨h.1.lt, h⟩, fun h => h.2⟩

end

/-! ## The root -/

/-- The columns the root delivers. -/
def Tree.columns (t : Tree) : List String := ((t.tr[t.root.toNat]?).map TreeNode.output).getD []

theorem unionPhase_columns_many (site : Int) (S : List String) {tr : List TreeNode} (h : 1 < (parentless tr).length) :
    (unionPhase site S tr).columns = (rootNode site S tr).output := by
  have hroot : ∃ n, (unionPhase site S tr).tr[tr.length]? = some n ∧ n.output = (rootNode site S tr).output := by
    refine (output_contents (Q := (· = _))).mp ⟨_, ?_, rfl⟩
    rw [contents_unionPhase, if_pos h, ← contents_length tr]
    exact List.getElem?_concat_length
  obtain ⟨n, hn, hout⟩ := hroot
  rw [Tree.columns, unionPhase_root site S h, Int.toNat_natCast, hn]
  exact hout

section
variable {tr : List TreeNode} (hlast : tr ≠ [] → Root tr (tr.length - 1)) (hplain : ∀ i ∈ parentless tr, ∀ n,
  tr[i]? = some n → n.type ≠ .union)
include hlast

theorem parentless_one (h : (parentless tr).length ≤ 1) {i : Nat} (hi : i ∈ parentless tr) : i = tr.length - 1 := by
  have hne : tr ≠ [] := by
    rintro rfl
    cases hi
  have hmem : tr.length - 1 ∈ parentless tr := mem_parentless_iff_root.mpr (hlast hne)
  obtain ⟨j, hj⟩ := List.length_eq_one_iff.mp (Nat.le_antisymm h (List.length_pos_of_mem hi))
  rw [hj, List.mem_singleton] at hi hmem
  rw [hi, hmem]

theorem unionPhase_columns_one (site : Int) (S : List String) (h : (parentless tr).length ≤ 1) {i : Nat}
    (hi : i ∈ parentless tr) {n : TreeNode} (hn : tr[i]? = some n) : (unionPhase site S tr).columns = n.output := by
  have hlt := (List.getElem?_eq_some_iff.mp hn).1
  have heq := parentless_one hlast h hi
  have hindex : ((tr.length : Int) - 1).toNat = i := by omega
  rw [Tree.columns, unionPhase_of_le site S h, hindex, hn]
  rfl

include hplain

/-- What reaches the root is projected on its columns. -/
theorem unionPhase_eval_rows (hclosed : Closed tr) (db : Placement) (site : Int) (S : List String) :
    (unionPhase site S tr).eval (rowSemantics db) =
      ((parentless tr).flatMap (evalNode (rowSemantics db) tr tr.length)).map
        (Row.project (unionPhase site S tr).columns) := by
  have hrow : ∀ cols : List String, (∀ i ∈ parentless tr, ∀ n, tr[i]? = some n → ∀ a ∈ n.output, a ∈ cols) →
      ((parentless tr).flatMap (evalNode (rowSemantics db) tr tr.length)).map (Row.project cols) =
        (parentless tr).flatMap (evalNode (rowSemantics db) tr tr.length) := by
    intro cols hcols
    refine (List.map_congr_left fun r hr => ?_).trans (List.map_id _)
    obtain ⟨i, hi, hr⟩ := List.mem_flatMap.mp hr
    obtain ⟨n, hn, -⟩ := mem_parentless.mp hi
    exact ((evalNode_within hn (hplain i hi n hn) _ r hr).mono (hcols i hi n hn)).project_eq
  by_cases h : 1 < (parentless tr).length
  · rw [unionPhase_columns_many site S h, unionPhase_eval_many (rowSemantics_ignoresLinks db) hclosed site S h]
    show (if (rootNode site S tr).projection = [] then _ else _) = _
    rw [← List.flatMap_def]
    by_cases hproj : (rootNode site S tr).projection = []
    · rw [if_pos hproj, TreeNode.output, if_pos hproj, hrow]
      exact fun i hi n hn a ha => mem_rootAttr.mpr ⟨i, hi, n, hn, ha⟩
    · rw [if_neg hproj, TreeNode.output, if_neg hproj]
  · have hle := Nat.le_of_not_lt h
    rw [unionPhase_eval_one site S hlast hle, hrow]
    intro i hi n hn a ha
    rwa [unionPhase_columns_one hlast site S hle hi hn]

end

/-! ## The bag of rows -/

/-- No fragment whose recorded node is a Join node is asked for twice. -/
def JoinsUsedOnce (p : JoinPlan) : Prop :=
  ∀ x c, TreeNodeCall p x c → c.cpTr x = true → ∀ n, p.scan.tr[p.scan.mpTr x]? = some n → n.type ≠ .join

/-- Every FROM table is joined. -/
def AllJoined (q : Query) : Prop := ∀ name ∈ q.fromTable, ∃ c ∈ q.join, c.ltab = name ∨ c.rtab = name

instance (q : Query) : Decidable (AllJoined q) := inferInstanceAs (Decidable (∀ _ ∈ _, _))

/-- The rows of the join lists: the rows of their fragments joined. -/
def joinedRows (db : Placement) (p : JoinPlan) : List Row :=
  ((assigned p).flatMap (tupleCombs p.join (fragmentRows db p.scan))).map Comb.row

/-- The rows of the nodes left over. -/
def leftOverRows (db : Placement) (p : JoinPlan) : List Row :=
  ((List.range p.scan.tr.length).filter fun i => LeftOver p i).flatMap (nodeRows db p.scan)

section
variable {Tables : List MetadataTable} {q : Query} (h : ColumnsKnown Tables q) {p : JoinPlan}
  (hplan : Planned Tables q p)
include hplan

theorem Planned.relation_of_joined (hchain : Chain p.join) (hall : AllJoined q) :
    ∀ name ∈ q.fromTable, name ∈ relation p.join := by
  intro name hname
  obtain ⟨c, hc, htab⟩ := hall name hname
  have hedges := (edges_sortJoin q.join).mem_iff.mpr (List.mem_map_of_mem hc)
  rw [← hplan.query_fields.2.2, ← hplan.join] at hedges
  obtain ⟨d, hd, hedge⟩ := List.mem_map.mp hedges
  obtain ⟨k, hk⟩ := List.mem_iff_getElem?.mp hd
  obtain ⟨hleft, hright⟩ := hchain.relation_getElem? hk
  have hboth : name = d.ltab ∨ name = d.rtab := by
    obtain rfl | rfl := JoinCell.edge_eq_iff.mp hedge
    · exact htab.imp Eq.symm Eq.symm
    · exact htab.symm.imp Eq.symm Eq.symm
  obtain rfl | rfl := hboth
  · exact List.mem_of_getElem? hleft
  · exact List.mem_of_getElem? hright

include h

theorem ColumnsKnown.selected_joined (hchain : Chain p.join) (hall : AllJoined q) :
    ∀ a ∈ p.query.selectAttr, ∃ T ∈ Tables, T.name ∈ relation p.join ∧ a ∈ T.attrs := by
  intro a ha
  have hexp := h.expanded hplan
  obtain ⟨T, hT, hfrom, haT⟩ := hexp.known a (hexp.selected a ha)
  exact ⟨T, hT, hplan.relation_of_joined hchain hall _ hfrom, haT⟩

/-- The columns of a joined table that is not read by its key only. -/
theorem ColumnsKnown.own_columns (hJ : p.join ≠ []) (hchain : Chain p.join)
    (hkeys : ∀ T ∈ Tables, T.name ∈ relation p.join → ¬ KeyOnly p.query T) :
    ∀ rel ∈ relation p.join, '.' ∉ rel.toList ∧ ∀ a ∈ columnsOf p.query Tables rel, ∃ col, a = rel ++ "." ++ col := by
  intro rel hrel
  obtain ⟨m, hm⟩ := List.mem_iff_getElem?.mp hrel
  obtain ⟨T, hT, rfl, hfrom, -⟩ := joined_table h hplan hchain hJ hm
  have hnamed := h.tables T hT hfrom
  refine ⟨hnamed.name, fun a ha => ?_⟩
  obtain ⟨T', hT', hname, haT, -⟩ := (mem_joined_columns h hplan hchain hJ hrel hkeys).mp ha
  rw [← hname]
  exact ⟨_, (h.tables T' hT' (hname ▸ hfrom)).qualified a haT⟩

theorem ColumnsKnown.cell_columns (hJ : p.join ≠ []) (hchain : Chain p.join)
    (hkeys : ∀ T ∈ Tables, T.name ∈ relation p.join → ¬ KeyOnly p.query T) :
    ∀ c ∈ p.join, c.left ∈ columnsOf p.query Tables c.ltab ∧ c.right ∈ columnsOf p.query Tables c.rtab := by
  intro c hc
  obtain ⟨k, hk⟩ := List.mem_iff_getElem?.mp hc
  obtain ⟨hleft, hright⟩ := hchain.relation_getElem? hk
  obtain ⟨⟨T, hT, hname, -, ha⟩, T', hT', hname', -, ha'⟩ := h.cells hplan hc
  have hneeded : needed p.query c.left = true ∧ needed p.query c.right = true :=
    ⟨hplan.needed_iff.mpr (.inr ⟨c, hc, .inl rfl⟩), hplan.needed_iff.mpr (.inr ⟨c, hc, .inr rfl⟩)⟩
  exact ⟨(mem_joined_columns h hplan hchain hJ (List.mem_of_getElem? hleft) hkeys).mpr ⟨T, hT, hname, ha, hneeded.1⟩,
    (mem_joined_columns h hplan hchain hJ (List.mem_of_getElem? hright) hkeys).mpr ⟨T', hT', hname', ha', hneeded.2⟩⟩

/-- A table read by its key only delivers no column under its name. -/
theorem ColumnsKnown.keyOnly_columns (hJ : p.join ≠ []) (hchain : Chain p.join) {T : MetadataTable} (hT : T ∈ Tables)
    (hrel : T.name ∈ relation p.join) (hkey : KeyOnly p.query T) :
    ∀ col, T.name ++ "." ++ col ∉ columnsOf p.query Tables T.name := by
  intro col hmem
  obtain ⟨m, hm⟩ := List.mem_iff_getElem?.mp hrel
  obtain ⟨T', -, hname, hfrom, -⟩ := joined_table h hplan hchain hJ hm
  rw [columnsOf_name h.name hT, tableColumns_keyOnly hkey, List.mem_singleton] at hmem
  refine (h.tables T hT (hname ▸ hfrom)).key ?_
  rw [← hmem]
  simp

variable {ch : List JoinCell} (hpath : Path ch q.join) {tr : List TreeNode} (htr : buildForest p = some tr)
include hpath htr

omit h in
theorem Planned.parentless_plain (hnamed : ∀ T ∈ Tables, ∀ F ∈ T.frags, F.fname.table = T.name) :
    ∀ i ∈ parentless tr, ∀ n, tr[i]? = some n → n.type ≠ .union := by
  obtain ⟨T, htops, hroots⟩ := buildForest_roots hplan hnamed hpath htr
  intro i hi n hn
  obtain htop | ⟨⟨m, hm, -⟩, -⟩ := (hroots i).mp (mem_parentless_iff_root.mp hi)
  · obtain ⟨-, m, hm, ht, -⟩ := htops i htop
    obtain rfl : n = m := Option.some.inj (hn.symm.trans hm)
    rw [ht]
    decide
  · obtain ⟨par, hn'⟩ := hplan.scanned_node hnamed hpath htr hm
    obtain rfl : n = m.under par := Option.some.inj (hn.symm.trans hn')
    exact (scanTables_types hplan.scan).plain m (List.mem_of_getElem? hm)

variable (hall : AllJoined q)
include hall

/-- The top of a pattern has the selected columns; the root delivers just these, or it is that top. -/
theorem ColumnsKnown.root_columns (hJ : p.join ≠ []) (hchain : Chain p.join)
    (hkeys : ∀ T ∈ Tables, T.name ∈ relation p.join → ¬ KeyOnly p.query T) {i : Nat} (hi : i ∈ parentless tr)
    {n : TreeNode} (hn : tr[i]? = some n)
    (hcols : n.output = chainColumns (columnsOf p.query Tables) p.query.selectAttr p.join p.join.length) (site : Int) :
    (∀ a, a ∈ n.output ↔ a ∈ p.query.selectAttr ∨ Unmatched p.query.selectAttr p.join a) ∧
      ((∀ a, a ∈ (unionPhase site p.query.selectAttr tr).columns ↔ a ∈ p.query.selectAttr) ∨
        (unionPhase site p.query.selectAttr tr).columns = n.output) := by
  have hexp := h.expanded hplan
  have hchainCols : ∀ a, a ∈ n.output ↔ a ∈ p.query.selectAttr ∨ Unmatched p.query.selectAttr p.join a := by
    intro a
    rw [hcols]
    exact mem_chain_iff h hplan hchain hJ hkeys (h.selected_joined hplan hchain hall)
  refine ⟨hchainCols, ?_⟩
  by_cases hlen : 1 < (parentless tr).length
  · rw [unionPhase_columns_many site _ hlen]
    exact .inl ((rootNode_exact_iff site hexp.ne hexp.nodup fun a ha => ha).mpr ⟨fun a ha => ha, fun _ a ha =>
      mem_rootAttr.mpr ⟨i, hi, n, hn, (hchainCols a).mpr (.inl ha)⟩⟩)
  · have hlast := hplan.forest_last h.named hpath htr
    exact .inr (unionPhase_columns_one hlast site _ (Nat.le_of_not_lt hlen) hi hn)

omit htr hall in
/-- A pattern stands for the combinations of its join lists. -/
theorem Planned.tops_combs {rowsOf : FragName → List (String × Row)} (htag : TaggedRows rowsOf) (hJ : p.join ≠ [])
    (hchain : Chain p.join) {tops : List (Nat × Pattern)}
    (hlen : ∀ e ∈ tops, e.2.length = (relation p.join).length)
    (hsec : (tops.flatMap fun e => e.2.sections).Perm ((assigned p).map fun l => l.map FragName.num)) :
    (tops.flatMap fun e => patternValue (fun x => (rowsOf x).map fun b => [b]) p.join e.2).Perm
      ((assigned p).flatMap (tupleCombs p.join rowsOf)) := by
  have htab : ∀ l ∈ assigned p, l.map FragName.table = relation p.join := by
    intro l hl
    obtain ⟨site, -, hl⟩ := List.mem_flatMap.mp hl
    exact (hplan.joinList_tables h.named hpath (hplan.mem_joinSite hl)).1
  calc tops.flatMap fun e => patternValue (fun x => (rowsOf x).map fun b => [b]) p.join e.2
    _ ~ tops.flatMap fun e => e.2.sections.flatMap fun nums =>
          tupleCombs p.join rowsOf (List.zipWith FragName.mk (relation p.join) nums) :=
        List.Perm.flatMap_left _ fun e he => patternValue_perm hchain hJ htag (hlen e he)
    _ = (tops.flatMap fun e => e.2.sections).flatMap fun nums =>
          tupleCombs p.join rowsOf (List.zipWith FragName.mk (relation p.join) nums) := List.flatMap_assoc.symm
    _ ~ ((assigned p).map fun l => l.map FragName.num).flatMap fun nums =>
          tupleCombs p.join rowsOf (List.zipWith FragName.mk (relation p.join) nums) := hsec.flatMap_right _
    _ = (assigned p).flatMap (tupleCombs p.join rowsOf) := by
        rw [List.flatMap_map]
        exact List.flatMap_congr fun l hl => by rw [zipWith_mk_of_tables (htab l hl)]

variable (honce : JoinsUsedOnce p)
include honce

/-- The tops of the patterns deliver the rows of the join lists. -/
theorem Planned.tops_rows (db : Placement) (site : Int) {tops : List (Nat × Pattern)}
    (hroots : ∀ e ∈ tops, e.1 ∈ parentless tr)
    (hchains : ∀ e ∈ tops, Pattern.Full (relation p.join).length e.2 ∧
      ChainFor p.scan (Kept p.scan) (contents tr) p.query.selectAttr p.join e.2 p.join.length e.1)
    (hsec : (tops.flatMap fun e => e.2.sections).Perm ((assigned p).map fun l => l.map FragName.num)) {fuel : Nat}
    (hfuel : p.join.length + 3 ≤ fuel) :
    ((tops.flatMap fun e => evalNode (rowSemantics db) (contents tr) fuel e.1).map
      (Row.project (unionPhase site p.query.selectAttr tr).columns)).Perm
        ((joinedRows db p).map (Row.project (unionPhase site p.query.selectAttr tr).columns)) := by
  have hasks := hplan.asks_kept h.named hpath
  obtain ⟨cp, hg, -⟩ := buildForest_grows hasks htr
  have htwo := two_children hasks hg honce
  have hrec : ∀ x, Kept p.scan x → ∀ fuel, 2 ≤ fuel →
      evalNode (rowSemantics db) (contents tr) fuel (p.scan.mpTr x) = nodeRows db p.scan (p.scan.mpTr x) :=
    fun x hx fuel hf => evalNode_scanned (scanTables_nodes hplan.scan) hasks.types hg.kept (hasks.valid x hx) hf
  have hout := hplan.recorded_output h.name h.named
  by_cases hnil : tops = []
  · subst hnil
    rw [List.flatMap_nil, List.nil_perm, List.map_eq_nil_iff] at hsec
    rw [joinedRows, hsec]
    exact .refl _
  obtain ⟨e₀, he₀⟩ := List.exists_mem_of_ne_nil tops hnil
  obtain ⟨l₀, hl₀⟩ : ∃ l₀, l₀ ∈ p.joinList := by
    obtain ⟨hfull, hch⟩ := hchains e₀ he₀
    obtain ⟨nums, hnums⟩ := hfull.exists_section hch.relation_pos
    obtain ⟨l, hl, -⟩ := List.mem_map.mp (hsec.mem_iff.mp (List.mem_flatMap.mpr ⟨e₀, he₀, hnums⟩))
    obtain ⟨site, -, hl⟩ := List.mem_flatMap.mp hl
    exact ⟨l, hplan.mem_joinSite hl⟩
  obtain ⟨hchain, -⟩ := hplan.joinList_chain h.named hpath hl₀
  have hJ : p.join ≠ [] := (hplan.joinList_tables h.named hpath hl₀).2.1
  by_cases hkeys : ∀ T ∈ Tables, T.name ∈ relation p.join → ¬ KeyOnly p.query T
  · have hcell := h.cell_columns hplan hJ hchain hkeys
    have hdot := h.chain_dot hplan
    have hown := h.own_columns hplan hJ hchain hkeys
    have hrows : ∀ e ∈ tops, (evalNode (rowSemantics db) (contents tr) fuel e.1).map
        (Row.project (unionPhase site p.query.selectAttr tr).columns) =
          (patternValue (fun x => (fragmentRows db p.scan x).map fun b => [b]) p.join e.2).map fun comb =>
            Row.project (unionPhase site p.query.selectAttr tr).columns comb.row := by
      intro e he
      obtain ⟨hfull, hch⟩ := hchains e he
      obtain ⟨n, hn, hcols⟩ := (output_contents (Q := (· = _))).mp (hch.columns hout)
      have hX : ∀ a ∈ (unionPhase site p.query.selectAttr tr).columns, a ∈ n.output := by
        obtain ⟨hmem, hsel | hone⟩ := h.root_columns hplan hpath htr hall hJ hchain hkeys (hroots e he) hn hcols site
        · exact fun a ha => (hmem a).mpr (.inl ((hsel a).mp ha))
        · exact fun a ha => hone ▸ ha
      rw [hcols] at hX
      have hdel := hch.top_delivers hrec hasks.types htwo hasks.valid hout hchain hdot hcell hown hfull hfuel
      exact hdel.project fun a ha => .inl (hX a ha)
    have hcombs := hplan.tops_combs h hpath (fragmentRows_tagged db p.scan) hJ hchain
      (fun e he => (hchains e he).1.1) hsec
    rw [List.map_flatMap, List.flatMap_congr hrows, ← List.map_flatMap, joinedRows, List.map_map]
    exact hcombs.map _
  · push Not at hkeys
    obtain ⟨T, hT, hrel, hkey⟩ := hkeys
    have hnone := h.keyOnly_columns hplan hJ hchain hT hrel hkey
    have htops : (tops.flatMap fun e => evalNode (rowSemantics db) (contents tr) fuel e.1) = [] := by
      refine List.flatMap_eq_nil_iff.mpr fun e he => ?_
      have htake : (relation p.join).take (p.join.length + 1) = relation p.join := by
        rw [← length_relation hJ, List.take_length]
      exact (hchains e he).2.rows_nil hrec hasks.types htwo hasks.valid hout hchain hnone
        (List.length_pos_of_ne_nil hJ) (htake.symm ▸ hrel) hfuel
    have hlists : (assigned p).flatMap (tupleCombs p.join (fragmentRows db p.scan)) = [] := by
      refine List.flatMap_eq_nil_iff.mpr fun l hl => tupleCombs_nil hnone hrel fun x hx => ?_
      obtain ⟨site, -, hl⟩ := List.mem_flatMap.mp hl
      have hkept := (hplan.joinList_tables h.named hpath (hplan.mem_joinSite hl)).2.2 x hx
      exact fragmentRows_within hasks.types hasks.valid hout hkept
    rw [htops, joinedRows, hlists]
    exact .refl _

/-- **What a query over joined tables delivers**, whatever their fragmentation: the rows of its join lists and of the
nodes left over, in the columns of the root, if no Join node of vertical fragments is used twice. -/
theorem Planned.eval_root (db : Placement) (site : Int) :
    ((unionPhase site p.query.selectAttr tr).eval (rowSemantics db)).Perm
      ((joinedRows db p ++ leftOverRows db p).map (Row.project (unionPhase site p.query.selectAttr tr).columns)) := by
  have hforest := buildForest_forested hplan h.named hpath htr
  have hlast := hplan.forest_last h.named hpath htr
  have hplain := hplan.parentless_plain hpath htr h.named
  have hasks := hplan.asks_kept h.named hpath
  obtain ⟨cp, hg, -⟩ := buildForest_grows hasks htr
  have htwo := two_children hasks hg honce
  have hscan := scanTables_nodes hplan.scan
  obtain ⟨tops, left, hroots, hchains, hsec, hleft⟩ := buildForest_tops hplan h.named hpath htr
  have heval : ∀ i ∈ parentless tr, ∀ fuel, tr.length ≤ fuel →
      evalNode (rowSemantics db) tr tr.length i = evalNode (rowSemantics db) (contents tr) fuel i := by
    intro i hi fuel hfuel
    obtain ⟨n, hn, -⟩ := mem_parentless.mp hi
    rw [evalNode_contents (rowSemantics_ignoresLinks db),
      evalNode_stable hforest (List.getElem?_eq_some_iff.mp hn).1 hfuel]
  have hrec : ∀ {i : Nat}, i < p.scan.tr.length → ∀ fuel, 2 ≤ fuel →
      evalNode (rowSemantics db) (contents tr) fuel i = nodeRows db p.scan i := fun hi fuel hfuel =>
    evalNode_scanned hscan hasks.types hg.kept hi hfuel
  have hleftRows : left.flatMap (evalNode (rowSemantics db) tr tr.length) = left.flatMap (nodeRows db p.scan) := by
    refine List.flatMap_congr fun i hi => ?_
    have hlt : i < p.scan.tr.length := List.mem_range.mp (List.mem_of_mem_filter (hleft.mem_iff.mp hi))
    rw [heval i (hroots.mem_iff.mpr (List.mem_append_right _ hi)) (tr.length + 2) (by omega), hrec hlt _ (by omega)]
  have htopRows : ((tops.flatMap fun e => evalNode (rowSemantics db) tr tr.length e.1).map
      (Row.project (unionPhase site p.query.selectAttr tr).columns)).Perm
        ((joinedRows db p).map (Row.project (unionPhase site p.query.selectAttr tr).columns)) := by
    have hmem : ∀ e ∈ tops, e.1 ∈ parentless tr := fun e he =>
      hroots.mem_iff.mpr (List.mem_append_left _ (List.mem_map_of_mem he))
    rw [List.flatMap_congr fun e he => heval e.1 (hmem e he) (tr.length + (p.join.length + 3)) (by omega)]
    exact hplan.tops_rows h hpath htr hall honce db site hmem hchains hsec (by omega)
  rw [unionPhase_eval_rows hlast hplain hforest.closed, List.map_append]
  refine ((hroots.flatMap_right _).map _).trans ?_
  rw [List.flatMap_append, List.map_append, List.flatMap_map, hleftRows]
  exact htopRows.append ((hleft.flatMap_right _).map _)

end

end EasyDDB.Optimizer
