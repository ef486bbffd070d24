import EasyDDB.Optimizer.Lockstep
import EasyDDB.Optimizer.RootRows

/-! # A path read from its other end

Of two clauses that start at the two ends of the path, one makes `sortJoin` chain the cells of the other backwards, each
with its sides exchanged. Both plans then connect the same fragments, read the join lists in opposite directions and join
the same rows. -/
namespace EasyDDB.Optimizer
open scoped List
set_option autoImplicit false

/-! ## Edges of turned cells -/

/-- Any two conditions of the two fragments on the columns of a cell are both on strings or both on numbers. -/
def SameKind (c : JoinCell) (X Y : Fragment) : Prop :=
  ∀ x ∈ findAttr X.hfCondition c.ltab c.lcol, ∀ y ∈ findAttr Y.hfCondition c.rtab c.rcol,
    x.type = .string ↔ y.type = .string

instance (c : JoinCell) (X Y : Fragment) : Decidable (SameKind c X Y) := inferInstanceAs (Decidable (∀ _ ∈ _, _))

theorem overlaps_comm {x y : Condition} (h : x.type = .string ↔ y.type = .string) : overlaps x y = overlaps y x := by
  unfold overlaps
  by_cases hx : x.type = .string
  · rw [if_pos hx, if_pos (h.mp hx)]
    simp only [eq_comm]
  · rw [if_neg hx, if_neg fun hy => hx (h.mpr hy)]
    cases x.getSection with
    | none => cases y.getSection <;> rfl
    | some s =>
      cases y.getSection with
      | none => rfl
      | some s' => simp only [max_comm, min_comm]

/-- The conjunction of the comparisons does not depend on their order, also where one of them is undefined. -/
theorem foldlM_and_perm {os os' : List (Option Bool)} (h : os.Perm os') (mark : Bool) :
    os.foldlM (fun mark o => o.map fun b => mark && b) mark =
      os'.foldlM (fun mark o => o.map fun b => mark && b) mark := by
  induction h generalizing mark with
  | nil => rfl
  | cons o _ ih =>
    cases o with
    | none => rfl
    | some b => exact ih (mark && b)
  | swap o o' os =>
    cases o <;> cases o' <;> simp [Bool.and_right_comm]
  | trans _ _ ih ih' => exact (ih mark).trans (ih' mark)

theorem connects_swap {c : JoinCell} {X Y : Fragment} (h : SameKind c X Y) : connects c.swap Y X = connects c X Y := by
  have hperm : ((findAttr Y.hfCondition c.rtab c.rcol).flatMap fun y =>
      (findAttr X.hfCondition c.ltab c.lcol).map (overlaps y)).Perm
        ((findAttr X.hfCondition c.ltab c.lcol).flatMap fun x =>
          (findAttr Y.hfCondition c.rtab c.rcol).map (overlaps x)) := by
    simp only [List.map_eq_flatMap]
    refine (Bags.flatMap_comm _ _ _).trans (.of_eq (List.flatMap_congr fun x hx => List.flatMap_congr fun y hy => ?_))
    rw [overlaps_comm (h x hx y hy)]
  simp only [connects, JoinCell.swap]
  rw [foldlM_and_perm hperm]
  simp only [ne_comm, or_comm]

/-- A cell makes two kept fragments conflict. -/
def Clashes (pruning : String → List Fragment) (p : JoinCell) (x y : FragName) : Prop :=
  ∃ X ∈ pruning p.ltab, ∃ Y ∈ pruning p.rtab, X.fname = x ∧ Y.fname = y ∧ connects p X Y = some false

section
variable {pruning : String → List Fragment} {J : List JoinCell}

theorem addEdge_conflict {p : JoinCell} {e e' : Edges} {xy : Fragment × Fragment} (h : addEdge p e xy = some e')
    (f : FragName × FragName) : f ∈ e'.conflict ↔ f ∈ e.conflict ∨ (connects p xy.1 xy.2 = some false ∧
      (f = (xy.1.fname, xy.2.fname) ∨ f = (xy.2.fname, xy.1.fname))) := by
  simp only [addEdge, Option.bind_eq_bind, Option.bind_eq_some_iff] at h
  obtain ⟨mark, hmark, h⟩ := h
  rw [hmark]
  cases mark <;> cases h
  · simp only [List.mem_cons, true_and]
    tauto
  · simp

/-- **The conflicts of the edge phase.** -/
theorem buildEdges_conflict {e : Edges} (h : buildEdges pruning J = some e) (x y : FragName) :
    (x, y) ∈ e.conflict ↔ ∃ p ∈ J, Clashes pruning p x y ∨ Clashes pruning p y x := by
  refine Loops.invariant_seen (I := fun pre (c : Edges) => (x, y) ∈ c.conflict ↔
    ∃ p ∈ pre, Clashes pruning p x y ∨ Clashes pruning p y x) ?_ (by simp) h
  intro pre p post _ c c' hc hstep
  have hinner := Loops.invariant_seen (I := fun seen (d : Edges) => (x, y) ∈ d.conflict ↔
    (x, y) ∈ c.conflict ∨ ∃ xy ∈ seen, connects p xy.1 xy.2 = some false ∧
      ((x, y) = (xy.1.fname, xy.2.fname) ∨ (x, y) = (xy.2.fname, xy.1.fname))) ?_ (by simp) hstep
  · rw [hinner, hc]
    simp only [List.mem_append, List.mem_singleton, or_and_right, exists_or, exists_eq_left, Prod.mk.injEq]
    refine or_congr_right ⟨?_, ?_⟩
    · rintro ⟨xy, hxy, hcon, heq⟩
      obtain ⟨X, hX, hxy⟩ := List.mem_flatMap.mp hxy
      obtain ⟨Y, hY, rfl⟩ := List.mem_map.mp hxy
      exact heq.imp (fun heq => ⟨X, hX, Y, hY, heq.1.symm, heq.2.symm, hcon⟩)
        fun heq => ⟨X, hX, Y, hY, heq.2.symm, heq.1.symm, hcon⟩
    · have hpair : ∀ {X Y : Fragment}, X ∈ pruning p.ltab → Y ∈ pruning p.rtab → (X, Y) ∈ cellPairs pruning p :=
        fun hX hY => List.mem_flatMap.mpr ⟨_, hX, List.mem_map_of_mem hY⟩
      rintro (⟨X, hX, Y, hY, rfl, rfl, hcon⟩ | ⟨X, hX, Y, hY, rfl, rfl, hcon⟩)
      · exact ⟨(X, Y), hpair hX hY, hcon, .inl ⟨rfl, rfl⟩⟩
      · exact ⟨(X, Y), hpair hX hY, hcon, .inr ⟨rfl, rfl⟩⟩
  · intro seen xy rest _ d d' hd hdstep
    rw [addEdge_conflict hdstep, hd]
    simp only [List.mem_append, List.mem_singleton, or_and_right, exists_or, exists_eq_left, or_assoc]

variable (hkind : ∀ c ∈ J, ∀ X ∈ pruning c.ltab, ∀ Y ∈ pruning c.rtab, SameKind c X Y)
include hkind

/-- A turned cell says of two fragments what the cell says of them in the other order. -/
theorem connects_turned (mark : Bool) {x y : FragName} :
    (∃ c ∈ turned J, ∃ Y ∈ pruning c.ltab, ∃ X ∈ pruning c.rtab, Y.fname = y ∧ X.fname = x ∧ connects c Y X = some mark) ↔
      ∃ c ∈ J, ∃ X ∈ pruning c.ltab, ∃ Y ∈ pruning c.rtab, X.fname = x ∧ Y.fname = y ∧ connects c X Y = some mark := by
  constructor
  · rintro ⟨c, hc, Y, hY, X, hX, rfl, rfl, hcon⟩
    have hc := mem_turned.mp hc
    exact ⟨c.swap, hc, X, hX, Y, hY, rfl, rfl, (connects_swap (hkind _ hc X hX Y hY)).symm.trans hcon⟩
  · rintro ⟨c, hc, X, hX, Y, hY, rfl, rfl, hcon⟩
    exact ⟨c.swap, mem_turned.mpr hc, Y, hY, X, hX, rfl, rfl, (connects_swap (hkind c hc X hX Y hY)).trans hcon⟩

theorem linked_turned {x y : FragName} : (∃ c ∈ turned J, Linked pruning c y x) ↔ ∃ c ∈ J, Linked pruning c x y :=
  connects_turned hkind true

theorem clashes_turned {x y : FragName} : (∃ c ∈ turned J, Clashes pruning c y x) ↔ ∃ c ∈ J, Clashes pruning c x y :=
  connects_turned hkind false

theorem conflict_turned {e e' : Edges} (he : buildEdges pruning J = some e)
    (he' : buildEdges pruning (turned J) = some e') (xy : FragName × FragName) : xy ∈ e'.conflict ↔ xy ∈ e.conflict := by
  obtain ⟨x, y⟩ := xy
  simp only [buildEdges_conflict he, buildEdges_conflict he', and_or_left, exists_or, clashes_turned hkind]
  exact or_comm

end

/-! ## Join lists read backwards -/

section
variable {pruning : String → List Fragment} {J : List JoinCell} (hnamed : NamedAfter pruning) (hchain : Chain J)
  (hne : J ≠ []) {e : Edges} (he : buildEdges pruning J = some e)
include hnamed hchain hne he

/-- The join lists along a chain: a fragment of each table, neighbours connected. -/
theorem mem_joinLists_chain {l : List FragName} : l ∈ joinLists pruning e.edge J ↔
    l.map FragName.table = relation J ∧ l.IsChain fun a b => ∃ p ∈ J, Linked pruning p a b := by
  obtain ⟨c, cs, rfl⟩ := List.exists_cons_of_ne_nil hne
  rw [mem_joinLists he]
  constructor
  · rintro ⟨hlen, ⟨X, hX, hhead⟩, hlinks⟩
    exact ⟨links_of_chain hnamed hchain hlen ⟨_, hhead, hnamed _ X hX⟩ hlinks, hlinks⟩
  · rintro ⟨htab, hlinks⟩
    have hlen : l.length = (c :: cs).length + 1 := by
      rw [← length_relation hne, ← htab, List.length_map]
    refine ⟨hlen, ?_, hlinks⟩
    match l, hlen with
    | x :: y :: l, _ =>
      obtain ⟨⟨p, hp, X, hX, Y, hY, rfl, rfl, hcon⟩, -⟩ := List.isChain_cons_cons.mp hlinks
      rw [relation_cons hchain.linked] at htab
      have hfirst : X.fname.table = c.ltab := (List.cons.inj htab).1
      rw [hnamed _ X hX] at hfirst
      exact ⟨X, hfirst ▸ hX, rfl⟩

theorem mem_joinLists_turned (hkind : ∀ c ∈ J, ∀ X ∈ pruning c.ltab, ∀ Y ∈ pruning c.rtab, SameKind c X Y) {e' : Edges}
    (he' : buildEdges pruning (turned J) = some e') {l : List FragName} :
    l ∈ joinLists pruning e'.edge (turned J) ↔ l.reverse ∈ joinLists pruning e.edge J := by
  have hne' : turned J ≠ [] := by simpa [turned] using hne
  rw [mem_joinLists_chain hnamed hchain hne he, mem_joinLists_chain hnamed hchain.turn hne' he',
    relation_turned hchain.linked, List.map_reverse, List.reverse_eq_iff, List.isChain_reverse]
  simp only [linked_turned hkind]

end

/-! ## Combinations read backwards -/

theorem value_perm {comb comb' : Comb} (h : comb.Perm comb') (hnd : (comb.map Prod.fst).Nodup) (tab col : String) :
    Comb.value comb tab col = Comb.value comb' tab col := by
  by_cases htab : tab ∈ comb.map Prod.fst
  · obtain ⟨b, hb, rfl⟩ := List.mem_map.mp htab
    rw [value_of_mem hnd hb, value_of_mem ((h.map _).nodup_iff.mp hnd) (h.mem_iff.mp hb)]
  · have htab' : tab ∉ comb'.map Prod.fst := fun hmem => htab ((h.map _).mem_iff.mpr hmem)
    have hnone : ∀ {m : Comb}, tab ∉ m.map Prod.fst → Comb.value m tab col = none := by
      intro m hm
      have := value_append_right hm [] col
      rwa [List.append_nil] at this
    rw [hnone htab, hnone htab']

theorem holdsAll_perm {comb comb' : Comb} (h : comb.Perm comb') (hnd : (comb.map Prod.fst).Nodup) (J : List JoinCell) :
    holdsAll J comb = holdsAll J comb' := by
  unfold holdsAll
  congr 1
  funext c
  rw [cellHolds, cellHolds, value_perm h hnd, value_perm h hnd]

/-- Rows of distinct tables, each with values in columns of its table, make the same row in any order. -/
theorem Comb.Own.row_perm {comb comb' : Comb} (hown : comb.Own) (h : comb.Perm comb') (hnd : (comb.map Prod.fst).Nodup) :
    comb.row = comb'.row := by
  have hown' : Comb.Own comb' := fun b hb => hown b (h.mem_iff.mpr hb)
  funext a
  by_cases ha : ∃ tab ∈ comb.map Prod.fst, ∃ col, a = tab ++ "." ++ col
  · obtain ⟨tab, htab, col, rfl⟩ := ha
    rw [hown.row_eq_value hnd htab, hown'.row_eq_value ((h.map _).nodup_iff.mp hnd) ((h.map _).mem_iff.mp htab),
      value_perm h hnd]
  · have hnone : ∀ b ∈ comb, b.2 a = none := by
      intro b hb
      by_contra hne
      exact ha ⟨b.1, List.mem_map_of_mem hb, (hown b hb).2 a hne⟩
    rw [Comb.row, List.findSome?_eq_none_iff.mpr hnone, Comb.row,
      List.findSome?_eq_none_iff.mpr fun b hb => hnone b (h.mem_iff.mpr hb)]

theorem TaggedRows.keys {rowsOf : FragName → List (String × Row)} (h : TaggedRows rowsOf) {l : List FragName} {comb : Comb}
    (hcomb : comb ∈ (l.map rowsOf).sections) : comb.map Prod.fst = l.map FragName.table :=
  Pointwise.map_eq (List.forall₂_map_right_iff.mp (List.mem_sections.mp hcomb)) fun b x hb => h x b hb

/-- The combinations of a join list read backwards. -/
theorem tupleCombs_turned {J : List JoinCell} {rowsOf : FragName → List (String × Row)} (htag : TaggedRows rowsOf)
    {l : List FragName} (hnd : (l.map FragName.table).Nodup) :
    (tupleCombs (turned J) rowsOf l.reverse).Perm ((tupleCombs J rowsOf l).map List.reverse) := by
  rw [tupleCombs, tupleCombs, selectCombs, selectCombs, holdsAll_of_edges (edges_turned J), List.map_reverse]
  refine ((Bags.sections_reverse (l.map rowsOf)).filter _).trans (.of_eq ?_)
  rw [List.filter_map]
  refine congrArg _ (List.filter_congr fun comb hcomb => ?_)
  exact (holdsAll_perm (List.reverse_perm comb).symm (htag.keys hcomb ▸ hnd) J).symm

/-! ## Plans from the two ends -/

/-- Two plans over the same fragments that chain the path from its two ends. -/
structure Mirrored (p p' : JoinPlan) : Prop where
  scan : SameScan p.scan p'.scan
  chain : Chain p.join
  ne : p.join ≠ []
  join : p'.join = turned p.join
  named : NamedAfter p.scan.pruning
  kind : ∀ c ∈ p.join, ∀ X ∈ p.scan.pruning c.ltab, ∀ Y ∈ p.scan.pruning c.rtab, SameKind c X Y
  fnames : ∀ t, ((p.scan.pruning t).map Fragment.fname).Nodup

/-- The join lists of the four sites are those that have a site. -/
theorem Planned.assigned_perm {Tables : List MetadataTable} {q : Query} {p : JoinPlan} (hplan : Planned Tables q p) :
    (assigned p).Perm (p.joinList.filter fun l => HasSite p l) := by
  obtain ⟨hne, hfour⟩ := hplan.processSite_four
  have hone : ∀ l ∈ p.joinList, ([1, 2, 3, 4] : List Int).countP (fun i =>
      decide (Optimizer.joinSite (sortSites p.scan.siteNums) p.processSite l = i)) =
        if decide (HasSite p l) then 1 else 0 := by
    intro l _
    have hiff := @joinSite_mem_iff (sortSites p.scan.siteNums) _ hne hfour l
    by_cases hsite : HasSite p l
    · have hcount : ∀ v ∈ ([1, 2, 3, 4] : List Int), ([1, 2, 3, 4] : List Int).countP (fun i => decide (v = i)) = 1 := by
        decide
      rw [if_pos (decide_eq_true hsite)]
      exact hcount _ (hiff.mpr hsite)
    · rw [if_neg (by simpa using hsite), List.countP_eq_zero]
      intro i hi hsame
      rw [decide_eq_true_eq] at hsame
      exact hsite (hiff.mp (hsame ▸ hi))
  rw [assigned, hplan.joinSite]
  exact Bags.flatMap_filter_owner hone

section
variable {Tables : List MetadataTable} {q q' : Query} {p p' : JoinPlan} (hp : Planned Tables q p)
  (hp' : Planned Tables q' p') (h : Mirrored p p')
include hp hp' h

omit hp in
theorem Mirrored.edges : buildEdges p.scan.pruning (turned p.join) = some p'.edges := by
  rw [← h.join, ← hp'.edges, h.scan.eq]

theorem Mirrored.processSite : p'.processSite = p.processSite := by
  obtain ⟨Rp, hRp, hproc⟩ := hp.processSite
  obtain ⟨Rp', hRp', hproc'⟩ := hp'.processSite
  have hsize : p'.scan.relationSize = p.scan.relationSize := by rw [h.scan.eq]
  obtain rfl : Rp = Rp' := Option.some.inj (hRp.symm.trans (hsize ▸ hRp'))
  have hsites : p'.scan.siteNums = p.scan.siteNums := by rw [h.scan.eq]
  rw [hproc, hproc', hsites]
  exact processSite_congr hsize (by rw [h.scan.eq]) (conflict_turned h.kind hp.edges (h.edges hp')) Tables _ Rp

theorem Mirrored.mem_joinList {l : List FragName} : l ∈ p'.joinList ↔ l.reverse ∈ p.joinList := by
  have hpruning : p'.scan.pruning = p.scan.pruning := by rw [h.scan.eq]
  rw [hp.joinList, hp'.joinList, hpruning, h.join]
  exact mem_joinLists_turned h.named h.chain h.ne hp.edges h.kind (h.edges hp')

theorem Mirrored.hasSite (l : List FragName) : HasSite p' l ↔ HasSite p l.reverse := by
  have hsites : p'.scan.siteNums = p.scan.siteNums := by rw [h.scan.eq]
  simp only [HasSite, h.processSite hp hp', hsites, List.mem_reverse]

/-- The join lists of the four sites are read backwards. -/
theorem Mirrored.assigned_perm : (assigned p').Perm ((assigned p).map List.reverse) := by
  have hpruning : p'.scan.pruning = p.scan.pruning := by rw [h.scan.eq]
  have hnd : p.joinList.Nodup := hp.joinList ▸ joinLists_nodup hp.edges h.fnames
  have hnd' : p'.joinList.Nodup := hp'.joinList ▸ joinLists_nodup hp'.edges (hpruning ▸ h.fnames)
  refine hp'.assigned_perm.trans (.trans ?_ (hp.assigned_perm.map _).symm)
  refine (List.perm_ext_iff_of_nodup (hnd'.filter _) ((hnd.filter _).map List.reverse_injective)).mpr fun l => ?_
  simp only [List.mem_filter, List.mem_map, decide_eq_true_eq, h.mem_joinList hp hp', h.hasSite hp hp']
  exact ⟨fun hl => ⟨_, hl, List.reverse_reverse l⟩, fun ⟨m, hm, hml⟩ => hml ▸ (List.reverse_reverse m).symm ▸ hm⟩

theorem Mirrored.leftOver (i : Nat) : LeftOver p' i ↔ LeftOver p i := by
  have hmp : p'.scan.mpTr = p.scan.mpTr := by rw [h.scan.eq]
  simp only [LeftOver, parentless_same h.scan.tr, hmp, h.mem_joinList hp hp', h.hasSite hp hp']
  refine and_congr_right fun _ => ⟨fun hl l hmem hsite x hx => ?_, fun hl l hmem hsite x hx => ?_⟩
  · exact hl l.reverse (by rwa [List.reverse_reverse]) (by rwa [List.reverse_reverse]) x (List.mem_reverse.mpr hx)
  · exact hl l.reverse hmem hsite x (List.mem_reverse.mpr hx)

omit hp hp' in
theorem Mirrored.nodeRows (db : Placement) : nodeRows db p'.scan = nodeRows db p.scan :=
  funext fun i => evalNode_same h.scan.tr db 2 i

theorem Mirrored.leftOverRows (db : Placement) : leftOverRows db p' = leftOverRows db p := by
  unfold Optimizer.leftOverRows
  simp only [h.leftOver hp hp', h.nodeRows, ← h.scan.tr.length_eq]

omit hp hp' in
theorem Mirrored.fragmentRows (db : Placement) : fragmentRows db p'.scan = fragmentRows db p.scan := by
  have hmp : p'.scan.mpTr = p.scan.mpTr := by rw [h.scan.eq]
  unfold Optimizer.fragmentRows
  rw [h.nodeRows, hmp]

variable (hknown : ColumnsKnown Tables q) {ch : List JoinCell} (hpath : Path ch q.join)
include hknown hpath

omit hp' h in
/-- The rows that are joined have values in columns of their tables only. -/
theorem Planned.combs_own (hchain : Chain p.join) (hJ : p.join ≠ []) (db : Placement) {l : List FragName}
    (hl : l ∈ p.joinList) {comb : Comb} (hcomb : comb ∈ tupleCombs p.join (Optimizer.fragmentRows db p.scan) l) :
    comb.Own := by
  obtain ⟨htab, -, hkept⟩ := hp.joinList_tables hknown.named hpath hl
  have hasks := hp.asks_kept hknown.named hpath
  have hout := hp.recorded_output hknown.name hknown.named
  have hwithin : ∀ x ∈ l, ∀ b ∈ Optimizer.fragmentRows db p.scan x, Within (columnsOf p.query Tables b.1) b.2 :=
    fun x hx => fragmentRows_within hasks.types hasks.valid hout (hkept x hx)
  by_cases hkeys : ∀ T ∈ Tables, T.name ∈ relation p.join → ¬ KeyOnly p.query T
  · have hsec := List.mem_of_mem_filter hcomb
    intro b hb
    have hrel : b.1 ∈ relation p.join := by
      rw [← htab, ← (fragmentRows_tagged db p.scan).keys hsec]
      exact List.mem_map_of_mem hb
    obtain ⟨hdot, hcols⟩ := hknown.own_columns hp hJ hchain hkeys b.1 hrel
    obtain ⟨x, hx, hbx⟩ := Pointwise.mem_left (List.forall₂_map_right_iff.mp (List.mem_sections.mp hsec)) hb
    exact ⟨hdot, fun a ha => hcols a (hwithin x hx b hbx a ha)⟩
  · push Not at hkeys
    obtain ⟨T, hT, hrel, hkey⟩ := hkeys
    rw [tupleCombs_nil (hknown.keyOnly_columns hp hJ hchain hT hrel hkey) hrel hwithin] at hcomb
    cases hcomb

/-- The join lists read backwards join the same rows. -/
theorem Mirrored.joinedRows (db : Placement) : (joinedRows db p').Perm (joinedRows db p) := by
  rw [Optimizer.joinedRows, Optimizer.joinedRows, h.fragmentRows, h.join]
  refine (((h.assigned_perm hp hp').flatMap_right _).map _).trans ?_
  rw [List.flatMap_map, List.map_flatMap, List.map_flatMap]
  refine List.Perm.flatMap_left _ fun l hl => ?_
  have hl : l ∈ p.joinList := List.mem_of_mem_filter (hp.assigned_perm.mem_iff.mp hl)
  have htab := (hp.joinList_tables hknown.named hpath hl).1
  have hnd : (l.map FragName.table).Nodup := htab ▸ h.chain.distinct
  have htag := fragmentRows_tagged db p.scan
  refine ((tupleCombs_turned htag hnd).map _).trans (.of_eq ?_)
  rw [List.map_map]
  refine List.map_congr_left fun comb hcomb => ?_
  have hown := hp.combs_own hknown hpath h.chain h.ne db hl hcomb
  exact (hown.row_perm (List.reverse_perm comb).symm (htag.keys (List.mem_of_mem_filter hcomb) ▸ hnd)).symm

end

/-! ## The columns of the two roots -/

theorem columns_same {t t' : Tree} (hroot : t'.root = t.root) (htr : List.Forall₂ SameNode t.tr t'.tr) :
    t'.columns = t.columns := by
  have hout : t.tr.map TreeNode.output = t'.tr.map TreeNode.output :=
    Pointwise.map_eq htr fun n m hnm => by cases hnm; rfl
  rw [Tree.columns, Tree.columns, hroot, ← List.getElem?_map, ← List.getElem?_map, hout]

theorem Unmatched.exists_cell {S : List String} {J : List JoinCell} {a : String} (h : Unmatched S J a) :
    ∃ c ∈ J, ¬ (c.left ∈ S ↔ c.right ∈ S) := by
  obtain ⟨k, c, hc, -, ⟨hl, hr, -⟩ | ⟨hl, hr, -⟩⟩ := h
  · exact ⟨c, List.mem_of_getElem? hc, fun hiff => hr (hiff.mp hl)⟩
  · exact ⟨c, List.mem_of_getElem? hc, fun hiff => hl (hiff.mpr hr)⟩

/-- Of every join both columns are selected or neither, and no table is read by its key only. -/
def Matched (Tables : List MetadataTable) (q : Query) (p : JoinPlan) : Prop :=
  (∀ c ∈ q.join, c.left ∈ p.query.selectAttr ↔ c.right ∈ p.query.selectAttr) ∧
    ∀ T ∈ Tables, T.name ∈ q.fromTable → ¬ KeyOnly p.query T

instance (Tables : List MetadataTable) (q : Query) (p : JoinPlan) : Decidable (Matched Tables q p) :=
  inferInstanceAs (Decidable (_ ∧ _))

/-- With matched columns a tree with a join delivers the selected columns. -/
theorem Matched.columns_iff {Tables : List MetadataTable} {q : Query} {p : JoinPlan} (hm : Matched Tables q p)
    (h : ColumnsKnown Tables q) (hplan : Planned Tables q p) {ch : List JoinCell} (hpath : Path ch q.join)
    (hall : AllJoined q) (hchain : Chain p.join) (hJ : p.join ≠ []) (hsome : assigned p ≠ []) {tr : List TreeNode}
    (htr : buildForest p = some tr) (site : Int) (a : String) :
    a ∈ (unionPhase site p.query.selectAttr tr).columns ↔ a ∈ p.query.selectAttr := by
  have hkeys : ∀ T ∈ Tables, T.name ∈ relation p.join → ¬ KeyOnly p.query T := by
    intro T hT hrel
    obtain ⟨m, hrel⟩ := List.mem_iff_getElem?.mp hrel
    obtain ⟨_, -, hname, hfrom, -⟩ := joined_table h hplan hchain hJ hrel
    exact hm.2 T hT (hname ▸ hfrom)
  obtain ⟨tops, left, hroots, hchains, hsec, -⟩ := buildForest_tops hplan h.named hpath htr
  obtain ⟨e, he⟩ : ∃ e, e ∈ tops := by
    refine List.exists_mem_of_ne_nil tops fun hnil => hsome ?_
    rw [hnil, List.flatMap_nil] at hsec
    exact List.map_eq_nil_iff.mp hsec.symm.eq_nil
  have hi : e.1 ∈ parentless tr := hroots.mem_iff.mpr (List.mem_append_left _ (List.mem_map_of_mem he))
  obtain ⟨n, hn, hcols⟩ := (output_contents (Q := (· = _))).mp
    ((hchains e he).2.columns (hplan.recorded_output h.name h.named))
  obtain ⟨hmem, hsel | hone⟩ := h.root_columns hplan hpath htr hall hJ hchain hkeys hi hn hcols site
  · exact hsel a
  · rw [hone, hmem]
    refine or_iff_left fun hun => ?_
    obtain ⟨c, hc, hnot⟩ := hun.exists_cell
    obtain ⟨d, hd, rfl | rfl⟩ := hplan.cell_of_query hc
    · exact hnot (hm.1 c hd)
    · exact hnot (hm.1 d hd).symm

/-! ## Clauses that start at the two ends -/

/-- What makes two clauses that start at the two ends of a path agree: the columns are known and the FROM tables joined,
the fragments of a table have distinct names, conditions on joined columns are of one kind, no Join node over vertical
fragments is handed out twice, and the columns are matched or the two roots deliver the same columns for another reason. -/
structure OtherEnd (Tables : List MetadataTable) (q q' : Query) : Prop where
  known : ColumnsKnown Tables q
  joined : AllJoined q
  fnames : ∀ T ∈ Tables, T.name ∈ q.fromTable → (T.frags.map Fragment.fname).Nodup
  kind : ∀ c ∈ q.join, ∀ T ∈ Tables, T.name = c.ltab → ∀ T' ∈ Tables, T'.name = c.rtab → ∀ X ∈ T.frags, ∀ Y ∈ T'.frags,
    SameKind c X Y
  once : ∀ r ∈ [q, q'], ∀ p, planJoins Tables r = some p → JoinsUsedOnce p
  columns : (∀ p, planJoins Tables q = some p → Matched Tables q p) ∨
    ∀ t t', buildQueryTree Tables q = some t → buildQueryTree Tables q' = some t' → ∀ a, a ∈ t.columns ↔ a ∈ t'.columns

theorem SameKind.symm {c : JoinCell} {X Y : Fragment} (h : SameKind c X Y) : SameKind c.swap Y X :=
  fun y hy x hx => (h x hx y hy).symm

section
variable {Tables : List MetadataTable} {q q' : Query} (hre : q.Reordered q')
include hre

theorem Query.Reordered.columnsKnown (h : ColumnsKnown Tables q) : ColumnsKnown Tables q' where
  name := h.name
  named := h.named
  tables := hre.fromTable ▸ h.tables
  fromTable := hre.fromTable ▸ h.fromTable
  select := by
    rw [hre.selectAttr, hre.allAttr, hre.fromTable]
    exact h.select
  left := by
    rw [hre.allAttr, hre.fromTable]
    intro c hc
    obtain ⟨d, hd, rfl | rfl⟩ := JoinCell.exists_of_edges hre.join.edges.symm hc
    · exact h.left c hd
    · exact h.right d hd
  right := by
    rw [hre.allAttr, hre.fromTable]
    intro c hc
    obtain ⟨d, hd, rfl | rfl⟩ := JoinCell.exists_of_edges hre.join.edges.symm hc
    · exact h.right c hd
    · exact h.left d hd

theorem Query.Reordered.allJoined (h : AllJoined q) : AllJoined q' := by
  intro name hname
  obtain ⟨c, hc, hside⟩ := h name (hre.fromTable ▸ hname)
  obtain ⟨d, hd, rfl | rfl⟩ := JoinCell.exists_of_edges hre.join.edges hc
  · exact ⟨c, hd, hside⟩
  · exact ⟨d, hd, hside.symm⟩

theorem Query.Reordered.matched {p p' : JoinPlan} (hp : Planned Tables q p) (hp' : Planned Tables q' p')
    (h : Matched Tables q p) : Matched Tables q' p' := by
  have hquery := hp.query_reordered hp' hre
  refine ⟨fun c hc => ?_, fun T hT hfrom hkey => ?_⟩
  · rw [hquery.selectAttr]
    obtain ⟨d, hd, rfl | rfl⟩ := JoinCell.exists_of_edges hre.join.edges.symm hc
    · exact h.1 c hd
    · exact (h.1 d hd).symm
  · rw [hre.fromTable] at hfrom
    rw [KeyOnly, hquery.vfMarked_eq] at hkey
    exact h.2 T hT hfrom hkey

variable (h : OtherEnd Tables q q') {p p' : JoinPlan} (hp : planJoins Tables q = some p)
  (hp' : planJoins Tables q' = some p')
include h hp hp'

theorem OtherEnd.mirrored (hchain : Chain p.join) (hne : p.join ≠ []) (hturned : p'.join = turned p.join) :
    Mirrored p p' := by
  have hplan := planJoins_planned hp
  have hplan' := planJoins_planned hp'
  refine ⟨scanTables_same (hplan.query_reordered hplan' hre) hplan.scan hplan'.scan, hchain, hne, hturned,
    hplan.kept_named h.known.named, ?_, ?_⟩
  · intro c hc X hX Y hY
    obtain ⟨T, hT, hname, hXT⟩ := scanTables_keptFrom hplan.scan _ X hX
    obtain ⟨T', hT', hname', hYT⟩ := scanTables_keptFrom hplan.scan _ Y hY
    obtain ⟨d, hd, rfl | rfl⟩ := hplan.cell_of_query hc
    · exact h.kind c hd T hT hname T' hT' hname' X hXT Y hYT
    · exact (h.kind d hd T' hT' hname' T hT hname Y hYT X hXT).symm
  · refine scanTables_pruning_nodup h.known.name ?_ hplan.scan
    rw [hplan.query_fields.1]
    exact h.fnames

theorem OtherEnd.columns_iff {ch : List JoinCell} (hpath : Path ch q.join) (hmirror : Mirrored p p') {t t' : Tree}
    (ht : buildQueryTree Tables q = some t) (ht' : buildQueryTree Tables q' = some t') (a : String) :
    a ∈ t.columns ↔ a ∈ t'.columns := by
  obtain hmatched | hcols := h.columns
  swap
  · exact hcols t t' ht ht' a
  have hplan := planJoins_planned hp
  have hplan' := planJoins_planned hp'
  have hquery := hplan.query_reordered hplan' hre
  have hpath' : Path ch q'.join := ⟨hpath.toChain, hpath.edges.trans hre.join.edges⟩
  have hm := hmatched p hp
  obtain ⟨tr, htr, rfl⟩ := buildQueryTree_forest hp ht
  obtain ⟨tr', htr', rfl⟩ := buildQueryTree_forest hp' ht'
  have hperm := hmirror.assigned_perm hplan hplan'
  by_cases hnone : assigned p = []
  · have hnone' : assigned p' = [] := by
      rw [hnone] at hperm
      exact hperm.eq_nil
    rw [buildForest_of_joinList_nil (List.flatMap_eq_nil_iff.mp hnone)] at htr
    rw [buildForest_of_joinList_nil (List.flatMap_eq_nil_iff.mp hnone')] at htr'
    cases htr
    cases htr'
    obtain ⟨hroot, hnodes⟩ := unionPhase_same hmirror.scan.tr (p.processSite.head?.getD 0)
      (p'.processSite.head?.getD 0) p.query.selectAttr
    rw [hquery.selectAttr, columns_same hroot hnodes]
  · have hnone' : assigned p' ≠ [] := by
      intro hnil
      rw [hnil] at hperm
      exact hnone (List.map_eq_nil_iff.mp hperm.symm.eq_nil)
    have hne' : p'.join ≠ [] := by
      rw [hmirror.join]
      simpa [turned] using hmirror.ne
    rw [hm.columns_iff h.known hplan hpath h.joined hmirror.chain hmirror.ne hnone htr,
      (hre.matched hplan hplan' hm).columns_iff (hre.columnsKnown h.known) hplan' hpath' (hre.allJoined h.joined)
        (hmirror.join ▸ hmirror.chain.turn) hne' hnone' htr', hquery.selectAttr]

/-- **Two clauses that start at the two ends of the path** deliver the same rows. -/
theorem OtherEnd.eval_perm {ch : List JoinCell} (hpath : Path ch q.join) (hmirror : Mirrored p p') {t t' : Tree}
    (ht : buildQueryTree Tables q = some t) (ht' : buildQueryTree Tables q' = some t') (db : Placement) :
    (t.eval (rowSemantics db)).Perm (t'.eval (rowSemantics db)) := by
  have hplan := planJoins_planned hp
  have hplan' := planJoins_planned hp'
  have hpath' : Path ch q'.join := ⟨hpath.toChain, hpath.edges.trans hre.join.edges⟩
  have hcols := h.columns_iff hre hp hp' hpath hmirror ht ht'
  have hproject : Row.project t.columns = Row.project t'.columns := by
    funext r a
    simp only [Row.project, hcols]
  obtain ⟨tr, htr, rfl⟩ := buildQueryTree_forest hp ht
  obtain ⟨tr', htr', rfl⟩ := buildQueryTree_forest hp' ht'
  have heval := hplan.eval_root h.known hpath htr h.joined (h.once q (by simp) p hp) db (p.processSite.head?.getD 0)
  have heval' := hplan'.eval_root (hre.columnsKnown h.known) hpath' htr' (hre.allJoined h.joined)
    (h.once q' (by simp) p' hp') db (p'.processSite.head?.getD 0)
  refine heval.trans (.trans ?_ heval'.symm)
  rw [hproject]
  refine List.Perm.map _ (((hmirror.joinedRows hplan hplan' h.known hpath db).symm).append (.of_eq ?_))
  exact (hmirror.leftOverRows hplan hplan' db).symm

end

end EasyDDB.Optimizer
