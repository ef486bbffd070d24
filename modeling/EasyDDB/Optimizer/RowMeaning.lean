import EasyDDB.Optimizer.RootColumns
import EasyDDB.Optimizer.RootMeaning

/-! # Rows and combinations

A tree can be read in two ways: with combinations of stored rows, which keep everything, and with rows that lose the
columns its nodes project away. Projections are pushed down without harm: up to the selected columns, the rows of a join
query are the combinations of its tables, merged. -/
namespace EasyDDB.Optimizer
open Arena
set_option autoImplicit false

/-! ## The row of a combination -/

/-- The rows of a combination merged into one. -/
def Comb.row (comb : Comb) : Row := fun a => comb.findSome? fun b => b.2 a

/-- Every row of the combination has values in columns of its own table only. -/
def Comb.Own (comb : Comb) : Prop :=
  ∀ b ∈ comb, '.' ∉ b.1.toList ∧ ∀ a, b.2 a ≠ none → ∃ col, a = b.1 ++ "." ++ col

theorem Comb.row_append (l m : Comb) : Comb.row (l ++ m) = Row.merge l.row m.row := by
  funext a
  rw [Comb.row, List.findSome?_append, Row.merge]
  cases h : l.findSome? fun b => b.2 a <;> simp [Comb.row, h]

theorem Comb.row_singleton (b : String × Row) : Comb.row [b] = b.2 := by
  funext a
  cases h : b.2 a <;> simp [Comb.row, h]

theorem Comb.Own.append {l m : Comb} (hl : l.Own) (hm : m.Own) : Comb.Own (l ++ m) := by
  intro b hb
  exact (List.mem_append.mp hb).elim (hl b) (hm b)

theorem Comb.Own.row_eq_none {comb : Comb} (h : comb.Own) {tab : String} (hdot : '.' ∉ tab.toList)
    (htab : tab ∉ comb.map Prod.fst) (col : String) : comb.row (tab ++ "." ++ col) = none := by
  refine List.findSome?_eq_none_iff.mpr fun b hb => ?_
  by_contra hne
  obtain ⟨hdot', hown⟩ := h b hb
  obtain ⟨col', heq⟩ := hown _ hne
  exact htab (qualified_inj hdot hdot' heq ▸ List.mem_map_of_mem hb)

/-- The value of a column is that of the row of its table. -/
theorem Comb.Own.row_eq_value {comb : Comb} (h : comb.Own) (hnd : (comb.map Prod.fst).Nodup) {tab : String}
    (htab : tab ∈ comb.map Prod.fst) (col : String) : comb.row (tab ++ "." ++ col) = Comb.value comb tab col := by
  induction comb with
  | nil => cases htab
  | cons b comb ih =>
    have hrest : Comb.Own comb := fun b' hb' => h b' (List.mem_cons_of_mem _ hb')
    have hdot := (h b (List.mem_cons_self ..)).1
    rw [List.map_cons, List.nodup_cons] at hnd
    by_cases hb : b.1 = tab
    · subst hb
      rw [value_cons_self]
      have hnone := hrest.row_eq_none hdot hnd.1 col
      rw [Comb.row, List.findSome?_cons]
      cases hv : b.2 (b.1 ++ "." ++ col) with
      | some v => rfl
      | none => exact hnone
    · have htab := (List.mem_cons.mp htab).resolve_left (Ne.symm hb)
      have hnone : b.2 (tab ++ "." ++ col) = none := by
        by_contra hne
        obtain ⟨col', heq⟩ := (h b (List.mem_cons_self ..)).2 _ hne
        obtain ⟨b', hb', rfl⟩ := List.mem_map.mp htab
        exact hb (qualified_inj (hrest b' hb').1 hdot heq).symm
      have hvalue : Comb.value (b :: comb) tab col = Comb.value comb tab col :=
        value_append_right (l := [b]) (by simpa using Ne.symm hb) comb col
      rw [hvalue, ← ih hrest hnd.2 htab, Comb.row, List.findSome?_cons, hnone]
      rfl

/-! ## Nodes that deliver the same -/

/-- The rows are the combinations of the tables `tabs`, projected on `cols`. -/
structure Delivers (tabs cols : List String) (combs : List Comb) (rows : List Row) : Prop where
  rows_eq : rows = combs.map fun comb => Row.project cols comb.row
  keys : ∀ comb ∈ combs, comb.map Prod.fst = tabs ∧ comb.Own
  columns : ∀ a ∈ cols, ∃ tab ∈ tabs, '.' ∉ tab.toList ∧ ∃ col, a = tab ++ "." ++ col

theorem Delivers.nil {tabs cols : List String}
    (hcols : ∀ a ∈ cols, ∃ tab ∈ tabs, '.' ∉ tab.toList ∧ ∃ col, a = tab ++ "." ++ col) : Delivers tabs cols [] [] :=
  ⟨rfl, fun _ h => (List.not_mem_nil h).elim, hcols⟩

theorem Delivers.append {tabs cols : List String} {combs combs' : List Comb} {rows rows' : List Row}
    (h : Delivers tabs cols combs rows) (h' : Delivers tabs cols combs' rows') :
    Delivers tabs cols (combs ++ combs') (rows ++ rows') where
  rows_eq := by rw [List.map_append, h.rows_eq, h'.rows_eq]
  keys := fun comb hcomb => (List.mem_append.mp hcomb).elim (h.keys comb) (h'.keys comb)
  columns := h.columns

/-- A column of the tables that no projection has removed has its value in the combination. -/
theorem Delivers.project {tabs cols S : List String} {combs : List Comb} {rows : List Row}
    (h : Delivers tabs cols combs rows)
    (hS : ∀ a ∈ S, a ∈ cols ∨ ∃ tab, tab ∉ tabs ∧ '.' ∉ tab.toList ∧ ∃ col, a = tab ++ "." ++ col) :
    rows.map (Row.project S) = combs.map fun comb => Row.project S comb.row := by
  rw [h.rows_eq, List.map_map]
  refine List.map_congr_left fun comb hcomb => ?_
  obtain ⟨hkeys, hown⟩ := h.keys comb hcomb
  funext a
  simp only [Function.comp_apply, Row.project]
  by_cases ha : a ∈ S
  · rw [if_pos ha, if_pos ha]
    obtain hc | ⟨tab, htab, hdot, col, rfl⟩ := hS a ha
    · rw [if_pos hc]
    · rw [hown.row_eq_none hdot (hkeys ▸ htab), ite_self]
  · rw [if_neg ha, if_neg ha]

section
variable {tabsL tabsR colsL colsR cols : List String} {combsL combsR : List Comb} {rowsL rowsR : List Row}
  (hL : Delivers tabsL colsL combsL rowsL) (hR : Delivers tabsR colsR combsR rowsR) (hnd : (tabsL ++ tabsR).Nodup)
include hL hR hnd

/-- What is projected away before a join is not missed after it. -/
theorem Delivers.merge_project (hcols : ∀ a ∈ cols, a ∈ colsL ∨ a ∈ colsR) {l r : Comb} (hl : l ∈ combsL)
    (hr : r ∈ combsR) :
    Row.project cols (Row.merge (Row.project colsL l.row) (Row.project colsR r.row)) =
      Row.project cols (Comb.row (l ++ r)) := by
  obtain ⟨hlk, hlo⟩ := hL.keys l hl
  obtain ⟨hrk, hro⟩ := hR.keys r hr
  have hdisj := List.disjoint_of_nodup_append hnd
  rw [Comb.row_append]
  funext a
  by_cases ha : a ∈ cols
  · simp only [Row.project, if_pos ha, Row.merge]
    by_cases hleft : a ∈ colsL
    · obtain ⟨tab, htab, hdot, col, rfl⟩ := hL.columns a hleft
      have hnone := hro.row_eq_none hdot (fun h => hdisj htab (hrk ▸ h)) col
      rw [if_pos hleft, hnone, ite_self]
    · have hright := (hcols a ha).resolve_left hleft
      obtain ⟨tab, htab, hdot, col, rfl⟩ := hR.columns a hright
      have hnone := hlo.row_eq_none hdot (fun h => hdisj (hlk ▸ h) htab) col
      rw [if_neg hleft, if_pos hright, hnone]
  · simp only [Row.project, if_neg ha]

/-- **A Join node** on both readings of its operands. -/
theorem Delivers.join {c : JoinCell} (hlt : c.ltab ∈ tabsL) (hrt : c.rtab ∈ tabsR) (hlc : c.left ∈ colsL)
    (hrc : c.right ∈ colsR) (hcols : ∀ a ∈ cols, a ∈ colsL ∨ a ∈ colsR) :
    Delivers (tabsL ++ tabsR) cols (joinCombs c combsL combsR) ((joinRows c rowsL rowsR).map (Row.project cols)) where
  rows_eq := by
    obtain ⟨hndL, hndR, -⟩ := List.nodup_append.mp hnd
    rw [hL.rows_eq, hR.rows_eq, joinRows, joinCombs, List.map_flatMap, List.map_flatMap, List.flatMap_map]
    refine List.flatMap_congr fun l hl => ?_
    obtain ⟨hlk, hlo⟩ := hL.keys l hl
    have hleft : Row.project colsL l.row c.left = Comb.value l c.ltab c.lcol := by
      rw [Row.project, if_pos hlc]
      exact hlo.row_eq_value (hlk ▸ hndL) (hlk ▸ hlt) _
    rw [List.filter_map, List.map_map, List.map_map, List.map_map]
    have hfilter : (combsR.filter ((fun r : Row => sameValue (Row.project colsL l.row c.left) (r c.right)) ∘
        fun comb => Row.project colsR comb.row)) =
        combsR.filter fun r => sameValue (Comb.value l c.ltab c.lcol) (Comb.value r c.rtab c.rcol) := by
      refine List.filter_congr fun r hr => ?_
      obtain ⟨hrk, hro⟩ := hR.keys r hr
      have hright : Row.project colsR r.row c.right = Comb.value r c.rtab c.rcol := by
        rw [Row.project, if_pos hrc]
        exact hro.row_eq_value (hrk ▸ hndR) (hrk ▸ hrt) _
      rw [Function.comp_apply, hleft, hright]
    rw [hfilter]
    exact List.map_congr_left fun r hr => hL.merge_project hR hnd hcols hl (List.mem_of_mem_filter hr)
  keys := by
    intro comb hcomb
    obtain ⟨l, hl, hcomb⟩ := List.mem_flatMap.mp hcomb
    obtain ⟨r, hr, rfl⟩ := List.mem_map.mp hcomb
    obtain ⟨hlk, hlo⟩ := hL.keys l hl
    obtain ⟨hrk, hro⟩ := hR.keys r (List.mem_of_mem_filter hr)
    exact ⟨by rw [List.map_append, hlk, hrk], hlo.append hro⟩
  columns := by
    intro a ha
    obtain h | h := hcols a ha
    · obtain ⟨tab, htab, hcol⟩ := hL.columns a h
      exact ⟨tab, List.mem_append_left _ htab, hcol⟩
    · obtain ⟨tab, htab, hcol⟩ := hR.columns a h
      exact ⟨tab, List.mem_append_right _ htab, hcol⟩

end

/-! ## The nodes of the join phase -/

/-- The next Join node of a chain. -/
theorem Delivers.chain_step {out : String → List String} {S : List String} {J : List JoinCell} (hchain : Chain J)
    (hdot : ∀ c ∈ J, '.' ∉ c.ltab.toList ∧ '.' ∉ c.rtab.toList)
    (hcell : ∀ c ∈ J, c.left ∈ out c.ltab ∧ c.right ∈ out c.rtab) {k : Nat} {c : JoinCell} (hc : J[k]? = some c)
    {combsL combsR : List Comb} {rowsL rowsR : List Row}
    (hL : Delivers ((relation J).take (k + 1)) (chainColumns out S J k) combsL rowsL)
    (hR : Delivers [c.rtab] (out c.rtab) combsR rowsR) :
    Delivers ((relation J).take (k + 2)) (chainColumns out S J (k + 1)) (joinCombs c combsL combsR)
      ((joinRows c rowsL rowsR).map (Row.project (chainColumns out S J (k + 1)))) := by
  have hcmem := List.mem_of_getElem? hc
  have hrels := hchain.relation_getElem? hc
  have hk := (List.getElem?_eq_some_iff.mp hc).1
  have htake : (relation J).take (k + 2) = (relation J).take (k + 1) ++ [c.rtab] := by
    rw [List.take_add_one, hrels.2]
    rfl
  have hleft : c.left ∈ chainColumns out S J k := by
    refine hchain.columns_kept hdot (by omega) le_rfl hrels.1 (hcell c hcmem).1 (.inr ⟨k, c, le_rfl, hc, .inl rfl⟩)
  have hltab : c.ltab ∈ (relation J).take (k + 1) := by
    refine List.mem_of_getElem? (i := k) ?_
    rw [List.getElem?_take_of_lt (by omega), hrels.1]
  have hsub : ∀ a ∈ chainColumns out S J (k + 1), a ∈ chainColumns out S J k ∨ a ∈ out c.rtab := by
    intro a ha
    simp only [chainColumns, hc, hrels.2, joinColumns] at ha
    rw [← List.mem_append, ← mem_sortUnique]
    split_ifs at ha with hnil
    · exact ha
    · exact joinProjection_subset ha
  rw [htake]
  refine hL.join hR ?_ hltab (List.mem_singleton_self _) hleft (hcell c hcmem).2 hsub
  rw [← htake]
  exact hchain.distinct.sublist (List.take_sublist _ _)

theorem evalNode_contents {α : Type} {sem : Semantics α} (hsem : sem.IgnoresLinks) (tr : List TreeNode) (fuel i : Nat) :
    evalNode sem (contents tr) fuel i = evalNode sem tr fuel i := by
  induction fuel generalizing i with
  | zero => rfl
  | succ fuel ih =>
    have hfun : evalNode sem (contents tr) fuel = evalNode sem tr fuel := funext ih
    cases hn : tr[i]? with
    | none => simp only [evalNode, contents_getElem?, hn, Option.map_none]
    | some n =>
      have hC : (contents tr)[i]? = some (n.under (-1)) := by rw [contents_getElem?, hn, Option.map_some]
      cases ht : n.type with
      | fragment =>
        rw [evalNode_fragment sem fuel hC ht, evalNode_fragment sem fuel hn ht]
        exact hsem.leaf n (-1) n.child
      | union =>
        rw [evalNode_union sem fuel hC ht, evalNode_union sem fuel hn ht, hfun]
        exact hsem.union n (-1) _
      | join =>
        rw [evalNode_join sem fuel hC ht, evalNode_join sem fuel hn ht, hfun]
        exact hsem.join n (-1) _

/-- Both readings of the node `i` agree, on the tables `tabs` and the columns `cols`. -/
def Agrees (db : Placement) (C : List TreeNode) (tabs cols : List String) (i : Nat) : Prop :=
  ∀ fuel, Delivers tabs cols (evalNode (combSemantics db) C fuel i) (evalNode (rowSemantics db) C fuel i)

/-- The columns and the stored values of a fragment are columns of its table. -/
structure OwnFragment (db : Placement) (out : String → List String) (x : FragName) : Prop where
  name : '.' ∉ x.table.toList
  columns : ∀ a ∈ out x.table, ∃ col, a = x.table ++ "." ++ col
  stored : ∀ r ∈ db x, ∀ a, r a ≠ none → ∃ col, a = x.table ++ "." ++ col

theorem OwnFragment.agrees {db : Placement} {out : String → List String} {x : FragName} (h : OwnFragment db out x)
    {C : List TreeNode} {i : Nat} {n : TreeNode} (hn : C[i]? = some n) (htype : n.type = .fragment)
    (hname : n.fname = x) (hcols : n.output = out x.table) : Agrees db C [x.table] (out x.table) i := by
  obtain ⟨hdot, hqual, hrows⟩ := h
  have hcol : ∀ a ∈ out x.table, ∃ tab ∈ [x.table], '.' ∉ tab.toList ∧ ∃ col, a = tab ++ "." ++ col :=
    fun a ha => ⟨x.table, List.mem_singleton_self _, hdot, hqual a ha⟩
  intro fuel
  cases fuel with
  | zero => exact .nil hcol
  | succ fuel =>
    rw [evalNode_fragment _ fuel hn htype, evalNode_fragment _ fuel hn htype]
    refine ⟨?_, fun comb hcomb => ?_, hcol⟩
    · simp only [rowSemantics, combSemantics, List.map_map, hcols]
      exact List.map_congr_left fun r _ => by rw [Function.comp_apply, Comb.row_singleton]
    · obtain ⟨r, hr, rfl⟩ := List.mem_map.mp hcomb
      refine ⟨by rw [hname]; rfl, fun b hb => ?_⟩
      obtain rfl := List.mem_singleton.mp hb
      rw [hname]
      exact ⟨hdot, hrows r (hname ▸ List.mem_of_mem_filter hr)⟩

section
variable {db : Placement} {sc : Scan} {ok : FragName → Prop} {C : List TreeNode} {out : String → List String}
  (hout : ∀ x n, ok x → (contents sc.tr)[sc.mpTr x]? = some n → n.type = .fragment ∧ n.fname = x ∧ n.output = out x.table)
  (hown : ∀ x, ok x → OwnFragment db out x)
include hout hown

theorem NodeFor.agrees {x : FragName} {i : Nat} (h : NodeFor sc ok C x i) : Agrees db C [x.table] (out x.table) i := by
  obtain ⟨hx, n, hn, hC⟩ := h
  obtain ⟨htype, hname, hcols⟩ := hout x n hx hn
  obtain ⟨-, hC⟩ | hC := hC
  · exact (hown x hx).agrees hC htype hname hcols
  · exact (hown x hx).agrees hC htype hname hcols

theorem OperandFor.agrees {rel : String} {nums : List Int} {i : Nat} (h : OperandFor sc ok C rel nums i) :
    Agrees db C [rel] (out rel) i := by
  cases h with
  | node h => exact h.agrees hout hown
  | @union nums i site child attr hnums hne hnode hchild hattr =>
    have hcol : ∀ a ∈ out rel, ∃ tab ∈ [rel], '.' ∉ tab.toList ∧ ∃ col, a = tab ++ "." ++ col := by
      cases hchild with
      | nil => exact absurd rfl hne
      | cons h _ => exact (h.agrees hout hown 0).columns
    intro fuel
    cases fuel with
    | zero => exact .nil hcol
    | succ fuel =>
      rw [evalNode_union _ fuel hnode rfl, evalNode_union _ fuel hnode rfl]
      show Delivers [rel] (out rel) (child.map _).flatten (child.map _).flatten
      clear hnode hne hnums hattr
      induction hchild with
      | nil => exact .nil hcol
      | cons h _ ih => exact (h.agrees hout hown fuel).append ih

theorem ChainFor.agrees {S : List String} {J : List JoinCell} (hchain : Chain J)
    (hdot : ∀ c ∈ J, '.' ∉ c.ltab.toList ∧ '.' ∉ c.rtab.toList)
    (hcell : ∀ c ∈ J, c.left ∈ out c.ltab ∧ c.right ∈ out c.rtab) {plist : Pattern} {k i : Nat}
    (h : ChainFor sc ok C S J plist k i) : Agrees db C ((relation J).take (k + 1)) (chainColumns out S J k) i := by
  induction h with
  | @start rel nums i hrel _ hop =>
    have htake : (relation J).take 1 = [rel] := by
      rw [List.take_one, List.head?_eq_getElem?, hrel]
      rfl
    rw [htake, chainColumns, hrel]
    exact hop.agrees hout hown
  | @step k l r i rel nums c x y site hl hrel hnums hr hc hx hy hnode ih =>
    have hR := hr.agrees hout hown
    obtain rfl : rel = c.rtab := Option.some.inj (hrel.symm.trans (hchain.relation_getElem? hc).2)
    have hjoin := fun fuel => (ih fuel).chain_step hchain hdot hcell hc (hR fuel)
    have hcols := (ChainFor.step hl hrel hnums hr hc hx hy hnode).node_output fun x n hok hn => (hout x n hok hn).2.2
    intro fuel
    cases fuel with
    | zero => exact .nil (hjoin 0).columns
    | succ fuel =>
      rw [evalNode_join _ fuel hnode rfl, evalNode_join _ fuel hnode rfl]
      show Delivers _ _ (joinCombs c _ _) ((joinRows c _ _).map (Row.project (joinNode site S c J[k + 1]? l r x y).output))
      rw [hcols _ hnode]
      exact hjoin fuel

end

/-! ## The root -/

section
variable {Tables : List MetadataTable} {q : Query} (h : ColumnsKnown Tables q)
  (htype : ∀ T ∈ Tables, T.name ∈ q.fromTable → T.type = .hf)

theorem not_keyOnly_of_hf {T : MetadataTable} (hhf : T.type = .hf) (q : Query) : ¬ KeyOnly q T := by
  rintro ⟨hvf, -⟩
  rw [hhf] at hvf
  cases hvf

include h htype in
theorem ColumnsKnown.mem_columns {T : MetadataTable} (hT : T ∈ Tables) (hfrom : T.name ∈ q.fromTable) {q' : Query}
    {a : String} (ha : a ∈ T.attrs) (hneed : needed q' a = true) : a ∈ columnsOf q' Tables T.name := by
  rw [columnsOf_name h.name hT]
  exact mem_tableColumns_hf (htype T hT hfrom) ha hneed

variable {p : JoinPlan} (hplan : Planned Tables q p)
include h htype hplan

theorem Planned.ownFragment {db : Placement}
    (hrows : ∀ T ∈ Tables, T.name ∈ q.fromTable → ∀ F ∈ T.frags, ∀ r ∈ db F.fname, ∀ a, r a ≠ none → a ∈ T.attrs)
    {T : MetadataTable} (hT : T ∈ Tables) (hfrom : T.name ∈ q.fromTable) {F : Fragment} (hF : F ∈ T.frags) :
    OwnFragment db (columnsOf p.query Tables) F.fname := by
  have hnamed := h.tables T hT hfrom
  have htab := h.named T hT F hF
  refine ⟨htab ▸ hnamed.name, fun a ha => ?_, fun r hr a ha => ?_⟩
  · rw [htab, columnsOf_name h.name hT] at ha
    rw [htab]
    exact ⟨_, hnamed.qualified a (tableColumns_subset hnamed (not_keyOnly_of_hf (htype T hT hfrom) _)
      (h.expanded hplan).mentioned ha)⟩
  · rw [htab]
    exact ⟨_, hnamed.qualified a (hrows T hT hfrom F hF r hr a ha)⟩

theorem Planned.recorded_fragment {x : FragName} {n : TreeNode} (hx : Kept p.scan x)
    (hn : (contents p.scan.tr)[p.scan.mpTr x]? = some n) :
    n.type = .fragment ∧ n.fname = x ∧ n.output = columnsOf p.query Tables x.table := by
  obtain ⟨hname, hcols⟩ := (hplan.recorded_columns h.name h.named hx).2 n hn
  refine ⟨?_, hname, hcols⟩
  rw [contents_getElem?, Option.map_eq_some_iff] at hn
  obtain ⟨m, hm, rfl⟩ := hn
  obtain ⟨T, -, -, F, -, select, rfl⟩ := hplan.scanned_hf htype hm
  rfl

omit htype in
/-- A selected column is a column of the tables `tabs`, and then delivered, or of another table. -/
theorem ColumnsKnown.selected_or_other {tabs cols : List String}
    (hcover : ∀ T ∈ Tables, T.name ∈ q.fromTable → T.name ∈ tabs → ∀ a ∈ T.attrs, a ∈ p.query.selectAttr → a ∈ cols) :
    ∀ a ∈ p.query.selectAttr,
      a ∈ cols ∨ ∃ tab, tab ∉ tabs ∧ '.' ∉ tab.toList ∧ ∃ col, a = tab ++ "." ++ col := by
  intro a ha
  have hexp := h.expanded hplan
  obtain ⟨T, hT, hfrom, haT⟩ := hexp.known a (hexp.selected a ha)
  by_cases htab : T.name ∈ tabs
  · exact .inl (hcover T hT hfrom htab a haT ha)
  · have hnamed := h.tables T hT hfrom
    exact .inr ⟨T.name, htab, hnamed.name, _, hnamed.qualified a haT⟩

variable {db : Placement}
  (hrows : ∀ T ∈ Tables, T.name ∈ q.fromTable → ∀ F ∈ T.frags, ∀ r ∈ db F.fname, ∀ a, r a ≠ none → a ∈ T.attrs)
  {ch : List JoinCell} (hpath : Path ch q.join) {tr : List TreeNode} (htr : buildForest p = some tr)
include hrows hpath htr

/-- **The nodes left for the root** deliver the selected columns of their combinations. -/
theorem Planned.root_rows {i : Nat} (hi : i ∈ parentless tr) (fuel : Nat) :
    (evalNode (rowSemantics db) tr fuel i).map (Row.project p.query.selectAttr) =
      (evalNode (combSemantics db) tr fuel i).map fun comb => Row.project p.query.selectAttr comb.row := by
  obtain ⟨T, htops, hroots⟩ := buildForest_roots hplan h.named hpath htr
  have hroot := mem_parentless_iff_root.mp hi
  rw [← evalNode_contents (rowSemantics_ignoresLinks db), ← evalNode_contents (combSemantics_ignoresLinks db)]
  obtain htop | ⟨⟨n, hn, -⟩, -⟩ := (hroots i).mp hroot
  · obtain ⟨hbehind, hjoin⟩ := htops i htop
    obtain ⟨plist, hch⟩ := patternTop_chain hplan h.named hpath htr hroot hbehind hjoin
    obtain ⟨l, hl⟩ : ∃ l, l ∈ p.joinList := by
      by_contra hnone
      have hnil : ∀ site ∈ ([1, 2, 3, 4] : List Int), p.joinSite site = [] := fun site _ =>
        List.eq_nil_iff_forall_not_mem.mpr fun l hl => hnone ⟨l, (hplan.mem_joinSite_iff.mp hl).1⟩
      obtain rfl := Option.some.inj (htr.symm.trans (buildForest_of_joinList_nil hnil))
      exact absurd hroot.lt (Nat.not_lt.mpr hbehind)
    obtain ⟨hchain, -⟩ := hplan.joinList_chain h.named hpath hl
    have hdot := h.chain_dot hplan
    have hcell : ∀ c ∈ p.join, c.left ∈ columnsOf p.query Tables c.ltab ∧ c.right ∈ columnsOf p.query Tables c.rtab := by
      intro c hc
      obtain ⟨⟨T, hT, hname, hfrom, ha⟩, T', hT', hname', hfrom', ha'⟩ := h.cells hplan hc
      exact ⟨hname ▸ h.mem_columns htype hT hfrom ha (hplan.needed_iff.mpr (.inr ⟨c, hc, .inl rfl⟩)),
        hname' ▸ h.mem_columns htype hT' hfrom' ha' (hplan.needed_iff.mpr (.inr ⟨c, hc, .inr rfl⟩))⟩
    have hown : ∀ x, Kept p.scan x → OwnFragment db (columnsOf p.query Tables) x := by
      rintro x ⟨tab, X, hX, rfl⟩
      obtain ⟨n, hn, -, hname⟩ := (scanTables_forest hplan.scan).recorded tab X hX
      obtain ⟨T, hT, hfrom, F, hF, select, rfl⟩ := hplan.scanned_hf htype hn
      exact hname ▸ hplan.ownFragment h htype hrows hT hfrom hF
    have hagrees := hch.agrees (fun x n hx hn => hplan.recorded_fragment h htype hx hn) hown hchain hdot hcell
    refine (hagrees fuel).project (h.selected_or_other hplan fun T hT hfrom htab a ha hsel => ?_)
    obtain ⟨m, hm⟩ := List.mem_iff_getElem?.mp (List.mem_of_mem_take htab)
    have hmlt := (List.getElem?_eq_some_iff.mp hm).1
    have hJ : p.join ≠ [] := (hplan.joinList_tables h.named hpath hl).2.1
    rw [length_relation hJ] at hmlt
    exact hchain.columns_kept hdot le_rfl (Nat.le_of_lt_succ hmlt) hm
      (h.mem_columns htype hT hfrom ha (hplan.needed_iff.mpr (.inl hsel))) (.inl hsel)
  · obtain ⟨T, hT, hfrom, F, hF, select, rfl⟩ := hplan.scanned_hf htype hn
    obtain ⟨par, hm⟩ := hplan.scanned_node h.named hpath htr hn
    have hC : (contents tr)[i]? = some (hfNode p.query T F select) := by
      rw [contents_getElem?, hm]
      rfl
    have htab := h.named T hT F hF
    have hcols : (hfNode p.query T F select).output = columnsOf p.query Tables F.fname.table := by
      rw [htab, columnsOf_name h.name hT, hfNode_output, tableColumns, htype T hT hfrom]
    have hagrees := (hplan.ownFragment h htype hrows hT hfrom hF).agrees hC rfl rfl hcols
    refine (hagrees fuel).project (h.selected_or_other hplan fun T' hT' hfrom' htab' a ha hsel => ?_)
    rw [List.mem_singleton] at htab'
    exact htab' ▸ h.mem_columns htype hT' hfrom' ha (hplan.needed_iff.mpr (.inl hsel))

theorem Planned.eval_rows (site : Int) :
    ((unionPhase site p.query.selectAttr tr).eval (rowSemantics db)).map (Row.project p.query.selectAttr) =
      ((unionPhase site p.query.selectAttr tr).eval (combSemantics db)).map fun comb =>
        Row.project p.query.selectAttr comb.row := by
  have hclosed := (buildForest_forested hplan h.named hpath htr).closed
  have hlast := hplan.forest_last h.named hpath htr
  have hroots : (((parentless tr).flatMap (evalNode (rowSemantics db) tr tr.length)).map
      (Row.project p.query.selectAttr)) = ((parentless tr).flatMap (evalNode (combSemantics db) tr tr.length)).map
        fun comb => Row.project p.query.selectAttr comb.row := by
    rw [List.map_flatMap, List.map_flatMap]
    exact List.flatMap_congr fun i hi => hplan.root_rows h htype hrows hpath htr hi _
  rw [unionPhase_eval_combs hclosed hlast, ← hroots]
  by_cases hlen : 1 < (parentless tr).length
  · rw [unionPhase_eval_many (rowSemantics_ignoresLinks db) hclosed _ _ hlen, List.flatMap_def]
    simp only [rowSemantics, rootNode]
    split_ifs with hnil hproj hproj
    · rfl
    · rw [List.map_map]
      exact List.map_congr_left fun r _ => project_project (fun _ h => h) r
    · rfl
    · exact absurd rfl hproj
  · rw [unionPhase_eval_one _ _ hlast (Nat.le_of_not_lt hlen)]

end

/-- **Projections are pushed down without harm.** Whatever join path a query over horizontally fragmented tables has,
whatever it selects and whichever fragments are kept, the rows delivered by its tree have, in the selected columns, the
values of the combinations of stored rows that the tree stands for. -/
theorem rows_of_combinations (Tables : List MetadataTable) (q : Query) (db : Placement) (h : ColumnsKnown Tables q)
    (htype : ∀ T ∈ Tables, T.name ∈ q.fromTable → T.type = .hf) (hpath : ∃ ch, Path ch q.join)
    (hrows : ∀ T ∈ Tables, T.name ∈ q.fromTable → ∀ F ∈ T.frags, ∀ r ∈ db F.fname, ∀ a, r a ≠ none → a ∈ T.attrs)
    (p : JoinPlan) (t : Tree) (hp : planJoins Tables q = some p) (ht : buildQueryTree Tables q = some t) :
    (t.eval (rowSemantics db)).map (Row.project p.query.selectAttr) =
      (t.eval (combSemantics db)).map fun comb => Row.project p.query.selectAttr comb.row := by
  obtain ⟨ch, hpath⟩ := hpath
  obtain ⟨tr, htr, rfl⟩ := buildQueryTree_forest hp ht
  exact (planJoins_planned hp).eval_rows h htype hrows hpath htr _

theorem ofList_columns {l : List (String × Value)} {a : String} (h : Row.ofList l a ≠ none) : a ∈ l.map Prod.fst := by
  by_contra hnot
  refine h (List.lookup_eq_none_iff.mpr fun b hb => ?_)
  simpa using fun heq : a = b.1 => hnot (heq ▸ List.mem_map_of_mem hb)

theorem onePublisher_columns : ∀ T ∈ getMetadata, T.name ∈ booksOfPublishers.fromTable → ∀ F ∈ T.frags,
    ∀ r ∈ onePublisher F.fname, ∀ a, r a ≠ none → a ∈ T.attrs := by
  intro T hT _ F hF r hr a ha
  have htab : F.fname.table = T.name :=
    (show ∀ T ∈ getMetadata, ∀ F ∈ T.frags, F.fname.table = T.name by decide) T hT F hF
  have hattrs : ∀ T ∈ getMetadata, (T.name = "Publisher" → ∀ a ∈ ["Publisher.id", "Publisher.name", "Publisher.nation"],
      a ∈ T.attrs) ∧ (T.name = "Book" → ∀ a ∈ ["Book.id", "Book.title", "Book.authors", "Book.publisher_id",
        "Book.copies"], a ∈ T.attrs) := by
    decide
  unfold onePublisher at hr
  split_ifs at hr with hpub hbook
  · rw [List.mem_singleton.mp hr] at ha
    exact (hattrs T hT).1 (by rw [← htab, hpub]) a (ofList_columns ha)
  · rw [List.mem_singleton.mp hr] at ha
    exact (hattrs T hT).2 (by rw [← htab, hbook]) a (ofList_columns ha)
  · cases hr

/-- The title of the book that is joined with its publisher. -/
theorem booksOfPublishers_rows : ∃ t, buildQueryTree getMetadata booksOfPublishers = some t ∧
    (t.eval (rowSemantics onePublisher)).map (Row.project ["Book.title"]) =
      (t.eval (combSemantics onePublisher)).map (fun comb => Row.project ["Book.title"] comb.row) ∧
    (t.eval (combSemantics onePublisher)).map (List.map Prod.fst) = [["Book", "Publisher"]] := by
  have hknown : ColumnsKnown getMetadata booksOfPublishers := ⟨by decide, by decide,
    fun T hT _ => getMetadata_named T hT, by decide, by decide, by decide, by decide⟩
  have hrun : ((planJoins getMetadata booksOfPublishers).any fun p =>
      (buildQueryTree getMetadata booksOfPublishers).any fun t => p.query.selectAttr = ["Book.title"] ∧
        (t.eval (combSemantics onePublisher)).map (List.map Prod.fst) = [["Book", "Publisher"]]) = true := by
    decide +kernel
  simp only [Option.any_eq_true, decide_eq_true_eq] at hrun
  obtain ⟨p, hp, t, ht, hsel, hkeys⟩ := hrun
  have hrows := rows_of_combinations getMetadata booksOfPublishers onePublisher hknown booksOfPublishers_hfCatalog.type
    ⟨_, booksOfPublishers_path⟩ onePublisher_columns p t hp ht
  rw [hsel] at hrows
  exact ⟨t, ht, hrows, hkeys⟩

end EasyDDB.Optimizer
