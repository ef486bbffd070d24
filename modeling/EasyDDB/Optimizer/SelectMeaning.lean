import EasyDDB.Optimizer.RowMeaning
import EasyDDB.Optimizer.SelectHf
import EasyDDB.Optimizer.WhereMeaning

/-! # From a SELECT statement to its rows

`SelectProcess` reads the WHERE clause, moves predicates through the joins, prunes fragments, joins what is left and
projects on the way. Where no step loses its footing, all of that is invisible: the tree delivers the combinations of
stored rows in which the clause holds. -/
namespace EasyDDB.Optimizer
open Condition
set_option autoImplicit false

/-! ## The clause -/

/-- The collected predicates and joins of a clause without OR hold where the clause does. -/
theorem initSQL_meaning {Statement : SelectStatement} {q : Query} {e : Expr} (hq : initSQL Statement = some q)
    (hwhere : Statement.whereClause = some e) (hclause : e.isClause = true) (hfit : e.fitsInt = true)
    (hor : e.alternatives = []) (comb : Comb) :
    (q.predicate.all comb.satisfies && holdsAll q.join comb) = e.holds comb := by
  simp only [initSQL, hwhere, Option.bind_eq_bind, Option.bind_eq_some_iff, Option.some.injEq] at hq
  obtain ⟨selectAttr, -, s, hs, rfl⟩ := hq
  rw [getExpression_clause _ _ hclause, Option.map_some, Option.some.injEq] at hs
  obtain ⟨-, -, hmeans⟩ := parts_means Statement.fromTable (part_of_mem_comparisons Statement.fromTable hclause)
  have hparts := hmeans (fitsInt_comparisons hclause hfit) comb
  rw [← hs]
  simp only [Where.append, List.nil_append]
  rw [hparts, Bool.eq_iff_iff, all_comparisons_iff hclause comb, hor]
  simp

/-- Where the predicates and the joins hold, the transferred predicates do. -/
theorem extendPredicate_satisfied {q : Query} (hdot : ∀ x ∈ q.join, x.NoDot) {comb : Comb}
    (hjoin : holdsAll q.join comb = true) :
    (extendPredicate q).predicate.all comb.satisfies = q.predicate.all comb.satisfies := by
  rw [Bool.eq_iff_iff]
  simp only [extendPredicate, List.all_append, Bool.and_eq_true]
  refine ⟨And.left, fun hpred => ⟨hpred, List.all_eq_true.mpr fun c hc => ?_⟩⟩
  obtain ⟨x, hx, hc⟩ := List.mem_flatMap.mp hc
  obtain ⟨cell, hcell, htransferred⟩ := List.mem_filterMap.mp hc
  exact transferred_satisfies (hdot cell hcell) htransferred (List.all_eq_true.mp hjoin cell hcell)
    (List.all_eq_true.mp hpred x hx)

/-! ## Kept rows -/

/-- The stored rows of a FROM table. -/
def storedRows (Tables : List MetadataTable) (q : Query) (db : Placement) (tab : String) : List Row :=
  (Tables.filter fun T => T.name = tab ∧ tab ∈ q.fromTable).flatMap fun T => tableRows T db

/-- A row satisfies the predicates about its table. -/
def satisfiesOwn (P : List Condition) (b : String × Row) : Bool := P.all fun x => x.table ≠ b.1 || x.satisfied b.2

theorem satisfiesOwn_iff {P : List Condition} {b : String × Row} :
    satisfiesOwn P b = true ↔ ∀ x ∈ P, x.table = b.1 → x.satisfied b.2 = true := by
  simp only [satisfiesOwn, List.all_eq_true, Bool.or_eq_true, decide_eq_true_eq, ne_eq]
  exact forall₂_congr fun x _ => (imp_iff_not_or).symm

/-- Pruning and the shortcuts of `check_condition` do no harm: the conditions are what the optimizer is made for, every
FROM table has a predicate or there is none at all, and where the selection of a fragment is erased its rows satisfy the
predicates anyway. -/
structure ExactSelection (Tables : List MetadataTable) (q : Query) (db : Placement) : Prop where
  conditions : ∀ T ∈ Tables, T.name ∈ q.fromTable → ∀ F ∈ T.frags, FragConditions T.name F.hfCondition
  plain : ∀ x ∈ q.predicate, x.Plain
  types : ∀ x ∈ (extendPredicate q).predicate, ∀ T ∈ Tables, T.name ∈ q.fromTable → ∀ F ∈ T.frags,
    ∀ y ∈ F.hfCondition, x.sameColumn y = true → x.type = y.type
  about : q.predicate = [] ∨
    ∀ T ∈ Tables, T.name ∈ q.fromTable → ∃ x ∈ (extendPredicate q).predicate, x.table = T.name
  erased : ∀ T ∈ Tables, T.name ∈ q.fromTable → ∀ F ∈ T.frags,
    shortcut F.hfCondition (extendPredicate q).predicate = true → ∀ r ∈ db F.fname,
      satisfiesOwn (extendPredicate q).predicate (T.name, r) = true

section
variable {Tables : List MetadataTable} {q : Query} {db : Placement} (h : ExactSelection Tables q db)
  (hdb : ∀ T ∈ Tables, T.name ∈ q.fromTable → ∀ F ∈ T.frags, ∀ r ∈ db F.fname,
    r.InRange ∧ satisfiesAll F.hfCondition r = true)
include h hdb

/-- The node of a fragment delivers the rows that satisfy the predicates about its table. -/
theorem ExactSelection.keptRows_eq {T : MetadataTable} (hT : T ∈ Tables) (hfrom : T.name ∈ q.fromTable) {F : Fragment}
    (hF : F ∈ T.frags) : keptRows db (extendPredicate q).predicate F =
      (db F.fname).filter fun r => satisfiesOwn (extendPredicate q).predicate (T.name, r) := by
  have hcond := h.conditions T hT hfrom F hF
  have hplain := extendPredicate_plain h.plain
  have hplaced := hdb T hT hfrom F hF
  have hsel := fragSelect_spec hcond.toOwnConditions (CheckSet.of_plain hcond hplain)
  rw [keptRows, hsel]
  by_cases hcon : contradicts F.hfCondition (extendPredicate q).predicate = true
  · have hne : (extendPredicate q).predicate ≠ [] := by
      intro hnil
      rw [hnil] at hcon
      cases hcon
    rw [if_pos ⟨hne, .inl hcon⟩, eq_comm, List.filter_eq_nil_iff]
    intro r hr hsat
    obtain ⟨hrange, hrH⟩ := hplaced r hr
    obtain ⟨x, hx, htab, hnot⟩ := contradicts_excludes hcond hrange hrH hplain hcon
    exact hnot (satisfiesOwn_iff.mp hsat x hx htab)
  have hkeep : ¬ ((extendPredicate q).predicate ≠ [] ∧ (contradicts F.hfCondition (extendPredicate q).predicate = true ∨
      ∀ x ∈ (extendPredicate q).predicate, x.table ≠ T.name)) := by
    rintro ⟨hne, hcon' | hnone⟩
    · exact hcon hcon'
    · obtain hnil | habout := h.about
      · refine hne ?_
        simp only [extendPredicate, hnil, List.nil_append]
        rfl
      · obtain ⟨x, hx, htab⟩ := habout T hT hfrom
        exact hnone x hx htab
  rw [if_neg hkeep]
  by_cases hcnt : coverCount F.hfCondition (extendPredicate q).predicate = F.hfCondition.length
  · rw [if_pos hcnt]
    have herased : shortcut F.hfCondition (extendPredicate q).predicate = true := by
      simp [shortcut, hcon, hcnt]
    have hall := h.erased T hT hfrom F hF herased
    rw [List.filter_eq_self.mpr hall]
    exact List.filter_eq_self.mpr fun _ _ => rfl
  · rw [if_neg hcnt]
    refine List.filter_congr fun r hr => ?_
    obtain ⟨hrange, hrH⟩ := hplaced r hr
    rw [Bool.eq_iff_iff, satisfiesOwn_iff]
    exact residual_exact hcond hrange hrH hplain (fun x hx => h.types x hx T hT hfrom F hF)
      (Bool.eq_false_iff.mpr hcon)

theorem ExactSelection.keptTableRows_eq (tab : String) :
    ((keptTableRows Tables q db tab).map fun r => (tab, r)) =
      ((storedRows Tables q db tab).map fun r => (tab, r)).filter (satisfiesOwn (extendPredicate q).predicate) := by
  rw [List.filter_map, keptTableRows, storedRows, List.filter_flatMap]
  refine congrArg _ (List.flatMap_congr fun T hT => ?_)
  rw [List.mem_filter, decide_eq_true_eq] at hT
  obtain ⟨hT, rfl, hfrom⟩ := hT
  rw [tableRows, List.filter_flatMap]
  exact List.flatMap_congr fun F hF => h.keptRows_eq hdb hT hfrom hF

end

/-! ## Combinations of stored rows -/

/-- The combinations of one stored row for each table of a list. -/
def storedCombs (Tables : List MetadataTable) (q : Query) (db : Placement) (tabs : List String) : List Comb :=
  (tabs.map fun tab => (storedRows Tables q db tab).map fun r => (tab, r)).sections

theorem keys_of_mem_sections {tabs : List String} {rows : String → List Row} {comb : Comb}
    (h : comb ∈ (tabs.map fun tab => (rows tab).map fun r => (tab, r)).sections) : comb.map Prod.fst = tabs := by
  have hall := List.forall₂_map_right_iff.mp (List.mem_sections.mp h)
  clear h
  induction hall with
  | nil => rfl
  | cons hb _ ih =>
    obtain ⟨r, -, rfl⟩ := List.mem_map.mp hb
    rw [List.map_cons, ih]

theorem satisfies_of_mem {comb : Comb} (hnd : (comb.map Prod.fst).Nodup) {b : String × Row} (hb : b ∈ comb)
    {x : Condition} (hx : x.table = b.1) : comb.satisfies x = x.satisfied b.2 := by
  rw [satisfies_eq, hx, value_of_mem hnd hb, ← hx]
  rfl

/-- With one row for each table, a list of predicates can be checked row by row. -/
theorem all_satisfies_eq {P : List Condition} {comb : Comb} (hnd : (comb.map Prod.fst).Nodup)
    (htab : ∀ x ∈ P, x.table ∈ comb.map Prod.fst) : P.all comb.satisfies = comb.all (satisfiesOwn P) := by
  rw [Bool.eq_iff_iff, List.all_eq_true, List.all_eq_true]
  constructor
  · intro hall b hb
    refine satisfiesOwn_iff.mpr fun x hx hxb => ?_
    rw [← satisfies_of_mem hnd hb hxb]
    exact hall x hx
  · intro hall x hx
    obtain ⟨b, hb, hbx⟩ := List.mem_map.mp (htab x hx)
    rw [satisfies_of_mem hnd hb hbx.symm]
    exact satisfiesOwn_iff.mp (hall b hb) x hx hbx.symm

theorem Path.tables_mem {ch J : List JoinCell} (h : Path ch J) {c : JoinCell} (hc : c ∈ J) :
    c.ltab ∈ relation ch ∧ c.rtab ∈ relation ch := by
  obtain ⟨d, hd, heq⟩ := List.mem_map.mp (h.edges.mem_iff.mpr (List.mem_map_of_mem hc))
  obtain ⟨k, hk⟩ := List.mem_iff_getElem?.mp hd
  obtain ⟨hl, hr⟩ := h.toChain.relation_getElem? hk
  obtain rfl | rfl := JoinCell.edge_eq_iff.mp heq
  · exact ⟨List.mem_of_getElem? hl, List.mem_of_getElem? hr⟩
  · exact ⟨List.mem_of_getElem? hr, List.mem_of_getElem? hl⟩

/-- The predicates that are added are about joined tables. -/
theorem extendPredicate_tables {q : Query} {ch : List JoinCell} (hpath : Path ch q.join)
    (hdot : ∀ x ∈ q.join, x.NoDot) (htab : ∀ x ∈ q.predicate, x.table ∈ relation ch) :
    ∀ x ∈ (extendPredicate q).predicate, x.table ∈ relation ch := by
  intro x hx
  obtain hx | hx := List.mem_append.mp hx
  · exact htab x hx
  · obtain ⟨p, -, hx⟩ := List.mem_flatMap.mp hx
    obtain ⟨c, hc, htrans⟩ := List.mem_filterMap.mp hx
    obtain ⟨⟨-, -, hct, -⟩ | ⟨-, -, hct, -⟩, -⟩ := transferred_cases (hdot c hc) htrans
    · exact hct ▸ (hpath.tables_mem hc).2
    · exact hct ▸ (hpath.tables_mem hc).1

/-- The matching combinations of kept rows are those of stored rows in which the clause holds. -/
theorem selectCombs_kept {Tables : List MetadataTable} {q : Query} {db : Placement} (h : ExactSelection Tables q db)
    (hdb : ∀ T ∈ Tables, T.name ∈ q.fromTable → ∀ F ∈ T.frags, ∀ r ∈ db F.fname,
      r.InRange ∧ satisfiesAll F.hfCondition r = true) {ch : List JoinCell} (hpath : Path ch q.join)
    (hdot : ∀ x ∈ q.join, x.NoDot) (htab : ∀ x ∈ q.predicate, x.table ∈ relation ch) :
    selectCombs q.join ((relation ch).map fun tab => (keptTableRows Tables q db tab).map fun r => (tab, r)) =
      (storedCombs Tables q db (relation ch)).filter fun comb =>
        q.predicate.all comb.satisfies && holdsAll q.join comb := by
  have hkept : ((relation ch).map fun tab => (keptTableRows Tables q db tab).map fun r => (tab, r)) =
      ((relation ch).map fun tab => (storedRows Tables q db tab).map fun r => (tab, r)).map
        fun L => L.filter (satisfiesOwn (extendPredicate q).predicate) := by
    rw [List.map_map]
    exact List.map_congr_left fun tab _ => h.keptTableRows_eq hdb tab
  rw [selectCombs, hkept, ← Bags.filter_all_sections, List.filter_filter, storedCombs]
  refine List.filter_congr fun comb hcomb => ?_
  have hkeys := keys_of_mem_sections hcomb
  have hnd : (comb.map Prod.fst).Nodup := hkeys ▸ hpath.distinct
  rw [← all_satisfies_eq hnd (hkeys ▸ extendPredicate_tables hpath hdot htab), Bool.and_comm]
  cases hj : holdsAll q.join comb with
  | false => rw [Bool.and_false, Bool.and_false]
  | true => rw [extendPredicate_satisfied hdot hj]

/-! ## The whole statement -/

/-- Without stray fragments nothing but joined rows reaches the root. -/
theorem Planned.strayRows_nil {Tables : List MetadataTable} {q : Query} {p : JoinPlan} (hplan : Planned Tables q p)
    (hcat : HfCatalog Tables q.fromTable)
    (hjoined : ∀ tab, ∀ X ∈ p.scan.pruning tab, ∃ l ∈ p.joinList, X.fname ∈ l) (db : Placement) :
    strayRows Tables q db p.joinList = [] := by
  obtain ⟨hfrom, hpred, -⟩ := hplan.query_fields
  refine List.flatMap_eq_nil_iff.mpr fun T hT => List.flatMap_eq_nil_iff.mpr fun F hF => ?_
  rw [List.mem_filter, decide_eq_true_eq] at hT hF
  rw [List.map_eq_nil_iff, keptRows]
  split
  · next select hsel =>
    have hkept : F ∈ p.scan.pruning T.name := by
      rw [scanTables_pruning (hplan.hfCatalog hcat).type hplan.scan, List.mem_flatMap]
      refine ⟨T, List.mem_filter.mpr ⟨hT.1, by simpa [hfrom] using hT.2⟩, List.mem_filter.mpr ⟨hF.1, ?_⟩⟩
      rw [hpred, hsel]
      rfl
    obtain ⟨l, hl, hmem⟩ := hjoined T.name F hkept
    exact absurd hmem (hF.2 l hl)
  · rfl

/-- What the tree of a path join delivers, over the stored rows. -/
theorem buildQueryTree_rows {Tables : List MetadataTable} {q : Query} {db : Placement} {ch : List JoinCell} {p : JoinPlan}
    (hknown : ColumnsKnown Tables q) (hcat : HfCatalog Tables q.fromTable) (hexact : ExactSelection Tables q db)
    (hdb : ∀ T ∈ Tables, T.name ∈ q.fromTable → ∀ F ∈ T.frags, ∀ r ∈ db F.fname,
      r.InRange ∧ satisfiesAll F.hfCondition r = true)
    (hrows : ∀ T ∈ Tables, T.name ∈ q.fromTable → ∀ F ∈ T.frags, ∀ r ∈ db F.fname, ∀ a, r a ≠ none → a ∈ T.attrs)
    (hne : q.join ≠ []) (hpath : Path ch q.join)
    (hstart : ch.head?.map JoinCell.ltab = q.join.head?.map JoinCell.ltab)
    (htab : ∀ x ∈ q.predicate, x.table ∈ relation ch) (hp : planJoins Tables q = some p)
    (h300 : ∀ site ∈ ([1, 2, 3, 4] : List Int), (p.joinSite site).length ≤ 300)
    (hjoined : ∀ tab, ∀ X ∈ p.scan.pruning tab, ∃ l ∈ p.joinList, X.fname ∈ l) :
    ∃ t, buildQueryTree Tables q = some t ∧
      ((t.eval (rowSemantics db)).map (Row.project p.query.selectAttr)).Perm
        (((storedCombs Tables q db (relation ch)).filter fun comb =>
          q.predicate.all comb.satisfies && holdsAll q.join comb).map fun comb =>
            Row.project p.query.selectAttr comb.row) := by
  have hplan := planJoins_planned hp
  have hdot : ∀ x ∈ q.join, x.NoDot := by
    intro c hc
    obtain ⟨-, T, hT, hname, hfrom, -⟩ := hknown.left c hc
    obtain ⟨-, T', hT', hname', hfrom', -⟩ := hknown.right c hc
    exact ⟨hname ▸ (hknown.tables T hT hfrom).name, hname' ▸ (hknown.tables T' hT' hfrom').name⟩
  obtain ⟨tr, htr, hcombs⟩ := hplan.eval_combs hcat hknown.named hdb hne hpath hstart h300
  refine ⟨unionPhase (p.processSite.head?.getD 0) p.query.selectAttr tr, ?_, ?_⟩
  · simp only [buildQueryTree, hp, htr, Option.bind_eq_bind, Option.bind_some]
  rw [hplan.eval_rows hknown hcat.type hrows hpath htr]
  refine ((hcombs _ _).map _).trans (.of_eq ?_)
  rw [hplan.strayRows_nil hcat hjoined, List.append_nil, selectCombs_kept hexact hdb hpath hdot htab]

/-- A SELECT that joins horizontally fragmented tables along a path by a clause of AND and comparisons, planned without
a fragment that has no partner. -/
structure PathSelect (Tables : List MetadataTable) (Statement : SelectStatement) (e : Expr) (q : Query)
    (ch : List JoinCell) (p : JoinPlan) : Prop where
  whereClause : Statement.whereClause = some e
  clause : e.isClause = true
  fits : e.fitsInt = true
  conjunction : e.alternatives = []
  sql : initSQL Statement = some q
  known : ColumnsKnown Tables q
  catalog : HfCatalog Tables q.fromTable
  joins : q.join ≠ []
  path : Path ch q.join
  start : ch.head?.map JoinCell.ltab = q.join.head?.map JoinCell.ltab
  about : ∀ x ∈ q.predicate, x.table ∈ relation ch
  plan : planJoins Tables q = some p
  short : ∀ site ∈ ([1, 2, 3, 4] : List Int), (p.joinSite site).length ≤ 300
  joined : ∀ tab, ∀ X ∈ p.scan.pruning tab, ∃ l ∈ p.joinList, X.fname ∈ l

/-- The predicates and joins of the statement hold where its clause does. -/
theorem PathSelect.predicate_holds {Tables : List MetadataTable} {Statement : SelectStatement} {e : Expr} {q : Query}
    {ch : List JoinCell} {p : JoinPlan} (h : PathSelect Tables Statement e q ch p) (comb : Comb) :
    (q.predicate.all comb.satisfies && holdsAll q.join comb) = e.holds comb :=
  initSQL_meaning h.sql h.whereClause h.clause h.fits h.conjunction comb

theorem PathSelect.table_mem {Tables : List MetadataTable} {Statement : SelectStatement} {e : Expr} {q : Query}
    {ch : List JoinCell} {p : JoinPlan} (h : PathSelect Tables Statement e q ch p) {tab : String}
    (htab : tab ∈ relation ch) :
    ∃ T ∈ Tables, T.name = tab ∧ T.name ∈ q.fromTable := by
  have hplan := planJoins_planned h.plan
  have hjoin : p.join = ch := hplan.join_eq h.path h.start
  obtain ⟨m, hm⟩ := List.mem_iff_getElem?.mp htab
  have hne : p.join ≠ [] := by
    rintro hnil
    rw [← hjoin, hnil] at hm
    cases hm
  obtain ⟨T, hT, hname, hfrom, -⟩ := joined_table h.known hplan (hjoin ▸ h.path.toChain) hne (hjoin ▸ hm)
  exact ⟨T, hT, hname, hfrom⟩

/-- **A SELECT statement delivers what its WHERE clause says.** The clause is made of AND and comparisons that join the
FROM tables along a path; the optimizer's selections are exact, and every kept fragment has a partner. Then the rows of
the tree are, in the selected columns, the combinations of stored rows in which the clause holds, each once. -/
theorem select_meaning (Tables : List MetadataTable) (Statement : SelectStatement) (e : Expr) (q : Query)
    (db : Placement) (ch : List JoinCell) (p : JoinPlan) (hsel : PathSelect Tables Statement e q ch p)
    (hexact : ExactSelection Tables q db)
    (hdb : ∀ T ∈ Tables, T.name ∈ q.fromTable → ∀ F ∈ T.frags, ∀ r ∈ db F.fname,
      r.InRange ∧ satisfiesAll F.hfCondition r = true)
    (hrows : ∀ T ∈ Tables, T.name ∈ q.fromTable → ∀ F ∈ T.frags, ∀ r ∈ db F.fname, ∀ a, r a ≠ none → a ∈ T.attrs) :
    ∃ t, selectProcess Tables Statement = some t ∧
      ((t.eval (rowSemantics db)).map (Row.project p.query.selectAttr)).Perm
        (((storedCombs Tables q db (relation ch)).filter e.holds).map fun comb =>
          Row.project p.query.selectAttr comb.row) := by
  obtain ⟨t, ht, hperm⟩ := buildQueryTree_rows hsel.known hsel.catalog hexact hdb hrows hsel.joins hsel.path hsel.start
    hsel.about hsel.plan hsel.short hsel.joined
  refine ⟨t, ?_, hperm.trans (.of_eq ?_)⟩
  · simp only [selectProcess, hsel.sql, ht, Option.bind_eq_bind, Option.bind_some]
  · congr 1
    exact List.filter_congr fun comb _ => hsel.predicate_holds comb

section
open EasyDDB.Optimizer.Expr

/-- `select Book.title from Book, Publisher where Book.publisher_id = Publisher.id and Book.id < 300000 and
Publisher.nation = 'PRC'`. -/
def prcTitles : SelectStatement where
  fromTable := ["Book", "Publisher"]
  selectList := [columnRef "Book" "title"]
  whereClause := binary .and (binary .and
      (binary .equals (columnRef "Book" "publisher_id") (columnRef "Publisher" "id"))
      (binary .less (columnRef "Book" "id") (literal none 300000)))
    (binary .equals (columnRef "Publisher" "nation") (literalString "PRC"))

end

/-- What `init_SQL` makes of it. -/
def prcTitlesQuery : Query where
  fromTable := ["Book", "Publisher"]
  selectAttr := ["Book.title"]
  allAttr := ["Book.id", "Book.publisher_id", "Book.title", "Publisher.id", "Publisher.nation"]
  predicate := [condLt "Book" "id" 300000, { condEqStr "Publisher" "nation" "PRC" with ival := 0 }]
  join := [⟨"Book", "publisher_id", "Publisher", "id"⟩]

theorem prcTitles_pathSelect : ∃ e p,
    PathSelect getMetadata prcTitles e prcTitlesQuery prcTitlesQuery.join p ∧ p.query.selectAttr = ["Book.title"] := by
  have hrun : ((planJoins getMetadata prcTitlesQuery).any fun p => p.joinList.length ≤ 300 ∧
      p.query.selectAttr = ["Book.title"] ∧ ∀ tab ∈ ["Book", "Publisher"], ∀ X ∈ p.scan.pruning tab,
        ∃ l ∈ p.joinList, X.fname ∈ l) = true := by
    decide +kernel
  simp only [Option.any_eq_true, decide_eq_true_eq] at hrun
  obtain ⟨p, hp, hlen, hsel, hjoined⟩ := hrun
  have hplan := planJoins_planned hp
  refine ⟨_, p, ⟨rfl, by decide, by decide, by decide, by decide +kernel, ?_, booksOfPublishers_hfCatalog, by decide,
    booksOfPublishers_path, rfl, by decide, hp, fun site _ => (hplan.joinSite_length site).trans hlen, ?_⟩, hsel⟩
  · exact ⟨by decide, by decide, fun T hT _ => getMetadata_named T hT, by decide, by decide, by decide, by decide⟩
  · intro tab X hX
    obtain ⟨T, -, rfl, hfrom, -⟩ := hplan.kept_frag booksOfPublishers_hfCatalog hX
    exact hjoined T.name hfrom X hX

/-- Where the shortcut applies, the rows satisfy the predicates. -/
theorem prcTitles_exactSelection {db : Placement} (herased : ∀ T ∈ getMetadata, T.name ∈ prcTitlesQuery.fromTable →
    ∀ F ∈ T.frags, shortcut F.hfCondition (extendPredicate prcTitlesQuery).predicate = true → ∀ r ∈ db F.fname,
      satisfiesOwn (extendPredicate prcTitlesQuery).predicate (T.name, r) = true) :
    ExactSelection getMetadata prcTitlesQuery db := by
  refine ⟨?_, by decide, by decide +kernel, by decide, herased⟩
  have hcheck : ∀ T ∈ getMetadata, T.name ∈ prcTitlesQuery.fromTable → ∀ F ∈ T.frags,
      F.hfCondition ≠ [] ∧ (∀ y ∈ F.hfCondition, y.table = T.name) ∧ ∀ y ∈ F.hfCondition, y.Plain := by
    decide
  intro T hT hfrom F hF
  obtain ⟨hne, htable, hplain⟩ := hcheck T hT hfrom F hF
  exact ⟨⟨hne, htable⟩, hplain⟩

/-- The only publisher is from the PRC: the title of its book is delivered. -/
theorem prcTitles_rows : ∃ t e, prcTitles.whereClause = some e ∧ selectProcess getMetadata prcTitles = some t ∧
    ((t.eval (rowSemantics onePublisher)).map (Row.project ["Book.title"])).Perm
      (((storedCombs getMetadata prcTitlesQuery onePublisher ["Book", "Publisher"]).filter e.holds).map fun comb =>
        Row.project ["Book.title"] comb.row) ∧
    ((storedCombs getMetadata prcTitlesQuery onePublisher ["Book", "Publisher"]).filter e.holds).length = 1 := by
  obtain ⟨e, p, hsel, hattr⟩ := prcTitles_pathSelect
  obtain ⟨t, ht, hperm⟩ := select_meaning getMetadata prcTitles e prcTitlesQuery onePublisher prcTitlesQuery.join p hsel
    (prcTitles_exactSelection (by decide +kernel)) onePublisher_stored onePublisher_columns
  rw [hattr] at hperm
  refine ⟨t, e, hsel.whereClause, ht, hperm, ?_⟩
  obtain rfl := Option.some.inj hsel.whereClause
  decide +kernel

end EasyDDB.Optimizer
