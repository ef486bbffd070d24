import EasyDDB.Optimizer.Delete
import EasyDDB.Optimizer.Insert
import EasyDDB.Optimizer.SelectMeaning

/-! # Sequences of statements

A Fragment node reads, at its site, the local table that has the name of the fragmented table. INSERT and DELETE
change these local tables at the sites `InsertProcess` and `DeleteProcess` name. Over any sequence of statements that
are read as they were written, the local tables are the rows of one global table, shared out by the conditions of the
fragments; a SELECT then answers as over the global tables. -/
namespace EasyDDB.Optimizer
open Condition Strings
set_option autoImplicit false

/-- The local tables, by site and name. -/
abbrev LocalTables := Int → String → List Row

/-- The tables as if they were not fragmented, by name. -/
abbrev GlobalTables := String → List Row

/-- The entry of the row that a column and its literal make. -/
def InsertStatement.cell? (st : InsertStatement) (x : String × Literal) : Option (String × Value) :=
  x.2.value?.map fun v => (st.tableName ++ "." ++ x.1, v)

/-- The row an INSERT gives. -/
def InsertStatement.row (st : InsertStatement) : Row := Row.ofList ((st.columns.zip st.values).filterMap st.cell?)

/-- The rows a DELETE is about. -/
def matchesAll (table : String) (cs : List Comparison) (r : Row) : Bool :=
  satisfiesAll (cs.map (Comparison.condition · table)) r

/-- An INSERT with its text, or the DELETE on a table with the given comparisons. -/
inductive Dml where
  | insert (st : InsertStatement) (query : List Char)
  | delete (table : String) (cs : List Comparison)
deriving DecidableEq, Repr

/-- What the statement does to the table it names. -/
def Dml.apply (t : GlobalTables) : Dml → GlobalTables
  | .insert st _ => Function.update t st.tableName (t st.tableName ++ [st.row])
  | .delete table cs => Function.update t table ((t table).filter fun r => !matchesAll table cs r)

/-- The text the sites get. -/
def Dml.text : Dml → List Char
  | .insert _ query => query
  | .delete table cs => (deleteText table cs).dropLast

/-- The sites and texts that `InsertProcess` and `DeleteProcess` return. -/
def Dml.siteQuery (overflow : List Char → Int) (Tables : List MetadataTable) : Dml → Option (List (Int × List Char))
  | .insert st query => insertProcess overflow Tables st query
  | .delete table cs =>
    (deleteProcess overflow Tables (deleteText table cs)).map fun ans => ans.sites.map fun site => (site, ans.query)

/-! ## The local tables -/

/-- What becomes of the local tables when texts are sent to sites. The functions above have no caller in the source and
every site runs a database of its own, so this is a parameter of what follows. -/
abbrev Dispatch := LocalTables → List (Int × List Char) → LocalTables

/-- Each text is executed at its site, in the order in which they are sent, and the text of a statement does to the tables
of a site what the statement says. -/
structure Dispatch.Executes (send : Dispatch) (engine : List Char → GlobalTables → GlobalTables) (sts : List Dml) :
    Prop where
  sites : ∀ s sent site, send s sent site = (sent.filter fun x => x.1 = site).foldl (fun t x => engine x.2 t) (s site)
  texts : ∀ d ∈ sts, ∀ t, engine d.text t = d.apply t

/-- The statement goes where its site list says. -/
def Dml.execute (overflow : List Char → Int) (Tables : List MetadataTable) (send : Dispatch) (s : LocalTables) (d : Dml) :
    Option LocalTables :=
  (d.siteQuery overflow Tables).map (send s)

theorem Dispatch.Executes.send_apply {send : Dispatch} {engine : List Char → GlobalTables → GlobalTables}
    {sts : List Dml} (h : send.Executes engine sts) {d : Dml} (hd : d ∈ sts) {sites : List Int} (hnd : sites.Nodup)
    (s : LocalTables) (site : Int) (tab : String) :
    send s (sites.map fun site => (site, d.text)) site tab =
      if site ∈ sites then d.apply (s site) tab else s site tab := by
  have hown : ((sites.map fun site => (site, d.text)).filter fun x => x.1 = site) =
      List.replicate (sites.count site) (site, d.text) := by
    rw [List.filter_map]
    exact (congrArg _ (List.filter_beq site)).trans List.map_replicate
  rw [h.sites, hown]
  split_ifs with hsite
  · rw [List.count_eq_one_of_mem hnd hsite]
    exact congrFun (h.texts d hd (s site)) tab
  · rw [List.count_eq_zero_of_not_mem hsite]
    rfl

/-- The rows of a fragment: those of the local table at the site of its number. -/
def LocalTables.placement (s : LocalTables) : Placement := fun f => s f.num f.table

/-! ## Tables and statements -/

/-- A horizontally fragmented table with fragment `k` on site `k`, and with conditions as the optimizer expects them. -/
structure HfTable (Tables : List MetadataTable) (T : MetadataTable) : Prop where
  found : findTable Tables T.name = some T
  hf : T.type = .hf
  fname : ∀ F ∈ T.frags, F.fname = ⟨T.name, F.site⟩
  sites : (T.frags.map Fragment.site).Nodup
  conditions : ∀ F ∈ T.frags, FragConditions T.name F.hfCondition

/-- The statement is read as it was written. -/
def Dml.Routable (Tables : List MetadataTable) : Dml → Prop
  | .insert st _ => ∃ T, HfTable Tables T ∧ T.name = st.tableName ∧ RowInsert T st ∧ st.PlainNames ∧ st.columns.Nodup
  | .delete table cs => ∃ T, HfTable Tables T ∧ T.name = table ∧ Identifier table.toList ∧ cs ≠ [] ∧
      (∀ c ∈ cs, c.WellFormed) ∧ PlainDelete T cs

/-- Every local table has, in their order, the rows of the global table that satisfy the conditions of the fragment. -/
def SharedOut (Tables : List MetadataTable) (s : LocalTables) (t : GlobalTables) : Prop :=
  ∀ T, HfTable Tables T → ∀ F ∈ T.frags, s F.site T.name = (t T.name).filter (satisfiesAll F.hfCondition)

theorem HfTable.ext {Tables : List MetadataTable} {T T' : MetadataTable} (h : HfTable Tables T) (h' : HfTable Tables T')
    (hname : T.name = T'.name) : T = T' := by
  have hfound := h.found
  rw [hname, h'.found] at hfound
  exact (Option.some.inj hfound).symm

theorem SharedOut.placed {Tables : List MetadataTable} {s : LocalTables} {t : GlobalTables} (h : SharedOut Tables s t)
    {T : MetadataTable} (hT : HfTable Tables T) {F : Fragment} (hF : F ∈ T.frags) :
    s.placement F.fname = (t T.name).filter (satisfiesAll F.hfCondition) := by
  rw [LocalTables.placement, hT.fname F hF]
  exact h T hT F hF

/-! ## One INSERT -/

theorem InsertStatement.row_gives {st : InsertStatement} (hnd : st.columns.Nodup)
    (hlit : ∀ lit ∈ st.values, lit.value?.isSome) : st.Gives st.row := by
  intro i col lit hcol hval
  obtain ⟨v, hv⟩ := Option.isSome_iff_exists.mp (hlit lit (List.mem_of_getElem? hval))
  obtain ⟨l, hl⟩ : ∃ l, st.columns.zip st.values = l := ⟨_, rfl⟩
  have hzip : l[i]? = some (col, lit) := hl ▸ List.getElem?_zip_eq_some.mpr ⟨hcol, hval⟩
  obtain ⟨hi, hget⟩ := List.getElem?_eq_some_iff.mp hzip
  have hsplit : l.filterMap st.cell? = (l.take i).filterMap st.cell? ++
      (st.tableName ++ "." ++ col, v) :: (l.drop (i + 1)).filterMap st.cell? := by
    have hcell : st.cell? (col, lit) = some (st.tableName ++ "." ++ col, v) := by rw [cell?, hv, Option.map_some]
    rw [← List.filterMap_cons_some hcell, ← List.filterMap_append, ← hget, List.getElem_cons_drop,
      List.take_append_drop]
  rw [hv, row, hl]
  refine List.lookup_eq_some_iff.mpr ⟨_, _, hsplit, fun x hx => ?_⟩
  rw [bne_iff_ne]
  intro heq
  obtain ⟨y, hy, hyx⟩ := List.mem_filterMap.mp hx
  obtain ⟨w, -, rfl⟩ := Option.map_eq_some_iff.mp hyx
  have hyc : col = y.1 := String.append_right_inj _ |>.mp heq
  obtain ⟨j, hj⟩ := List.mem_iff_getElem?.mp hy
  rw [List.getElem?_take] at hj
  split at hj
  · next hji =>
    rw [← hl] at hj
    have hjc : st.columns[j]? = some col := hyc ▸ (List.getElem?_zip_eq_some.mp hj).1
    have hlt : j < st.columns.length := (List.getElem?_eq_some_iff.mp hjc).1
    exact absurd ((List.getElem?_inj hlt hnd).mp (hjc.trans hcol.symm)) hji.ne
  · cases hj

section
variable {overflow : List Char → Int} {Tables : List MetadataTable} {T : MetadataTable} {s : LocalTables}
  {t : GlobalTables} {send : Dispatch} {engine : List Char → GlobalTables → GlobalTables} {sts : List Dml}

theorem insertProcess_hf {st : InsertStatement} (hT : HfTable Tables T) (hname : T.name = st.tableName)
    (hrow : RowInsert T st) (hplain : st.PlainNames) (hnd : st.columns.Nodup) (query : List Char) :
    insertProcess overflow Tables st query =
      some ((T.frags.filter fun F => satisfiesAll F.hfCondition st.row).map fun F => (F.site, query)) := by
  obtain ⟨pred, hpred, hmem⟩ := pred_eq_some hrow overflow
  have hgives : st.Gives st.row := st.row_gives hnd hrow.literals
  have hfound : findTable Tables st.tableName = some T := hname ▸ hT.found
  simp only [insertProcess, hfound, hpred, hT.hf, Option.bind_eq_bind, Option.bind_some]
  exact insertHf_eq query fun F hF => checkCondition_pred hrow hname hplain hgives hF hmem

/-- Of the fragments of a table, a site names at most one. -/
theorem HfTable.site_mem_iff (hT : HfTable Tables T) {keep : Fragment → Bool} {F : Fragment} (hF : F ∈ T.frags) :
    F.site ∈ (T.frags.filter keep).map Fragment.site ↔ keep F = true := by
  constructor
  · intro hmem
    obtain ⟨G, hG, hsite⟩ := List.mem_map.mp hmem
    obtain ⟨hG, hkeep⟩ := List.mem_filter.mp hG
    exact List.inj_on_of_nodup_map hT.sites hG hF hsite ▸ hkeep
  · exact fun hkeep => List.mem_map_of_mem (List.mem_filter.mpr ⟨hF, hkeep⟩)

theorem HfTable.filter_sites (hT : HfTable Tables T) (keep : Fragment → Bool) :
    ((T.frags.filter keep).map Fragment.site).Nodup :=
  hT.sites.sublist (List.filter_sublist.map _)

theorem SharedOut.insert (h : SharedOut Tables s t) {st : InsertStatement} {query : List Char}
    (hsend : send.Executes engine sts) (hmem : .insert st query ∈ sts) (hst : (Dml.insert st query).Routable Tables) :
    ∃ s', (Dml.insert st query).execute overflow Tables send s = some s' ∧
      SharedOut Tables s' ((Dml.insert st query).apply t) := by
  obtain ⟨T, hT, hname, hrow, hplain, hnd⟩ := hst
  obtain ⟨sites, hsites⟩ : ∃ sites,
      (T.frags.filter fun F => satisfiesAll F.hfCondition st.row).map Fragment.site = sites := ⟨_, rfl⟩
  refine ⟨send s (sites.map fun site => (site, query)), ?_, ?_⟩
  · simp only [Dml.execute, Dml.siteQuery, insertProcess_hf hT hname hrow hplain hnd, Option.map_some, ← hsites,
      List.map_map, Function.comp_def]
  intro T' hT' F hF
  refine (hsend.send_apply hmem (hsites ▸ hT.filter_sites _) s F.site T'.name).trans ?_
  rw [Dml.apply, Dml.apply]
  by_cases htab : T'.name = st.tableName
  · obtain rfl := hT'.ext hT (htab.trans hname.symm)
    rw [← htab, Function.update_self, Function.update_self, List.filter_append, ← h T' hT' F hF]
    have hsite : F.site ∈ sites ↔ satisfiesAll F.hfCondition st.row = true := hsites ▸ hT.site_mem_iff hF
    by_cases hsat : satisfiesAll F.hfCondition st.row = true
    · rw [if_pos (hsite.mpr hsat), List.filter_singleton, hsat, cond_true]
    · rw [if_neg fun hc => hsat (hsite.mp hc), List.filter_singleton, Bool.not_eq_true _ |>.mp hsat, cond_false,
        List.append_nil]
  · rw [Function.update_of_ne htab, Function.update_of_ne htab, ite_self]
    exact h T' hT' F hF

/-! ## One DELETE -/

theorem SharedOut.deleteInput (h : SharedOut Tables s t) (hT : HfTable Tables T) {cs : List Comparison}
    (hid : Identifier T.name.toList) (hne : cs ≠ []) (hwf : ∀ c ∈ cs, c.WellFormed) :
    DeleteInput overflow Tables T cs s.placement where
  found := hT.found
  hf := hT.hf
  name := hid
  ne := hne
  comparisons := hwf
  table_eq F hF := (hT.conditions F hF).table_eq
  compared F hF x hx y hy _ := by
    obtain ⟨c, hc, skipped, -, rfl⟩ := mem_readConditions hx
    exact .inr ⟨Comparison.read_getSection_isSome (hwf c hc) skipped,
      ((hT.conditions F hF).plain y hy).getSection_isSome⟩
  placed F hF r hr := by
    rw [h.placed hT hF] at hr
    exact (List.mem_filter.mp hr).2

/-- The sites that get a DELETE: among them those of all fragments with a row to be deleted. -/
theorem deleteProcess_sites {db : Placement} {cs : List Comparison} (hin : DeleteInput overflow Tables T cs db)
    (hplain : PlainDelete T cs) :
    ∃ keep, deleteProcess overflow Tables (deleteText T.name cs) =
        some ⟨(deleteText T.name cs).dropLast, (T.frags.filter keep).map Fragment.site⟩ ∧
      ∀ F ∈ T.frags, HoldsMatch T cs db F → keep F = true := by
  obtain ⟨w, hw, hrun⟩ := hin.deleteProcess_eq
  have hsites : deleteHf (deletePredicate overflow w) T.frags = some _ :=
    collect_checked fun F hF => hin.keep_iff hw hF (hplain.conditions F hF)
  refine ⟨_, by rw [hrun, hsites, Option.map_some], fun F hF hmatch => ?_⟩
  exact decide_eq_true (hplain.survives hin hF hmatch)

theorem SharedOut.delete (h : SharedOut Tables s t) {table : String} {cs : List Comparison}
    (hsend : send.Executes engine sts) (hmem : .delete table cs ∈ sts) (hst : (Dml.delete table cs).Routable Tables) :
    ∃ s', (Dml.delete table cs).execute overflow Tables send s = some s' ∧
      SharedOut Tables s' ((Dml.delete table cs).apply t) := by
  obtain ⟨T, hT, rfl, hid, hne, hwf, hplain⟩ := hst
  have hin : DeleteInput overflow Tables T cs s.placement := h.deleteInput hT hid hne hwf
  obtain ⟨keep, hans, hkeep⟩ := deleteProcess_sites hin hplain
  obtain ⟨sites, hsites⟩ : ∃ sites, (T.frags.filter keep).map Fragment.site = sites := ⟨_, rfl⟩
  refine ⟨send s (sites.map fun site => (site, (deleteText T.name cs).dropLast)), ?_, ?_⟩
  · simp only [Dml.execute, Dml.siteQuery, hans, Option.map_some, hsites]
  intro T' hT' F hF
  refine (hsend.send_apply hmem (hsites ▸ hT.filter_sites _) s F.site T'.name).trans ?_
  rw [Dml.apply, Dml.apply]
  by_cases htab : T'.name = T.name
  · obtain rfl := hT'.ext hT htab
    rw [Function.update_self, Function.update_self, List.filter_filter]
    by_cases hsite : F.site ∈ sites
    · rw [if_pos hsite, h T' hT' F hF, List.filter_filter]
      exact List.filter_congr fun r _ => Bool.and_comm _ _
    · rw [if_neg hsite, h T' hT' F hF]
      refine List.filter_congr fun r hr => ?_
      cases hsat : satisfiesAll F.hfCondition r with
      | false => rw [Bool.false_and]
      | true =>
        have hnot : matchesAll T'.name cs r = false := by
          rw [← Bool.not_eq_true]
          intro hmatch
          refine hsite (hsites ▸ (hT.site_mem_iff hF).mpr (hkeep F hF ⟨r, ?_, hmatch⟩))
          rw [h.placed hT' hF]
          exact List.mem_filter.mpr ⟨hr, hsat⟩
        rw [hnot]
        rfl
  · rw [Function.update_of_ne htab, Function.update_of_ne htab, ite_self]
    exact h T' hT' F hF

/-! ## One statement -/

theorem SharedOut.execute (h : SharedOut Tables s t) (hsend : send.Executes engine sts) {d : Dml} (hmem : d ∈ sts)
    (hd : d.Routable Tables) :
    ∃ s', d.execute overflow Tables send s = some s' ∧ SharedOut Tables s' (d.apply t) := by
  cases d with
  | insert st query => exact h.insert hsend hmem hd
  | delete table cs => exact h.delete hsend hmem hd

end

/-! ## Statements on the catalog of `getMetadata` -/

theorem getMetadata_hfTable {T : MetadataTable} (hT : T ∈ getMetadata) (hhf : T.type = .hf) : HfTable getMetadata T := by
  have hcheck : ∀ T ∈ getMetadata, T.type = .hf → findTable getMetadata T.name = some T ∧
      (T.frags.map Fragment.site).Nodup ∧ ∀ F ∈ T.frags, F.fname = ⟨T.name, F.site⟩ ∧ F.hfCondition ≠ [] ∧
        ∀ y ∈ F.hfCondition, y.table = T.name ∧ y.Plain := by
    decide
  obtain ⟨hfound, hsites, hfrags⟩ := hcheck T hT hhf
  refine ⟨hfound, hhf, fun F hF => (hfrags F hF).1, hsites, fun F hF => ?_⟩
  obtain ⟨-, hne, hall⟩ := hfrags F hF
  exact ⟨⟨hne, fun y hy => (hall y hy).1⟩, fun y hy => (hall y hy).2⟩

instance (lit : Literal) (y : Condition) : Decidable (lit.Fits y) :=
  match lit with
  | .int _ => inferInstanceAs (Decidable (_ ∧ _))
  | .str s => @instDecidableAnd _ _ inferInstance
      (@instDecidableAnd _ _ (List.decidableBEx _ s.toList) (List.decidableBAll _ s.toList))
  | .bool _ | .float _ | .null | .date _ | .interval _ | .parameter => inferInstanceAs (Decidable False)

theorem HfTable.rowInsert {Tables : List MetadataTable} {T : MetadataTable} {st : InsertStatement} (hT : HfTable Tables T)
    (hlit : ∀ lit ∈ st.values, lit.value?.isSome) (hlen : st.values.length = st.columns.length)
    (hlisted : ∀ F ∈ T.frags, ∀ y ∈ F.hfCondition, y.attr ∈ st.columns)
    (hfits : ∀ F ∈ T.frags, ∀ y ∈ F.hfCondition, ∀ x ∈ st.columns.zip st.values, x.1 = y.attr → x.2.Fits y) :
    RowInsert T st where
  literals := hlit
  length_eq := hlen
  conditions := hT.conditions
  listed := hlisted
  fits F hF y hy _ lit hcol hval :=
    hfits F hF y hy (y.attr, lit) (List.mem_of_getElem? (List.getElem?_zip_eq_some.mpr ⟨hcol, hval⟩)) rfl

theorem publisher_hfTable : HfTable getMetadata publisher := getMetadata_hfTable (by decide) rfl

theorem book_hfTable : HfTable getMetadata book := getMetadata_hfTable (by decide) rfl

def publisherInsert (id : Int) (nation : String) : Dml :=
  .insert ⟨"Publisher", ["id", "nation"], [.int id, .str nation]⟩
    ("insert into Publisher(id, nation) values(".toList ++ toText id ++ ", '".toList ++ nation.toList ++ "');".toList)

def titleInsert (id : Int) (title : String) : Dml :=
  .insert ⟨"Book", ["id", "title", "publisher_id"], [.int id, .str title, .int 103001]⟩
    ("insert into Book(id, title, publisher_id) values(".toList ++ toText id ++ ", '".toList ++ title.toList ++
      "', 103001);".toList)

/-- A publisher and two books, of which one is deleted. -/
def bookDay : List Dml :=
  [publisherInsert 103001 "PRC", titleInsert 206000 "Proofs", titleInsert 200001 "Sketches", .delete "Book" [lowIds]]

theorem lowIds_routable : (Dml.delete "Book" [lowIds]).Routable getMetadata := by
  have hwf : lowIds.WellFormed := ⟨⟨by decide, by decide⟩, by decide, by decide, by decide⟩
  refine ⟨book, book_hfTable, rfl, ⟨by decide, by decide⟩, by decide, by simpa using hwf, by decide, by decide, by decide,
    ?_, by decide⟩
  intro c hc text htext
  rw [List.mem_singleton.mp hc] at htext
  cases htext

theorem bookDay_routable : ∀ d ∈ bookDay, d.Routable getMetadata := by
  simp only [bookDay, List.forall_mem_cons, List.not_mem_nil, false_imp_iff, implies_true, and_true]
  refine ⟨?_, ?_, ?_, lowIds_routable⟩
  · exact ⟨publisher, publisher_hfTable, rfl, publisher_hfTable.rowInsert (by decide) rfl (by decide) (by decide),
      ⟨by decide, by decide⟩, by decide⟩
  · exact ⟨book, book_hfTable, rfl, book_hfTable.rowInsert (by decide) rfl (by decide) (by decide),
      ⟨by decide, by decide⟩, by decide⟩
  · exact ⟨book, book_hfTable, rfl, book_hfTable.rowInsert (by decide) rfl (by decide) (by decide),
      ⟨by decide, by decide⟩, by decide⟩

/-! ## Whole runs -/

/-- A statement leaves only rows of before and the row it inserts. -/
theorem Dml.mem_apply {d : Dml} {t : GlobalTables} {tab : String} {r : Row} (h : r ∈ d.apply t tab) :
    r ∈ t tab ∨ ∃ st query, d = .insert st query ∧ st.tableName = tab ∧ r = st.row := by
  cases d with
  | insert st query =>
    rw [apply, Function.update_apply] at h
    split at h
    · next htab =>
      obtain h | h := List.mem_append.mp h
      · exact .inl (htab ▸ h)
      · exact .inr ⟨st, query, rfl, htab.symm, List.mem_singleton.mp h⟩
    · exact .inl h
  | delete table cs =>
    rw [apply, Function.update_apply] at h
    split at h
    · next htab => exact .inl (htab ▸ List.mem_of_mem_filter h)
    · exact .inl h

/-- All rows have been inserted. -/
theorem mem_of_statements {sts : List Dml} {t : GlobalTables} {tab : String} {r : Row}
    (h : r ∈ sts.foldl Dml.apply t tab) :
    r ∈ t tab ∨ ∃ st query, Dml.insert st query ∈ sts ∧ st.tableName = tab ∧ r = st.row := by
  induction sts generalizing t with
  | nil => exact .inl h
  | cons d sts ih =>
    obtain hr | ⟨st, query, hmem, hst⟩ := ih h
    · obtain hr | ⟨st, query, rfl, hst⟩ := d.mem_apply hr
      · exact .inl hr
      · exact .inr ⟨st, query, List.mem_cons_self, hst⟩
    · exact .inr ⟨st, query, List.mem_cons_of_mem d hmem, hst⟩

/-- From empty tables. -/
theorem sharedOut_of_run {overflow : List Char → Int} {Tables : List MetadataTable} {sts : List Dml} {s : LocalTables}
    {send : Dispatch} {engine : List Char → GlobalTables → GlobalTables} (hsend : send.Executes engine sts)
    (hsts : ∀ d ∈ sts, d.Routable Tables)
    (hrun : sts.foldlM (Dml.execute overflow Tables send) (fun _ _ => []) = some s) :
    SharedOut Tables s (sts.foldl Dml.apply fun _ => []) := by
  obtain ⟨s', hrun', hshared⟩ : ∃ s', sts.foldlM (Dml.execute overflow Tables send) (fun _ _ => []) = some s' ∧
      SharedOut Tables s' (sts.foldl Dml.apply fun _ => []) :=
    Loops.follows (fun d hd _ _ hshared => hshared.execute hsend hd (hsts d hd)) fun _ _ _ _ => rfl
  exact Option.some.inj (hrun'.symm.trans hrun) ▸ hshared

/-- A database that knows the statements by their texts. -/
def byText (sts : List Dml) (text : List Char) (t : GlobalTables) : GlobalTables :=
  (sts.filter fun d => text = d.text).foldl Dml.apply t

/-- Every site executes its texts at once. -/
def atOnce (engine : List Char → GlobalTables → GlobalTables) : Dispatch := fun s sent site =>
  (sent.filter fun x => x.1 = site).foldl (fun t x => engine x.2 t) (s site)

theorem atOnce_executes {sts : List Dml} (hnd : (sts.map Dml.text).Nodup) :
    (atOnce (byText sts)).Executes (byText sts) sts where
  sites _ _ _ := rfl
  texts d hd t := by
    rw [byText, Bags.filter_key_eq hnd hd]
    rfl

theorem bookDay_executes : (atOnce (byText bookDay)).Executes (byText bookDay) bookDay := atOnce_executes (by decide)

/-- A row that has exactly one place among the fragments of its table. -/
structure OwnedRow (T : MetadataTable) (r : Row) : Prop where
  owner : T.frags.countP (fun F => satisfiesAll F.hfCondition r) = 1
  inRange : r.InRange
  columns : ∀ a, r a ≠ none → a ∈ T.attrs

/-- The rows that are inserted into a table of the catalog have their place there. -/
def Dml.Owned (Tables : List MetadataTable) : Dml → Prop
  | .insert st _ => ∀ T, HfTable Tables T → T.name = st.tableName → OwnedRow T st.row
  | .delete _ _ => True

/-- The combinations of one row for each table of a list. -/
def globalCombs (t : GlobalTables) (tabs : List String) : List Comb :=
  (tabs.map fun tab => (t tab).map fun r => (tab, r)).sections

section
variable {Tables : List MetadataTable} {T : MetadataTable} {t : GlobalTables}

/-- The local tables together have the rows of the global table that belong to a fragment. -/
theorem SharedOut.tableRows_perm {s : LocalTables} (h : SharedOut Tables s t) (hT : HfTable Tables T) {keep : Row → Bool}
    (hown : ∀ r ∈ t T.name, T.frags.countP (fun F => satisfiesAll F.hfCondition r) = if keep r then 1 else 0) :
    (tableRows T s.placement).Perm ((t T.name).filter keep) := by
  have hrows : tableRows T s.placement =
      T.frags.flatMap fun F => (t T.name).filter (satisfiesAll F.hfCondition) :=
    List.flatMap_congr fun F hF => h.placed hT hF
  rw [hrows]
  exact Bags.flatMap_filter_owner hown

/-- If every row has exactly one place, the local tables together have all rows. -/
theorem SharedOut.tableRows_perm_of_owned {s : LocalTables} (h : SharedOut Tables s t) (hT : HfTable Tables T)
    (hown : ∀ r ∈ t T.name, T.frags.countP (fun F => satisfiesAll F.hfCondition r) = 1) :
    (tableRows T s.placement).Perm (t T.name) := by
  have hperm : (tableRows T s.placement).Perm ((t T.name).filter fun _ => true) := h.tableRows_perm hT hown
  rwa [List.filter_true] at hperm

theorem HfCatalog.hfTable {q : Query} {db : Placement} (hcat : HfCatalog Tables q.fromTable)
    (hexact : ExactSelection Tables q db) (hT : T ∈ Tables) (hfrom : T.name ∈ q.fromTable) : HfTable Tables T where
  found := findTable_of_mem hcat.names hT
  hf := hcat.type T hT hfrom
  fname F hF := (hcat.frag T hT hfrom F hF).1
  sites := by
    refine List.Nodup.of_map (fun site => (⟨T.name, site⟩ : FragName)) ?_
    have hfnames : T.frags.map Fragment.fname = T.frags.map fun F => ⟨T.name, F.site⟩ :=
      List.map_congr_left fun F hF => (hcat.frag T hT hfrom F hF).1
    rw [List.map_map]
    exact hfnames ▸ hcat.fnames T hT hfrom
  conditions := hexact.conditions T hT hfrom

theorem storedRows_eq {q : Query} {db : Placement} (hnames : (Tables.map MetadataTable.name).Nodup) (hT : T ∈ Tables)
    (hfrom : T.name ∈ q.fromTable) : storedRows Tables q db T.name = tableRows T db := by
  have hfilter : (Tables.filter fun T' => T'.name = T.name ∧ T.name ∈ q.fromTable) = [T] := by
    rw [← Bags.filter_key_eq hnames hT]
    refine List.filter_congr fun T' _ => ?_
    simp [hfrom, eq_comm]
  rw [storedRows, hfilter, List.flatMap_singleton]

end

/-- **A SELECT answers as if the tables were not fragmented.** From empty tables, any sequence of INSERTs and DELETEs that
are read as they were written is executed, each text doing at its site what its statement says; every inserted row has
exactly one place. Then the tree of a path join delivers, in the selected columns, the combinations of rows of the global
tables in which the clause holds. -/
theorem select_after_statements (overflow : List Char → Int) (Tables : List MetadataTable) (send : Dispatch)
    (engine : List Char → GlobalTables → GlobalTables) (sts : List Dml) (s : LocalTables) (Statement : SelectStatement)
    (e : Expr) (q : Query) (ch : List JoinCell) (p : JoinPlan) (hsend : send.Executes engine sts)
    (hrun : sts.foldlM (Dml.execute overflow Tables send) (fun _ _ => []) = some s) (hsts : ∀ d ∈ sts, d.Routable Tables)
    (howned : ∀ d ∈ sts, d.Owned Tables) (hsel : PathSelect Tables Statement e q ch p)
    (hexact : ExactSelection Tables q s.placement) :
    ∃ tree, selectProcess Tables Statement = some tree ∧
      ((tree.eval (rowSemantics s.placement)).map (Row.project p.query.selectAttr)).Perm
        (((globalCombs (sts.foldl Dml.apply fun _ => []) (relation ch)).filter e.holds).map fun comb =>
          Row.project p.query.selectAttr comb.row) := by
  have hshared : SharedOut Tables s (sts.foldl Dml.apply fun _ => []) := sharedOut_of_run hsend hsts hrun
  have hrows : ∀ T, HfTable Tables T → ∀ r ∈ sts.foldl Dml.apply (fun _ => []) T.name, OwnedRow T r := by
    intro T hT r hr
    obtain hr | ⟨st, query, hmem, hname, rfl⟩ := mem_of_statements hr
    · exact absurd hr List.not_mem_nil
    · exact howned _ hmem T hT hname.symm
  have hfrom : ∀ T ∈ Tables, T.name ∈ q.fromTable → HfTable Tables T :=
    fun T hT hfrom => hsel.catalog.hfTable hexact hT hfrom
  have hplaced : ∀ T ∈ Tables, T.name ∈ q.fromTable → ∀ F ∈ T.frags, ∀ r ∈ s.placement F.fname,
      OwnedRow T r ∧ satisfiesAll F.hfCondition r = true := by
    intro T hT hq F hF r hr
    rw [hshared.placed (hfrom T hT hq) hF, List.mem_filter] at hr
    exact ⟨hrows T (hfrom T hT hq) r hr.1, hr.2⟩
  obtain ⟨tree, htree, hperm⟩ := buildQueryTree_rows hsel.known hsel.catalog hexact
    (fun T hT hq F hF r hr => ⟨(hplaced T hT hq F hF r hr).1.inRange, (hplaced T hT hq F hF r hr).2⟩)
    (fun T hT hq F hF r hr => (hplaced T hT hq F hF r hr).1.columns) hsel.joins hsel.path hsel.start hsel.about hsel.plan
    hsel.short hsel.joined
  refine ⟨tree, ?_, hperm.trans ?_⟩
  · simp only [selectProcess, hsel.sql, htree, Option.bind_eq_bind, Option.bind_some]
  have hcombs : (storedCombs Tables q s.placement (relation ch)).Perm
      (globalCombs (sts.foldl Dml.apply fun _ => []) (relation ch)) := by
    refine Bags.sections_perm (List.forall₂_map_left_iff.mpr (List.forall₂_map_right_iff.mpr (List.forall₂_same.mpr ?_)))
    intro tab htab
    obtain ⟨T, hT, rfl, hq⟩ := hsel.table_mem htab
    rw [storedRows_eq hsel.catalog.names hT hq]
    exact (hshared.tableRows_perm_of_owned (hfrom T hT hq) fun r hr => (hrows T (hfrom T hT hq) r hr).owner).map _
  refine ((hcombs.filter _).map _).trans (.of_eq ?_)
  congr 1
  exact List.filter_congr fun comb _ => hsel.predicate_holds comb

theorem ownedRow_ofList {T : MetadataTable} {l : List (String × Value)}
    (howner : T.frags.countP (fun F => satisfiesAll F.hfCondition (Row.ofList l)) = 1)
    (hrange : ∀ e ∈ l, ∀ v ∈ e.2.int?, EasyDDB.InRange v) (hcols : ∀ a ∈ l.map Prod.fst, a ∈ T.attrs) :
    OwnedRow T (Row.ofList l) :=
  ⟨howner, Row.ofList_inRange hrange, fun a ha => hcols a (ofList_columns ha)⟩

theorem bookDay_owned : ∀ d ∈ bookDay, d.Owned getMetadata := by
  simp only [bookDay, List.forall_mem_cons, List.not_mem_nil, false_imp_iff, implies_true, and_true]
  refine ⟨?_, ?_, ?_, trivial⟩
  · intro T hT hname
    obtain rfl := hT.ext publisher_hfTable hname
    exact ownedRow_ofList (by decide) (by decide) (by decide)
  · intro T hT hname
    obtain rfl := hT.ext book_hfTable hname
    exact ownedRow_ofList (by decide) (by decide) (by decide)
  · intro T hT hname
    obtain rfl := hT.ext book_hfTable hname
    exact ownedRow_ofList (by decide) (by decide) (by decide)

/-- The remaining book is delivered. -/
theorem bookDay_titles : ∃ s tree e,
    bookDay.foldlM (Dml.execute (fun _ => 0) getMetadata (atOnce (byText bookDay))) (fun _ _ => []) = some s ∧
    prcTitles.whereClause = some e ∧ selectProcess getMetadata prcTitles = some tree ∧
    ((tree.eval (rowSemantics s.placement)).map (Row.project ["Book.title"])).Perm
      (((globalCombs (bookDay.foldl Dml.apply fun _ => []) ["Book", "Publisher"]).filter e.holds).map fun comb =>
        Row.project ["Book.title"] comb.row) ∧
    ((globalCombs (bookDay.foldl Dml.apply fun _ => []) ["Book", "Publisher"]).filter e.holds).length = 1 := by
  have hany : ((bookDay.foldlM (Dml.execute (fun _ => 0) getMetadata (atOnce (byText bookDay))) fun _ _ => []).any fun s =>
      ∀ T ∈ getMetadata, T.name ∈ prcTitlesQuery.fromTable → ∀ F ∈ T.frags,
        shortcut F.hfCondition (extendPredicate prcTitlesQuery).predicate = true → ∀ r ∈ s.placement F.fname,
          satisfiesOwn (extendPredicate prcTitlesQuery).predicate (T.name, r) = true) = true := by
    decide +kernel
  simp only [Option.any_eq_true, decide_eq_true_eq] at hany
  obtain ⟨s, hrun, herased⟩ := hany
  obtain ⟨e, p, hsel, hattr⟩ := prcTitles_pathSelect
  obtain ⟨tree, htree, hperm⟩ := select_after_statements (fun _ => 0) getMetadata _ _ bookDay s prcTitles e prcTitlesQuery
    prcTitlesQuery.join p bookDay_executes hrun bookDay_routable bookDay_owned hsel (prcTitles_exactSelection herased)
  rw [hattr] at hperm
  refine ⟨s, tree, e, hrun, hsel.whereClause, htree, hperm, ?_⟩
  obtain rfl := Option.some.inj hsel.whereClause
  decide +kernel

/-! ## What the catalog of `getMetadata` can store -/

/-- An inserted row has a value of the right type in every column that a condition is about. -/
theorem RowInsert.row_value {T : MetadataTable} {st : InsertStatement} (h : RowInsert T st) (hname : T.name = st.tableName)
    (hnd : st.columns.Nodup) {F : Fragment} (hF : F ∈ T.frags) {y : Condition} (hy : y ∈ F.hfCondition) :
    (y.type = .int ∧ ∃ v, st.row y.column = some (.int v)) ∨
      (y.type = .string ∧ ∃ text, st.row y.column = some (.str text)) := by
  obtain ⟨i, hi⟩ := List.mem_iff_getElem?.mp (h.listed F hF y hy)
  have hlt : i < st.values.length := h.length_eq ▸ (List.getElem?_eq_some_iff.mp hi).1
  obtain ⟨lit, hlit⟩ : ∃ lit, st.values[i]? = some lit := ⟨_, List.getElem?_eq_getElem hlt⟩
  have hvalue : st.row y.column = lit.value? := by
    rw [Condition.column, (h.conditions F hF).table_eq y hy, hname]
    exact st.row_gives hnd h.literals i y.attr lit hi hlit
  have hfits := h.fits F hF y hy i lit hi hlit
  rw [hvalue]
  cases lit with
  | int v => exact .inl ⟨hfits.1, v, rfl⟩
  | str text => exact .inr ⟨hfits.1, text, rfl⟩
  | _ => cases hfits

section
variable {r : Row}

theorem satisfied_lt {table attr : String} {v c : Int} (hv : r (table ++ "." ++ attr) = some (.int v)) :
    (condLt table attr c).satisfied r = true ↔ v < c := by
  simp only [Condition.satisfied, condLt, Condition.column, hv, Opt.holds]
  exact decide_eq_true_iff

theorem satisfied_ge {table attr : String} {v c : Int} (hv : r (table ++ "." ++ attr) = some (.int v)) :
    (condGe table attr c).satisfied r = true ↔ c ≤ v := by
  simp only [Condition.satisfied, condGe, Condition.column, hv, Opt.holds]
  exact decide_eq_true_iff

theorem satisfied_text {table attr text c : String} (hv : r (table ++ "." ++ attr) = some (.str text)) :
    (condEqStr table attr c).satisfied r = true ↔ text = c := by
  simp only [Condition.satisfied, condEqStr, Condition.column, hv, Opt.holds]
  exact decide_eq_true_iff

theorem book_owner {v : Int} (hv : r ("Book" ++ "." ++ "id") = some (.int v)) :
    book.frags.countP (fun F => satisfiesAll F.hfCondition r) = 1 := by
  simp only [book, hfFragment, satisfiesAll, List.countP_cons, List.countP_nil, List.all_cons, List.all_nil, Bool.and_true,
    Bool.and_eq_true, satisfied_lt hv, satisfied_ge hv]
  split_ifs <;> omega

theorem orders_owner {v w : Int} (hv : r ("Orders" ++ "." ++ "customer_id") = some (.int v))
    (hw : r ("Orders" ++ "." ++ "book_id") = some (.int w)) :
    orders.frags.countP (fun F => satisfiesAll F.hfCondition r) = 1 := by
  simp only [orders, hfFragment, satisfiesAll, List.countP_cons, List.countP_nil, List.all_cons, List.all_nil,
    Bool.and_true, Bool.and_eq_true, satisfied_lt hv, satisfied_ge hv, satisfied_lt hw, satisfied_ge hw]
  split_ifs <;> omega

/-- The nations the fragments of Publisher are for. -/
def knownNation (r : Row) : Bool :=
  r "Publisher.nation" = some (.str "PRC") ∨ r "Publisher.nation" = some (.str "USA")

theorem publisher_owner {v : Int} {nation : String} (hv : r ("Publisher" ++ "." ++ "id") = some (.int v))
    (hn : r ("Publisher" ++ "." ++ "nation") = some (.str nation)) :
    publisher.frags.countP (fun F => satisfiesAll F.hfCondition r) = if knownNation r then 1 else 0 := by
  have hknown : knownNation r = decide (nation = "PRC" ∨ nation = "USA") := by
    have hn' : r "Publisher.nation" = some (.str nation) := hn
    simp only [knownNation, hn', Option.some.injEq, Value.str.injEq]
  simp only [publisher, hfFragment, satisfiesAll, List.countP_cons, List.countP_nil, List.all_cons, List.all_nil,
    Bool.and_true, Bool.and_eq_true, satisfied_lt hv, satisfied_ge hv, satisfied_text hn, hknown, decide_eq_true_eq]
  by_cases hprc : nation = "PRC"
  · subst hprc
    simp only [true_or, if_true, and_true, String.reduceEq, and_false, if_false]
    split_ifs <;> omega
  by_cases husa : nation = "USA"
  · subst husa
    simp only [or_true, if_true, and_true, String.reduceEq, and_false, if_false]
    split_ifs <;> omega
  · simp only [hprc, husa, or_self, and_false, if_false]

end

/-- **With the catalog of `getMetadata` books and orders are complete, and publishers of other nations get lost.** After
any sequence of statements that are read as they were written and whose texts do at their sites what they say, the
fragments of Book and of Orders together have the rows of the global table; those of Publisher have exactly the rows of
the two nations the catalog knows. -/
theorem shipped_rows (overflow : List Char → Int) (send : Dispatch) (engine : List Char → GlobalTables → GlobalTables)
    (sts : List Dml) (s : LocalTables) (hsend : send.Executes engine sts) (hsts : ∀ d ∈ sts, d.Routable getMetadata)
    (hrun : sts.foldlM (Dml.execute overflow getMetadata send) (fun _ _ => []) = some s) :
    (tableRows book s.placement).Perm (sts.foldl Dml.apply (fun _ => []) "Book") ∧
      (tableRows orders s.placement).Perm (sts.foldl Dml.apply (fun _ => []) "Orders") ∧
      (tableRows publisher s.placement).Perm ((sts.foldl Dml.apply (fun _ => []) "Publisher").filter knownNation) := by
  have hshared := sharedOut_of_run hsend hsts hrun
  have hrow : ∀ T ∈ getMetadata, T.type = .hf → ∀ r ∈ sts.foldl Dml.apply (fun _ => []) T.name, ∀ F ∈ T.frags,
      ∀ y ∈ F.hfCondition, (y.type = .int ∧ ∃ v, r y.column = some (.int v)) ∨
        (y.type = .string ∧ ∃ text, r y.column = some (.str text)) := by
    intro T hT hhf r hr F hF y hy
    obtain hr | ⟨st, query, hmem, hname, rfl⟩ := mem_of_statements hr
    · exact absurd hr List.not_mem_nil
    · obtain ⟨T', hT', hname', hins, -, hnd⟩ := hsts _ hmem
      obtain rfl := hT'.ext (getMetadata_hfTable hT hhf) (hname'.trans hname)
      exact hins.row_value hname' hnd hF hy
  have hint : ∀ T ∈ getMetadata, T.type = .hf → ∀ r ∈ sts.foldl Dml.apply (fun _ => []) T.name, ∀ F ∈ T.frags,
      ∀ y ∈ F.hfCondition, y.type = .int → ∃ v, r y.column = some (.int v) := by
    intro T hT hhf r hr F hF y hy hty
    obtain ⟨-, hv⟩ | ⟨hstr, -⟩ := hrow T hT hhf r hr F hF y hy
    · exact hv
    · rw [hty] at hstr
      cases hstr
  refine ⟨hshared.tableRows_perm_of_owned (getMetadata_hfTable (T := book) (by decide) rfl) ?_,
    hshared.tableRows_perm_of_owned (getMetadata_hfTable (T := orders) (by decide) rfl) ?_,
    hshared.tableRows_perm (getMetadata_hfTable (T := publisher) (by decide) rfl) ?_⟩
  · intro r hr
    obtain ⟨v, hv⟩ := hint book (by decide) rfl r hr _ List.mem_cons_self _ List.mem_cons_self rfl
    exact book_owner hv
  · intro r hr
    obtain ⟨v, hv⟩ := hint orders (by decide) rfl r hr _ List.mem_cons_self _ List.mem_cons_self rfl
    obtain ⟨w, hw⟩ := hint orders (by decide) rfl r hr _ List.mem_cons_self _
      (List.mem_cons_of_mem _ List.mem_cons_self) rfl
    exact orders_owner hv hw
  · intro r hr
    obtain ⟨v, hv⟩ := hint publisher (by decide) rfl r hr _ List.mem_cons_self _ List.mem_cons_self rfl
    obtain ⟨htype, -⟩ | ⟨-, nation, hn⟩ := hrow publisher (by decide) rfl r hr _ List.mem_cons_self _
      (List.mem_cons_of_mem _ List.mem_cons_self)
    · cases htype
    · exact publisher_owner hv hn

theorem ukPublisher_routable : (publisherInsert 103002 "UK").Routable getMetadata :=
  ⟨publisher, publisher_hfTable, rfl, publisher_hfTable.rowInsert (by decide) rfl (by decide) (by decide),
    ⟨by decide, by decide⟩, by decide⟩

/-- A publisher from the UK is inserted and gone. -/
theorem ukPublisher_lost : ∃ s,
    [publisherInsert 103002 "UK"].foldlM (Dml.execute (fun _ => 0) getMetadata (atOnce (byText [publisherInsert 103002 "UK"])))
      (fun _ _ => []) = some s ∧
    (tableRows publisher s.placement).length = 0 ∧
    ([publisherInsert 103002 "UK"].foldl Dml.apply (fun _ => []) "Publisher").length = 1 := by
  obtain ⟨s, hrun⟩ : ∃ s, [publisherInsert 103002 "UK"].foldlM
      (Dml.execute (fun _ => 0) getMetadata (atOnce (byText [publisherInsert 103002 "UK"]))) (fun _ _ => []) = some s :=
    ⟨_, rfl⟩
  obtain ⟨-, -, hpublisher⟩ := shipped_rows (fun _ => 0) _ _ [publisherInsert 103002 "UK"] s
    (atOnce_executes (List.nodup_singleton _)) (by simpa using ukPublisher_routable) hrun
  refine ⟨s, hrun, ?_, by decide⟩
  rw [hpublisher.length_eq]
  decide

end EasyDDB.Optimizer
