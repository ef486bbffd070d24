import EasyDDB.Optimizer.Provided
import EasyDDB.Optimizer.PushDown
import EasyDDB.Optimizer.SelectVf

/-! # The columns of the result

The root of the tree should deliver the selected columns. A Union node at the root projects on them, unless the nodes
below happen to deliver as many columns as are selected. With a single node left the result has what that node
delivers: a Join node leaves a column behind when it may drop one column of its cell but not the other, and a vertically
fragmented table of which only the key is read delivers the key without the name of the table. `*` stands for the
columns of the first FROM table, not of all of them. -/
namespace EasyDDB.Optimizer
open Arena
set_option autoImplicit false

/-! ## Selected columns -/

/-- What the select list asks for: `*` stands for all columns of all FROM tables. -/
def selectedColumns (Tables : List MetadataTable) (q : Query) : List String :=
  if q.selectAttr = ["*"] then q.fromTable.flatMap fun name => ((findTable Tables name).map MetadataTable.attrs).getD []
  else q.selectAttr

/-- The columns of a table carry its name; the key column is given without it. -/
structure NamedColumns (T : MetadataTable) : Prop where
  name : '.' ∉ T.name.toList
  key : '.' ∉ T.keyColumn.toList
  ne : T.attrs ≠ []
  nodup : T.attrs.Nodup
  qualified : ∀ a ∈ T.attrs, a = T.name ++ "." ++ afterDot a
  vf : T.type = .vf → VfTable T ∧ ∀ F ∈ T.frags, ∀ a ∈ F.vfColumn, a ∈ T.attrs

/-- The select list is `*` or a list of distinct columns of FROM tables, and the joins are on columns of FROM tables. -/
structure ColumnsKnown (Tables : List MetadataTable) (q : Query) : Prop where
  name : (Tables.map MetadataTable.name).Nodup
  named : ∀ T ∈ Tables, ∀ F ∈ T.frags, F.fname.table = T.name
  tables : ∀ T ∈ Tables, T.name ∈ q.fromTable → NamedColumns T
  fromTable : ∀ name ∈ q.fromTable, ∃ T ∈ Tables, T.name = name
  select : (q.selectAttr = ["*"] ∧ "*" ∈ q.allAttr) ∨ (q.selectAttr ≠ [] ∧ q.selectAttr.Nodup ∧
    ∀ a ∈ q.selectAttr, a ∈ q.allAttr ∧ ∃ T ∈ Tables, T.name ∈ q.fromTable ∧ a ∈ T.attrs)
  left : ∀ c ∈ q.join, c.left ∈ q.allAttr ∧ ∃ T ∈ Tables, T.name = c.ltab ∧ T.name ∈ q.fromTable ∧ c.left ∈ T.attrs
  right : ∀ c ∈ q.join, c.right ∈ q.allAttr ∧ ∃ T ∈ Tables, T.name = c.rtab ∧ T.name ∈ q.fromTable ∧ c.right ∈ T.attrs

theorem NamedColumns.dot {T : MetadataTable} (h : NamedColumns T) {a : String} (ha : a ∈ T.attrs) : '.' ∈ a.toList := by
  rw [h.qualified a ha]
  simp

theorem NamedColumns.name_eq {T T' : MetadataTable} (h : NamedColumns T) (h' : NamedColumns T') {a : String}
    (ha : a ∈ T.attrs) (ha' : a ∈ T'.attrs) : T.name = T'.name :=
  qualified_inj h.name h'.name ((h.qualified a ha).symm.trans (h'.qualified a ha'))

/-- The select list after the expansion of `*`, compared with what it asks for. -/
structure Expanded (Tables : List MetadataTable) (q : Query) (p : JoinPlan) : Prop where
  ne : p.query.selectAttr ≠ []
  nodup : p.query.selectAttr.Nodup
  selected : ∀ a ∈ p.query.selectAttr, a ∈ selectedColumns Tables q
  known : ∀ a ∈ selectedColumns Tables q, ∃ T ∈ Tables, T.name ∈ q.fromTable ∧ a ∈ T.attrs
  mentioned : ∀ a, needed p.query a = true → a ∈ p.query.allAttr
  single : ∀ T ∈ Tables, T.name ∈ q.fromTable → (∀ a ∈ selectedColumns Tables q, a ∈ T.attrs) →
    ∀ a ∈ selectedColumns Tables q, a ∈ p.query.selectAttr

theorem ColumnsKnown.needed_join {Tables : List MetadataTable} {q : Query} (h : ColumnsKnown Tables q) {a : String}
    (ha : ∃ c ∈ q.join, a = c.left ∨ a = c.right) :
    a ∈ q.allAttr ∧ ∃ T ∈ Tables, T.name ∈ q.fromTable ∧ a ∈ T.attrs := by
  obtain ⟨c, hc, rfl | rfl⟩ := ha
  · obtain ⟨hall, T, hT, -, hrest⟩ := h.left c hc
    exact ⟨hall, T, hT, hrest⟩
  · obtain ⟨hall, T, hT, -, hrest⟩ := h.right c hc
    exact ⟨hall, T, hT, hrest⟩

theorem ColumnsKnown.expanded {Tables : List MetadataTable} {q : Query} (h : ColumnsKnown Tables q) {p : JoinPlan}
    (hplan : Planned Tables q p) : Expanded Tables q p := by
  obtain ⟨q', hq', hpq⟩ := hplan.query
  have hsel : p.query.selectAttr = q'.selectAttr := by rw [hpq]; rfl
  have hall : p.query.allAttr = q'.allAttr := by rw [hpq]; rfl
  have hjoin : p.query.join = q.join := hplan.query_fields.2.2
  obtain ⟨hstar, hmem⟩ | ⟨hne, hnd, hcols⟩ := h.select
  · simp only [expandStar, hstar, if_true, Option.bind_eq_bind, Option.bind_eq_some_iff, if_pos hmem] at hq'
    obtain ⟨name, hname, T, hT, hq'⟩ := hq'
    obtain rfl := Option.some.inj hq'
    simp only [List.dropLast_singleton, List.nil_append] at hsel
    have hfrom : name ∈ q.fromTable := List.mem_of_mem_head? hname
    have hTmem : T ∈ Tables := List.mem_of_find?_eq_some hT
    have hTname : T.name = name := by simpa using List.find?_some hT
    have hTcols := h.tables T hTmem (hTname ▸ hfrom)
    have hselected : ∀ a ∈ T.attrs, a ∈ selectedColumns Tables q := by
      intro a ha
      rw [selectedColumns, if_pos hstar, List.mem_flatMap]
      exact ⟨name, hfrom, by rw [hT]; exact ha⟩
    refine ⟨hsel ▸ hTcols.ne, hsel ▸ hTcols.nodup, fun a ha => hselected a (hsel ▸ ha), ?_, ?_, ?_⟩
    · intro a ha
      rw [selectedColumns, if_pos hstar, List.mem_flatMap] at ha
      obtain ⟨name', hfrom', ha⟩ := ha
      obtain ⟨T', hT', rfl⟩ := h.fromTable name' hfrom'
      rw [findTable_of_mem h.name hT'] at ha
      exact ⟨T', hT', hfrom', ha⟩
    · intro a ha
      rw [hall, mem_foldl_addNew]
      rw [needed_iff, hsel, hjoin] at ha
      obtain ha | ha := ha
      · exact .inr ha
      · obtain ⟨hmem', T', hT', hfrom', ha'⟩ := h.needed_join ha
        refine .inl ((List.mem_erase_of_ne ?_).mpr hmem')
        rintro rfl
        have := (h.tables T' hT' hfrom').dot ha'
        simp at this
    · intro T' hT' hfrom' honly a ha
      obtain ⟨b, hb⟩ := List.exists_mem_of_ne_nil _ hTcols.ne
      have hname' := hTcols.name_eq (h.tables T' hT' hfrom') hb (honly b (hselected b hb))
      obtain rfl : T = T' := List.inj_on_of_nodup_map h.name hTmem hT' hname'
      rw [hsel]
      exact honly a ha
  · have hstar : q.selectAttr ≠ ["*"] := by
      intro hstar
      obtain ⟨-, T, hT, hfrom, ha⟩ := hcols "*" (by simp [hstar])
      have := (h.tables T hT hfrom).dot ha
      simp at this
    have hsame : selectedColumns Tables q = q.selectAttr := if_neg hstar
    have hq : q' = q := by
      obtain ⟨s, S, hs⟩ := List.exists_cons_of_ne_nil hne
      have hs' : s ≠ "*" := by
        rintro rfl
        obtain ⟨-, T, hT, hfrom, ha⟩ := hcols "*" (by simp [hs])
        have := (h.tables T hT hfrom).dot ha
        simp at this
      simpa [expandStar, hs, hs'] using hq'.symm
    rw [hq] at hsel hall
    rw [← hsel] at hne hnd hsame
    refine ⟨hne, hnd, fun a ha => hsame ▸ ha, fun a ha => (hcols a (hsel ▸ hsame ▸ ha)).2, fun a ha => ?_,
      fun T hT hfrom honly a ha => hsame ▸ ha⟩
    rw [needed_iff, hjoin, hsel] at ha
    rw [hall]
    obtain ha | ha := ha
    · exact (hcols a ha).1
    · exact (h.needed_join ha).1

/-! ## Columns of one table -/

/-- A vertically fragmented table of which no fragment is useful: the query needs nothing but its key. -/
def KeyOnly (q : Query) (T : MetadataTable) : Prop := T.type = .vf ∧ T.frags.filter (vfMarked q T) = []

instance (q : Query) (T : MetadataTable) : Decidable (KeyOnly q T) := inferInstanceAs (Decidable (_ ∧ _))

theorem tableColumns_keyOnly {q : Query} {T : MetadataTable} (h : KeyOnly q T) : tableColumns q T = [T.keyColumn] := by
  rw [tableColumns, h.1]
  dsimp only
  rw [h.2]

theorem mem_keepSome {p : String → Bool} {l : List String} (hex : ∃ b ∈ l, p b = true) {a : String} :
    a ∈ keepSome p l ↔ a ∈ l ∧ p a = true := by
  obtain ⟨b, hb, hpb⟩ := hex
  rw [keepSome, if_neg (List.ne_nil_of_mem (List.mem_filter.mpr ⟨hb, hpb⟩)), List.mem_filter]

theorem keepSome_subset {p : String → Bool} {l : List String} {a : String} (h : a ∈ keepSome p l) : a ∈ l := by
  unfold keepSome at h
  split_ifs at h
  · exact h
  · exact List.mem_of_mem_filter h

section
variable {q : Query} {T : MetadataTable} (hT : NamedColumns T) (hkey : ¬ KeyOnly q T)
  (hall : ∀ a, needed q a = true → a ∈ q.allAttr)
include hT hkey hall

theorem tableColumns_eq_keepSome : ∃ l, tableColumns q T = keepSome (needed q) l ∧ (∀ a ∈ l, a ∈ T.attrs) ∧
    ∀ a ∈ T.attrs, needed q a = true → a ∈ l := by
  cases htype : T.type with
  | hf => exact ⟨T.attrs, by rw [tableColumns, htype], fun a ha => ha, fun a ha _ => ha⟩
  | vf =>
    obtain ⟨hvf, hsub⟩ := hT.vf htype
    have hne : T.frags.filter (vfMarked q T) ≠ [] := fun hnil => hkey ⟨htype, hnil⟩
    have hcover : ∀ a ∈ T.attrs, needed q a = true → ∃ F ∈ T.frags.filter (vfMarked q T), a ∈ F.vfColumn := by
      intro a ha hneed
      by_cases hak : a = T.key
      · obtain ⟨F, hF⟩ := List.exists_mem_of_ne_nil _ hne
        exact ⟨F, hF, hak ▸ hvf.key F (List.mem_of_mem_filter hF)⟩
      · obtain ⟨F, hF, haF⟩ := hvf.cover a ha
        refine ⟨F, List.mem_filter.mpr ⟨hF, List.any_eq_true.mpr ⟨a, haF, ?_⟩⟩, haF⟩
        exact decide_eq_true ⟨hall a hneed, hak⟩
    have hmarked : ∀ F ∈ T.frags.filter (vfMarked q T), ∀ a ∈ F.vfColumn, a ∈ T.attrs :=
      fun F hF => hsub F (List.mem_of_mem_filter hF)
    rw [tableColumns, htype]
    dsimp only
    generalize T.frags.filter (vfMarked q T) = marked at hne hcover hmarked ⊢
    cases marked with
    | nil => exact absurd rfl hne
    | cons F marked =>
      cases marked with
      | nil =>
        refine ⟨F.vfColumn, ?_, hmarked F (List.mem_singleton_self F), fun a ha hneed => ?_⟩
        · have htest : (fun x => decide (x ∈ q.allAttr ∧ needed q x = true)) = needed q := by
            funext x
            rw [Bool.eq_iff_iff, decide_eq_true_eq]
            exact ⟨And.right, fun h => ⟨hall x h, h⟩⟩
          dsimp only
          rw [htest]
        · obtain ⟨G, hG, haG⟩ := hcover a ha hneed
          exact List.mem_singleton.mp hG ▸ haG
      | cons G marked =>
        refine ⟨_, rfl, fun a ha => ?_, fun a ha hneed => ?_⟩
        · rw [mem_sortUnique, List.mem_flatMap] at ha
          obtain ⟨H, hH, haH⟩ := ha
          exact hmarked H (List.mem_reverse.mp hH) a haH
        · obtain ⟨H, hH, haH⟩ := hcover a ha hneed
          exact mem_sortUnique.mpr (List.mem_flatMap.mpr ⟨H, List.mem_reverse.mpr hH, haH⟩)

theorem tableColumns_subset {a : String} (ha : a ∈ tableColumns q T) : a ∈ T.attrs := by
  obtain ⟨l, hl, hsub, -⟩ := tableColumns_eq_keepSome hT hkey hall
  rw [hl] at ha
  exact hsub a (keepSome_subset ha)

theorem mem_tableColumns (hex : ∃ b ∈ T.attrs, needed q b = true) {a : String} :
    a ∈ tableColumns q T ↔ a ∈ T.attrs ∧ needed q a = true := by
  obtain ⟨l, hl, hsub, hmem⟩ := tableColumns_eq_keepSome hT hkey hall
  obtain ⟨b, hb, hneed⟩ := hex
  rw [hl, mem_keepSome ⟨b, hmem b hb hneed, hneed⟩]
  exact and_congr_left fun h => ⟨hsub a, fun ha => hmem a ha h⟩

end

/-! ## Columns left by a chain -/

theorem mem_joinColumns_iff {S l r : List String} {c : JoinCell} {next : Option JoinCell}
    (hb : ∃ b, (b ∈ l ∨ b ∈ r) ∧ ¬ Dropped S c next b) {a : String} :
    a ∈ joinColumns S l r c next ↔ (a ∈ l ∨ a ∈ r) ∧ ¬ Dropped S c next a := by
  refine ⟨fun ha => ?_, fun h => mem_joinColumns h.1 h.2⟩
  have hattr : ∀ x, x ∈ sortUnique (l ++ r) ↔ x ∈ l ∨ x ∈ r := fun x => mem_sortUnique.trans List.mem_append
  unfold joinColumns at ha
  dsimp only at ha
  split_ifs at ha with hnil
  · refine ⟨(hattr a).mp ha, fun hd => ?_⟩
    obtain ⟨b, hbm, hbd⟩ := hb
    have hright : ¬ Continued c next → c.right ∉ S := by
      obtain ⟨-, ⟨hcont, -⟩ | ⟨-, hr, -⟩⟩ := hd
      · exact fun h => absurd hcont h
      · exact fun _ => hr
    have hmem := mem_joinProjection.mpr ⟨(hattr b).mpr hbm, hbd, hd.1, hright⟩
    rw [hnil] at hmem
    cases hmem
  · obtain ⟨hmem, hd, -⟩ := mem_joinProjection.mp ha
    exact ⟨(hattr a).mp hmem, hd⟩

/-- A column of a cell that stays though it is not selected: the other column of the cell is, so the cell drops nothing. -/
def Unmatched (S : List String) (J : List JoinCell) (a : String) : Prop :=
  ∃ (k : Nat) (c : JoinCell), J[k]? = some c ∧ ¬ Continued c J[k + 1]? ∧
    ((c.left ∈ S ∧ c.right ∉ S ∧ a = c.right) ∨ (c.left ∉ S ∧ c.right ∈ S ∧ a = c.left))

section
variable {J : List JoinCell} (hchain : Chain J) {S : List String} {out : String → List String}
include hchain

theorem Chain.mem_chainColumns_iff {k : Nat} (hk : k ≤ J.length)
    (hkeep : ∀ j, j < k → ∃ m rel b, m ≤ j + 1 ∧ (relation J)[m]? = some rel ∧ b ∈ out rel ∧
      ∀ i d, m ≤ i + 1 → i ≤ j → J[i]? = some d → ¬ Dropped S d J[i + 1]? b) {a : String} :
    a ∈ chainColumns out S J k ↔ ∃ m rel, m ≤ k ∧ (relation J)[m]? = some rel ∧ a ∈ out rel ∧
      ∀ j c, m ≤ j + 1 → j < k → J[j]? = some c → ¬ Dropped S c J[j + 1]? a := by
  constructor
  · induction k with
    | zero =>
      intro ha
      rw [chainColumns] at ha
      cases hrel : (relation J)[0]? with
      | none =>
        rw [hrel] at ha
        cases ha
      | some rel =>
        rw [hrel] at ha
        exact ⟨0, rel, le_rfl, hrel, ha, fun j c _ hj => absurd hj (Nat.not_lt_zero j)⟩
    | succ k ih =>
      obtain ⟨c, hc⟩ : ∃ c, J[k]? = some c := ⟨_, List.getElem?_eq_getElem hk⟩
      have hnext := (hchain.relation_getElem? hc).2
      simp only [chainColumns, hc, hnext]
      intro ha
      have hb : ∃ b, (b ∈ chainColumns out S J k ∨ b ∈ out c.rtab) ∧ ¬ Dropped S c J[k + 1]? b := by
        obtain ⟨m, rel, b, hm, hrel, hb, hd⟩ := hkeep k (Nat.lt_succ_self k)
        refine ⟨b, ?_, hd k c hm le_rfl hc⟩
        obtain rfl | hlt := Nat.eq_or_lt_of_le hm
        · rw [hnext] at hrel
          cases hrel
          exact .inr hb
        · exact .inl (hchain.not_dropped_kept (by omega) (by omega) hrel hb fun j d hj hjk => hd j d hj (by omega))
      have hlast : ∀ {j : Nat} {d : JoinCell}, j < k + 1 → J[j]? = some d → j < k ∨ (j = k ∧ d = c) := by
        intro j d hj hjd
        obtain rfl | hlt := Nat.eq_or_lt_of_le (Nat.le_of_lt_succ hj)
        · exact .inr ⟨rfl, Option.some.inj (hjd.symm.trans hc)⟩
        · exact .inl hlt
      obtain ⟨hmem | hmem, hd⟩ := (mem_joinColumns_iff hb).mp ha
      · obtain ⟨m, rel, hm, hrel, harel, hrest⟩ := ih (by omega) (fun j hj => hkeep j (by omega)) hmem
        refine ⟨m, rel, by omega, hrel, harel, fun j d hmj hj hjd => ?_⟩
        obtain hlt | ⟨rfl, rfl⟩ := hlast hj hjd
        · exact hrest j d hmj hlt hjd
        · exact hd
      · refine ⟨k + 1, c.rtab, le_rfl, hnext, hmem, fun j d hmj hj hjd => ?_⟩
        obtain hlt | ⟨rfl, rfl⟩ := hlast hj hjd
        · omega
        · exact hd
  · rintro ⟨m, rel, hm, hrel, harel, hd⟩
    exact hchain.not_dropped_kept hk hm hrel harel hd

variable (hdot : ∀ c ∈ J, '.' ∉ c.ltab.toList ∧ '.' ∉ c.rtab.toList)
include hdot

/-- **Of the columns that are not selected** a chain drops all but the unmatched ones. -/
theorem Chain.unmatched_iff {a : String} (ha : a ∉ S) : Unmatched S J a ↔
    (∃ c ∈ J, a = c.left ∨ a = c.right) ∧ ∀ (k : Nat) (c : JoinCell), J[k]? = some c → ¬ Dropped S c J[k + 1]? a := by
  constructor
  · rintro ⟨k, c, hc, hcont, hcase⟩
    have hcol : a = c.left ∨ a = c.right := by
      obtain ⟨-, -, h⟩ | ⟨-, -, h⟩ := hcase
      · exact .inr h
      · exact .inl h
    refine ⟨⟨c, List.mem_of_getElem? hc, hcol⟩, fun j d hd hdrop => ?_⟩
    obtain hlt | rfl | hgt := Nat.lt_trichotomy j k
    · obtain ⟨hleft, hright⟩ := hchain.later_columns hdot hd hc hlt hcol
      obtain ⟨-, ⟨-, hl⟩ | ⟨hcont', -, hl | hr⟩⟩ := hdrop
      · exact hleft hl
      · exact hleft hl
      · obtain ⟨hnext, hdc⟩ := hright hr
        exact hcont' ⟨c, hnext, hdc⟩
    · obtain rfl : c = d := Option.some.inj (hc.symm.trans hd)
      obtain ⟨hl, ⟨hcont', -⟩ | ⟨-, hr, -⟩⟩ := hdrop
      · exact hcont hcont'
      · obtain ⟨hl', -⟩ | ⟨-, hr', -⟩ := hcase
        · exact hl hl'
        · exact hr hr'
    · obtain ⟨hleft, hright⟩ := hchain.later_columns hdot hc hd hgt hdrop.column
      obtain ⟨hnext, hcd⟩ := hright (hcol.resolve_left hleft)
      exact hcont ⟨d, hnext, hcd⟩
  · rintro ⟨⟨c, hc, hcol⟩, hd⟩
    have hcase : ∀ (k : Nat) (c : JoinCell), J[k]? = some c → a = c.left → Unmatched S J a := by
      intro k c hc hal
      have hl : c.left ∉ S := hal ▸ ha
      have hcont : ¬ Continued c J[k + 1]? := fun hcont => hd k c hc ⟨hl, .inl ⟨hcont, hal⟩⟩
      refine ⟨k, c, hc, hcont, .inr ⟨hl, ?_, hal⟩⟩
      by_contra hr
      exact hd k c hc ⟨hl, .inr ⟨hcont, hr, .inl hal⟩⟩
    obtain ⟨k, hk⟩ := List.mem_iff_getElem?.mp hc
    obtain hal | har := hcol
    · exact hcase k c hk hal
    · by_cases hcont : Continued c J[k + 1]?
      · obtain ⟨d, hd', hcd⟩ := hcont
        exact hcase (k + 1) d hd' (har.trans hcd)
      · have hr : c.right ∉ S := har ▸ ha
        refine ⟨k, c, hk, hcont, .inl ⟨?_, hr, har⟩⟩
        by_contra hl
        exact hd k c hk ⟨hl, .inr ⟨hcont, hr, .inr har⟩⟩

end

theorem chainColumns_subset {S : List String} {J : List JoinCell} {out : String → List String} {k : Nat} {a : String}
    (h : a ∈ chainColumns out S J k) : ∃ rel ∈ relation J, a ∈ out rel := by
  induction k with
  | zero =>
    rw [chainColumns] at h
    cases hrel : (relation J)[0]? with
    | none =>
      rw [hrel] at h
      cases h
    | some rel =>
      rw [hrel] at h
      exact ⟨rel, List.mem_of_getElem? hrel, h⟩
  | succ k ih =>
    rw [chainColumns] at h
    split at h
    · rename_i c rel _ hrel
      have hmem : a ∈ sortUnique (chainColumns out S J k ++ out rel) := by
        unfold joinColumns at h
        dsimp only at h
        split_ifs at h
        · exact h
        · exact joinProjection_subset h
      rw [mem_sortUnique, List.mem_append] at hmem
      exact hmem.elim ih fun hr => ⟨rel, List.mem_of_getElem? hrel, hr⟩
    · cases h

/-! ## Exact columns -/

/-- The rows joined by a chain have the selected columns. -/
structure JoinExact (Tables : List MetadataTable) (q : Query) (p : JoinPlan) : Prop where
  keys : ∀ T ∈ Tables, T.name ∈ relation p.join → ¬ KeyOnly p.query T
  joined : ∀ a ∈ selectedColumns Tables q, ∃ T ∈ Tables, T.name ∈ relation p.join ∧ a ∈ T.attrs
  columns : ∀ a, a ∈ selectedColumns Tables q ↔ a ∈ p.query.selectAttr ∨ Unmatched p.query.selectAttr p.join a

/-- The node of a fragment of one table has the selected columns. -/
structure ScanExact (Tables : List MetadataTable) (q : Query) (p : JoinPlan) (T : MetadataTable) : Prop where
  key : ¬ KeyOnly p.query T
  only : ∀ a ∈ selectedColumns Tables q, a ∈ T.attrs
  joins : ∀ a ∈ joinAttr q.join, a ∈ T.attrs → a ∈ selectedColumns Tables q

section
variable {Tables : List MetadataTable} {q : Query} (h : ColumnsKnown Tables q) {p : JoinPlan}
  (hplan : Planned Tables q p)
include h hplan

theorem ColumnsKnown.keyColumn_not_selected {T : MetadataTable} (hT : T ∈ Tables) (hfrom : T.name ∈ q.fromTable) :
    T.keyColumn ∉ selectedColumns Tables q := by
  intro hmem
  obtain ⟨T', hT', hfrom', ha⟩ := (h.expanded hplan).known _ hmem
  exact (h.tables T hT hfrom).key ((h.tables T' hT' hfrom').dot ha)

/-- The node of a fragment delivers the selected columns exactly if they are all in its table, together with all join
columns of the table. -/
theorem scan_exact_iff {T : MetadataTable} (hT : T ∈ Tables) (hfrom : T.name ∈ q.fromTable) :
    (∀ a, a ∈ columnsOf p.query Tables T.name ↔ a ∈ selectedColumns Tables q) ↔ ScanExact Tables q p T := by
  have hexp := h.expanded hplan
  have hcols := h.tables T hT hfrom
  have hneed : ∀ a, needed p.query a = true ↔ a ∈ p.query.selectAttr ∨ a ∈ joinAttr q.join := by
    intro a
    rw [needed, hplan.query_fields.2.2, decide_eq_true_eq]
  have hmem : ¬ KeyOnly p.query T → (∀ a ∈ selectedColumns Tables q, a ∈ T.attrs) → ∀ a,
      a ∈ tableColumns p.query T ↔ a ∈ T.attrs ∧ needed p.query a = true := by
    intro hkey honly a
    obtain ⟨b, hb⟩ := List.exists_mem_of_ne_nil _ hexp.ne
    exact mem_tableColumns hcols hkey hexp.mentioned ⟨b, honly b (hexp.selected b hb), (hneed b).mpr (.inl hb)⟩
  rw [columnsOf_name h.name hT]
  constructor
  · intro hexact
    have hkey : ¬ KeyOnly p.query T := by
      intro hkey
      refine h.keyColumn_not_selected hplan hT hfrom ((hexact _).mp ?_)
      rw [tableColumns_keyOnly hkey]
      exact List.mem_singleton_self _
    have honly : ∀ a ∈ selectedColumns Tables q, a ∈ T.attrs :=
      fun a ha => tableColumns_subset hcols hkey hexp.mentioned ((hexact a).mpr ha)
    refine ⟨hkey, honly, fun a ha haT => (hexact a).mp ((hmem hkey honly a).mpr ⟨haT, (hneed a).mpr (.inr ha)⟩)⟩
  · rintro ⟨hkey, honly, hjoins⟩ a
    rw [hmem hkey honly, hneed]
    constructor
    · rintro ⟨haT, ha | ha⟩
      · exact hexp.selected a ha
      · exact hjoins a ha haT
    · exact fun ha => ⟨honly a ha, .inl (hexp.single T hT hfrom honly a ha)⟩

theorem ColumnsKnown.cells {c : JoinCell} (hc : c ∈ p.join) :
    (∃ T ∈ Tables, T.name = c.ltab ∧ T.name ∈ q.fromTable ∧ c.left ∈ T.attrs) ∧
      (∃ T ∈ Tables, T.name = c.rtab ∧ T.name ∈ q.fromTable ∧ c.right ∈ T.attrs) := by
  obtain ⟨d, hd, rfl | rfl⟩ := hplan.cell_of_query hc
  · exact ⟨(h.left c hd).2, (h.right c hd).2⟩
  · exact ⟨(h.right d hd).2, (h.left d hd).2⟩

omit h in
theorem Planned.needed_iff {a : String} : needed p.query a = true ↔
    a ∈ p.query.selectAttr ∨ ∃ c ∈ p.join, a = c.left ∨ a = c.right := by
  have hedges := hplan.edges_perm
  rw [Optimizer.needed_iff, hplan.query_fields.2.2]
  refine or_congr_right ⟨?_, ?_⟩
  · rintro ⟨c, hc, ha⟩
    obtain ⟨d, hd, heq⟩ := List.mem_map.mp (hedges.mem_iff.mpr (List.mem_map_of_mem hc))
    exact ⟨d, hd, edge_columns heq.symm ha⟩
  · rintro ⟨c, hc, ha⟩
    obtain ⟨d, hd, heq⟩ := List.mem_map.mp (hedges.mem_iff.mp (List.mem_map_of_mem hc))
    exact ⟨d, hd, edge_columns heq.symm ha⟩

variable (hchain : Chain p.join) (hJ : p.join ≠ [])
include hchain hJ

theorem joined_table {m : Nat} {rel : String} (hrel : (relation p.join)[m]? = some rel) :
    ∃ T ∈ Tables, T.name = rel ∧ T.name ∈ q.fromTable ∧ ∃ b ∈ T.attrs, needed p.query b = true := by
  have hm := (List.getElem?_eq_some_iff.mp hrel).1
  rw [length_relation hJ] at hm
  by_cases hlt : m < p.join.length
  · obtain ⟨c, hc⟩ : ∃ c, p.join[m]? = some c := ⟨_, List.getElem?_eq_getElem hlt⟩
    have hmem := List.mem_of_getElem? hc
    obtain ⟨⟨T, hT, hname, hfrom, ha⟩, -⟩ := h.cells hplan hmem
    rw [(hchain.relation_getElem? hc).1] at hrel
    cases hrel
    exact ⟨T, hT, hname, hfrom, c.left, ha, hplan.needed_iff.mpr (.inr ⟨c, hmem, .inl rfl⟩)⟩
  · obtain ⟨k, hk⟩ := Nat.exists_eq_succ_of_ne_zero (List.length_pos_of_ne_nil hJ).ne'
    obtain ⟨c, hc⟩ : ∃ c, p.join[k]? = some c := ⟨_, List.getElem?_eq_getElem (by omega)⟩
    have hmem := List.mem_of_getElem? hc
    obtain ⟨-, T, hT, hname, hfrom, ha⟩ := h.cells hplan hmem
    obtain rfl : m = k + 1 := by omega
    rw [(hchain.relation_getElem? hc).2] at hrel
    cases hrel
    exact ⟨T, hT, hname, hfrom, c.right, ha, hplan.needed_iff.mpr (.inr ⟨c, hmem, .inr rfl⟩)⟩

theorem mem_joined_columns {rel : String} (hrel : rel ∈ relation p.join)
    (hkeys : ∀ T ∈ Tables, T.name ∈ relation p.join → ¬ KeyOnly p.query T) {a : String} :
    a ∈ columnsOf p.query Tables rel ↔ ∃ T ∈ Tables, T.name = rel ∧ a ∈ T.attrs ∧ needed p.query a = true := by
  obtain ⟨m, hm⟩ := List.mem_iff_getElem?.mp hrel
  obtain ⟨T, hT, rfl, hfrom, hex⟩ := joined_table h hplan hchain hJ hm
  rw [columnsOf_name h.name hT,
    mem_tableColumns (h.tables T hT hfrom) (hkeys T hT hrel) (h.expanded hplan).mentioned hex]
  constructor
  · exact fun ha => ⟨T, hT, rfl, ha⟩
  · rintro ⟨T', hT', hname, ha⟩
    obtain rfl : T' = T := List.inj_on_of_nodup_map h.name hT' hT hname
    exact ha

omit hchain hJ in
theorem ColumnsKnown.chain_dot : ∀ c ∈ p.join, '.' ∉ c.ltab.toList ∧ '.' ∉ c.rtab.toList := by
  intro c hc
  obtain ⟨⟨T, hT, hname, hfrom, -⟩, T', hT', hname', hfrom', -⟩ := h.cells hplan hc
  exact ⟨hname ▸ (h.tables T hT hfrom).name, hname' ▸ (h.tables T' hT' hfrom').name⟩

omit hJ in
theorem cell_table {k : Nat} {c : JoinCell} (hc : p.join[k]? = some c) {a : String} (ha : a = c.left ∨ a = c.right) :
    ∃ m, k ≤ m ∧ m ≤ k + 1 ∧ ∃ T ∈ Tables, (relation p.join)[m]? = some T.name ∧ T.name ∈ q.fromTable ∧ a ∈ T.attrs := by
  obtain ⟨hl, hr⟩ := hchain.relation_getElem? hc
  obtain ⟨⟨T, hT, hname, hfrom, hleft⟩, T', hT', hname', hfrom', hright⟩ := h.cells hplan (List.mem_of_getElem? hc)
  obtain rfl | rfl := ha
  · exact ⟨k, le_rfl, by omega, T, hT, hname ▸ hl, hfrom, hleft⟩
  · exact ⟨k + 1, by omega, le_rfl, T', hT', hname' ▸ hr, hfrom', hright⟩

section
variable (hkeys : ∀ T ∈ Tables, T.name ∈ relation p.join → ¬ KeyOnly p.query T)
include hkeys

theorem cell_column {k : Nat} {c : JoinCell} (hc : p.join[k]? = some c) {a : String} (ha : a = c.left ∨ a = c.right) :
    ∃ m rel, k ≤ m ∧ m ≤ k + 1 ∧ (relation p.join)[m]? = some rel ∧ a ∈ columnsOf p.query Tables rel := by
  obtain ⟨m, hkm, hmk, T, hT, hrel, -, haT⟩ := cell_table h hplan hchain hc ha
  refine ⟨m, T.name, hkm, hmk, hrel, (mem_joined_columns h hplan hchain hJ (List.mem_of_getElem? hrel) hkeys).mpr ?_⟩
  exact ⟨T, hT, rfl, haT, hplan.needed_iff.mpr (.inr ⟨c, List.mem_of_getElem? hc, ha⟩)⟩

variable (hsel : ∀ a ∈ p.query.selectAttr, ∃ T ∈ Tables, T.name ∈ relation p.join ∧ a ∈ T.attrs)
include hsel

theorem selected_column {a : String} (ha : a ∈ p.query.selectAttr) :
    ∃ m rel, m ≤ p.join.length ∧ (relation p.join)[m]? = some rel ∧ a ∈ columnsOf p.query Tables rel := by
  obtain ⟨T, hT, hrel, haT⟩ := hsel a ha
  obtain ⟨m, hm⟩ := List.mem_iff_getElem?.mp hrel
  have hlt := (List.getElem?_eq_some_iff.mp hm).1
  rw [length_relation hJ] at hlt
  refine ⟨m, T.name, by omega, hm, (mem_joined_columns h hplan hchain hJ hrel hkeys).mpr ?_⟩
  exact ⟨T, hT, rfl, haT, hplan.needed_iff.mpr (.inl ha)⟩

/-- Every Join node keeps the left column of the next cell, the last one a selected column. -/
theorem chain_keeps {j : Nat} (hj : j < p.join.length) : ∃ m rel b, m ≤ j + 1 ∧ (relation p.join)[m]? = some rel ∧
    b ∈ columnsOf p.query Tables rel ∧ ∀ i d, m ≤ i + 1 → i ≤ j → p.join[i]? = some d →
      ¬ Dropped p.query.selectAttr d p.join[i + 1]? b := by
  by_cases hlast : j + 1 < p.join.length
  · obtain ⟨d, hd⟩ : ∃ d, p.join[j + 1]? = some d := ⟨_, List.getElem?_eq_getElem hlast⟩
    obtain ⟨c, hc⟩ : ∃ c, p.join[j]? = some c := ⟨_, List.getElem?_eq_getElem hj⟩
    have hmem := List.mem_of_getElem? hd
    obtain ⟨⟨T, hT, hname, hfrom, hleft⟩, -⟩ := h.cells hplan hmem
    have hrel := (hchain.relation_getElem? hd).1
    refine ⟨j + 1, d.ltab, d.left, le_rfl, hrel,
      (mem_joined_columns h hplan hchain hJ (List.mem_of_getElem? hrel) hkeys).mpr
        ⟨T, hT, hname, hleft, hplan.needed_iff.mpr (.inr ⟨d, hmem, .inl rfl⟩)⟩, fun i e hi hij he hdrop => ?_⟩
    obtain rfl : i = j := by omega
    obtain rfl : c = e := Option.some.inj (hc.symm.trans he)
    obtain ⟨hne, hcont⟩ := hchain.later_columns (h.chain_dot hplan) hc hd (Nat.lt_succ_self i) (.inl rfl)
    obtain ⟨-, ⟨-, hl⟩ | ⟨hnot, -, hl | hr⟩⟩ := hdrop
    · exact hne hl
    · exact hne hl
    · exact hnot ⟨d, hcont hr⟩
  · obtain ⟨b, hb⟩ := List.exists_mem_of_ne_nil _ (h.expanded hplan).ne
    obtain ⟨m, rel, hm, hrel, hcol⟩ := selected_column h hplan hchain hJ hkeys hsel hb
    exact ⟨m, rel, b, by omega, hrel, hcol, fun i d _ _ _ hdrop => hdrop.not_mem hb⟩

/-- **The columns at the end of the chain**, if all selected columns are of joined tables. -/
theorem mem_chain_iff {a : String} :
    a ∈ chainColumns (columnsOf p.query Tables) p.query.selectAttr p.join p.join.length ↔
      a ∈ p.query.selectAttr ∨ Unmatched p.query.selectAttr p.join a := by
  have hdot := h.chain_dot hplan
  rw [hchain.mem_chainColumns_iff le_rfl fun j hj => chain_keeps h hplan hchain hJ hkeys hsel hj]
  constructor
  · rintro ⟨m, rel, -, hrel, harel, hd⟩
    by_cases ha : a ∈ p.query.selectAttr
    · exact .inl ha
    obtain ⟨T, hT, rfl, haT, hneed⟩ :=
      (mem_joined_columns h hplan hchain hJ (List.mem_of_getElem? hrel) hkeys).mp harel
    refine .inr ((hchain.unmatched_iff hdot ha).mpr ⟨(hplan.needed_iff.mp hneed).resolve_left ha, ?_⟩)
    intro k c hc hdrop
    obtain ⟨m', -, hm', T', hT', hrel', hfrom', haT'⟩ := cell_table h hplan hchain hc hdrop.column
    obtain ⟨T₀, hT₀, hname₀, hfrom, -⟩ := joined_table h hplan hchain hJ hrel
    have hname := (h.tables T hT (hname₀ ▸ hfrom)).name_eq (h.tables T' hT' hfrom') haT haT'
    rw [← hname] at hrel'
    have hmm := hchain.relation_inj hrel hrel'
    exact hd k c (by omega) (List.getElem?_eq_some_iff.mp hc).1 hc hdrop
  · rintro (ha | ha)
    · obtain ⟨m, rel, hm, hrel, harel⟩ := selected_column h hplan hchain hJ hkeys hsel ha
      exact ⟨m, rel, hm, hrel, harel, fun j c _ _ _ hdrop => hdrop.not_mem ha⟩
    · have hnot : a ∉ p.query.selectAttr := by
        obtain ⟨k, c, -, -, ⟨-, hr, rfl⟩ | ⟨hl, -, rfl⟩⟩ := ha
        · exact hr
        · exact hl
      obtain ⟨⟨c, hc, hcol⟩, hd⟩ := (hchain.unmatched_iff hdot hnot).mp ha
      obtain ⟨k, hk⟩ := List.mem_iff_getElem?.mp hc
      obtain ⟨m, rel, -, hm, hrel, harel⟩ := cell_column h hplan hchain hJ hkeys hk hcol
      have hlt := (List.getElem?_eq_some_iff.mp hk).1
      exact ⟨m, rel, by omega, hrel, harel, fun j d _ _ => hd j d⟩

end

/-- The joined rows have the selected columns exactly if these are columns of the joined tables, no table is read by its
key only, and what a cell leaves behind is selected. -/
theorem join_exact_iff :
    (∀ a, a ∈ chainColumns (columnsOf p.query Tables) p.query.selectAttr p.join p.join.length ↔
      a ∈ selectedColumns Tables q) ↔ JoinExact Tables q p := by
  have hexp := h.expanded hplan
  constructor
  · intro hexact
    have hkeys : ∀ T ∈ Tables, T.name ∈ relation p.join → ¬ KeyOnly p.query T := by
      intro T hT hrel hkey
      obtain ⟨m, hm⟩ := List.mem_iff_getElem?.mp hrel
      obtain ⟨T', hT', hname, hfrom, -⟩ := joined_table h hplan hchain hJ hm
      have hfrom' : T.name ∈ q.fromTable := hname ▸ hfrom
      have hlt := (List.getElem?_eq_some_iff.mp hm).1
      rw [length_relation hJ] at hlt
      refine h.keyColumn_not_selected hplan hT hfrom' ((hexact _).mp ?_)
      refine hchain.not_dropped_kept le_rfl (Nat.le_of_lt_succ hlt) hm ?_ ?_
      · rw [columnsOf_name h.name hT, tableColumns_keyOnly hkey]
        exact List.mem_singleton_self _
      · intro j c _ _ hc hdrop
        obtain ⟨_, -, -, T', hT', -, hfrom', haT'⟩ := cell_table h hplan hchain hc hdrop.column
        exact (h.tables T hT (hname ▸ hfrom)).key ((h.tables T' hT' hfrom').dot haT')
    have hjoined : ∀ a ∈ selectedColumns Tables q, ∃ T ∈ Tables, T.name ∈ relation p.join ∧ a ∈ T.attrs := by
      intro a ha
      obtain ⟨rel, hrel, harel⟩ := chainColumns_subset ((hexact a).mpr ha)
      obtain ⟨T, hT, rfl, haT, -⟩ := (mem_joined_columns h hplan hchain hJ hrel hkeys).mp harel
      exact ⟨T, hT, hrel, haT⟩
    refine ⟨hkeys, hjoined, fun a => ?_⟩
    rw [← hexact, mem_chain_iff h hplan hchain hJ hkeys fun b hb => hjoined b (hexp.selected b hb)]
  · rintro ⟨hkeys, hjoined, hcols⟩ a
    rw [hcols, mem_chain_iff h hplan hchain hJ hkeys fun b hb => hjoined b (hexp.selected b hb)]

end

/-! ## The root -/

/-- The Union node at the root projects on the select list, unless its children deliver as many columns. -/
theorem rootNode_exact_iff (site : Int) {S Sel : List String} {tr : List TreeNode} (hne : S ≠ []) (hnd : S.Nodup)
    (hsub : ∀ a ∈ S, a ∈ Sel) : (∀ a, a ∈ (rootNode site S tr).output ↔ a ∈ Sel) ↔
      (∀ a ∈ Sel, a ∈ S) ∧ ((rootAttr tr).length = S.length → ∀ a ∈ S, a ∈ rootAttr tr) := by
  have hout : (rootNode site S tr).output = if (rootAttr tr).length = S.length then rootAttr tr else S := by
    unfold TreeNode.output rootNode
    dsimp only
    split_ifs <;> simp_all
  have hback : ∀ {l m : List String}, l.Nodup → (∀ a ∈ l, a ∈ m) → m.length ≤ l.length → ∀ a ∈ m, a ∈ l := by
    intro l m hl hlm hlen a ha
    exact (List.Nodup.subperm hl hlm).perm_of_length_le hlen |>.mem_iff.mpr ha
  rw [hout]
  split_ifs with hlen
  · constructor
    · intro hexact
      have hSA : ∀ a ∈ S, a ∈ rootAttr tr := fun a ha => (hexact a).mpr (hsub a ha)
      exact ⟨fun a ha => hback hnd hSA hlen.le a ((hexact a).mpr ha), fun _ => hSA⟩
    · rintro ⟨hSel, hSA⟩ a
      exact ⟨fun ha => hsub a (hback hnd (hSA hlen) hlen.le a ha), fun ha => hSA hlen a (hSel a ha)⟩
  · constructor
    · exact fun hexact => ⟨fun a ha => (hexact a).mpr ha, fun h => absurd h hlen⟩
    · exact fun h a => ⟨hsub a, h.1 a⟩

theorem last_root {Tables : List MetadataTable} {q : Query} {p : JoinPlan} (hplan : Planned Tables q p)
    (hnamed : ∀ T ∈ Tables, ∀ F ∈ T.frags, F.fname.table = T.name) {ch : List JoinCell} (hpath : Path ch q.join)
    {tr : List TreeNode} (htr : buildForest p = some tr) (hlen : (parentless tr).length ≤ 1) {Q : List String → Prop} :
    (∀ n, tr[((tr.length : Int) - 1).toNat]? = some n → Q n.output) ↔
      ∀ i ∈ parentless tr, ∃ n, tr[i]? = some n ∧ Q n.output := by
  by_cases hnil : p.scan.tr = []
  · obtain rfl := Option.some.inj ((buildForest_nil hplan hnamed hpath hnil).symm.trans htr)
    simp [parentless]
  · obtain ⟨-, hne, hroot⟩ := buildForest_forest hplan hnamed hpath hnil htr
    have hmem : tr.length - 1 ∈ parentless tr := mem_parentless.mpr hroot
    have hall : parentless tr = [tr.length - 1] := by
      obtain ⟨i, hi⟩ := List.length_eq_one_iff.mp (Nat.le_antisymm hlen (List.length_pos_of_mem hmem))
      rw [hi] at hmem ⊢
      rw [List.mem_singleton.mp hmem]
    have hidx : ((tr.length : Int) - 1).toNat = tr.length - 1 := by
      have := List.length_pos_of_ne_nil hne
      omega
    obtain ⟨n, hn, -⟩ := hroot
    rw [hall, hidx, List.forall_mem_singleton, hn]
    simp

/-- **The root delivers exactly the selected columns** under these conditions on the state before the final phase. With
several nodes left, the select list after the expansion of `*` has all selected columns, and if just as many columns
remain, they are the selected ones. With one node left, the conditions on its table or its chain of joins hold. -/
theorem root_columns_iff (Tables : List MetadataTable) (q : Query) (h : ColumnsKnown Tables q)
    (hpath : ∃ ch, Path ch q.join) (p : JoinPlan) (tr : List TreeNode) (t : Tree) (hp : planJoins Tables q = some p)
    (htr : buildForest p = some tr) (ht : buildQueryTree Tables q = some t) :
    (∀ n, t.tr[t.root.toNat]? = some n → ∀ a, a ∈ n.output ↔ a ∈ selectedColumns Tables q) ↔
      if 1 < (parentless tr).length then
        (∀ a ∈ selectedColumns Tables q, a ∈ p.query.selectAttr) ∧
          ((remainingColumns Tables p).length = p.query.selectAttr.length →
            ∀ a ∈ p.query.selectAttr, a ∈ remainingColumns Tables p)
      else
        (∀ i n, LeftOver p i → p.scan.tr[i]? = some n → ∀ T ∈ Tables, T.name = n.fname.table → ScanExact Tables q p T) ∧
          ((∃ l ∈ p.joinList, HasSite p l) → JoinExact Tables q p) := by
  have hplan := planJoins_planned hp
  have hexp := h.expanded hplan
  obtain ⟨ch, hpath⟩ := hpath
  obtain ⟨tr', htr', rfl⟩ := buildQueryTree_forest hp ht
  obtain rfl : tr = tr' := Option.some.inj (htr.symm.trans htr')
  split_ifs with hlen
  · have hperm := rootAttr_perm hplan h.name h.named hpath htr
    simp only [← hperm.length_eq, ← hperm.mem_iff]
    rw [← rootNode_exact_iff (p.processSite.head?.getD 0) hexp.ne hexp.nodup hexp.selected]
    have hroot : ∃ n, (unionPhase (p.processSite.head?.getD 0) p.query.selectAttr tr).tr[tr.length]? = some n ∧
        n.output = (rootNode (p.processSite.head?.getD 0) p.query.selectAttr tr).output := by
      refine (output_contents (Q := (· = _))).mp ⟨_, ?_, rfl⟩
      rw [contents_unionPhase, if_pos hlen, ← contents_length tr]
      exact List.getElem?_concat_length
    obtain ⟨n, hn, hout⟩ := hroot
    rw [unionPhase_root _ _ hlen, Int.toNat_natCast, hn, ← hout]
    simp
  · rw [unionPhase_of_le _ _ (Nat.le_of_not_lt hlen)]
    rw [last_root hplan h.named hpath htr (Nat.le_of_not_lt hlen)
      (Q := fun out => ∀ a, a ∈ out ↔ a ∈ selectedColumns Tables q), roots_columns_iff hplan h.name h.named hpath htr
      (Q := fun out => ∀ a, a ∈ out ↔ a ∈ selectedColumns Tables q)]
    refine and_congr ?_ ?_
    · refine forall_congr' fun i => ⟨fun hi n hover hn T hT hname => ?_, fun hi hover => ?_⟩
      · obtain ⟨n', hn', hexact⟩ := hi hover
        obtain rfl : n = n' := Option.some.inj (hn.symm.trans hn')
        obtain ⟨T', hT', hname', hfrom⟩ := scanRoot_table hplan h.named hover.1 hn
        rw [← hname] at hexact
        exact (scan_exact_iff h hplan hT (hname.trans hname'.symm ▸ hfrom)).mp hexact
      · obtain ⟨n, hn, -⟩ := mem_parentless.mp hover.1
        obtain ⟨T, hT, hname, hfrom⟩ := scanRoot_table hplan h.named hover.1 hn
        refine ⟨n, hn, ?_⟩
        rw [← hname]
        exact (scan_exact_iff h hplan hT hfrom).mpr (hi n hover hn T hT hname)
    · refine forall_congr' fun ⟨l, hl, _⟩ => ?_
      obtain ⟨hchain, -⟩ := hplan.joinList_chain h.named hpath hl
      obtain ⟨-, hJ, -⟩ := hplan.joinList_tables h.named hpath hl
      exact join_exact_iff h hplan hchain hJ

theorem getMetadata_named : ∀ T ∈ getMetadata, NamedColumns T := by
  have hcheck : ∀ T ∈ getMetadata, ('.' ∉ T.name.toList ∧ '.' ∉ T.keyColumn.toList ∧ T.attrs ≠ [] ∧ T.attrs.Nodup) ∧
      (∀ a ∈ T.attrs, a = T.name ++ "." ++ afterDot a) ∧ (T.type = .vf → (∀ F ∈ T.frags, T.key ∈ F.vfColumn) ∧
        (∀ a ∈ T.attrs, ∃ F ∈ T.frags, a ∈ F.vfColumn) ∧ ∀ F ∈ T.frags, ∀ a ∈ F.vfColumn, a ∈ T.attrs) := by
    decide +kernel
  intro T hT
  obtain ⟨⟨hname, hkey, hne, hnd⟩, hqual, hvf⟩ := hcheck T hT
  exact ⟨hname, hkey, hne, hnd, hqual, fun htype => ⟨⟨htype, (hvf htype).1, (hvf htype).2.1⟩, (hvf htype).2.2⟩⟩

theorem bookOrders_root_columns : ∃ t n, buildQueryTree getMetadata bookOrders = some t ∧
    t.tr[t.root.toNat]? = some n ∧ ∀ a, a ∈ n.output ↔ a ∈ selectedColumns getMetadata bookOrders := by
  have hknown : ColumnsKnown getMetadata bookOrders := ⟨by decide, by decide, fun T hT _ => getMetadata_named T hT,
    by decide, by decide, by decide, by decide⟩
  have hrun : ((planJoins getMetadata bookOrders).any fun p => (buildForest p).any fun tr =>
      (buildQueryTree getMetadata bookOrders).any fun t => (t.tr[t.root.toNat]?).isSome &&
        decide (1 < (parentless tr).length) && decide (∀ a ∈ bookOrders.selectAttr, a ∈ p.query.selectAttr) &&
        decide (∀ a ∈ p.query.selectAttr, a ∈ remainingColumns getMetadata p)) = true := by
    decide +kernel
  simp only [Option.any_eq_true, Bool.and_eq_true, decide_eq_true_eq] at hrun
  obtain ⟨p, hp, tr, htr, t, ht, ⟨⟨hsome, hlen⟩, hsel⟩, hattr⟩ := hrun
  obtain ⟨n, hn⟩ := Option.isSome_iff_exists.mp hsome
  refine ⟨t, n, ht, hn, (root_columns_iff getMetadata bookOrders hknown ⟨_, bookOrders_path⟩ p tr t hp htr ht).mpr ?_ n hn⟩
  rw [if_pos hlen]
  exact ⟨hsel, fun _ => hattr⟩

/-- `select * from Book, Orders where Book.id = Orders.book_id`. -/
def allBookOrders : Query where
  fromTable := ["Book", "Orders"]
  selectAttr := ["*"]
  allAttr := ["*", "Book.id", "Orders.book_id"]
  predicate := []
  join := [⟨"Book", "id", "Orders", "book_id"⟩]

/-- Only the columns of `Book` are delivered. -/
theorem allBookOrders_columns_missing : ColumnsKnown getMetadata allBookOrders ∧
    Path allBookOrders.join allBookOrders.join ∧ ∃ t n, buildQueryTree getMetadata allBookOrders = some t ∧
      t.tr[t.root.toNat]? = some n ∧ "Orders.quantity" ∈ selectedColumns getMetadata allBookOrders ∧
      "Orders.quantity" ∉ n.output := by
  refine ⟨⟨by decide, by decide, fun T hT _ => getMetadata_named T hT, by decide, by decide, by decide, by decide⟩,
    ⟨⟨by simp [allBookOrders], by decide⟩, .refl _⟩, ?_⟩
  have hrun : ((buildQueryTree getMetadata allBookOrders).any fun t => (t.tr[t.root.toNat]?).any fun n =>
      "Orders.quantity" ∉ n.output) = true := by
    decide +kernel
  simp only [Option.any_eq_true, decide_eq_true_eq] at hrun
  obtain ⟨t, ht, n, hn, hnot⟩ := hrun
  exact ⟨t, n, ht, hn, by decide, hnot⟩

end EasyDDB.Optimizer
