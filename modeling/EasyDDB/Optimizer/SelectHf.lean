import EasyDDB.Optimizer.Pruning
import EasyDDB.Optimizer.Single

/-! # Single-table SELECT over a horizontally fragmented table

The tree of such a query is a list of Fragment nodes under a Union node. It delivers the selected rows
except where the `cnt == hf_condition.size()` shortcut fires without reason: `cnt` counts pairs of a
predicate and a fragment condition it covers, so it can reach the number of conditions while a
predicate on another column, or a stricter one, is still to be checked. -/
namespace EasyDDB.Optimizer
open Condition
set_option autoImplicit false

/-- A horizontally fragmented table with the predicates of a query on its own columns: conditions the
optimizer is made for, and one type for each column. -/
structure HfSelect (T : MetadataTable) (P : List Condition) : Prop where
  hf : T.type = .hf
  conditions : ∀ F ∈ T.frags, FragConditions T.name F.hfCondition
  predicates : ∀ x ∈ P, x.Plain ∧ x.table = T.name
  types : ∀ x ∈ P, ∀ F ∈ T.frags, ∀ y ∈ F.hfCondition, x.sameColumn y = true → x.type = y.type

/-- Every stored row is in range and satisfies the conditions of its fragment. -/
def Placed (T : MetadataTable) (db : Placement) : Prop :=
  ∀ F ∈ T.frags, ∀ r ∈ db F.fname, r.InRange ∧ satisfiesAll F.hfCondition r = true

/-- The rows of a table. -/
def tableRows (T : MetadataTable) (db : Placement) : List Row := T.frags.flatMap fun F => db F.fname

/-- The shortcut erases the selection of a fragment. -/
def shortcut (H P : List Condition) : Bool := !contradicts H P && coverCount H P = H.length

section
variable {T : MetadataTable} {P : List Condition} {db : Placement}

theorem HfSelect.checkSet (h : HfSelect T P) {F : Fragment} (hF : F ∈ T.frags) : CheckSet F.hfCondition P :=
  CheckSet.of_plain (h.conditions F hF) fun x hx => (h.predicates x hx).1

theorem HfSelect.fragSelect_eq (h : HfSelect T P) {F : Fragment} (hF : F ∈ T.frags) :
    fragSelect F.hfCondition P =
      some (if contradicts F.hfCondition P = true then none
        else if coverCount F.hfCondition P = F.hfCondition.length then some []
        else some (P.flatMap (residualOf F.hfCondition))) := by
  rw [fragSelect_spec (h.conditions F hF).toOwnConditions (h.checkSet hF)]
  have hiff : (P ≠ [] ∧ (contradicts F.hfCondition P = true ∨ ∀ x ∈ P, x.table ≠ T.name)) ↔
      contradicts F.hfCondition P = true := by
    constructor
    · rintro ⟨hne, hcon | hall⟩
      · exact hcon
      · obtain ⟨x, xs, rfl⟩ := List.exists_cons_of_ne_nil hne
        exact absurd (h.predicates x (List.mem_cons_self ..)).2 (hall x (List.mem_cons_self ..))
    · intro hcon
      refine ⟨?_, .inl hcon⟩
      rintro rfl
      simp [contradicts] at hcon
  simp only [hiff]

/-- What the Fragment node of a fragment delivers: with the shortcut all rows, else the rows that
satisfy the predicates. -/
theorem HfSelect.selected_eq (h : HfSelect T P) (hdb : Placed T db) {q : Query} (hq : q.predicate = P)
    {F : Fragment} (hF : F ∈ T.frags) :
    (hfNodes q T F).flatMap (selected db) =
      (db F.fname).filter fun r => shortcut F.hfCondition P || satisfiesAll P r := by
  have hcond := h.conditions F hF
  have hplain : ∀ x ∈ P, x.Plain := fun x hx => (h.predicates x hx).1
  have hsel := h.fragSelect_eq hF
  by_cases hcon : contradicts F.hfCondition P = true
  · rw [if_pos hcon, ← hq] at hsel
    rw [hfNodes_of_dropped T hsel, List.flatMap_nil, eq_comm, List.filter_eq_nil_iff]
    intro r hr hsat
    obtain ⟨hrange, hrH⟩ := hdb F hF r hr
    obtain ⟨x, hx, -, hnot⟩ := contradicts_excludes hcond hrange hrH hplain hcon
    simp only [shortcut, hcon, Bool.not_true, Bool.false_and, Bool.false_or] at hsat
    exact hnot ((satisfiesAll_iff P r).mp hsat x hx)
  · rw [if_neg hcon] at hsel
    by_cases hcnt : coverCount F.hfCondition P = F.hfCondition.length
    · rw [if_pos hcnt, ← hq] at hsel
      rw [hfNodes_of_select T hsel, List.flatMap_singleton]
      simp only [selected, hfNode, shortcut, hcon, hcnt, decide_true, Bool.and_true, Bool.not_false, Bool.true_or]
      rfl
    · rw [if_neg hcnt, ← hq] at hsel
      rw [hfNodes_of_select T hsel, List.flatMap_singleton]
      refine List.filter_congr fun r hr => ?_
      obtain ⟨hrange, hrH⟩ := hdb F hF r hr
      have hexact := residual_exact hcond hrange hrH hplain (fun x hx => h.types x hx F hF)
        (Bool.eq_false_iff.mpr hcon)
      simp only [shortcut, hcnt, decide_false, Bool.and_false, Bool.false_or]
      change satisfiesAll (q.predicate.flatMap _) r = satisfiesAll P r
      rw [Bool.eq_iff_iff, hq, hexact, satisfiesAll_iff]
      exact forall₂_congr fun x hx => ⟨fun h' => h' (h.predicates x hx).2, fun h' _ => h'⟩

/-- A row of a fragment satisfies every predicate that covers a condition of the fragment. -/
theorem HfSelect.satisfied_of_coverings (h : HfSelect T P) (hdb : Placed T db) {F : Fragment} (hF : F ∈ T.frags)
    {r : Row} (hr : r ∈ db F.fname) {x : Condition} (hx : x ∈ P) (hc : coverings F.hfCondition x ≠ 0) :
    x.satisfied r = true := by
  obtain ⟨y, hy, hxy⟩ := List.countP_pos_iff.mp (Nat.pos_of_ne_zero hc)
  obtain ⟨hcol, hcov⟩ := Bool.and_eq_true_iff.mp hxy
  obtain ⟨hrange, hrH⟩ := hdb F hF r hr
  exact satisfied_of_covers hrange hcol (h.predicates x hx).1 ((h.conditions F hF).plain y hy)
    (h.types x hx F hF y hy hcol) hcov ((satisfiesAll_iff _ r).mp hrH y hy)

end

theorem mem_hfNode_output {q : Query} {T : MetadataTable} {F : Fragment} {sel : List Condition}
    (hj : q.join = []) (hsub : ∀ a ∈ q.selectAttr, a ∈ T.attrs) (hne : T.attrs ≠ [] → q.selectAttr ≠ []) (a : String) :
    a ∈ (hfNode q T F sel).output ↔ a ∈ q.selectAttr := by
  have hneed : ∀ a, needed q a = true ↔ a ∈ q.selectAttr := by
    intro a
    simp [needed, joinAttr, hj]
  have hmem : a ∈ T.attrs.filter (needed q) ↔ a ∈ q.selectAttr := by
    rw [List.mem_filter, hneed]
    exact ⟨And.right, fun h => ⟨hsub a h, h⟩⟩
  change a ∈ (if (hfNode q T F sel).projection = [] then T.attrs else (hfNode q T F sel).projection) ↔ _
  have hproj : (hfNode q T F sel).projection =
      if (T.attrs.filter (needed q)).length = T.attrs.length then [] else T.attrs.filter (needed q) := rfl
  by_cases hlen : (T.attrs.filter (needed q)).length = T.attrs.length
  · have hall : T.attrs.filter (needed q) = T.attrs := List.filter_sublist.eq_of_length hlen
    rw [if_pos hlen] at hproj
    rwa [if_pos hproj, ← hall]
  · have hne' : T.attrs.filter (needed q) ≠ [] := by
      intro hnil
      have hattrs : T.attrs ≠ [] := fun h => hlen (by rw [h]; rfl)
      obtain ⟨b, bs, hb⟩ := List.exists_cons_of_ne_nil (hne hattrs)
      have hbS : b ∈ q.selectAttr := hb ▸ List.mem_cons_self ..
      have : b ∈ T.attrs.filter (needed q) := List.mem_filter.mpr ⟨hsub b hbS, (hneed b).mpr hbS⟩
      rw [hnil] at this
      cases this
    rw [if_neg hlen] at hproj
    rwa [if_neg (hproj ▸ hne'), hproj]

theorem hf_eval_eq {Tables : List MetadataTable} {T : MetadataTable} {q : Query} {db : Placement} {t : Tree}
    (hname : (Tables.map MetadataTable.name).Nodup) (hT : T ∈ Tables) (hfrom : q.fromTable = [T.name])
    (hj : q.join = []) (h : HfSelect T q.predicate) (hS : SelectOk T q.selectAttr q.allAttr) (hdb : Placed T db)
    (ht : buildQueryTree Tables q = some t) :
    t.eval (rowSemantics db) =
      ((T.frags.flatMap fun F =>
        (db F.fname).filter fun r => shortcut F.hfCondition q.predicate || satisfiesAll q.predicate r).map
          (Row.project (selectColumns T q.selectAttr))) := by
  obtain ⟨q', hq', hsel, -⟩ := expandStar_single hname hT hfrom hS
  obtain ⟨hfrom', hpred, hj'⟩ := expandStar_fields hq'
  rw [hj] at hj'
  obtain ⟨p, tr, hplan, htr, rfl⟩ := buildQueryTree_inv ht
  obtain ⟨q'', hq'', hpq⟩ := hplan.query
  obtain rfl : q' = q'' := Option.some.inj (hq'.symm.trans hq'')
  rw [extendPredicate_of_join_nil hj'] at hpq
  have hforest := buildForest_of_joinList_nil fun i _ => hplan.joinSite_nil (hplan.joinList_nil hj) i
  obtain rfl : p.scan.tr = tr := Option.some.inj (hforest.symm.trans htr)
  have hscan := hplan.scan
  rw [hpq, scanTables_single hname hT (hfrom'.trans hfrom)] at hscan
  simp only [scanTable, hfrom', hfrom, List.mem_singleton, if_true, h.hf] at hscan
  have hnodes : p.scan.tr = T.frags.flatMap (hfNodes q' T) := by
    rw [scanHf_tr hscan]
    rfl
  have hsub := selectColumns_subset hS
  have hnode : ∀ n ∈ p.scan.tr, n.type = .fragment ∧ n.parent = -1 ∧
      ∀ a, a ∈ n.output ↔ a ∈ selectColumns T q.selectAttr := by
    intro n hn
    rw [hnodes] at hn
    obtain ⟨F, hF, hn⟩ := List.mem_flatMap.mp hn
    unfold hfNodes at hn
    split at hn
    · rw [List.mem_singleton] at hn
      subst hn
      refine ⟨rfl, rfl, fun a => ?_⟩
      rw [mem_hfNode_output hj' (by rw [hsel]; exact hsub) (by rw [hsel]; exact selectColumns_ne_nil hS), hsel]
    · cases hn
  rw [hpq, hsel, unionPhase_eval_fragments _ hnode, hnodes, List.flatMap_assoc]
  congr 1
  exact List.flatMap_congr fun F hF => h.selected_eq hdb hpred hF

/-- The build of a single-table query is defined when the fragments lie on the four sites. -/
theorem hf_build_some {Tables : List MetadataTable} {T : MetadataTable} {q : Query}
    (hname : (Tables.map MetadataTable.name).Nodup) (hT : T ∈ Tables) (hfrom : q.fromTable = [T.name])
    (hj : q.join = []) (h : HfSelect T q.predicate) (hS : SelectOk T q.selectAttr q.allAttr)
    (hsite : ∀ F ∈ T.frags, 1 ≤ F.site ∧ F.site ≤ 4) : ∃ t, buildQueryTree Tables q = some t := by
  obtain ⟨q', hq', -, -⟩ := expandStar_single hname hT hfrom hS
  obtain ⟨hfrom', hpred, hj'⟩ := expandStar_fields hq'
  have hsel : ∀ F ∈ T.frags, (fragSelect F.hfCondition q'.predicate).isSome := by
    intro F hF
    rw [hpred, h.fragSelect_eq hF]
    rfl
  obtain ⟨s, hs, -⟩ := scanHf_some (s := Scan.init) rfl hsel hsite
  have hscan : scanTables q' Tables = some s := by
    rw [scanTables_single hname hT (hfrom'.trans hfrom)]
    simp only [scanTable, hfrom', hfrom, List.mem_singleton, if_true, h.hf]
    exact hs
  obtain ⟨Rp, hRp⟩ := largestRelation_isSome (scanHf_relationSize hs)
  obtain ⟨site, ht⟩ := buildQueryTree_noJoin hj hq' hscan hRp
  exact ⟨_, ht⟩

/-- **A single-table SELECT over a horizontally fragmented table keeps its meaning exactly when**, in
every fragment whose selection the shortcut erases, all stored rows satisfy the predicates that cover
no condition of the fragment. -/
theorem hf_select_meaning_iff (Tables : List MetadataTable) (T : MetadataTable) (q : Query) (db : Placement)
    (hname : (Tables.map MetadataTable.name).Nodup) (hT : T ∈ Tables) (hfrom : q.fromTable = [T.name])
    (hj : q.join = []) (h : HfSelect T q.predicate) (hS : SelectOk T q.selectAttr q.allAttr) (hdb : Placed T db) :
    ((∀ F ∈ T.frags, 1 ≤ F.site ∧ F.site ≤ 4) → ∃ t, buildQueryTree Tables q = some t) ∧
    ∀ t, buildQueryTree Tables q = some t →
      ((t.eval (rowSemantics db)).Perm
          (((tableRows T db).filter (satisfiesAll q.predicate)).map (Row.project (selectColumns T q.selectAttr))) ↔
        ∀ F ∈ T.frags, contradicts F.hfCondition q.predicate = false →
          coverCount F.hfCondition q.predicate = F.hfCondition.length →
          ∀ x ∈ q.predicate, coverings F.hfCondition x = 0 → ∀ r ∈ db F.fname, x.satisfied r = true) := by
  refine ⟨hf_build_some hname hT hfrom hj h hS, fun t ht => ?_⟩
  rw [hf_eval_eq hname hT hfrom hj h hS hdb ht, tableRows, List.filter_flatMap,
    Bags.perm_flatMap_filter_iff T.frags (fun F => db F.fname)
      (fun F r => shortcut F.hfCondition q.predicate || satisfiesAll q.predicate r)
      (fun _ r => satisfiesAll q.predicate r) _ (fun F r hr => by rw [hr, Bool.or_true])]
  refine forall₂_congr fun F hF => ?_
  constructor
  · intro hall hcon hcnt x hx _ r hr
    have hsc : shortcut F.hfCondition q.predicate = true := by simp [shortcut, hcon, hcnt]
    exact (satisfiesAll_iff _ r).mp (hall r hr (by rw [hsc, Bool.true_or])) x hx
  · intro hall r hr hor
    obtain hsc | hsat := Bool.or_eq_true_iff.mp hor
    · simp only [shortcut, Bool.and_eq_true, Bool.not_eq_true', decide_eq_true_eq] at hsc
      rw [satisfiesAll_iff]
      intro x hx
      by_cases hc : coverings F.hfCondition x = 0
      · exact hall hsc.1 hsc.2 x hx hc r hr
      · exact h.satisfied_of_coverings hdb hF hr hx hc
    · exact hsat

/-! ## A selection that gets lost -/

/-- `select Book.title from Book where Book.id<205000 and Book.title='C'`. -/
def bookTitle : Query where
  fromTable := ["Book"]
  selectAttr := ["Book.title"]
  allAttr := ["Book.id", "Book.title"]
  predicate := [condLt "Book" "id" 205000, condEqStr "Book" "title" "C"]
  join := []

instance (table : String) (H : List Condition) : Decidable (FragConditions table H) :=
  decidable_of_iff (OwnConditions table H ∧ ∀ y ∈ H, y.Plain) ⟨fun h => ⟨h.1, h.2⟩, fun h => ⟨h.1, h.2⟩⟩

instance (T : MetadataTable) (P : List Condition) : Decidable (HfSelect T P) :=
  decidable_of_iff (_ ∧ _ ∧ _ ∧ _) ⟨fun h => ⟨h.1, h.2.1, h.2.2.1, h.2.2.2⟩, fun h => ⟨h.1, h.2, h.3, h.4⟩⟩

theorem onePublisher_placed : Placed book onePublisher := by
  intro F hF r hr
  simp only [book, List.mem_cons, List.not_mem_nil, or_false] at hF
  obtain rfl | rfl | rfl := hF
  · obtain rfl := List.mem_singleton.mp hr
    exact ⟨Row.ofList_inRange (by decide), by decide⟩
  all_goals cases hr

/-- The condition on `Book.id` covers the only condition of fragment 1, so the condition on the title
is erased: the row titled `B` is delivered. -/
theorem bookTitle_selection_lost :
    HfSelect book bookTitle.predicate ∧ Placed book onePublisher ∧
      ∃ t, buildQueryTree getMetadata bookTitle = some t ∧
        (t.eval (rowSemantics onePublisher)).length = 1 ∧
        (tableRows book onePublisher).filter (satisfiesAll bookTitle.predicate) = [] := by
  exact ⟨by decide, onePublisher_placed, _, rfl, by decide, by decide⟩

/-- Without a condition on the title the tree delivers the selected rows. -/
theorem bookTitle_selection_kept :
    ∃ t, buildQueryTree getMetadata { bookTitle with predicate := [condLt "Book" "id" 205000] } = some t ∧
      (t.eval (rowSemantics onePublisher)).Perm
        (((tableRows book onePublisher).filter (satisfiesAll [condLt "Book" "id" 205000])).map
          (Row.project ["Book.title"])) := by
  have h := hf_select_meaning_iff getMetadata book { bookTitle with predicate := [condLt "Book" "id" 205000] }
    onePublisher (by decide) (by decide) rfl rfl (by decide) (by decide) onePublisher_placed
  obtain ⟨t, ht⟩ := h.1 (by decide)
  exact ⟨t, ht, (h.2 t ht).mpr (by decide)⟩

end EasyDDB.Optimizer
