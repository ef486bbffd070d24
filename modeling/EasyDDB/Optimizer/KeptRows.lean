import EasyDDB.Lib.Bags
import EasyDDB.Optimizer.Defined

/-! # Kept rows and conflicts

Which rows of horizontally fragmented tables reach the join subtrees, and why two fragments with
conflicting conditions cannot contribute a pair of matching rows. -/
namespace EasyDDB.Optimizer
open Condition
set_option autoImplicit false

/-! ## Conflicts -/

theorem overlaps_of_sameValue {x y : Condition} (hx : x.Plain) (hy : y.Plain) {r r' : Row} (hr : r.InRange)
    (hxr : x.satisfied r = true) (hyr : y.satisfied r' = true) (h : sameValue (r x.column) (r' y.column) = true) :
    overlaps x y = some true := by
  obtain ⟨⟨a, b⟩, hsx⟩ := Option.isSome_iff_exists.mp hx.getSection_isSome
  obtain ⟨⟨a', b'⟩, hsy⟩ := Option.isSome_iff_exists.mp hy.getSection_isSome
  obtain ⟨v, htx, hvx, hholds⟩ | ⟨s, htx, hvx, hholds⟩ := satisfied_cases hxr
  · obtain ⟨w, -, hvy, hholds'⟩ | ⟨w, -, hvy, -⟩ := satisfied_cases hyr
    · have hvw : v = w := by simpa [sameValue, hvx, hvy] using h
      subst hvw
      have hv := hr x.column v hvx
      obtain ⟨h1, h2⟩ := (getSection_holds_iff hsx hv).mp hholds
      obtain ⟨h3, h4⟩ := (getSection_holds_iff hsy hv).mp hholds'
      have hle : max a a' ≤ min b b' := by omega
      simp [overlaps, htx, hsx, hsy, hle]
    · simp [sameValue, hvx, hvy] at h
  · obtain ⟨w, -, hvy, -⟩ | ⟨w, hty, hvy, hholds'⟩ := satisfied_cases hyr
    · simp [sameValue, hvx, hvy] at h
    · have hsw : s = w := by simpa [sameValue, hvx, hvy] using h
      rw [hx.opt_eq htx] at hholds
      rw [hy.opt_eq hty] at hholds'
      have h1 : s = x.sval := by simpa [Opt.holds] using hholds
      have h2 : w = y.sval := by simpa [Opt.holds] using hholds'
      simp [overlaps, htx, ← h1, ← h2, hsw]

theorem connects_of_sameValue {p : JoinCell} {X Y : Fragment} (hX : ∀ c ∈ X.hfCondition, c.Plain)
    (hY : ∀ c ∈ Y.hfCondition, c.Plain) {r r' : Row} (hr : r.InRange) (hrX : satisfiesAll X.hfCondition r = true)
    (hrY : satisfiesAll Y.hfCondition r' = true) (h : sameValue (r p.left) (r' p.right) = true) :
    connects p X Y = some true := by
  have hfind : ∀ {cs : List Condition} {t a : String} {c : Condition}, c ∈ findAttr cs t a →
      c ∈ cs ∧ c.column = t ++ "." ++ a := by
    intro cs t a c hc
    obtain ⟨hmem, heq⟩ := List.mem_filter.mp hc
    obtain ⟨rfl, rfl⟩ := of_decide_eq_true heq
    exact ⟨hmem, rfl⟩
  have hstep : ∀ o ∈ (findAttr X.hfCondition p.ltab p.lcol).flatMap (fun conx =>
      (findAttr Y.hfCondition p.rtab p.rcol).map (overlaps conx)), ∀ mark : Bool, mark = true →
        ∃ b, (o.map fun b => mark && b) = some b ∧ b = true := by
    rintro o ho mark rfl
    obtain ⟨conx, hconx, ho⟩ := List.mem_flatMap.mp ho
    obtain ⟨cony, hcony, rfl⟩ := List.mem_map.mp ho
    obtain ⟨hx, hxcol⟩ := hfind hconx
    obtain ⟨hy, hycol⟩ := hfind hcony
    have hover := overlaps_of_sameValue (hX conx hx) (hY cony hy) hr ((satisfiesAll_iff ..).mp hrX conx hx)
      ((satisfiesAll_iff ..).mp hrY cony hy) (by rw [hxcol, hycol]; exact h)
    exact ⟨true, by rw [hover]; rfl, rfl⟩
  obtain ⟨b, hb, rfl⟩ := Loops.progress (I := fun b => b = true) (b := true) hstep rfl
  simp only [connects]
  split_ifs
  · rfl
  · rfl
  · exact hb

/-! ## Kept rows -/

/-- The rows of a fragment that its Fragment node delivers; none when the fragment is dropped. -/
def keptRows (db : Placement) (Predicate : List Condition) (F : Fragment) : List Row :=
  match fragSelect F.hfCondition Predicate with
  | some (some select) => (db F.fname).filter (satisfiesAll select)
  | _ => []

/-- The rows of a FROM table in the fragments kept by pruning. -/
def keptTableRows (Tables : List MetadataTable) (q : Query) (db : Placement) (t : String) : List Row :=
  (Tables.filter fun T => T.name = t ∧ t ∈ q.fromTable).flatMap fun T =>
    T.frags.flatMap (keptRows db (extendPredicate q).predicate)

theorem keptRows_subset {db : Placement} {Predicate : List Condition} {F : Fragment} {r : Row}
    (h : r ∈ keptRows db Predicate F) : r ∈ db F.fname := by
  unfold keptRows at h
  split at h
  · exact List.mem_of_mem_filter h
  · cases h

theorem flatMap_keptFrags (db : Placement) (q : Query) (frags : List Fragment) :
    (keptFrags q frags).flatMap (keptRows db q.predicate) = frags.flatMap (keptRows db q.predicate) := by
  refine Bags.flatMap_filter_of_nil fun F _ hdrop => ?_
  unfold keptRows
  split
  · rename_i hsel
    simp [hsel] at hdrop
  · rfl

/-! ## The scan of horizontally fragmented tables -/

theorem scanHf_pruning {q : Query} {table : MetadataTable} {s s' : Scan} (h : scanHf q table s = some s') :
    s'.pruning = Function.update s.pruning table.name (s.pruning table.name ++ keptFrags q table.frags) := by
  refine Loops.invariant_seen (I := fun pre (c : Scan) =>
    c.pruning = Function.update s.pruning table.name (s.pruning table.name ++ keptFrags q pre)) ?_ ?_ h
  · intro pre F post _ c c' hc hstep
    have happ : keptFrags q (pre ++ [F]) = keptFrags q pre ++ keptFrags q [F] := List.filter_append ..
    obtain ⟨hsel, rfl⟩ | ⟨select, siteNums, hsel, -, rfl⟩ := scanHfFrag_inv hstep
    · have hdrop : keptFrags q [F] = [] := by simp [keptFrags, hsel]
      rw [happ, hdrop, List.append_nil]
      exact hc
    · have hkeep : keptFrags q [F] = [F] := by simp [keptFrags, hsel]
      simp only [Scan.record]
      rw [hc, Function.update_self, Function.update_idem, happ, hkeep, List.append_assoc]
  · simp [keptFrags]

theorem scanTables_pruning {q : Query} {Tables : List MetadataTable} {s : Scan}
    (hhf : ∀ T ∈ Tables, T.name ∈ q.fromTable → T.type = .hf) (h : scanTables q Tables = some s) (t : String) :
    s.pruning t = (Tables.filter fun T => T.name = t ∧ t ∈ q.fromTable).flatMap fun T => keptFrags q T.frags := by
  refine Loops.invariant_seen (I := fun pre (c : Scan) =>
    c.pruning t = (pre.filter fun T => T.name = t ∧ t ∈ q.fromTable).flatMap fun T => keptFrags q T.frags) ?_ rfl h
  intro pre T post hsplit c c' hc hstep
  have hT : T ∈ Tables := hsplit ▸ List.mem_append_right pre (List.mem_cons_self ..)
  rw [List.filter_append, List.flatMap_append, ← hc]
  by_cases hmem : T.name ∈ q.fromTable
  · simp only [scanTable, hmem, if_true, hhf T hT hmem] at hstep
    rw [scanHf_pruning hstep]
    by_cases ht : T.name = t
    · subst ht
      simp [hmem]
    · simp [Function.update_of_ne (Ne.symm ht), ht]
  · rw [scanTable_skip hmem] at hstep
    cases hstep
    have hout : ¬ (T.name = t ∧ t ∈ q.fromTable) := fun hin => hmem (hin.1 ▸ hin.2)
    simp [hout]

/-- Catalogs in which a fragment's name shows its table and its site, for FROM tables that are all
horizontally fragmented. -/
structure HfCatalog (Tables : List MetadataTable) (fromTable : List String) : Prop where
  names : (Tables.map MetadataTable.name).Nodup
  type : ∀ T ∈ Tables, T.name ∈ fromTable → T.type = .hf
  fnames : ∀ T ∈ Tables, T.name ∈ fromTable → (T.frags.map Fragment.fname).Nodup
  frag : ∀ T ∈ Tables, T.name ∈ fromTable → ∀ F ∈ T.frags,
    F.fname = ⟨T.name, F.site⟩ ∧ 0 < F.size ∧ ∀ c ∈ F.hfCondition, c.Plain

/-- Recorded nodes are the Fragment nodes of the kept fragments. -/
structure HfScan (Tables : List MetadataTable) (q : Query) (s : Scan) : Prop where
  fragment : ∀ n ∈ s.tr, n.type = .fragment
  kept : ∀ t, ∀ X ∈ s.pruning t, ∃ T ∈ Tables, T.name = t ∧ t ∈ q.fromTable ∧ X ∈ T.frags
  node : ∀ t, ∀ X ∈ s.pruning t, ∃ T select, s.tr[s.mpTr X.fname]? = some (hfNode q T X select) ∧
    fragSelect X.hfCondition q.predicate = some (some select)

theorem HfCatalog.fname_inj {Tables : List MetadataTable} {fromTable : List String} (h : HfCatalog Tables fromTable)
    {T T' : MetadataTable} (hT : T ∈ Tables) (hT' : T' ∈ Tables) (hfrom : T.name ∈ fromTable)
    (hfrom' : T'.name ∈ fromTable) {X Y : Fragment} (hX : X ∈ T.frags) (hY : Y ∈ T'.frags)
    (heq : X.fname = Y.fname) : X = Y := by
  have hname : T.name = T'.name := by
    have := heq
    rw [(h.frag T hT hfrom X hX).1, (h.frag T' hT' hfrom' Y hY).1, FragName.mk.injEq] at this
    exact this.1
  obtain rfl : T = T' := List.inj_on_of_nodup_map h.names hT hT' hname
  exact List.inj_on_of_nodup_map (h.fnames T hT hfrom) hX hY heq

theorem scanTables_hfScan {q : Query} {Tables : List MetadataTable} {s : Scan} (hcat : HfCatalog Tables q.fromTable)
    (h : scanTables q Tables = some s) : HfScan Tables q s := by
  refine scanTables_hf_invariant hcat.type (HfScan Tables q) (fun c r hc => ⟨hc.fragment, hc.kept, hc.node⟩) ?_
    ⟨by simp [Scan.init], fun t X hX => (List.not_mem_nil hX).elim, fun t X hX => (List.not_mem_nil hX).elim⟩ h
  intro T hT hmem F hF c select r siteNums hc hsel _
  have hkept : ∀ t, ∀ X ∈ (c.record [] (hfNode q T F select) T F r siteNums).pruning t,
      X ∈ c.pruning t ∨ (t = T.name ∧ X = F) := by
    intro t X hX
    simp only [Scan.record] at hX
    by_cases ht : t = T.name
    · subst ht
      rw [Function.update_self, List.mem_append, List.mem_singleton] at hX
      exact hX.imp_right fun hXF => ⟨rfl, hXF⟩
    · rw [Function.update_of_ne ht] at hX
      exact .inl hX
  refine ⟨?_, ?_, ?_⟩
  · intro n hn
    simp only [Scan.record, List.nil_append, List.mem_append, List.mem_singleton] at hn
    obtain hn | rfl := hn
    · exact hc.fragment n hn
    · rfl
  · intro t X hX
    obtain hX | ⟨rfl, rfl⟩ := hkept t X hX
    · exact hc.kept t X hX
    · exact ⟨T, hT, rfl, hmem, hF⟩
  · intro t X hX
    simp only [Scan.record, List.nil_append, List.length_nil, Nat.add_zero]
    by_cases hXF : X.fname = F.fname
    · have hXeq : X = F := by
        obtain hX | ⟨-, rfl⟩ := hkept t X hX
        · obtain ⟨T', hT', rfl, hfrom', hXT'⟩ := hc.kept t X hX
          exact hcat.fname_inj hT' hT hfrom' hmem hXT' hF hXF
        · rfl
      subst hXeq
      rw [Function.update_self]
      exact ⟨T, select, List.getElem?_concat_length, hsel⟩
    · obtain hX | ⟨-, rfl⟩ := hkept t X hX
      · obtain ⟨T', select', hn, hsel'⟩ := hc.node t X hX
        rw [Function.update_of_ne hXF, List.getElem?_append_left (List.getElem?_eq_some_iff.mp hn).1]
        exact ⟨T', select', hn, hsel'⟩
      · exact absurd rfl hXF

/-- The kept fragments of a table have distinct names, whatever the fragmentation. -/
theorem scanTables_pruning_nodup {q : Query} {Tables : List MetadataTable} {s : Scan}
    (hnames : (Tables.map MetadataTable.name).Nodup)
    (hfnames : ∀ T ∈ Tables, T.name ∈ q.fromTable → (T.frags.map Fragment.fname).Nodup)
    (h : scanTables q Tables = some s) (t : String) : ((s.pruning t).map Fragment.fname).Nodup := by
  have hinit : (∀ t, t ∉ ([] : List MetadataTable).map MetadataTable.name → Scan.init.pruning t = []) ∧
      ∀ t, ((Scan.init.pruning t).map Fragment.fname).Nodup := ⟨fun _ _ => rfl, fun _ => List.nodup_nil⟩
  refine (Loops.invariant_seen (I := fun pre (c : Scan) => (∀ t, t ∉ pre.map MetadataTable.name → c.pruning t = []) ∧
    ∀ t, ((c.pruning t).map Fragment.fname).Nodup) ?_ hinit h).2 t
  rintro pre T post rfl c c' ⟨hnew, hnd⟩ hstep
  have hT : T ∈ pre ++ T :: post := List.mem_append_right pre (List.mem_cons_self ..)
  have hfresh : c.pruning T.name = [] := by
    refine hnew _ fun hmem => ?_
    rw [List.map_append, List.map_cons] at hnames
    exact List.disjoint_of_nodup_append hnames hmem List.mem_cons_self
  have hout : ∀ frags, c'.pruning = Function.update c.pruning T.name frags → (frags.map Fragment.fname).Nodup →
      (∀ t, t ∉ (pre ++ [T]).map MetadataTable.name → c'.pruning t = []) ∧
        ∀ t, ((c'.pruning t).map Fragment.fname).Nodup := by
    intro frags hc' hfrags
    rw [hc', List.map_append]
    refine ⟨fun t ht => ?_, fun t => ?_⟩
    · obtain ⟨hpre, htT⟩ := not_or.mp fun hor => ht (List.mem_append.mpr hor)
      rw [Function.update_of_ne (List.ne_of_not_mem_cons htT)]
      exact hnew t hpre
    · by_cases ht : t = T.name
      · rwa [ht, Function.update_self]
      · rw [Function.update_of_ne ht]
        exact hnd t
  obtain ⟨-, rfl⟩ | ⟨hmem, -, hhf⟩ | ⟨-, -, hvf⟩ := scanTable_inv hstep
  · exact hout _ (Function.update_eq_self ..).symm (hnd T.name)
  · refine hout _ (scanHf_pruning hhf) ?_
    rw [hfresh, List.nil_append]
    exact (hfnames T hT hmem).sublist (List.filter_sublist.map _)
  · obtain ⟨_, _, _, _, _, -, -, -, rfl⟩ := scanVf_inv hvf
    refine hout _ rfl ?_
    rw [hfresh]
    exact List.nodup_singleton _

theorem keptTableRows_eq {q q' : Query} {Tables : List MetadataTable} {s : Scan}
    (hfrom : q'.fromTable = q.fromTable) (hpred : q'.predicate = (extendPredicate q).predicate)
    (hhf : ∀ T ∈ Tables, T.name ∈ q'.fromTable → T.type = .hf) (h : scanTables q' Tables = some s) (db : Placement)
    (t : String) : keptTableRows Tables q db t = (s.pruning t).flatMap (keptRows db q'.predicate) := by
  rw [scanTables_pruning hhf h, List.flatMap_assoc, keptTableRows, ← hpred, ← hfrom]
  exact List.flatMap_congr fun T _ => (flatMap_keptFrags db q' T.frags).symm

end EasyDDB.Optimizer
