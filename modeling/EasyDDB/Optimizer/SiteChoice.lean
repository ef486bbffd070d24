import EasyDDB.Optimizer.Assigned
import EasyDDB.Optimizer.RootMeaning
import Mathlib.Algebra.Order.BigOperators.Group.List
import Mathlib.Algebra.Order.Ring.Int

/-! # Where the work is done

`build_query_tree` counts what the sites store of the kept fragments, puts every join list on the process site that
stores the largest of its fragments, and the final Union on the first process site. For horizontally fragmented tables
the counts are right, so the final Union is done where most of the input is stored, and a join of two fragments on the
process site that fetches least. The counts are `int`s; none overflows if the sizes of all fragments of the FROM tables
together fit one. -/
namespace EasyDDB.Optimizer
open OrderedMap
set_option autoImplicit false

/-! ## The counts -/

/-- The size of the nodes on a site. -/
def storedAt (tr : List TreeNode) (site : Int) : Int := ((tr.filter fun n => n.site = site).map TreeNode.size).sum

theorem storedAt_concat (tr : List TreeNode) (n : TreeNode) (site : Int) :
    storedAt (tr ++ [n]) site = storedAt tr site + if n.site = site then n.size else 0 := by
  rw [storedAt, List.filter_append, List.map_append, List.sum_append, List.filter_singleton]
  by_cases h : n.site = site <;> simp [h, storedAt]

/-- With the four sites in order, the entry of a site is the one that carries its number. -/
theorem modify_eq_map {siteNums : List SiteNum} (hsites : siteNums.map SiteNum.site = [1, 2, 3, 4]) {site : Int}
    (h1 : 1 ≤ site) (h4 : site ≤ siteNums.length) (f : SiteNum → SiteNum) :
    siteNums.modify (site - 1).toNat f = siteNums.map fun x => if x.site = site then f x else x := by
  obtain ⟨a, b, c, d, rfl⟩ : ∃ a b c d, siteNums = [a, b, c, d] := by
    have hlen : siteNums.length = 4 := by simpa using congrArg List.length hsites
    match siteNums, hlen with
    | [a, b, c, d], _ => exact ⟨a, b, c, d, rfl⟩
  simp only [List.map_cons, List.map_nil, List.cons.injEq, and_true] at hsites
  obtain ⟨ha, hb, hc, hd⟩ := hsites
  have hcases : site = 1 ∨ site = 2 ∨ site = 3 ∨ site = 4 := by
    simp only [List.length_cons, List.length_nil] at h4
    omega
  obtain rfl | rfl | rfl | rfl := hcases <;> simp [ha, hb, hc, hd, List.modify]

/-- The counts of the scan are right. -/
structure Counted (s : Scan) : Prop where
  sites : s.siteNums.map SiteNum.site = [1, 2, 3, 4]
  total : ∀ x ∈ s.siteNums, x.total = storedAt s.tr x.site
  share : ∀ t, ((s.pruning t).map Fragment.fname).Nodup → ∀ X ∈ s.pruning t, X.fname = ⟨t, X.site⟩ →
    ∃ x ∈ s.siteNums, x.site = X.site ∧ x.rSize t = X.size

theorem Counted.record {s : Scan} (h : Counted s) {q : Query} {table : MetadataTable} {frag : Fragment}
    {select : List Condition} {siteNums : List SiteNum} (hfname : frag.fname = ⟨table.name, frag.site⟩)
    (hadd : addRelationAt s.siteNums frag.site table.name frag.size = some siteNums)
    (relationSize : List (String × Int)) :
    Counted (s.record [] (hfNode q table frag select) table frag relationSize siteNums) := by
  obtain ⟨h1, h4, rfl⟩ := addRelationAt_inv hadd
  rw [modify_eq_map h.sites h1 h4]
  constructor
  · simp only [Scan.record, List.map_map, ← h.sites]
    refine List.map_congr_left fun x _ => ?_
    simp only [Function.comp_apply]
    split <;> rfl
  · intro x hx
    obtain ⟨y, hy, rfl⟩ := List.mem_map.mp hx
    simp only [Scan.record, List.nil_append, storedAt_concat, hfNode]
    by_cases hsite : y.site = frag.site
    · simp [hsite, SiteNum.addRelation, h.total y hy]
    · simp [hsite, Ne.symm hsite, h.total y hy]
  · intro t hnd X hX hname
    have hother : ∀ x ∈ s.siteNums, x.site ≠ frag.site ∨ t ≠ table.name → x.site = X.site → x.rSize t = X.size →
        ∃ y ∈ s.siteNums.map fun x => if x.site = frag.site then x.addRelation table.name frag.size else x,
          y.site = X.site ∧ y.rSize t = X.size := by
      intro x hx hne hsite hshare
      refine ⟨_, List.mem_map_of_mem hx, ?_⟩
      split
      · next heq =>
        have ht : t ≠ table.name := hne.resolve_left (not_not_intro heq)
        exact ⟨hsite, (Function.update_of_ne ht _ _).trans hshare⟩
      · exact ⟨hsite, hshare⟩
    simp only [Scan.record] at hnd hX ⊢
    by_cases ht : t = table.name
    · subst ht
      rw [Function.update_self] at hnd hX
      rw [List.map_append, List.map_singleton, List.nodup_append] at hnd
      obtain hX | hX := List.mem_append.mp hX
      · obtain ⟨x, hx, hsite, hshare⟩ := h.share _ hnd.1 X hX hname
        refine hother x hx (.inl fun heq => ?_) hsite hshare
        refine hnd.2.2 _ (List.mem_map_of_mem hX) _ (List.mem_singleton_self _) ?_
        rw [hname, hfname, ← hsite, heq]
      · obtain rfl := List.mem_singleton.mp hX
        obtain ⟨x, hx, hsite⟩ : ∃ x ∈ s.siteNums, x.site = X.site := by
          have hmem : X.site ∈ s.siteNums.map SiteNum.site := by
            have hlen : s.siteNums.length = 4 := by simpa using congrArg List.length h.sites
            rw [h.sites]
            simp only [List.mem_cons, List.not_mem_nil, or_false]
            omega
          exact List.mem_map.mp hmem
        refine ⟨_, List.mem_map_of_mem hx, ?_⟩
        rw [if_pos hsite]
        exact ⟨hsite, Function.update_self _ _ _⟩
    · rw [Function.update_of_ne ht] at hnd hX
      obtain ⟨x, hx, hsite, hshare⟩ := h.share t hnd X hX hname
      exact hother x hx (.inr ht) hsite hshare

theorem scanTables_counted {q : Query} {Tables : List MetadataTable} {s : Scan} (hcat : HfCatalog Tables q.fromTable)
    (h : scanTables q Tables = some s) : Counted s := by
  refine scanTables_hf_invariant hcat.type Counted (fun c r hc => ⟨hc.sites, hc.total, hc.share⟩) ?_ ?_ h
  · intro T hT hmem F hF c select r siteNums hc _ hadd
    exact hc.record (hcat.frag T hT hmem F hF).1 hadd r
  · refine ⟨rfl, ?_, fun t _ X hX => absurd hX List.not_mem_nil⟩
    intro x hx
    obtain ⟨k, -, rfl⟩ := List.mem_map.mp hx
    rfl

/-! ## The sums -/

theorem sum_sizes {α : Type} (l : List α) (f : α → List TreeNode) :
    ((l.flatMap f).map TreeNode.size).sum = (l.map fun a => ((f a).map TreeNode.size).sum).sum := by
  rw [List.map_flatMap, List.flatMap_def, List.sum_flatten, List.map_map]
  rfl

/-- The size of the kept fragments of a table. -/
def keptSum (s : Scan) (t : String) : Int := ((s.pruning t).map Fragment.size).sum

/-- The size of all fragments of the FROM tables. -/
def fromSize (Tables : List MetadataTable) (fromTable : List String) : Int :=
  (Tables.map fun T => if T.name ∈ fromTable then (T.frags.map Fragment.size).sum else 0).sum

/-- No sum of the site choice leaves the `int`s. The totals and the sizes of tables only grow while they are summed up. -/
structure IntsFit (Tables : List MetadataTable) (s : Scan) : Prop where
  total : ∀ x ∈ s.siteNums, 0 ≤ x.total ∧ x.total ≤ intMax
  relation : ∀ T ∈ Tables, 0 ≤ readKey s.relationSize T.name ∧ readKey s.relationSize T.name ≤ intMax
  transfer : ∀ conflict Rp, ∀ x ∈ s.siteNums,
    transferSumInt Tables s conflict Rp x = some (transferSum Tables s conflict Rp x)

/-- The sums of the scan. -/
structure Summed (s : Scan) : Prop where
  size : ∀ t, ∀ X ∈ s.pruning t, 0 ≤ X.size
  relation : ∀ t, readKey s.relationSize t = keptSum s t
  share : ∀ x ∈ s.siteNums, ∀ t, 0 ≤ x.rSize t ∧ x.rSize t ≤ keptSum s t

theorem Summed.nonneg {s : Scan} (h : Summed s) (t : String) : 0 ≤ keptSum s t :=
  List.sum_nonneg (List.forall_mem_map.mpr (h.size t))

theorem keptSum_record (s : Scan) (below : List TreeNode) (top : TreeNode) (table : MetadataTable) (frag : Fragment)
    (relationSize : List (String × Int)) (siteNums : List SiteNum) (t : String) :
    keptSum (s.record below top table frag relationSize siteNums) t =
      keptSum s t + if t = table.name then frag.size else 0 := by
  simp only [keptSum, Scan.record]
  by_cases ht : t = table.name
  · subst ht
    rw [Function.update_self, List.map_append, List.sum_append, if_pos rfl, List.map_singleton, List.sum_singleton]
  · rw [Function.update_of_ne ht, if_neg ht, add_zero]

theorem Summed.record {s : Scan} (h : Summed s) {below : List TreeNode} {top : TreeNode} {table : MetadataTable}
    {frag : Fragment} {siteNums : List SiteNum} (hsize : 0 ≤ frag.size)
    (hadd : addRelationAt s.siteNums frag.site table.name frag.size = some siteNums) :
    Summed (s.record below top table frag
      (setKey table.name (readKey s.relationSize table.name + frag.size) s.relationSize) siteNums) := by
  obtain ⟨-, -, rfl⟩ := addRelationAt_inv hadd
  have hgrow : ∀ t, keptSum s t ≤ keptSum s t + if t = table.name then frag.size else 0 := by
    intro t
    split_ifs <;> omega
  refine ⟨fun t X hX => ?_, fun t => ?_, fun x hx t => ?_⟩
  · simp only [Scan.record] at hX
    by_cases ht : t = table.name
    · subst ht
      rw [Function.update_self, List.mem_append, List.mem_singleton] at hX
      obtain hX | rfl := hX
      · exact h.size _ X hX
      · exact hsize
    · rw [Function.update_of_ne ht] at hX
      exact h.size t X hX
  · rw [keptSum_record]
    simp only [Scan.record, readKey_setKey]
    split_ifs with ht
    · rw [ht, h.relation]
    · rw [h.relation, add_zero]
  · rw [keptSum_record]
    have hold : ∀ y ∈ s.siteNums, 0 ≤ y.rSize t ∧ y.rSize t ≤ keptSum s t + if t = table.name then frag.size else 0 :=
      fun y hy => ⟨(h.share y hy t).1, (h.share y hy t).2.trans (hgrow t)⟩
    obtain ⟨i, hi⟩ := List.mem_iff_getElem?.mp hx
    simp only [Scan.record, List.getElem?_modify] at hi
    obtain ⟨y, hy, rfl⟩ := Option.map_eq_some_iff.mp hi
    have hymem := List.mem_of_getElem? hy
    by_cases hsite : (frag.site - 1).toNat = i
    · rw [if_pos hsite]
      by_cases ht : t = table.name
      · subst ht
        have hkept := h.nonneg table.name
        simp only [SiteNum.addRelation, Function.update_self, if_true]
        omega
      · simpa only [SiteNum.addRelation, Function.update_of_ne ht, if_neg ht] using hold y hymem
    · rw [if_neg hsite]
      exact hold y hymem

/-- A table of which nothing has been kept yet is summed up. -/
theorem Summed.scanHf {q : Query} {T : MetadataTable} {s s' : Scan} (h : Summed s) (hnew : keptSum s T.name = 0)
    (hsize : ∀ F ∈ T.frags, 0 ≤ F.size) (hstep : scanHf q T s = some s') : Summed s' := by
  have hstart : Summed { s with relationSize := setKey T.name 0 s.relationSize } := by
    refine ⟨h.size, fun t => ?_, h.share⟩
    rw [readKey_setKey]
    split_ifs with ht
    · rw [ht]
      exact hnew.symm
    · exact h.relation t
  refine Loops.invariant (I := Summed) ?_ hstart hstep
  intro F hF c c' hc hfrag
  obtain ⟨-, rfl⟩ | ⟨select, siteNums, -, hadd, rfl⟩ := scanHfFrag_inv hfrag
  · exact hc
  · exact hc.record (hsize F hF) hadd

section
variable {q : Query} {Tables : List MetadataTable} {s : Scan} (hcat : HfCatalog Tables q.fromTable)
include hcat

theorem scanTables_summed (h : scanTables q Tables = some s) : Summed s := by
  have hseen : scanTables q Tables = some s ∧ Summed s := by
    refine Loops.invariant_seen (I := fun pre (c : Scan) => scanTables q pre = some c ∧ Summed c) ?_ ⟨rfl, ?_⟩ h
    · intro pre T post hsplit c c' ⟨hrun, hc⟩ hstep
      refine ⟨?_, ?_⟩
      · rw [scanTables, List.foldlM_append, ← scanTables, hrun, Option.bind_eq_bind, Option.bind_some, List.foldlM_cons,
          hstep]
        rfl
      have hT : T ∈ Tables := hsplit ▸ List.mem_append_right pre List.mem_cons_self
      by_cases hmem : T.name ∈ q.fromTable
      · have hnew : keptSum c T.name = 0 := by
          have hnames := hcat.names
          rw [hsplit, List.map_append, List.map_cons] at hnames
          have htype : ∀ T ∈ pre, T.name ∈ q.fromTable → T.type = .hf := fun T' hT' =>
            hcat.type T' (hsplit ▸ List.mem_append_left _ hT')
          have hnone : (pre.filter fun T' => T'.name = T.name ∧ T.name ∈ q.fromTable) = [] := by
            refine List.filter_eq_nil_iff.mpr fun T' hT' hsame => ?_
            exact (List.nodup_append.mp hnames).2.2 _ (List.mem_map_of_mem hT') _ List.mem_cons_self
              (of_decide_eq_true hsame).1
          rw [keptSum, scanTables_pruning htype hrun, hnone]
          rfl
        simp only [scanTable, hmem, if_true, hcat.type T hT hmem] at hstep
        exact hc.scanHf hnew (fun F hF => (hcat.frag T hT hmem F hF).2.1.le) hstep
      · rw [scanTable_skip hmem] at hstep
        cases hstep
        exact hc
    · refine ⟨fun t X hX => absurd hX List.not_mem_nil, fun t => rfl, fun x hx t => ?_⟩
      obtain ⟨k, -, rfl⟩ := List.mem_map.mp hx
      exact ⟨le_rfl, le_rfl⟩
  exact hseen.2

/-- The kept fragments of a table are some of its fragments. -/
theorem keptSum_le (h : scanTables q Tables = some s) {T : MetadataTable} (hT : T ∈ Tables) :
    keptSum s T.name ≤ if T.name ∈ q.fromTable then (T.frags.map Fragment.size).sum else 0 := by
  rw [keptSum, scanTables_pruning hcat.type h]
  split_ifs with hfrom
  · have hone : (Tables.filter fun T' => T'.name = T.name ∧ T.name ∈ q.fromTable) = [T] := by
      rw [← Bags.filter_key_eq hcat.names hT]
      refine List.filter_congr fun T' _ => ?_
      simp [hfrom, eq_comm]
    rw [hone, List.flatMap_singleton]
    exact (List.filter_sublist.map Fragment.size).sum_le_sum
      (List.forall_mem_map.mpr fun F hF => (hcat.frag T hT hfrom F hF).2.1.le)
  · simp [hfrom]

theorem keptSums_le (h : scanTables q Tables = some s) :
    (Tables.map fun T => keptSum s T.name).sum ≤ fromSize Tables q.fromTable :=
  List.sum_le_sum fun _ hT => keptSum_le hcat h hT

theorem storedAt_le (h : scanTables q Tables = some s) (site : Int) :
    0 ≤ storedAt s.tr site ∧ storedAt s.tr site ≤ fromSize Tables q.fromTable := by
  have htr := scanTables_tr hcat.type h
  have hpos : ∀ n ∈ s.tr, 0 ≤ n.size := by
    intro n hn
    rw [htr] at hn
    obtain ⟨T, hT, hn⟩ := List.mem_flatMap.mp hn
    obtain ⟨F, hF, hn⟩ := List.mem_flatMap.mp hn
    obtain ⟨hT, hfrom⟩ := List.mem_filter.mp hT
    obtain ⟨select, rfl⟩ := mem_hfNodes hn
    exact (hcat.frag T hT (of_decide_eq_true hfrom) F hF).2.1.le
  have hsum : (s.tr.map TreeNode.size).sum ≤ fromSize Tables q.fromTable := by
    rw [htr, sum_sizes, fromSize, List.sum_map_ite]
    simp only [List.map_const', List.sum_replicate, nsmul_zero, add_zero]
    refine List.sum_le_sum fun T hT => ?_
    obtain ⟨hT, hfrom⟩ := List.mem_filter.mp hT
    rw [sum_sizes]
    refine List.sum_le_sum fun F hF => ?_
    have hF := (hcat.frag T hT (of_decide_eq_true hfrom) F hF).2.1.le
    unfold hfNodes
    split
    · simp [hfNode]
    · simpa using hF
  exact ⟨List.sum_nonneg (List.forall_mem_map.mpr fun n hn => hpos n (List.mem_of_mem_filter hn)),
    ((List.filter_sublist.map TreeNode.size).sum_le_sum (List.forall_mem_map.mpr hpos)).trans hsum⟩

end

/-- The inner loop of `transferSum` takes off at most the sizes of the fragments. -/
theorem takeOff_ints {frags : List Fragment} (hsize : ∀ X ∈ frags, 0 ≤ X.size) (away : Fragment → Prop)
    [DecidablePred away] {sum : Int} (hlow : -intMax - 1 ≤ sum - (frags.map Fragment.size).sum) (hhigh : sum ≤ intMax) :
    ∃ res, frags.foldlM (fun sum X => if away X then addInt sum (-X.size) else some sum) sum = some res ∧
      frags.foldl (fun sum X => if away X then sum - X.size else sum) sum = res ∧
      sum - (frags.map Fragment.size).sum ≤ res ∧ res ≤ sum := by
  induction frags generalizing sum with
  | nil => exact ⟨sum, rfl, rfl, by simp, le_rfl⟩
  | cons X frags ih =>
    obtain ⟨hX, hrest⟩ := List.forall_mem_cons.mp hsize
    have hsum : 0 ≤ (frags.map Fragment.size).sum := List.sum_nonneg (List.forall_mem_map.mpr hrest)
    rw [List.map_cons, List.sum_cons] at hlow ⊢
    by_cases haway : away X
    · have hlow' : -intMax - 1 ≤ sum - X.size - (frags.map Fragment.size).sum := by omega
      obtain ⟨res, hres, hfold, hge, hle⟩ := ih hrest hlow' (by omega)
      have hadd : addInt sum (-X.size) = some (sum - X.size) := if_pos (by omega)
      refine ⟨res, ?_, ?_, by omega, by omega⟩
      · rw [List.foldlM_cons, if_pos haway, hadd]
        exact hres
      · rw [List.foldl_cons, if_pos haway, hfold]
    · have hlow' : -intMax - 1 ≤ sum - (frags.map Fragment.size).sum := by omega
      obtain ⟨res, hres, hfold, hge, hle⟩ := ih hrest hlow' hhigh
      refine ⟨res, ?_, ?_, by omega, hle⟩
      · rw [List.foldlM_cons, if_neg haway]
        exact hres
      · rw [List.foldl_cons, if_neg haway, hfold]

/-- No value of `sum` exceeds the sizes of the kept fragments. -/
theorem Summed.transferSumInt_eq {Tables : List MetadataTable} {s : Scan} (h : Summed s)
    (hfit : (Tables.map fun T => keptSum s T.name).sum ≤ intMax) (conflict : List (FragName × FragName)) (Rp : String)
    {x : SiteNum} (hx : x ∈ s.siteNums) :
    transferSumInt Tables s conflict Rp x = some (transferSum Tables s conflict Rp x) := by
  unfold transferSumInt transferSum
  suffices hloop : ∀ (l : List MetadataTable) (sum bound : Int), -bound ≤ sum → sum ≤ bound →
      bound + (l.map fun T => keptSum s T.name).sum ≤ intMax → l.foldlM _ sum = some (l.foldl _ sum) from
    hloop Tables 0 0 le_rfl le_rfl (by omega)
  intro l
  induction l with
  | nil => exact fun _ _ _ _ _ => rfl
  | cons T l ih =>
    intro sum bound hlow hhigh hbound
    have hrest : 0 ≤ (l.map fun T => keptSum s T.name).sum :=
      List.sum_nonneg (List.forall_mem_map.mpr fun T _ => h.nonneg T.name)
    have hkept := h.nonneg T.name
    obtain ⟨hshare, hshare'⟩ := h.share x hx T.name
    rw [List.map_cons, List.sum_cons] at hbound
    have hrelation := h.relation T.name
    obtain ⟨mid, hmid, hmid', hge, hle⟩ : ∃ mid, (if T.name ≠ Rp then addInt sum (readKey s.relationSize T.name -
        x.rSize T.name) else some sum) = some mid ∧ (if T.name ≠ Rp then sum + (readKey s.relationSize T.name -
          x.rSize T.name) else sum) = mid ∧ sum ≤ mid ∧ mid ≤ sum + keptSum s T.name := by
      split_ifs
      · exact ⟨_, if_pos (by omega), rfl, by omega, by omega⟩
      · exact ⟨sum, rfl, rfl, le_rfl, by omega⟩
    have hlow : -intMax - 1 ≤ mid - keptSum s T.name := by omega
    obtain ⟨res, hres, hfold, hge', hle'⟩ := takeOff_ints (h.size T.name)
      (fun frag => frag.site ≠ x.site ∧ (⟨Rp, x.site⟩, frag.fname) ∈ conflict) hlow (by omega)
    rw [← keptSum] at hge'
    rw [List.foldlM_cons, List.foldl_cons, hmid, Option.bind_eq_bind, Option.bind_some, hres, Option.bind_some, hmid',
      hfold]
    exact ih res (bound + keptSum s T.name) (by omega) (by omega) (by omega)

/-! ## The first process site -/

section
variable {Tables : List MetadataTable} {s : Scan} {conflict : List (FragName × FragName)} {Rp : String}
  {siteNums : List SiteNum}

theorem findSite_eq (hnd : (siteNums.map SiteNum.site).Nodup) {x : SiteNum} (hx : x ∈ siteNums) :
    findSite siteNums x.site = some x := by
  have hsome : (findSite siteNums x.site).isSome := List.find?_isSome.mpr ⟨x, hx, decide_eq_true rfl⟩
  obtain ⟨y, hy⟩ := Option.isSome_iff_exists.mp hsome
  have hsite : y.site = x.site := by simpa using List.find?_some hy
  rw [hy, List.inj_on_of_nodup_map hnd (List.mem_of_find?_eq_some hy) hx hsite]

/-- The exchanges leave the first entry in place if it has the largest total. -/
theorem promote_head {x : Int} {xs : List Int} (h : ∀ y ∈ xs, findSiteTotal siteNums y ≤ findSiteTotal siteNums x) :
    (promote siteNums (x :: xs)).head? = some x := by
  have hfold : ∀ ys : List Int, (∀ y ∈ ys, findSiteTotal siteNums y ≤ findSiteTotal siteNums x) → ∀ rest : List Int,
      (ys.foldl (fun (r : Int × List Int) y =>
        if findSiteTotal siteNums y > findSiteTotal siteNums r.1 then (y, r.2 ++ [r.1]) else (r.1, r.2 ++ [y]))
        (x, rest)).1 = x := by
    intro ys
    induction ys with
    | nil => exact fun _ _ => rfl
    | cons y ys ih =>
      intro hys rest
      obtain ⟨hy, hys⟩ := List.forall_mem_cons.mp hys
      rw [List.foldl_cons, if_neg (not_lt.mpr hy)]
      exact ih hys _
  rw [promote, List.head?_cons, hfold xs h []]

theorem candidateSites_head {x : SiteNum} {xs : List SiteNum} :
    candidateSites Tables s conflict Rp (x :: xs) = [] ∨
      ∃ rest, candidateSites Tables s conflict Rp (x :: xs) = x.site :: rest := by
  rw [candidateSites]
  split
  · exact .inl rfl
  · exact .inr ⟨_, rfl⟩

/-- The first process site is the first of the sorted sites. -/
theorem processSite_head {x : SiteNum} {xs : List SiteNum} (hnd : ((x :: xs).map SiteNum.site).Nodup)
    (hsorted : ∀ y ∈ xs, y.total ≤ x.total) :
    (processSite Tables s (x :: xs) conflict Rp).head? = some x.site := by
  have htotal : ∀ y ∈ x :: xs, findSiteTotal (x :: xs) y.site = y.total := by
    intro y hy
    rw [findSiteTotal, findSite_eq hnd hy]
    rfl
  have hhead : candidateSites Tables s conflict Rp (x :: xs) = [] ∨
      ∃ rest, candidateSites Tables s conflict Rp (x :: xs) = x.site :: rest := candidateSites_head
  obtain hnil | ⟨rest, hrest⟩ := hhead
  · rw [processSite, hnil]
    rfl
  · rw [processSite, hrest]
    refine promote_head fun site hsite => ?_
    have hcand : site ∈ candidateSites Tables s conflict Rp (x :: xs) := by
      rw [hrest]
      exact List.mem_cons_of_mem _ hsite
    have hmem := candidateSites_subset (x :: xs) site hcand
    obtain ⟨y, hy, rfl⟩ := List.mem_map.mp hmem
    rw [htotal y hy, htotal x List.mem_cons_self]
    obtain rfl | hy := List.mem_cons.mp hy
    · exact le_rfl
    · exact hsorted y hy

end

/-- The sites by descending total. -/
theorem sortSites_sorted (siteNums : List SiteNum) : (sortSites siteNums).Pairwise fun a b => b.total ≤ a.total := by
  have htrans : IsTrans SiteNum fun a b => b.total ≤ a.total := ⟨fun _ _ _ h h' => h'.trans h⟩
  have htotal : Std.Total fun a b : SiteNum => b.total ≤ a.total := ⟨fun a b => Int.le_total b.total a.total⟩
  exact List.pairwise_insertionSort _ _

theorem Counted.sorted_sites {s : Scan} (h : Counted s) : ((sortSites s.siteNums).map SiteNum.site).Perm [1, 2, 3, 4] :=
  ((List.perm_insertionSort _ _).map _).trans (.of_eq h.sites)

/-! ## The site of a join list -/

/-- The loop over a join list: it has met no fragment of a process site, or it holds the first of the largest shares. -/
def Chosen (siteNums : List SiteNum) (sites : List Int) (seen : List FragName) (m : Nat × Int × Int) : Prop :=
  (m = (0, 0, 0) ∧ ∀ y ∈ seen, y.num ∉ sites) ∨
    (m.1 ≠ 0 ∧ ∃ y ∈ seen, y.num ∈ sites ∧ m.2 = (siteShare siteNums y, y.num) ∧
      ∀ z ∈ seen, z.num ∈ sites → siteShare siteNums z ≤ siteShare siteNums y)

theorem Chosen.step {siteNums : List SiteNum} {sites : List Int} {seen : List FragName} {m : Nat × Int × Int}
    (h : Chosen siteNums sites seen m) {y : FragName} (hpos : y.num ∈ sites → 0 < siteShare siteNums y) :
    Chosen siteNums sites (seen ++ [y])
      (if y.num ∈ sites then
        if siteShare siteNums y > m.2.1 then (m.1 + 1, siteShare siteNums y, y.num) else (m.1 + 1, m.2.1, m.2.2)
      else m) := by
  by_cases hy : y.num ∈ sites
  · rw [if_pos hy]
    obtain ⟨rfl, hnone⟩ | ⟨hm, x, hx, hxs, hmx, hmax⟩ := h
    · rw [if_pos (hpos hy)]
      refine .inr ⟨Nat.succ_ne_zero _, y, List.mem_append_right _ (List.mem_singleton_self y), hy, rfl, ?_⟩
      exact List.forall_mem_append.mpr ⟨fun z hz hzs => absurd hzs (hnone z hz), List.forall_mem_singleton.mpr
        fun _ => le_rfl⟩
    · rw [hmx]
      dsimp only
      split
      · next hgt =>
        refine .inr ⟨Nat.succ_ne_zero _, y, List.mem_append_right _ (List.mem_singleton_self y), hy, rfl, ?_⟩
        exact List.forall_mem_append.mpr ⟨fun z hz hzs => (hmax z hz hzs).trans (le_of_lt hgt),
          List.forall_mem_singleton.mpr fun _ => le_rfl⟩
      · next hle =>
        refine .inr ⟨Nat.succ_ne_zero _, x, List.mem_append_left _ hx, hxs, rfl, ?_⟩
        exact List.forall_mem_append.mpr ⟨hmax, List.forall_mem_singleton.mpr fun _ => not_lt.mp hle⟩
  · rw [if_neg hy]
    obtain ⟨rfl, hnone⟩ | ⟨hm, x, hx, hxs, hmx, hmax⟩ := h
    · exact .inl ⟨rfl, List.forall_mem_append.mpr ⟨hnone, List.forall_mem_singleton.mpr hy⟩⟩
    · exact .inr ⟨hm, x, List.mem_append_left _ hx, hxs, hmx, List.forall_mem_append.mpr
        ⟨hmax, List.forall_mem_singleton.mpr fun hys => absurd hys hy⟩⟩

/-- A join list goes to the site of its largest fragment on a process site. -/
theorem joinSite_chosen {siteNums : List SiteNum} {sites : List Int} {l : List FragName}
    (hpos : ∀ y ∈ l, y.num ∈ sites → 0 < siteShare siteNums y) :
    ((∀ y ∈ l, y.num ∉ sites) ∧ joinSite siteNums sites l = sites.head?.getD 0) ∨
      ∃ y ∈ l, y.num ∈ sites ∧ joinSite siteNums sites l = y.num ∧
        ∀ z ∈ l, z.num ∈ sites → siteShare siteNums z ≤ siteShare siteNums y := by
  have hloop : ∀ (post pre : List FragName) (m : Nat × Int × Int),
      (∀ y ∈ post, y.num ∈ sites → 0 < siteShare siteNums y) → Chosen siteNums sites pre m →
      Chosen siteNums sites (pre ++ post) (post.foldl
        (fun (m : Nat × Int × Int) y =>
          if y.num ∈ sites then
            if siteShare siteNums y > m.2.1 then (m.1 + 1, siteShare siteNums y, y.num) else (m.1 + 1, m.2.1, m.2.2)
          else m) m) := by
    intro post
    induction post with
    | nil =>
      intro pre m _ hm
      rwa [List.append_nil]
    | cons y post ih =>
      intro pre m hpost hm
      obtain ⟨hy, hpost⟩ := List.forall_mem_cons.mp hpost
      have := ih (pre ++ [y]) _ hpost (hm.step hy)
      rwa [List.append_assoc, List.singleton_append] at this
  have hchosen := hloop l [] (0, 0, 0) hpos (.inl ⟨rfl, fun _ h => absurd h List.not_mem_nil⟩)
  rw [List.nil_append] at hchosen
  unfold joinSite
  dsimp only
  obtain ⟨hm, hnone⟩ | ⟨hm, y, hy, hys, hmy, hmax⟩ := hchosen
  · exact .inl ⟨hnone, if_pos (congrArg Prod.fst hm)⟩
  · exact .inr ⟨y, hy, hys, (if_neg hm).trans (congrArg Prod.snd hmy), hmax⟩

/-- The size of a kept fragment. -/
def keptSize (s : Scan) (f : FragName) : Int :=
  (((s.pruning f.table).find? fun X => X.fname = f).map Fragment.size).getD 0

/-- What a join of these fragments has to fetch when it is done on a site; fragment `k` is stored on site `k`. -/
def fetched (s : Scan) (l : List FragName) (site : Int) : Int :=
  ((l.filter fun f => f.num ≠ site).map (keptSize s)).sum

theorem keptSize_eq {s : Scan} {t : String} (hnd : ((s.pruning t).map Fragment.fname).Nodup) {X : Fragment}
    (hX : X ∈ s.pruning t) (htable : X.fname.table = t) : keptSize s X.fname = X.size := by
  subst htable
  have hsome : ((s.pruning X.fname.table).find? fun Y => Y.fname = X.fname).isSome :=
    List.find?_isSome.mpr ⟨X, hX, decide_eq_true rfl⟩
  obtain ⟨Y, hY⟩ := Option.isSome_iff_exists.mp hsome
  have hname : Y.fname = X.fname := by simpa using List.find?_some hY
  rw [keptSize, hY, List.inj_on_of_nodup_map hnd (List.mem_of_find?_eq_some hY) hX hname]
  rfl

/-- A join of two fragments fetches least on the site of the larger one. -/
theorem fetched_pair_le {s : Scan} {f g : FragName} {site other : Int} (hf : 0 ≤ keptSize s f) (hg : 0 ≤ keptSize s g)
    (hchosen : (f.num ≠ other ∧ g.num ≠ other) ∨ (f.num = site ∧ (g.num = other → keptSize s g ≤ keptSize s f)) ∨
      (g.num = site ∧ (f.num = other → keptSize s f ≤ keptSize s g))) :
    fetched s [f, g] site ≤ fetched s [f, g] other := by
  have hsum : ∀ k, fetched s [f, g] k =
      (if f.num = k then 0 else keptSize s f) + if g.num = k then 0 else keptSize s g := by
    intro k
    by_cases hfk : f.num = k <;> by_cases hgk : g.num = k <;> simp [fetched, hfk, hgk]
  rw [hsum, hsum]
  obtain ⟨h1, h2⟩ | ⟨h1, h2⟩ | ⟨h1, h2⟩ := hchosen
  · rw [if_neg h1, if_neg h2]
    split <;> split <;> omega
  · rw [if_pos h1]
    split <;> split <;> split <;> omega
  · rw [if_pos h1]
    split <;> split <;> split <;> omega

/-! ## The choices of a plan -/

section
variable {Tables : List MetadataTable} {q : Query} {p : JoinPlan} (hplan : Planned Tables q p)
  (hcat : HfCatalog Tables q.fromTable)
include hplan hcat

theorem Planned.counted : Counted p.scan := scanTables_counted (hplan.hfCatalog hcat) hplan.scan

theorem Planned.intsFit (hfit : fromSize Tables q.fromTable ≤ intMax) : IntsFit Tables p.scan := by
  have hcat' := hplan.hfCatalog hcat
  have hsummed := scanTables_summed hcat' hplan.scan
  have hsums := keptSums_le hcat' hplan.scan
  rw [hplan.query_fields.1] at hsums
  refine ⟨fun x hx => ?_, fun T hT => ?_, fun conflict Rp x hx => ?_⟩
  · obtain ⟨hlow, hhigh⟩ := storedAt_le hcat' hplan.scan x.site
    rw [hplan.query_fields.1] at hhigh
    rw [(hplan.counted hcat).total x hx]
    exact ⟨hlow, hhigh.trans hfit⟩
  · rw [hsummed.relation]
    have hone : keptSum p.scan T.name ≤ (Tables.map fun T => keptSum p.scan T.name).sum :=
      List.single_le_sum (List.forall_mem_map.mpr fun T _ => hsummed.nonneg T.name) _ (List.mem_map_of_mem hT)
    exact ⟨hsummed.nonneg T.name, hone.trans (hsums.trans hfit)⟩
  · exact hsummed.transferSumInt_eq (hsums.trans hfit) conflict Rp hx

theorem Planned.final_site : ∃ root, p.processSite.head? = some root ∧
    ∀ site ∈ ([1, 2, 3, 4] : List Int), storedAt p.scan.tr site ≤ storedAt p.scan.tr root := by
  have hcounted := hplan.counted hcat
  have hsites := hcounted.sorted_sites
  have htotal : ∀ x ∈ sortSites p.scan.siteNums, x.total = storedAt p.scan.tr x.site := fun x hx =>
    hcounted.total x ((List.perm_insertionSort _ _).mem_iff.mp hx)
  have hsorted := sortSites_sorted p.scan.siteNums
  obtain ⟨Rp, -, hproc⟩ := hplan.processSite
  rw [hproc]
  cases hsort : sortSites p.scan.siteNums with
  | nil =>
    rw [hsort] at hsites
    exact absurd hsites.length_eq (by decide)
  | cons x xs =>
    rw [hsort] at hsites htotal hsorted
    rw [List.pairwise_cons] at hsorted
    refine ⟨x.site, processSite_head (hsites.nodup_iff.mpr (by decide)) hsorted.1, fun site hsite => ?_⟩
    obtain ⟨y, hy, rfl⟩ := List.mem_map.mp (hsites.mem_iff.mpr hsite)
    rw [← htotal y hy, ← htotal x List.mem_cons_self]
    obtain rfl | hy := List.mem_cons.mp hy
    · exact le_rfl
    · exact hsorted.1 y hy

theorem Planned.share_eq {f : FragName} (hf : Kept p.scan f) :
    siteShare (sortSites p.scan.siteNums) f = keptSize p.scan f ∧ 0 < keptSize p.scan f := by
  obtain ⟨tab, X, hX, rfl⟩ := hf
  obtain ⟨T, hT, rfl, hfrom, hXT⟩ := hplan.kept_frag hcat hX
  obtain ⟨hname, hsize, -⟩ := hcat.frag T hT hfrom X hXT
  have hnd := scanTables_pruning_nodup (hplan.hfCatalog hcat).names (hplan.hfCatalog hcat).fnames hplan.scan T.name
  have hcounted := hplan.counted hcat
  obtain ⟨x, hx, hsite, hshare⟩ := hcounted.share T.name hnd X hX hname
  have hkept : keptSize p.scan X.fname = X.size := keptSize_eq hnd hX (by rw [hname])
  refine ⟨?_, hkept.symm ▸ hsize⟩
  have hfind := findSite_eq (hcounted.sorted_sites.nodup_iff.mpr (by decide))
    ((List.perm_insertionSort _ _).mem_iff.mpr hx)
  rw [hkept, siteShare, hname]
  dsimp only
  rw [← hsite, hfind]
  exact hshare

theorem Planned.join_site {site : Int} {l : List FragName} (hl : l ∈ p.joinSite site) :
    ((∀ f ∈ l, f.num ∉ p.processSite) ∧ p.processSite.head? = some site) ∨
      ∃ f ∈ l, f.num = site ∧ site ∈ p.processSite ∧
        ∀ g ∈ l, g.num ∈ p.processSite → keptSize p.scan g ≤ keptSize p.scan f := by
  obtain ⟨hl, hsite⟩ := hplan.mem_joinSite_iff.mp hl
  have hshare : ∀ f ∈ l, _ := fun f hf => hplan.share_eq hcat (hplan.kept_of_mem hl f hf)
  have hpos : ∀ f ∈ l, f.num ∈ p.processSite → 0 < siteShare (sortSites p.scan.siteNums) f := fun f hf _ =>
    (hshare f hf).1.symm ▸ (hshare f hf).2
  obtain ⟨hnone, hchosen⟩ | ⟨f, hf, hfs, hchosen, hmax⟩ := joinSite_chosen hpos
  · obtain ⟨root, hroot, -⟩ := hplan.final_site hcat
    rw [hsite, hroot, Option.getD_some] at hchosen
    exact .inl ⟨hnone, hchosen ▸ hroot⟩
  · rw [hsite] at hchosen
    refine .inr ⟨f, hf, hchosen.symm, hchosen ▸ hfs, fun g hg hgs => ?_⟩
    rw [← (hshare g hg).1, ← (hshare f hf).1]
    exact hmax g hg hgs

end

/-- **The sites are chosen to save transfer.** The final Union is placed on a site that stores most of the input. A join
is done on a process site: on the one that stores the largest of the fragments stored on process sites, and on the site
of the final Union if there is none. A join of two fragments therefore fetches no more than it would on any other
process site. The `int`s in which this is computed do not overflow if the sizes of all fragments of the FROM tables
together fit one. -/
theorem site_choice (Tables : List MetadataTable) (q : Query) (p : JoinPlan) (hcat : HfCatalog Tables q.fromTable)
    (hfit : fromSize Tables q.fromTable ≤ intMax) (hp : planJoins Tables q = some p) :
    IntsFit Tables p.scan ∧
    (∃ root, p.processSite.head? = some root ∧
      ∀ site ∈ ([1, 2, 3, 4] : List Int), storedAt p.scan.tr site ≤ storedAt p.scan.tr root) ∧
    ∀ site, ∀ l ∈ p.joinSite site,
      (((∀ f ∈ l, f.num ∉ p.processSite) ∧ p.processSite.head? = some site) ∨
        ∃ f ∈ l, f.num = site ∧ site ∈ p.processSite ∧
          ∀ g ∈ l, g.num ∈ p.processSite → keptSize p.scan g ≤ keptSize p.scan f) ∧
      (l.length = 2 → ∀ other ∈ p.processSite, fetched p.scan l site ≤ fetched p.scan l other) := by
  have hplan := planJoins_planned hp
  refine ⟨hplan.intsFit hcat hfit, hplan.final_site hcat, fun site l hl => ?_⟩
  have hchosen := hplan.join_site hcat hl
  refine ⟨hchosen, fun htwo other hother => ?_⟩
  have hkept := hplan.kept_of_mem (hplan.mem_joinSite_iff.mp hl).1
  match l, htwo with
  | [f, g], _ =>
    have hfl : f ∈ [f, g] := List.mem_cons_self
    have hgl : g ∈ [f, g] := List.mem_cons_of_mem _ List.mem_cons_self
    have hf := (hplan.share_eq hcat (hkept f hfl)).2
    have hg := (hplan.share_eq hcat (hkept g hgl)).2
    refine fetched_pair_le hf.le hg.le ?_
    obtain ⟨hnone, -⟩ | ⟨x, hx, hsite, -, hmax⟩ := hchosen
    · exact .inl ⟨fun h => hnone f hfl (h ▸ hother), fun h => hnone g hgl (h ▸ hother)⟩
    · obtain rfl | hx := List.mem_cons.mp hx
      · exact .inr (.inl ⟨hsite, fun h => hmax g hgl (h ▸ hother)⟩)
      · obtain rfl := List.mem_singleton.mp hx
        exact .inr (.inr ⟨hsite, fun h => hmax f hfl (h ▸ hother)⟩)

/-- Books of the first fragment with publishers of the third: the publishers go to the books. -/
theorem booksOfPublishers_sites : ∃ p, planJoins getMetadata booksOfPublishers = some p ∧ p.processSite = [3, 1, 2] ∧
    [⟨"Book", 1⟩, ⟨"Publisher", 3⟩] ∈ p.joinSite 1 ∧
    fetched p.scan [⟨"Book", 1⟩, ⟨"Publisher", 3⟩] 1 = 12190 ∧
    (∀ other ∈ p.processSite,
      fetched p.scan [⟨"Book", 1⟩, ⟨"Publisher", 3⟩] 1 ≤ fetched p.scan [⟨"Book", 1⟩, ⟨"Publisher", 3⟩] other) := by
  have hrun : ((planJoins getMetadata booksOfPublishers).any fun p => p.processSite = [3, 1, 2] ∧
      [⟨"Book", 1⟩, ⟨"Publisher", 3⟩] ∈ p.joinSite 1 ∧
      fetched p.scan [⟨"Book", 1⟩, ⟨"Publisher", 3⟩] 1 = 12190) = true := by decide +kernel
  simp only [Option.any_eq_true, decide_eq_true_eq] at hrun
  obtain ⟨p, hp, hsites, hl, hfetched⟩ := hrun
  exact ⟨p, hp, hsites, hl, hfetched,
    ((site_choice getMetadata booksOfPublishers p booksOfPublishers_hfCatalog (by decide) hp).2.2 1 _ hl).2 rfl⟩

end EasyDDB.Optimizer
