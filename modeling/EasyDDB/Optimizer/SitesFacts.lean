import EasyDDB.Optimizer.Defined

/-! # Every join list gets a site

With fragment `k` of every table stored on site `k` and positive sizes, a join list that touches a
process site is assigned to one of these, and any other join list to the first process site; in both
cases to one of the four sites for which subtrees are built. -/
namespace EasyDDB.Optimizer
set_option autoImplicit false

/-! ## Process sites -/

section
variable {Tables : List MetadataTable} {s : Scan} {conflict : List (FragName × FragName)} {Rp : String}

theorem candidateSites_subset (siteNums : List SiteNum) :
    ∀ i ∈ candidateSites Tables s conflict Rp siteNums, i ∈ siteNums.map SiteNum.site := by
  induction siteNums with
  | nil => simp [candidateSites]
  | cons x xs ih =>
    intro i hi
    unfold candidateSites at hi
    split_ifs at hi
    · cases hi
    · rw [List.map_cons, List.mem_cons]
      exact (List.mem_cons.mp hi).imp_right (ih i)

theorem promote_subset (siteNums : List SiteNum) (sites : List Int) : ∀ i ∈ promote siteNums sites, i ∈ sites := by
  cases sites with
  | nil => simp [promote]
  | cons x xs =>
    have hloop : ∀ (ys : List Int) (r : Int × List Int), r.1 ∈ x :: xs → (∀ i ∈ r.2, i ∈ x :: xs) →
        (∀ y ∈ ys, y ∈ x :: xs) → ∀ i ∈ (ys.foldl (fun (r : Int × List Int) y =>
          if findSiteTotal siteNums y > findSiteTotal siteNums r.1 then (y, r.2 ++ [r.1]) else (r.1, r.2 ++ [y])) r).1 ::
            (ys.foldl (fun (r : Int × List Int) y =>
          if findSiteTotal siteNums y > findSiteTotal siteNums r.1 then (y, r.2 ++ [r.1]) else (r.1, r.2 ++ [y])) r).2,
              i ∈ x :: xs := by
      intro ys
      induction ys with
      | nil =>
        intro r h1 h2 _ i hi
        obtain rfl | hi := List.mem_cons.mp hi
        · exact h1
        · exact h2 i hi
      | cons y ys ih =>
        intro r h1 h2 hys
        have hy := hys y (List.mem_cons_self ..)
        have hys' : ∀ z ∈ ys, z ∈ x :: xs := fun z hz => hys z (List.mem_cons_of_mem y hz)
        have hgrow : ∀ z, z ∈ x :: xs → ∀ i ∈ r.2 ++ [z], i ∈ x :: xs := by
          intro z hz i hi
          obtain hi | hi := List.mem_append.mp hi
          · exact h2 i hi
          · exact List.mem_singleton.mp hi ▸ hz
        rw [List.foldl_cons]
        split_ifs
        · exact ih _ hy (hgrow r.1 h1) hys'
        · exact ih _ h1 (hgrow y hy) hys'
    exact hloop xs (x, []) (List.mem_cons_self ..) (by simp) fun y hy => List.mem_cons_of_mem x hy

theorem processSite_subset {siteNums : List SiteNum} (hne : siteNums ≠ []) :
    processSite Tables s siteNums conflict Rp ≠ [] ∧
      ∀ i ∈ processSite Tables s siteNums conflict Rp, i ∈ siteNums.map SiteNum.site := by
  obtain ⟨x, xs, hx⟩ := List.exists_cons_of_ne_nil hne
  unfold processSite
  split
  · simp [hx]
  · rename_i sites hsites
    constructor
    · cases h : candidateSites Tables s conflict Rp siteNums with
      | nil => exact absurd h hsites
      | cons y ys => simp [promote]
    · exact fun i hi => candidateSites_subset siteNums i (promote_subset siteNums _ i hi)

end

/-! ## Shares of the sites -/

/-- The four sites, each with a positive share of every table it stores a kept fragment of. -/
structure Shares (siteNums : List SiteNum) (pruning : String → List Fragment) : Prop where
  sites : (siteNums.map SiteNum.site).Perm [1, 2, 3, 4]
  positive : ∀ t, ∀ X ∈ pruning t, ∃ x ∈ siteNums, x.site = X.fname.num ∧ 0 < x.rSize t

theorem map_site_addRelation (siteNums : List SiteNum) (k : Nat) (table : String) (size : Int) :
    (siteNums.modify k fun s => s.addRelation table size).map SiteNum.site = siteNums.map SiteNum.site := by
  refine List.ext_getElem? fun i => ?_
  rw [List.getElem?_map, List.getElem?_modify, List.getElem?_map, Option.map_eq_map, Option.map_map]
  congr 1
  funext x
  by_cases h : k = i <;> simp [h, SiteNum.addRelation]

theorem addRelation_positive {siteNums : List SiteNum} {k : Nat} {table : String} {size : Int} (hsize : 0 < size)
    {x : SiteNum} (hx : x ∈ siteNums) {t : String} (hpos : 0 < x.rSize t) :
    ∃ y ∈ siteNums.modify k fun s => s.addRelation table size, y.site = x.site ∧ 0 < y.rSize t := by
  obtain ⟨i, hi⟩ := List.mem_iff_getElem?.mp hx
  by_cases hk : k = i
  · refine ⟨x.addRelation table size, ?_, rfl, ?_⟩
    · refine List.mem_iff_getElem?.mpr ⟨i, ?_⟩
      rw [List.getElem?_modify, hi]
      simp [hk]
    · by_cases ht : t = table
      · subst ht
        simpa [SiteNum.addRelation] using hsize
      · simpa [SiteNum.addRelation, Function.update_of_ne ht] using hpos
  · refine ⟨x, List.mem_iff_getElem?.mpr ⟨i, ?_⟩, rfl, hpos⟩
    rw [List.getElem?_modify, hi]
    simp [hk]

/-- Fragment `k` of a table of the query lives on site `k` and is not empty. -/
def NumberedSites (Tables : List MetadataTable) (fromTable : List String) : Prop :=
  ∀ T ∈ Tables, T.name ∈ fromTable → T.type = .hf ∧ ∀ F ∈ T.frags, F.fname.num = F.site ∧ 0 < F.size

/-- The scan keeps the sites in order. -/
def ScanShares (s : Scan) : Prop :=
  s.siteNums.map SiteNum.site = [1, 2, 3, 4] ∧
    ∀ t, ∀ X ∈ s.pruning t, ∃ x ∈ s.siteNums, x.site = X.fname.num ∧ 0 < x.rSize t

theorem ScanShares.record {s : Scan} (h : ScanShares s) {frag : Fragment} {site : Int} (hnum : frag.fname.num = site)
    (hsize : 0 < frag.size) {table : MetadataTable} {siteNums : List SiteNum}
    (hadd : addRelationAt s.siteNums site table.name frag.size = some siteNums) (below : List TreeNode) (top : TreeNode)
    (relationSize : List (String × Int)) : ScanShares (s.record below top table frag relationSize siteNums) := by
  obtain ⟨h1, h4, rfl⟩ := addRelationAt_inv hadd
  refine ⟨(map_site_addRelation ..).trans h.1, ?_⟩
  have hold : ∀ t, ∀ X ∈ s.pruning t, ∃ x ∈ s.siteNums.modify (site - 1).toNat
      (fun s => s.addRelation table.name frag.size), x.site = X.fname.num ∧ 0 < x.rSize t := by
    intro t X hX
    obtain ⟨x, hx, hsite, hpos⟩ := h.2 t X hX
    obtain ⟨y, hy, hys, hyp⟩ := addRelation_positive hsize hx hpos
    exact ⟨y, hy, hys.trans hsite, hyp⟩
  intro t X hX
  simp only [Scan.record] at hX ⊢
  by_cases ht : t = table.name
  · subst ht
    rw [Function.update_self, List.mem_append, List.mem_singleton] at hX
    obtain hX | rfl := hX
    · exact hold _ X hX
    · have hlt : (site - 1).toNat < s.siteNums.length := by omega
      obtain ⟨x, hget⟩ : ∃ x, s.siteNums[(site - 1).toNat]? = some x := ⟨_, List.getElem?_eq_getElem hlt⟩
      have hsite : x.site = site := by
        have hmap : (s.siteNums.map SiteNum.site)[(site - 1).toNat]? = some x.site := by
          rw [List.getElem?_map, hget]
          rfl
        have hlen : s.siteNums.length = 4 := by simpa using congrArg List.length h.1
        rw [h.1] at hmap
        have hcases : site = 1 ∨ site = 2 ∨ site = 3 ∨ site = 4 := by omega
        obtain hs | hs | hs | hs := hcases <;> rw [hs] at hmap ⊢ <;> exact (Option.some.inj hmap).symm
      refine ⟨x.addRelation table.name X.size, List.mem_iff_getElem?.mpr ⟨(site - 1).toNat, ?_⟩,
        hsite.trans hnum.symm, ?_⟩
      · rw [List.getElem?_modify, hget]
        simp
      · simpa [SiteNum.addRelation] using hsize
  · rw [Function.update_of_ne ht] at hX
    exact hold t X hX

theorem scanTables_shares {q : Query} {Tables : List MetadataTable} (hcat : NumberedSites Tables q.fromTable) {s : Scan}
    (h : scanTables q Tables = some s) : ScanShares s := by
  refine scanTables_hf_invariant (fun T hT hmem => (hcat T hT hmem).1) ScanShares (fun c r hc => hc) ?_
    ⟨rfl, fun t X hX => by cases hX⟩ h
  intro T hT hmem F hF c select r siteNums hc _ hadd
  obtain ⟨hnum, hsize⟩ := (hcat T hT hmem).2 F hF
  exact hc.record hnum hsize hadd _ _ _

theorem ScanShares.sorted {s : Scan} (h : ScanShares s) : Shares (sortSites s.siteNums) s.pruning := by
  have hperm : (sortSites s.siteNums).Perm s.siteNums := List.perm_insertionSort ..
  refine ⟨(hperm.map _).trans (.of_eq h.1), fun t X hX => ?_⟩
  obtain ⟨x, hx, hsite⟩ := h.2 t X hX
  exact ⟨x, hperm.mem_iff.mpr hx, hsite⟩

theorem Shares.find {siteNums : List SiteNum} {pruning : String → List Fragment} (h : Shares siteNums pruning)
    {t : String} {X : Fragment} (hX : X ∈ pruning t) :
    ∃ x, findSite siteNums X.fname.num = some x ∧ 0 < x.rSize t := by
  obtain ⟨x, hx, hsite, hpos⟩ := h.positive t X hX
  have hnd : (siteNums.map SiteNum.site).Nodup := h.sites.nodup_iff.mpr (by decide)
  have hfound : (findSite siteNums X.fname.num).isSome :=
    List.find?_isSome.mpr ⟨x, hx, decide_eq_true hsite⟩
  obtain ⟨y, hy⟩ := Option.isSome_iff_exists.mp hfound
  have hysite : y.site = X.fname.num := by simpa using List.find?_some hy
  obtain rfl : y = x := List.inj_on_of_nodup_map hnd (List.mem_of_find?_eq_some hy) hx (hysite.trans hsite.symm)
  exact ⟨y, hy, hpos⟩

/-! ## The site of a join list -/

/-- What the site with the number of a fragment stores of the fragment's table. -/
def siteShare (siteNums : List SiteNum) (y : FragName) : Int :=
  ((findSite siteNums y.num).map fun cur => cur.rSize y.table).getD 0

/-- The loop over a join list: the count, the largest share and its site. -/
structure Largest (siteNums : List SiteNum) (sites : List Int) (seen : List FragName) (m : Nat × Int × Int) : Prop where
  count : m.1 = 0 ↔ ∀ y ∈ seen, y.num ∉ sites
  nonneg : 0 ≤ m.2.1
  bound : ∀ y ∈ seen, y.num ∈ sites → siteShare siteNums y ≤ m.2.1
  none : m.2.1 = 0 → m.2.2 = 0
  some : 0 < m.2.1 → m.2.2 ∈ sites ∧ ∃ y ∈ seen, y.num ∈ sites ∧ 0 < siteShare siteNums y

theorem Largest.step {siteNums : List SiteNum} {sites : List Int} {seen : List FragName} {m : Nat × Int × Int}
    (h : Largest siteNums sites seen m) (y : FragName) :
    Largest siteNums sites (seen ++ [y])
      (if y.num ∈ sites then
        if siteShare siteNums y > m.2.1 then (m.1 + 1, siteShare siteNums y, y.num) else (m.1 + 1, m.2.1, m.2.2)
      else m) := by
  have hlast : y ∈ seen ++ [y] := List.mem_append_right _ (List.mem_singleton_self y)
  have hbound : ∀ b : Int, (∀ z ∈ seen, z.num ∈ sites → siteShare siteNums z ≤ b) →
      (y.num ∈ sites → siteShare siteNums y ≤ b) → ∀ z ∈ seen ++ [y], z.num ∈ sites → siteShare siteNums z ≤ b := by
    intro b hseen hy z hz hzs
    obtain hz | hz := List.mem_append.mp hz
    · exact hseen z hz hzs
    · obtain rfl := List.mem_singleton.mp hz
      exact hy hzs
  have hnonneg := h.nonneg
  split_ifs with hmem hgt
  · refine ⟨by simp [hmem], by dsimp only; omega, hbound _ (fun z hz hzs => ?_) fun _ => le_rfl, ?_, ?_⟩
    · exact (h.bound z hz hzs).trans (le_of_lt hgt)
    · dsimp only
      omega
    · exact fun _ => ⟨hmem, y, hlast, hmem, by omega⟩
  · refine ⟨by simp [hmem], hnonneg, hbound _ h.bound fun _ => not_lt.mp hgt, h.none, fun hpos => ?_⟩
    obtain ⟨hsite, z, hz, hzs⟩ := h.some hpos
    exact ⟨hsite, z, List.mem_append_left _ hz, hzs⟩
  · refine ⟨h.count.trans ?_, hnonneg, hbound _ h.bound fun hy => absurd hy hmem, h.none, fun hpos => ?_⟩
    · rw [List.forall_mem_append, List.forall_mem_singleton, and_iff_left hmem]
    obtain ⟨hsite, z, hz, hzs⟩ := h.some hpos
    exact ⟨hsite, z, List.mem_append_left _ hz, hzs⟩

/-- **A join list is assigned to one of the four sites** exactly if none of its fragments has the number of a process
site or one of those that have has a positive share there; otherwise it is assigned to site 0. -/
theorem joinSite_mem_iff {siteNums : List SiteNum} {sites : List Int} (hne : sites ≠ [])
    (hfour : ∀ i ∈ sites, i ∈ ([1, 2, 3, 4] : List Int)) (l : List FragName) :
    joinSite siteNums sites l ∈ ([1, 2, 3, 4] : List Int) ↔
      (∀ y ∈ l, y.num ∉ sites) ∨ ∃ y ∈ l, y.num ∈ sites ∧ 0 < siteShare siteNums y := by
  have hloop : ∀ (post pre : List FragName) (m : Nat × Int × Int), Largest siteNums sites pre m →
      Largest siteNums sites (pre ++ post) (post.foldl
        (fun (m : Nat × Int × Int) y =>
          if y.num ∈ sites then
            if siteShare siteNums y > m.2.1 then (m.1 + 1, siteShare siteNums y, y.num) else (m.1 + 1, m.2.1, m.2.2)
          else m) m) := by
    intro post
    induction post with
    | nil =>
      intro pre m hm
      rwa [List.append_nil]
    | cons y post ih =>
      intro pre m hm
      have := ih (pre ++ [y]) _ (hm.step y)
      rwa [List.append_assoc, List.singleton_append] at this
  have hL := hloop l [] (0, 0, 0) ⟨by simp, le_rfl, by simp, fun _ => rfl, fun h => absurd h (lt_irrefl 0)⟩
  rw [List.nil_append] at hL
  unfold joinSite
  dsimp only
  split_ifs with hcnt
  · refine iff_of_true ?_ (.inl (hL.count.mp hcnt))
    obtain ⟨i, is, rfl⟩ := List.exists_cons_of_ne_nil hne
    exact hfour i (List.mem_cons_self ..)
  · obtain hzero | hpos := (le_iff_lt_or_eq.mp hL.nonneg).symm
    · refine iff_of_false ?_ ?_
      · intro hmem
        have hzero' : (0 : Int) ∈ ([1, 2, 3, 4] : List Int) := by
          rw [← hL.none hzero.symm]
          exact hmem
        simp at hzero'
      · rintro (hnone | ⟨y, hy, hys, hpos⟩)
        · exact hcnt (hL.count.mpr hnone)
        · have := hL.bound y hy hys
          omega
    · obtain ⟨hsite, hex⟩ := hL.some hpos
      exact iff_of_true (hfour _ hsite) (.inr hex)

theorem joinSite_mem {siteNums : List SiteNum} {pruning : String → List Fragment} (h : Shares siteNums pruning)
    {sites : List Int} (hne : sites ≠ []) (hsub : ∀ i ∈ sites, i ∈ siteNums.map SiteNum.site) {l : List FragName}
    (hl : ∀ f ∈ l, ∃ X ∈ pruning f.table, X.fname = f) : joinSite siteNums sites l ∈ ([1, 2, 3, 4] : List Int) := by
  refine (joinSite_mem_iff hne (fun i hi => h.sites.mem_iff.mp (hsub i hi)) l).mpr ?_
  by_cases hnone : ∀ y ∈ l, y.num ∉ sites
  · exact .inl hnone
  · push Not at hnone
    obtain ⟨y, hy, hys⟩ := hnone
    obtain ⟨X, hX, rfl⟩ := hl y hy
    obtain ⟨x, hx, hpos⟩ := h.find hX
    refine .inr ⟨X.fname, hy, hys, ?_⟩
    rw [siteShare, hx]
    exact hpos

end EasyDDB.Optimizer
