import EasyDDB.Optimizer.JoinAlgebra

/-! # Which nodes are left without a parent

The nodes without a parent are counted exactly while the join subtrees are built: the operands that wait for their
Join node, the Join node on top of each finished pattern, and those nodes of the scan that no pattern has asked for.
The final phase puts all of them below the root. -/
namespace EasyDDB.Optimizer
open Arena
set_option autoImplicit false

/-! ## Roots under the primitive changes of the vector -/

/-- A Join node over two operands. -/
def JoinOfTwo (tr : List TreeNode) (i : Nat) : Prop := ∃ n, tr[i]? = some n ∧ n.type = .join ∧ n.child.length = 2

theorem mem_parentless_iff_root {tr : List TreeNode} {i : Nat} : i ∈ parentless tr ↔ Root tr i := mem_parentless

theorem parentless_concat {tr : List TreeNode} {n : TreeNode} (hn : n.parent = -1) :
    (parentless (tr ++ [n])).Perm (tr.length :: parentless tr) := by
  refine (List.perm_ext_iff_of_nodup (parentless_nodup _) ?_).mpr fun i => ?_
  · refine List.nodup_cons.mpr ⟨fun hmem => ?_, parentless_nodup tr⟩
    obtain ⟨m, hm, -⟩ := mem_parentless.mp hmem
    exact absurd (List.getElem?_eq_some_iff.mp hm).1 (lt_irrefl _)
  · rw [List.mem_cons, mem_parentless, mem_parentless]
    constructor
    · rintro ⟨m, hm, hp⟩
      obtain hm | ⟨hi, -⟩ := getElem?_concat_cases hm
      · exact .inr ⟨m, hm, hp⟩
      · exact .inl hi
    · rintro (rfl | h)
      · exact isRoot_concat hn
      · exact isRoot_append h _

theorem parentless_of_hung {tr tr' : List TreeNode} {cs Q : List Nat} (h : (parentless tr).Perm (cs ++ Q))
    (hroot : ∀ i, Root tr' i ↔ Root tr i ∧ i ∉ cs) : (parentless tr').Perm Q := by
  have hnd := h.nodup_iff.mp (parentless_nodup tr)
  obtain ⟨-, hQ, hdis⟩ := List.nodup_append.mp hnd
  refine (List.perm_ext_iff_of_nodup (parentless_nodup tr') hQ).mpr fun i => ?_
  have hmem : Root tr i ↔ i ∈ cs ∨ i ∈ Q := by
    rw [← List.mem_append, ← h.mem_iff]
    exact mem_parentless_iff_root.symm
  rw [mem_parentless_iff_root, hroot, hmem]
  constructor
  · rintro ⟨hc | hq, hn⟩
    · exact absurd hc hn
    · exact hq
  · exact fun hq => ⟨.inr hq, fun hc => hdis i hc i hq rfl⟩

/-! ## The roots while subtrees are built -/

/-- `R` are the operands that wait for a Join node, `T` the tops of the patterns built so far, and the other roots
are the roots of the scan whose fragments have not been used. -/
structure Rooted (mpTr : FragName → Nat) (recorded : FragName → Prop) (tr₀ : List TreeNode) (s : Build)
    (R T : List Nat) : Prop where
  roots : ∃ U, (parentless s.tr).Perm (R ++ (T ++ U)) ∧
    ∀ i, i ∈ U ↔ Root tr₀ i ∧ ∀ x, recorded x → s.cpTr x = true → mpTr x ≠ i
  length : tr₀.length ≤ s.tr.length
  tops : ∀ i ∈ T, tr₀.length ≤ i ∧ JoinOfTwo s.tr i

section
variable {mpTr : FragName → Nat} {recorded : FragName → Prop} {tr₀ : List TreeNode} {s s' : Build} {R T : List Nat}

theorem Rooted.perm {R' T' : List Nat} (h : Rooted mpTr recorded tr₀ s R T) (hp : (R ++ T).Perm (R' ++ T'))
    (htops : ∀ i ∈ T', tr₀.length ≤ i ∧ JoinOfTwo s.tr i) : Rooted mpTr recorded tr₀ s R' T' := by
  obtain ⟨U, hU, hmem⟩ := h.roots
  refine ⟨⟨U, hU.trans ?_, hmem⟩, h.length, htops⟩
  rw [← List.append_assoc, ← List.append_assoc]
  exact hp.append_right U

theorem Rooted.nodup (h : Rooted mpTr recorded tr₀ s R T) : (R ++ T).Nodup := by
  obtain ⟨U, hU, -⟩ := h.roots
  have hnd := hU.nodup_iff.mp (parentless_nodup s.tr)
  rw [← List.append_assoc] at hnd
  exact (List.nodup_append.mp hnd).1

theorem Rooted.push (h : Rooted mpTr recorded tr₀ s R T) {n : TreeNode} (hn : n.parent = -1) :
    Rooted mpTr recorded tr₀ { s with tr := s.tr ++ [n] } (s.tr.length :: R) T := by
  obtain ⟨U, hU, hmem⟩ := h.roots
  refine ⟨⟨U, (parentless_concat hn).trans (hU.cons _), hmem⟩, ?_, fun i hi => ⟨(h.tops i hi).1, ?_⟩⟩
  · have := h.length
    simp only [List.length_append, List.length_singleton]
    omega
  · obtain ⟨m, hm, ht, hc⟩ := (h.tops i hi).2
    exact ⟨m, by rw [List.getElem?_append_left (List.getElem?_eq_some_iff.mp hm).1, hm], ht, hc⟩

theorem Rooted.hang {cs : List Nat} {tr : List TreeNode} (h : Rooted mpTr recorded tr₀ s (cs ++ R) T)
    (hlen : tr.length = s.tr.length) (hroot : ∀ i, Root tr i ↔ Root s.tr i ∧ i ∉ cs)
    (hkeep : ∀ i ∈ T, i ∉ cs → i ∉ R → tr[i]? = s.tr[i]?) : Rooted mpTr recorded tr₀ { s with tr := tr } R T := by
  obtain ⟨U, hU, hmem⟩ := h.roots
  rw [List.append_assoc] at hU
  refine ⟨⟨U, parentless_of_hung hU hroot, hmem⟩, hlen ▸ h.length, fun i hi => ⟨(h.tops i hi).1, ?_⟩⟩
  have hdis := (List.nodup_append.mp h.nodup).2.2
  have hcs : i ∉ cs := fun hc => hdis i (List.mem_append_left R hc) i hi rfl
  have hR : i ∉ R := fun hr => hdis i (List.mem_append_right cs hr) i hi rfl
  obtain ⟨m, hm, ht, hc⟩ := (h.tops i hi).2
  exact ⟨m, (hkeep i hi hcs hR).trans hm, ht, hc⟩

variable (hinj : ∀ x y, recorded x → recorded y → mpTr x = mpTr y → x = y)
  (hroot₀ : ∀ x, recorded x → Root tr₀ (mpTr x))
include hinj hroot₀

/-- `get_treeNode` takes the node of the fragment from the unused ones, or makes a new one. -/
theorem getTreeNode_rooted {x : FragName} {i : Nat} (h : Rooted mpTr recorded tr₀ s R T) (hx : recorded x)
    (hget : getTreeNode mpTr x s = some (i, s')) :
    Rooted mpTr recorded tr₀ s' (i :: R) T ∧ ∀ y, s'.cpTr y = true ↔ s.cpTr y = true ∨ y = x := by
  unfold getTreeNode at hget
  split_ifs at hget with hcp
  · simp only [Option.bind_eq_bind, Option.bind_eq_some_iff, Option.some.injEq, Prod.mk.injEq] at hget
    obtain ⟨node, -, rfl, rfl⟩ := hget
    refine ⟨h.push rfl, fun y => ⟨.inl, ?_⟩⟩
    rintro (hy | rfl)
    · exact hy
    · exact hcp
  · rw [Option.some.injEq, Prod.mk.injEq] at hget
    obtain ⟨rfl, rfl⟩ := hget
    have hused : ∀ y, Function.update s.cpTr x true y = true ↔ s.cpTr y = true ∨ y = x := by
      intro y
      by_cases hyx : y = x
      · simp [hyx]
      · simp [hyx]
    obtain ⟨U, hU, hmem⟩ := h.roots
    have hin : mpTr x ∈ U := by
      refine (hmem _).mpr ⟨hroot₀ x hx, fun y hy hcy heq => hcp ?_⟩
      rwa [hinj y x hy hx heq] at hcy
    have hnd : U.Nodup := by
      have := hU.nodup_iff.mp (parentless_nodup s.tr)
      rw [← List.append_assoc] at this
      exact (List.nodup_append.mp this).2.1
    refine ⟨⟨⟨U.erase (mpTr x), ?_, fun i => ?_⟩, h.length, h.tops⟩, hused⟩
    · have hperm : (R ++ (T ++ U)).Perm (R ++ (T ++ mpTr x :: U.erase (mpTr x))) :=
        ((List.perm_cons_erase hin).append_left T).append_left R
      refine (hU.trans hperm).trans ?_
      rw [← List.append_assoc, List.cons_append, ← List.append_assoc]
      exact List.perm_middle
    · rw [hnd.mem_erase_iff, hmem]
      simp only [hused]
      constructor
      · rintro ⟨hne, hr, hall⟩
        refine ⟨hr, fun y hy hc => ?_⟩
        obtain hc | rfl := hc
        · exact hall y hy hc
        · exact hne.symm
      · rintro ⟨hr, hall⟩
        exact ⟨(hall x hx (.inr rfl)).symm, hr, fun y hy hc => hall y hy (.inl hc)⟩

theorem addChild_rooted {rel : String} {par : Nat} {num : Int} (h : Rooted mpTr recorded tr₀ s R T) (hpar : par ∈ R)
    (hx : recorded ⟨rel, num⟩) (hadd : addChild mpTr rel par s num = some s') :
    Rooted mpTr recorded tr₀ s' R T ∧ ∀ y, s'.cpTr y = true ↔ s.cpTr y = true ∨ y = ⟨rel, num⟩ := by
  obtain ⟨i, s₁, node, hget, hnode, rfl⟩ := addChild_inv hadd
  obtain ⟨h₁, hused⟩ := getTreeNode_rooted hinj hroot₀ h hx hget
  have hne : i ≠ par := by
    rintro rfl
    exact (List.nodup_cons.mp (List.nodup_append.mp h₁.nodup).1).1 hpar
  have h₁' : Rooted mpTr recorded tr₀ s₁ ([i] ++ R) T := h₁
  refine ⟨h₁'.hang ?_ (fun j => ?_) (fun j _ hj hR => ?_), hused⟩
  · rw [withChild, setParent_length, List.length_modify]
  · rw [List.mem_singleton]
    constructor
    · rintro ⟨m, hm, hp⟩
      rw [withChild_getElem?] at hm
      obtain ⟨n, hn, rfl⟩ := Option.map_eq_some_iff.mp hm
      by_cases hij : i = j
      · simp only [if_pos hij, TreeNode.under] at hp
        omega
      · refine ⟨⟨n, hn, ?_⟩, fun e => hij e.symm⟩
        rw [if_neg hij] at hp
        by_cases hpj : par = j
        · simpa only [if_pos hpj] using hp
        · simpa only [if_neg hpj] using hp
    · rintro ⟨⟨n, hn, hp⟩, hji⟩
      refine ⟨_, by rw [withChild_getElem?, hn]; rfl, ?_⟩
      dsimp only
      rw [if_neg (Ne.symm hji)]
      by_cases hpj : par = j
      · simpa only [if_pos hpj] using hp
      · simpa only [if_neg hpj] using hp
  · have hji : i ≠ j := fun e => hj (List.mem_singleton.mpr e.symm)
    have hjp : par ≠ j := fun e => hR (e ▸ hpar)
    rw [withChild_getElem?]
    simp only [if_neg hji, if_neg hjp, Option.map_id']

theorem operand_rooted {site : Int} {rel : String} {nums : List Int} {i : Nat} (h : Rooted mpTr recorded tr₀ s R T)
    (hx : ∀ num ∈ nums, recorded ⟨rel, num⟩) (hop : operand site mpTr rel nums s = some (i, s')) :
    Rooted mpTr recorded tr₀ s' (i :: R) T ∧
      ∀ y, s'.cpTr y = true ↔ s.cpTr y = true ∨ y ∈ nums.map (FragName.mk rel) := by
  unfold operand at hop
  split at hop
  · obtain ⟨h', hused⟩ := getTreeNode_rooted hinj hroot₀ h (hx _ (List.mem_singleton_self _)) hop
    exact ⟨h', fun y => by rw [hused, List.map_singleton, List.mem_singleton]⟩
  · simp only [Option.bind_eq_bind, Option.bind_eq_some_iff, Option.some.injEq, Prod.mk.injEq] at hop
    obtain ⟨c, hloop, rfl, rfl⟩ := hop
    refine Loops.invariant_seen (I := fun seen (c : Build) => Rooted mpTr recorded tr₀ c (s.tr.length :: R) T ∧
      ∀ y, c.cpTr y = true ↔ s.cpTr y = true ∨ y ∈ seen.map (FragName.mk rel)) ?_ ⟨h.push rfl, fun y => by simp⟩ hloop
    rintro pre num post hsplit c c' ⟨hc, hseen⟩ hstep
    obtain ⟨hc', hused⟩ := addChild_rooted hinj hroot₀ hc (List.mem_cons_self ..) (hx num (by rw [hsplit]; simp)) hstep
    refine ⟨hc', fun y => ?_⟩
    rw [hused, hseen, List.map_append, List.mem_append, List.map_singleton, List.mem_singleton, or_assoc]

theorem operands_rooted {site : Int} {rels : List String} {plist : Pattern}
    (hx : List.Forall₂ (fun rel nums => ∀ num ∈ nums, recorded ⟨rel, num⟩) rels plist) {is : List Nat}
    (h : Rooted mpTr recorded tr₀ s R T) (hops : operands site mpTr rels plist s = some (is, s')) :
    Rooted mpTr recorded tr₀ s' (is ++ R) T ∧ is.length = rels.length ∧
      ∀ y, s'.cpTr y = true ↔ s.cpTr y = true ∨ y ∈ (patternNames rels plist).flatten := by
  induction hx generalizing s R is with
  | nil =>
    cases hops
    exact ⟨h, rfl, fun y => by simp [patternNames]⟩
  | @cons rel nums rels plist hnums _ ih =>
    simp only [operands, Option.bind_eq_bind, Option.bind_eq_some_iff] at hops
    obtain ⟨⟨i, s₁⟩, hop, ⟨is, s₂⟩, hops, heq⟩ := hops
    cases heq
    obtain ⟨h₁, hused₁⟩ := operand_rooted hinj hroot₀ h hnums hop
    obtain ⟨h₂, hlen, hused₂⟩ := ih h₁ hops
    refine ⟨h₂.perm (List.perm_middle.append_right T) h₂.tops, by simp [hlen], fun y => ?_⟩
    rw [hused₂, hused₁, or_assoc]
    simp only [patternNames, List.zipWith_cons_cons, List.flatten_cons, List.mem_append]

omit hinj hroot₀

theorem pushJoin_rooted {site : Int} {S : List String} {c : JoinCell} {next : Option JoinCell} {l r i : Nat}
    (h : Rooted mpTr recorded tr₀ s (l :: r :: R) T) (hpush : pushJoin site S c next l r s = some (i, s')) :
    Rooted mpTr recorded tr₀ s' (i :: R) T ∧ s'.cpTr = s.cpTr ∧ tr₀.length ≤ i ∧ JoinOfTwo s'.tr i := by
  obtain ⟨m, ⟨hl, hr⟩, hmt, -, hmc, hmp, rfl, rfl⟩ := pushJoin_inv hpush
  have hpushed := h.push hmp
  have hperm : Rooted mpTr recorded tr₀ { s with tr := s.tr ++ [m] } ([l, r] ++ (s.tr.length :: R)) T := by
    refine hpushed.perm (List.Perm.append_right T ?_) hpushed.tops
    exact (List.Perm.swap ..).trans ((List.Perm.swap ..).cons l)
  have hmem : ∀ j, j ∉ [l, r] ↔ ¬ (l = j ∨ r = j) := by
    intro j
    simp only [List.mem_cons, List.not_mem_nil, or_false, eq_comm]
  have hother : ∀ j, j ∉ [l, r] → (withTop s.tr m l r)[j]? = (s.tr ++ [m])[j]? := by
    intro j hj
    simp only [withTop_getElem?, if_neg ((hmem j).mp hj), TreeNode.under, Option.map_id']
  refine ⟨hperm.hang ?_ (fun j => ?_) (fun j _ hj _ => hother j hj), rfl, h.length, m, withTop_new hl hr m, hmt,
    by rw [hmc]; rfl⟩
  · rw [withTop_length, List.length_append, List.length_singleton]
  · constructor
    · rintro ⟨n', hn', hp⟩
      by_cases hj : j ∈ [l, r]
      · rw [withTop_getElem?] at hn'
        obtain ⟨n, -, rfl⟩ := Option.map_eq_some_iff.mp hn'
        have hnew : l = j ∨ r = j := not_not.mp (mt (hmem j).mpr (not_not.mpr hj))
        simp only [if_pos hnew, TreeNode.under] at hp
        omega
      · rw [hother j hj] at hn'
        exact ⟨⟨n', hn', hp⟩, hj⟩
    · rintro ⟨⟨n, hn, hp⟩, hj⟩
      exact ⟨n, (hother j hj).trans hn, hp⟩

theorem joinChain_rooted {site : Int} {S : List String} {cs : List JoinCell} {is : List Nat} {par par' : Nat}
    (hlen : cs.length = is.length) (h : Rooted mpTr recorded tr₀ s (par :: is ++ R) T)
    (hchain : joinChain site S cs is par s = some (par', s')) :
    Rooted mpTr recorded tr₀ s' (par' :: R) T ∧ s'.cpTr = s.cpTr ∧
      (cs ≠ [] → tr₀.length ≤ par' ∧ JoinOfTwo s'.tr par') := by
  induction cs generalizing is par s with
  | nil =>
    obtain rfl := List.length_eq_zero_iff.mp hlen.symm
    cases hchain
    exact ⟨h, rfl, fun hne => absurd rfl hne⟩
  | cons c cs ih =>
    cases is with
    | nil => cases hlen
    | cons i is =>
      simp only [joinChain, Option.bind_eq_bind, Option.bind_eq_some_iff] at hchain
      obtain ⟨⟨par₁, s₁⟩, hpush, hchain⟩ := hchain
      obtain ⟨h₁, hcp₁, htop₁⟩ := pushJoin_rooted h hpush
      obtain ⟨h', hcp', htop'⟩ := ih (by simpa using hlen) h₁ hchain
      refine ⟨h', hcp'.trans hcp₁, fun _ => ?_⟩
      by_cases hcs : cs = []
      · subst hcs
        obtain rfl := List.length_eq_zero_iff.mp (by simpa using hlen.symm : is.length = 0)
        cases hchain
        exact htop₁
      · exact htop' hcs

include hinj hroot₀

theorem buildPattern_rooted {site : Int} {S : List String} {J : List JoinCell} (hJ : J ≠ []) {plist : Pattern}
    (hx : List.Forall₂ (fun rel nums => ∀ num ∈ nums, recorded ⟨rel, num⟩) (relation J) plist)
    (h : Rooted mpTr recorded tr₀ s [] T) (hbuild : buildPattern site mpTr S J s plist = some s') :
    Rooted mpTr recorded tr₀ s' [] ((s'.tr.length - 1) :: T) ∧
      ∀ y, s'.cpTr y = true ↔ s.cpTr y = true ∨ y ∈ (patternNames (relation J) plist).flatten := by
  simp only [buildPattern, Option.bind_eq_bind, Option.bind_eq_some_iff] at hbuild
  obtain ⟨⟨is, s₁⟩, hops, hbuild⟩ := hbuild
  obtain ⟨h₁, hlen, hused⟩ := operands_rooted hinj hroot₀ hx h hops
  rw [length_relation hJ] at hlen
  cases is with
  | nil => cases hbuild
  | cons i is =>
    simp only [Option.bind_eq_some_iff] at hbuild
    obtain ⟨⟨top, s₂⟩, hchain, heq⟩ := hbuild
    cases heq
    have hlen' : J.length = is.length := by simpa using hlen.symm
    obtain ⟨h₂, hcp, htop⟩ := joinChain_rooted hlen' h₁ hchain
    rw [joinChain_last hlen' hJ hchain] at h₂ htop
    refine ⟨h₂.perm (.refl _) ?_, fun y => by rw [hcp, hused]⟩
    exact List.forall_mem_cons.mpr ⟨htop hJ, h₂.tops⟩

end

/-! ## The whole construction -/

theorem mem_patternNames {rels : List String} {plist : Pattern} (hfull : Pattern.Full rels.length plist)
    {y : FragName} :
    y ∈ (patternNames rels plist).flatten ↔ ∃ nums ∈ plist.sections, y ∈ List.zipWith FragName.mk rels nums := by
  rw [List.mem_flatten]
  constructor
  · rintro ⟨names, hnames, hy⟩
    obtain ⟨j, hj⟩ := List.mem_iff_getElem?.mp hnames
    rw [patternNames, List.getElem?_zipWith_eq_some] at hj
    obtain ⟨rel, nums, hrel, hnums, rfl⟩ := hj
    obtain ⟨num, hnum, rfl⟩ := List.mem_map.mp hy
    obtain ⟨sec, hsec, hat⟩ := Bags.exists_section hfull.2 hnums hnum
    refine ⟨sec, hsec, List.mem_of_getElem? (i := j) ?_⟩
    rw [List.getElem?_zipWith_eq_some]
    exact ⟨rel, num, hrel, hat, rfl⟩
  · rintro ⟨sec, hsec, hy⟩
    obtain ⟨j, hj⟩ := List.mem_iff_getElem?.mp hy
    rw [List.getElem?_zipWith_eq_some] at hj
    obtain ⟨rel, num, hrel, hnum, rfl⟩ := hj
    obtain ⟨hlen, hget⟩ := List.forall₂_iff_get.mp (List.mem_sections.mp hsec)
    obtain ⟨hlt, rfl⟩ := List.getElem?_eq_some_iff.mp hnum
    have hin := hget j hlt (hlen ▸ hlt)
    refine ⟨_, List.mem_of_getElem? (i := j) ?_, List.mem_map_of_mem (f := FragName.mk rel) hin⟩
    rw [patternNames, List.getElem?_zipWith_eq_some]
    exact ⟨rel, _, hrel, List.getElem?_eq_getElem (hlen ▸ hlt), rfl⟩

theorem mem_patterns_iff {rels : List String} {res : List Pattern} {JL : List (List FragName)}
    (hsec : (res.flatMap List.sections).Perm (JL.map fun l => l.map FragName.num))
    (hfull : ∀ plist ∈ res, Pattern.Full rels.length plist) (htab : ∀ l ∈ JL, l.map FragName.table = rels)
    {y : FragName} : (∃ plist ∈ res, y ∈ (patternNames rels plist).flatten) ↔ ∃ l ∈ JL, y ∈ l := by
  constructor
  · rintro ⟨plist, hplist, hy⟩
    obtain ⟨nums, hnums, hy⟩ := (mem_patternNames (hfull plist hplist)).mp hy
    have hmem := hsec.mem_iff.mp (List.mem_flatMap.mpr ⟨plist, hplist, hnums⟩)
    obtain ⟨l, hl, rfl⟩ := List.mem_map.mp hmem
    rw [zipWith_mk_of_tables (htab l hl)] at hy
    exact ⟨l, hl, hy⟩
  · rintro ⟨l, hl, hy⟩
    have hmem := hsec.mem_iff.mpr (List.mem_map_of_mem hl)
    obtain ⟨plist, hplist, hnums⟩ := List.mem_flatMap.mp hmem
    refine ⟨plist, hplist, (mem_patternNames (hfull plist hplist)).mpr ⟨_, hnums, ?_⟩⟩
    rwa [zipWith_mk_of_tables (htab l hl)]

section
variable {Tables : List MetadataTable} {q : Query} {p : JoinPlan} (hplan : Planned Tables q p)
  (hnamed : ∀ T ∈ Tables, ∀ F ∈ T.frags, F.fname.table = T.name) {ch : List JoinCell} (hpath : Path ch q.join)
include hplan hnamed hpath

theorem buildSite_rooted {s s' : Build} {T : List Nat} {site : Int}
    (h : Rooted p.scan.mpTr (Kept p.scan) p.scan.tr s [] T)
    (hbuild : buildSite p.scan.mpTr p.query.selectAttr p.join p.joinSite s site = some s') :
    (∃ T', Rooted p.scan.mpTr (Kept p.scan) p.scan.tr s' [] T') ∧
      ∀ y, s'.cpTr y = true ↔ s.cpTr y = true ∨ ∃ l ∈ p.joinSite site, y ∈ l := by
  have hforest := scanTables_forest hplan.scan
  unfold buildSite at hbuild
  split_ifs at hbuild with hnil
  · cases hbuild
    exact ⟨⟨T, h⟩, fun y => by simp [hnil]⟩
  · rw [Option.bind_eq_bind, Option.bind_eq_some_iff] at hbuild
    obtain ⟨res, hres, hbuild⟩ := hbuild
    obtain ⟨hJ, res', hres', hsec, hkept⟩ := hplan.sitePatterns hnamed hpath hnil (getPattern_length hres)
    obtain rfl : res = res' := Option.some.inj (hres.symm.trans hres')
    have hloop := Loops.invariant_seen (I := fun seen (c : Build) =>
      (∃ T', Rooted p.scan.mpTr (Kept p.scan) p.scan.tr c [] T') ∧
        ∀ y, c.cpTr y = true ↔ s.cpTr y = true ∨ ∃ plist ∈ seen, y ∈ (patternNames (relation p.join) plist).flatten)
      (fun pre plist post hsplit c c' hc hstep => ?_) ⟨⟨T, h⟩, fun y => by simp⟩ hbuild
    · refine ⟨hloop.1, fun y => ?_⟩
      rw [hloop.2, mem_patterns_iff hsec (fun plist hplist => (hkept plist hplist).1) fun l hl =>
        (hplan.joinList_tables hnamed hpath (hplan.mem_joinSite hl)).1]
    · obtain ⟨⟨T', hT'⟩, hused⟩ := hc
      have hmem : plist ∈ res := by
        rw [hsplit]
        simp
      obtain ⟨htop, hused'⟩ := buildPattern_rooted (fun x y => hforest.mpTr_inj)
        (fun x hx => hforest.ready.free x hx rfl) hJ (hkept plist hmem).2 hT' hstep
      refine ⟨⟨_, htop⟩, fun y => ?_⟩
      rw [hused', hused, or_assoc]
      simp

theorem unused_iff {cpTr : FragName → Bool}
    (hused : ∀ y, cpTr y = true ↔ ∃ site ∈ ([1, 2, 3, 4] : List Int), ∃ l ∈ p.joinSite site, y ∈ l) {i : Nat} :
    (∀ x, Kept p.scan x → cpTr x = true → p.scan.mpTr x ≠ i) ↔
      ∀ site ∈ ([1, 2, 3, 4] : List Int), ∀ l ∈ p.joinSite site, ∀ x ∈ l, p.scan.mpTr x ≠ i := by
  constructor
  · intro h site hsite l hl x hx
    have hkept := (hplan.joinList_tables hnamed hpath (hplan.mem_joinSite hl)).2.2 x hx
    exact h x hkept ((hused x).mpr ⟨site, hsite, l, hl, hx⟩)
  · intro h x _ hx
    obtain ⟨site, hsite, l, hl, hx⟩ := (hused x).mp hx
    exact h site hsite l hl x hx

/-- The nodes without a parent before the final phase: the tops of the patterns, and the nodes of the scan that
belong to no join list of the four sites. -/
theorem buildForest_roots {tr : List TreeNode} (hbuild : buildForest p = some tr) :
    ∃ T : List Nat, (∀ i ∈ T, p.scan.tr.length ≤ i ∧ JoinOfTwo tr i) ∧ ∀ i, Root tr i ↔ i ∈ T ∨ (Root p.scan.tr i ∧
      ∀ site ∈ ([1, 2, 3, 4] : List Int), ∀ l ∈ p.joinSite site, ∀ x ∈ l, p.scan.mpTr x ≠ i) := by
  obtain ⟨s, hs, rfl⟩ := Option.map_eq_some_iff.mp hbuild
  have hstart : Rooted p.scan.mpTr (Kept p.scan) p.scan.tr ⟨p.scan.tr, fun _ => false⟩ [] [] :=
    ⟨⟨parentless p.scan.tr, .refl _, fun i => by rw [mem_parentless_iff_root]; simp⟩, le_rfl, by simp⟩
  have hrun := Loops.invariant_seen (I := fun seen (c : Build) =>
    (∃ T, Rooted p.scan.mpTr (Kept p.scan) p.scan.tr c [] T) ∧
      ∀ y, c.cpTr y = true ↔ ∃ site ∈ seen, ∃ l ∈ p.joinSite site, y ∈ l)
    (fun pre site post _ c c' hc hstep => by
      obtain ⟨⟨T, hT⟩, hused⟩ := hc
      obtain ⟨hT', hused'⟩ := buildSite_rooted hplan hnamed hpath hT hstep
      refine ⟨hT', fun y => ?_⟩
      rw [hused', hused]
      simp [or_and_right, exists_or]) ⟨⟨[], hstart⟩, fun y => by simp⟩ hs
  obtain ⟨⟨T, hT⟩, hused⟩ := hrun
  obtain ⟨U, hU, hmem⟩ := hT.roots
  refine ⟨T, hT.tops, fun i => ?_⟩
  have hi : Root s.tr i ↔ i ∈ T ∨ i ∈ U := by
    rw [← List.mem_append, ← List.nil_append (T ++ U), ← hU.mem_iff]
    exact mem_parentless_iff_root.symm
  rw [hi, hmem, unused_iff hplan hnamed hpath hused]

end

/-- A Join node that the construction of a pattern has pushed over two operands. -/
def PatternJoin (p : JoinPlan) (tr : List TreeNode) (i : Nat) : Prop := p.scan.tr.length ≤ i ∧ JoinOfTwo tr i

/-- **Only join results reach the root** exactly if every node that the scan leaves without a parent is the node of a
fragment that occurs in a join list. -/
theorem only_joins_reach_root_iff (Tables : List MetadataTable) (q : Query)
    (hnamed : ∀ T ∈ Tables, ∀ F ∈ T.frags, F.fname.table = T.name) (hpath : ∃ ch, Path ch q.join) :
    (PlanDefined Tables q → ∃ p, planJoins Tables q = some p) ∧
    ∀ p, planJoins Tables q = some p → (∀ site ∈ ([1, 2, 3, 4] : List Int), (p.joinSite site).length ≤ 300) →
      ∃ tr, buildForest p = some tr ∧
        ((∀ i ∈ parentless tr, PatternJoin p tr i) ↔
          ∀ i ∈ parentless p.scan.tr, ∃ site ∈ ([1, 2, 3, 4] : List Int), ∃ l ∈ p.joinSite site, ∃ x ∈ l,
            p.scan.mpTr x = i) := by
  refine ⟨planJoins_defined, fun p hp h300 => ?_⟩
  obtain ⟨ch, hpath⟩ := hpath
  have hplan := planJoins_planned hp
  have hsome : ∃ tr, buildForest p = some tr := by
    by_cases hnil : p.scan.tr = []
    · exact ⟨[], buildForest_nil hplan hnamed hpath hnil⟩
    · obtain ⟨tr, htr, -⟩ := buildForest_ready hplan hnamed hpath hnil h300
      exact ⟨tr, htr⟩
  obtain ⟨tr, htr⟩ := hsome
  obtain ⟨T, htops, hroots⟩ := buildForest_roots hplan hnamed hpath htr
  refine ⟨tr, htr, ?_⟩
  constructor
  · intro h i hi
    by_contra hnone
    push Not at hnone
    have hroot₀ : Root p.scan.tr i := mem_parentless_iff_root.mp hi
    have hroot : Root tr i := (hroots i).mpr (.inr ⟨hroot₀, hnone⟩)
    have hlt := hroot₀.lt
    have hge := (h i (mem_parentless_iff_root.mpr hroot)).1
    omega
  · intro h i hi
    obtain hT | ⟨hroot, hunused⟩ := (hroots i).mp (mem_parentless.mp hi)
    · exact htops i hT
    · obtain ⟨site, hsite, l, hl, x, hx, heq⟩ := h i (mem_parentless.mpr hroot)
      exact absurd heq (hunused site hsite l hl x hx)

/-- The predicate of the query is about `Book` only, so all fragments of `Publisher` are dropped, no join list is
left, and the root of the tree unites Fragment nodes of `Book`. -/
theorem bookPublisher_fragments_reach_root :
    Path bookPublisher.join bookPublisher.join ∧ ∃ p tr t, planJoins getMetadata bookPublisher = some p ∧
      buildForest p = some tr ∧ buildQueryTree getMetadata bookPublisher = some t ∧
      ∃ i ∈ parentless tr, ¬ PatternJoin p tr i ∧
        ∃ n m, t.tr[i]? = some n ∧ n.type = .fragment ∧ t.tr[t.root.toNat]? = some m ∧ i ∈ m.child := by
  have hpath : Path bookPublisher.join bookPublisher.join := ⟨⟨by simp [bookPublisher], by decide⟩, .refl _⟩
  have hrun : ((planJoins getMetadata bookPublisher).any fun p => (buildForest p).any fun tr =>
      (buildQueryTree getMetadata bookPublisher).any fun t => (parentless tr).any fun i =>
        i < p.scan.tr.length && (t.tr[i]?).any (fun n => n.type = .fragment) &&
          (t.tr[t.root.toNat]?).any fun m => i ∈ m.child) = true := by
    decide +kernel
  simp only [Option.any_eq_true, List.any_eq_true, Bool.and_eq_true, decide_eq_true_eq] at hrun
  obtain ⟨p, hp, tr, htr, t, ht, i, hi, ⟨hlt, n, hn, htype⟩, m, hm, hmem⟩ := hrun
  refine ⟨hpath, p, tr, t, hp, htr, ht, i, hi, fun hjoin => ?_, n, m, hn, htype, hm, hmem⟩
  have := hjoin.1
  omega

theorem bookOrdersCustomer_only_joins : ∃ p tr, planJoins getMetadata bookOrdersCustomer = some p ∧
    buildForest p = some tr ∧ ∀ i ∈ parentless tr, PatternJoin p tr i := by
  have h := only_joins_reach_root_iff getMetadata bookOrdersCustomer (by decide) ⟨_, bookOrdersCustomer_path⟩
  obtain ⟨p, hp⟩ := h.1 ⟨by decide, by decide, by decide, by decide, by decide, by decide, by decide⟩
  have hall : ((planJoins getMetadata bookOrdersCustomer).all fun p => p.joinList.length ≤ 300 ∧
      ∀ i ∈ parentless p.scan.tr, ∃ site ∈ ([1, 2, 3, 4] : List Int), ∃ l ∈ p.joinSite site, ∃ x ∈ l,
        p.scan.mpTr x = i) = true := by
    decide +kernel
  rw [hp, Option.all_some, decide_eq_true_eq] at hall
  obtain ⟨tr, htr, hiff⟩ := h.2 p hp fun site _ => ((planJoins_planned hp).joinSite_length site).trans hall.1
  exact ⟨p, tr, hp, htr, hiff.mpr hall.2⟩

end EasyDDB.Optimizer
