import EasyDDB.Lib.Arena
import EasyDDB.Optimizer.Defined
import EasyDDB.Optimizer.JoinLists
import EasyDDB.Optimizer.PatternFacts

/-! # The tree is a tree

Every phase keeps the node vector a forest: nodes are pushed without relatives, and only roots are hung
below other roots. The recorded node of a fragment is a root until its first use, and later uses get a
fresh copy. -/
namespace EasyDDB.Optimizer
open Arena
set_option autoImplicit false

/-- `root` is the only node without a parent, every other node is listed exactly once, by its parent,
and following parents from any node leads to the root. -/
structure Tree.WellFormed (t : Tree) : Prop where
  root : 0 ≤ t.root ∧ ∃ n, t.tr[t.root.toNat]? = some n ∧ n.parent = -1
  parent : ∀ (i : Nat) n, t.tr[i]? = some n → (i : Int) ≠ t.root →
    ∃ (p : Nat) (m : TreeNode), n.parent = p ∧ t.tr[p]? = some m ∧ m.child.count i = 1 ∧
      ∀ (p' : Nat) (m' : TreeNode), t.tr[p']? = some m' → i ∈ m'.child → p' = p
  child : ∀ (p : Nat) m, t.tr[p]? = some m → ∀ i ∈ m.child, ∃ n, t.tr[i]? = some n ∧ n.parent = (p : Int)
  reaches : ∀ i < t.tr.length, Relation.ReflTransGen (Up TreeNode.parent t.tr) i t.root.toNat

abbrev Forested (tr : List TreeNode) : Prop := Forest TreeNode.parent TreeNode.child tr

abbrev Root (tr : List TreeNode) (i : Nat) : Prop := IsRoot TreeNode.parent tr i

theorem Tree.WellFormed.of_forest {t : Tree} {k : Nat} (hroot : t.root = k) (h : Forested t.tr) (hk : Root t.tr k)
    (honly : ∀ i, Root t.tr i → i = k) : t.WellFormed := by
  have hnat : t.root.toNat = k := by rw [hroot]; exact Int.toNat_natCast k
  refine ⟨⟨by omega, by rw [hnat]; exact hk⟩, ?_, fun p m hm i hi => h.child p m hm i hi, ?_⟩
  · intro i n hn hne
    obtain hr | ⟨p, m, hu, hm, hi⟩ := h.parent i (List.getElem?_eq_some_iff.mp hn).1
    · exact absurd (honly i hr) (fun e => hne (by rw [hroot, e]))
    · obtain ⟨n', hn', hp⟩ := id hu
      rw [hn] at hn'
      cases hn'
      refine ⟨p, m, hp, hm, List.count_eq_one_of_mem (h.nodup p m hm) hi, ?_⟩
      exact fun p' m' hm' hi' => (h.child p' m' hm' i hi').unique hu
  · intro i hi
    obtain ⟨j, hj, hpath⟩ := h.reaches_root hi
    rw [hnat, ← honly j hj]
    exact hpath

/-! ## The scan of the catalog -/

/-- The nodes of the scan are a forest, its last node a root, and the node recorded for a kept fragment is a
root that carries the fragment's name. -/
structure ScanForest (s : Scan) : Prop where
  forest : Forested s.tr
  last : s.tr ≠ [] → Root s.tr (s.tr.length - 1)
  recorded : ∀ t, ∀ X ∈ s.pruning t, ∃ n, s.tr[s.mpTr X.fname]? = some n ∧ n.parent = -1 ∧ n.fname = X.fname

theorem Forested.append_roots {tr : List TreeNode} (h : Forested tr) (l : List TreeNode) (hl : ∀ n ∈ l, n.child = []) :
    Forested (tr ++ l.map fun n => n.under (-1)) := by
  induction l using List.reverseRecOn with
  | nil => simpa using h
  | append_singleton l n ih =>
    rw [List.map_append, ← List.append_assoc]
    exact (ih fun m hm => hl m (List.mem_append_left _ hm)).push rfl (hl n (by simp))

/-- Nodes that all hang below one node pushed after them. The proof starts from the same nodes as roots. -/
theorem Forested.append_block {tr below : List TreeNode} {top : TreeNode} (h : Forested tr)
    (hbelow : ∀ n ∈ below, n.parent = ((tr.length + below.length : Nat) : Int) ∧ n.child = []) (htop : top.parent = -1)
    (hnd : top.child.Nodup) (hchild : ∀ i, i ∈ top.child ↔ tr.length ≤ i ∧ i < tr.length + below.length) :
    Forested (tr ++ (below ++ [top])) := by
  have hbase := h.append_roots below fun n hn => (hbelow n hn).2
  have hlen : (tr ++ below.map fun n => n.under (-1)).length = tr.length + below.length := by simp
  have hbare : ({ top with child := [] } : TreeNode).parent = -1 := htop
  refine hbase.adopt (m := top) ⟨?_, ?_, rfl, htop, ?_⟩ hbare rfl hnd ?_
  · rw [hlen]
    simp [Nat.add_assoc]
  · rw [hlen, ← List.append_assoc, List.getElem?_append_right (by simp)]
    simp
  · intro j n hj
    rw [hlen]
    by_cases hjt : j < tr.length
    · rw [List.getElem?_append_left hjt] at hj
      refine ⟨n, by rw [List.getElem?_append_left hjt, hj], rfl, ?_⟩
      rw [if_neg fun hmem => absurd ((hchild j).mp hmem).1 (by omega)]
    · have hjb : j - tr.length < below.length := by
        have := (List.getElem?_eq_some_iff.mp hj).1
        rw [hlen] at this
        omega
      rw [List.getElem?_append_right (by omega), List.getElem?_map, List.getElem?_eq_getElem hjb] at hj
      cases hj
      refine ⟨below[j - tr.length], ?_, rfl, ?_⟩
      · rw [List.getElem?_append_right (by omega), List.getElem?_append_left hjb, List.getElem?_eq_getElem hjb]
      · rw [if_pos ((hchild j).mpr ⟨by omega, by omega⟩)]
        exact (hbelow _ (List.getElem_mem hjb)).1
  · intro i hi
    obtain ⟨h1, h2⟩ := (hchild i).mp hi
    have hib : i - tr.length < below.length := by omega
    refine ⟨(below[i - tr.length]).under (-1), ?_, rfl⟩
    rw [List.getElem?_append_right h1, List.getElem?_map, List.getElem?_eq_getElem hib]
    rfl

theorem ScanForest.record {s : Scan} (h : ScanForest s) {below : List TreeNode} {top : TreeNode}
    (hbelow : ∀ n ∈ below, n.parent = ((s.tr.length + below.length : Nat) : Int) ∧ n.child = []) (htop : top.parent = -1)
    (hnd : top.child.Nodup) (hchild : ∀ i, i ∈ top.child ↔ s.tr.length ≤ i ∧ i < s.tr.length + below.length)
    {frag : Fragment} (hname : top.fname = frag.fname) (table : MetadataTable) (relationSize : List (String × Int))
    (siteNums : List SiteNum) : ScanForest (s.record below top table frag relationSize siteNums) := by
  have htopget : (s.tr ++ (below ++ [top]))[s.tr.length + below.length]? = some top := by
    rw [← List.append_assoc, List.getElem?_append_right (by simp)]
    simp
  have hold : ∀ {i : Nat} {n : TreeNode}, s.tr[i]? = some n → (s.tr ++ (below ++ [top]))[i]? = some n := by
    intro i n hn
    rw [List.getElem?_append_left (List.getElem?_eq_some_iff.mp hn).1, hn]
  refine ⟨h.forest.append_block hbelow htop hnd hchild, fun _ => ?_, ?_⟩
  · simp only [Scan.record]
    have hlast : (s.tr ++ (below ++ [top])).length - 1 = s.tr.length + below.length := by simp
    rw [hlast]
    exact ⟨top, htopget, htop⟩
  · intro t X hX
    simp only [Scan.record] at hX ⊢
    by_cases hXf : X.fname = frag.fname
    · rw [hXf, Function.update_self]
      exact ⟨top, htopget, htop, hname⟩
    · rw [Function.update_of_ne hXf]
      have hmem : X ∈ s.pruning t := by
        by_cases ht : t = table.name
        · subst ht
          rw [Function.update_self, List.mem_append, List.mem_singleton] at hX
          exact hX.resolve_right fun e => hXf (e ▸ rfl)
        · rwa [Function.update_of_ne ht] at hX
      obtain ⟨n, hn, hp, hf⟩ := h.recorded t X hmem
      exact ⟨n, hold hn, hp, hf⟩

theorem ScanForest.recordVf {s : Scan} (h : ScanForest s) {q : Query} {table : MetadataTable} {first frag : Fragment}
    {below : List TreeNode} {top : TreeNode} (hs : VfShape q table first s.tr.length frag below top)
    (relationSize : List (String × Int)) (siteNums : List SiteNum) :
    ScanForest (s.record below top table frag relationSize siteNums) := by
  cases hs with
  | key _ =>
    exact h.record (by simp) rfl List.nodup_nil (fun i => by simp [vfKeyNode]) rfl table relationSize siteNums
  | one frag _ =>
    exact h.record (by simp) rfl List.nodup_nil (fun i => by simp [vfNode]) rfl table relationSize siteNums
  | several _ =>
    have hkids : (vfJoinNode q table first (vfOperands q table) (s.tr.length + (vfOperands q table).length)).child =
        (List.range (vfOperands q table).length).map
          fun i => s.tr.length + (vfOperands q table).length - (i + 1) := rfl
    refine h.record ?_ rfl ?_ ?_ rfl table relationSize siteNums
    · intro n hn
      obtain ⟨m, hm, rfl⟩ := List.mem_map.mp hn
      obtain ⟨F, -, projection, rfl⟩ := vfOperands_node hm
      exact ⟨by rw [List.length_map]; rfl, rfl⟩
    · rw [hkids]
      refine List.Nodup.map_on (fun i hi j hj hij => ?_) List.nodup_range
      rw [List.mem_range] at hi hj
      omega
    · intro i
      rw [hkids, List.mem_map, List.length_map]
      constructor
      · rintro ⟨j, hj, rfl⟩
        rw [List.mem_range] at hj
        omega
      · rintro ⟨h1, h2⟩
        exact ⟨s.tr.length + (vfOperands q table).length - (i + 1), List.mem_range.mpr (by omega), by omega⟩

theorem scanTables_forest {q : Query} {Tables : List MetadataTable} {s : Scan} (h : scanTables q Tables = some s) :
    ScanForest s := by
  refine Loops.invariant (I := ScanForest) ?_ ⟨forest_nil, fun hne => absurd rfl hne, fun t X hX => by cases hX⟩ h
  intro table _ c c' hc hstep
  refine scanTable_invariant ScanForest (fun c r hc => ⟨hc.forest, hc.last, hc.recorded⟩) ?_ ?_ hc hstep
  · intro c frag select r siteNums _ _ hc _ _
    exact hc.record (by simp) rfl List.nodup_nil (fun i => by simp [hfNode]) rfl table r siteNums
  · intro c first frag below top r siteNums _ hc hshape _
    exact hc.recordVf hshape r siteNums

/-! ## Building the join subtrees -/

/-- While subtrees are built: `recorded` names have a node, which is a root until it is used, and the
operands `R` still to be joined are further roots. -/
structure Ready (mpTr : FragName → Nat) (recorded : FragName → Prop) (s : Build) (R : List Nat) : Prop where
  forest : Forested s.tr
  valid : ∀ x, recorded x → mpTr x < s.tr.length
  free : ∀ x, recorded x → s.cpTr x = false → Root s.tr (mpTr x)
  roots : ∀ i ∈ R, Root s.tr i
  nodup : R.Nodup
  apart : ∀ i ∈ R, ∀ x, recorded x → s.cpTr x = false → mpTr x ≠ i

section
variable {mpTr : FragName → Nat} {recorded : FragName → Prop} {s : Build} {R : List Nat}

theorem Ready.perm {R' : List Nat} (h : Ready mpTr recorded s R) (hp : R.Perm R') : Ready mpTr recorded s R' where
  forest := h.forest
  valid := h.valid
  free := h.free
  roots := fun i hi => h.roots i (hp.mem_iff.mpr hi)
  nodup := hp.nodup_iff.mp h.nodup
  apart := fun i hi => h.apart i (hp.mem_iff.mpr hi)

theorem Ready.forget (h : Ready mpTr recorded s R) : Ready mpTr recorded s [] where
  forest := h.forest
  valid := h.valid
  free := h.free
  roots := by simp
  nodup := List.nodup_nil
  apart := by simp

theorem Ready.push (h : Ready mpTr recorded s R) {n : TreeNode} (hn : n.parent = -1) (hc : n.child = []) :
    Ready mpTr recorded { s with tr := s.tr ++ [n] } (s.tr.length :: R) where
  forest := h.forest.push hn hc
  valid := fun x hx => by
    have := h.valid x hx
    simp only [List.length_append, List.length_singleton]
    omega
  free := fun x hx hcp => isRoot_append (h.free x hx hcp) _
  roots := fun i hi => by
    obtain rfl | hi := List.mem_cons.mp hi
    · exact isRoot_concat hn
    · exact isRoot_append (h.roots i hi) _
  nodup := List.nodup_cons.mpr ⟨fun hmem => absurd (h.roots _ hmem).lt (lt_irrefl _), h.nodup⟩
  apart := fun i hi x hx hcp => by
    obtain rfl | hi := List.mem_cons.mp hi
    · exact (h.valid x hx).ne
    · exact h.apart i hi x hx hcp

theorem Ready.hang {cs : List Nat} {p : Nat} {tr : List TreeNode} (h : Ready mpTr recorded s (cs ++ R)) (hp : p ∈ R)
    (hh : Hung TreeNode.parent TreeNode.child s.tr tr cs p) : Ready mpTr recorded { s with tr := tr } R := by
  obtain ⟨hcs, hR, hdis⟩ := List.nodup_append.mp h.nodup
  have hout : ∀ i ∈ R, i ∉ cs := fun i hi hic => hdis i hic i hi rfl
  have hroots : ∀ i ∈ R, Root s.tr i := fun i hi => h.roots i (List.mem_append_right _ hi)
  refine ⟨Forest.hang hh h.forest hcs (fun i hi => h.roots i (List.mem_append_left _ hi)) (hroots p hp) (hout p hp),
    fun x hx => hh.length.symm ▸ h.valid x hx, ?_, fun i hi => hh.isRoot (hout i hi) (hroots i hi), hR,
    fun i hi => h.apart i (List.mem_append_right _ hi)⟩
  intro x hx hcp
  exact hh.isRoot (fun hmem => h.apart _ (List.mem_append_left _ hmem) x hx hcp rfl) (h.free x hx hcp)

theorem Ready.adopt {cs : List Nat} {m : TreeNode} {tr : List TreeNode} (h : Ready mpTr recorded s (cs ++ R))
    (ha : Adopted TreeNode.parent TreeNode.child s.tr tr cs m) :
    Ready mpTr recorded { s with tr := tr } (s.tr.length :: R) := by
  obtain ⟨hcs, hR, hdis⟩ := List.nodup_append.mp h.nodup
  have hroots : ∀ i ∈ R, Root s.tr i := fun i hi => h.roots i (List.mem_append_right _ hi)
  have hbare : ({ m with child := [] } : TreeNode).parent = -1 := ha.topPar
  refine ⟨h.forest.adopt ha hbare rfl hcs
    (fun i hi => h.roots i (List.mem_append_left _ hi)), ?_, ?_, ?_, ?_, ?_⟩
  · intro x hx
    have := h.valid x hx
    rw [ha.length]
    omega
  · intro x hx hcp
    exact ha.isRoot (fun hmem => h.apart _ (List.mem_append_left _ hmem) x hx hcp rfl) (h.free x hx hcp)
  · intro i hi
    obtain rfl | hi := List.mem_cons.mp hi
    · exact ha.isRoot_top
    · exact ha.isRoot (fun hic => hdis i hic i hi rfl) (hroots i hi)
  · exact List.nodup_cons.mpr ⟨fun hmem => absurd (hroots _ hmem).lt (lt_irrefl _), hR⟩
  · intro i hi x hx hcp
    obtain rfl | hi := List.mem_cons.mp hi
    · exact (h.valid x hx).ne
    · exact h.apart i (List.mem_append_right _ hi) x hx hcp

variable (hinj : ∀ x y, recorded x → recorded y → mpTr x = mpTr y → x = y)
include hinj

theorem getTreeNode_ready (h : Ready mpTr recorded s R) {x : FragName} (hx : recorded x) :
    ∃ i s', getTreeNode mpTr x s = some (i, s') ∧ Ready mpTr recorded s' (i :: R) := by
  unfold getTreeNode
  split_ifs with hcp
  · rw [List.getElem?_eq_getElem (h.valid x hx)]
    exact ⟨_, _, rfl, h.push rfl rfl⟩
  · have hcp' := Bool.eq_false_iff.mpr hcp
    have hother : ∀ y, Function.update s.cpTr x true y = false → y ≠ x ∧ s.cpTr y = false := by
      intro y hy
      by_cases hyx : y = x
      · subst hyx
        rw [Function.update_self] at hy
        cases hy
      · rw [Function.update_of_ne hyx] at hy
        exact ⟨hyx, hy⟩
    refine ⟨_, _, rfl, h.forest, h.valid, fun y hy hc => h.free y hy (hother y hc).2, ?_, ?_, ?_⟩
    · intro i hi
      obtain rfl | hi := List.mem_cons.mp hi
      · exact h.free x hx hcp'
      · exact h.roots i hi
    · exact List.nodup_cons.mpr ⟨fun hmem => h.apart _ hmem x hx hcp' rfl, h.nodup⟩
    · intro i hi y hy hc
      obtain ⟨hyx, hcy⟩ := hother y hc
      obtain rfl | hi := List.mem_cons.mp hi
      · exact fun heq => hyx (hinj y x hy hx heq)
      · exact h.apart i hi y hy hcy

theorem addChild_ready {rel : String} {par : Nat} {num : Int} (h : Ready mpTr recorded s R) (hpar : par ∈ R)
    (hx : recorded ⟨rel, num⟩) :
    ∃ s', addChild mpTr rel par s num = some s' ∧ Ready mpTr recorded s' R := by
  obtain ⟨i, s₁, hget, h₁⟩ := getTreeNode_ready hinj h hx
  obtain ⟨n, hn, -⟩ := h₁.roots i (List.mem_cons_self ..)
  have hne : i ≠ par := fun e => (List.nodup_cons.mp h₁.nodup).1 (e ▸ hpar)
  simp only [addChild, hget, Option.bind_eq_bind, Option.bind_some, hn]
  have h₁' : Ready mpTr recorded s₁ ([i] ++ R) := h₁
  refine ⟨_, rfl, h₁'.hang hpar ⟨?_, ?_⟩⟩
  · rw [setParent_length, List.length_modify]
  · intro j m hj
    rw [setParent_getElem?, List.getElem?_modify, hj]
    by_cases hjp : j = par
    · subst hjp
      exact ⟨_, rfl, by simp [hne], by simp [hne, Ne.symm hne]⟩
    · by_cases hji : i = j
      · subst hji
        exact ⟨_, rfl, by simp [TreeNode.under, hjp, Ne.symm hjp], by simp [TreeNode.under]⟩
      · exact ⟨_, rfl, by simp [hji, hjp, Ne.symm hjp], by simp [hji, Ne.symm hji, Ne.symm hjp]⟩

theorem operand_ready (site : Int) {rel : String} {nums : List Int} (h : Ready mpTr recorded s R)
    (hx : ∀ num ∈ nums, recorded ⟨rel, num⟩) :
    ∃ i s', operand site mpTr rel nums s = some (i, s') ∧ Ready mpTr recorded s' (i :: R) := by
  unfold operand
  split
  · exact getTreeNode_ready hinj h (hx _ (List.mem_singleton_self _))
  · have hpush := h.push (n := { type := .union, site := site }) rfl rfl
    obtain ⟨s', hs', hready⟩ := Loops.progress (f := addChild mpTr rel s.tr.length)
      (I := fun (c : Build) => Ready mpTr recorded c (s.tr.length :: R))
      (fun num hnum c hc => addChild_ready hinj hc (List.mem_cons_self ..) (hx num hnum)) hpush
    refine ⟨s.tr.length, s', ?_, hready⟩
    simp only [hs', Option.bind_eq_bind, Option.bind_some]

theorem operands_ready (site : Int) {rels : List String} {plist : Pattern}
    (hx : List.Forall₂ (fun rel nums => ∀ num ∈ nums, recorded ⟨rel, num⟩) rels plist)
    (h : Ready mpTr recorded s R) :
    ∃ is s', operands site mpTr rels plist s = some (is, s') ∧ is.length = rels.length ∧
      Ready mpTr recorded s' (is ++ R) := by
  induction hx generalizing s R with
  | nil => exact ⟨[], s, rfl, rfl, h⟩
  | cons hnums _ ih =>
    obtain ⟨i, s₁, hop, h₁⟩ := operand_ready hinj site h hnums
    obtain ⟨is, s₂, hops, hlen, h₂⟩ := ih h₁
    refine ⟨i :: is, s₂, ?_, by simp [hlen], h₂.perm List.perm_middle⟩
    simp only [operands, hop, hops, Option.bind_eq_bind, Option.bind_some]

omit hinj

theorem pushJoin_ready (site : Int) (selectAttr : List String) (c : JoinCell) (next : Option JoinCell) {l r : Nat}
    (h : Ready mpTr recorded s (l :: r :: R)) :
    ∃ s', pushJoin site selectAttr c next l r s = some (s.tr.length, s') ∧
      Ready mpTr recorded s' (s.tr.length :: R) ∧ s'.tr.length = s.tr.length + 1 := by
  obtain ⟨x, hx, -⟩ := h.roots l (by simp)
  obtain ⟨y, hy, -⟩ := h.roots r (by simp)
  have hl : l < s.tr.length := (List.getElem?_eq_some_iff.mp hx).1
  have hr : r < s.tr.length := (List.getElem?_eq_some_iff.mp hy).1
  let m : TreeNode :=
    { type := .join, site := site, join := c, child := [l, r], attr := getAttr x y
      projection := joinProjection selectAttr (getAttr x y) c next }
  simp only [pushJoin, hx, hy, Option.bind_eq_bind, Option.bind_some]
  have h' : Ready mpTr recorded s ([l, r] ++ R) := h
  refine ⟨_, rfl, Ready.adopt (m := m) h' ⟨?_, ?_, rfl, rfl, ?_⟩, ?_⟩
  · simp [setParent_length]
  · rw [setParent_getElem?, setParent_getElem?, List.getElem?_concat_length]
    simp only [Option.map_some, if_neg hl.ne, if_neg hr.ne]
    rfl
  · intro j n hj
    rw [setParent_getElem?, setParent_getElem?, List.getElem?_append_left (List.getElem?_eq_some_iff.mp hj).1, hj]
    refine ⟨_, rfl, ?_, ?_⟩
    · by_cases hjl : l = j <;> by_cases hjr : r = j <;> simp [hjl, hjr, TreeNode.under]
    · by_cases hjl : l = j <;> by_cases hjr : r = j <;> simp [hjl, hjr, eq_comm, TreeNode.under]
  · simp [setParent_length]

theorem joinChain_ready (site : Int) (selectAttr : List String) {cs : List JoinCell} {is : List Nat} {par : Nat}
    (hlen : cs.length = is.length) (h : Ready mpTr recorded s (par :: is ++ R)) :
    ∃ par' s', joinChain site selectAttr cs is par s = some (par', s') ∧ Ready mpTr recorded s' (par' :: R) ∧
      (cs ≠ [] → s'.tr.length = par' + 1) := by
  induction cs generalizing is par s with
  | nil =>
    obtain rfl := List.length_eq_zero_iff.mp hlen.symm
    exact ⟨par, s, rfl, h, fun hne => absurd rfl hne⟩
  | cons c cs ih =>
    cases is with
    | nil => cases hlen
    | cons i is =>
      obtain ⟨s₁, hpush, h₁, hlen₁⟩ := pushJoin_ready site selectAttr c cs.head? h
      obtain ⟨par', s', hchain, h', hlast⟩ := ih (by simpa using hlen) h₁
      refine ⟨par', s', ?_, h', fun _ => ?_⟩
      · simp only [joinChain, hpush, Option.bind_eq_bind, Option.bind_some, hchain]
      · by_cases hcs : cs = []
        · subst hcs
          obtain rfl := List.length_eq_zero_iff.mp (by simpa using hlen.symm : is.length = 0)
          cases hchain
          exact hlen₁
        · exact hlast hcs

include hinj

theorem buildPattern_ready (site : Int) (selectAttr : List String) {Join : List JoinCell} (hJ : Join ≠ [])
    {plist : Pattern}
    (hx : List.Forall₂ (fun rel nums => ∀ num ∈ nums, recorded ⟨rel, num⟩) (relation Join) plist)
    (h : Ready mpTr recorded s []) :
    ∃ s', buildPattern site mpTr selectAttr Join s plist = some s' ∧ Ready mpTr recorded s' [] ∧
      s'.tr ≠ [] ∧ Root s'.tr (s'.tr.length - 1) := by
  obtain ⟨is, s₁, hops, hlen, h₁⟩ := operands_ready hinj site hx h
  rw [length_relation hJ] at hlen
  cases is with
  | nil => cases hlen
  | cons i is =>
    obtain ⟨par, s', hchain, h', hlast⟩ := joinChain_ready site selectAttr (by simpa using hlen.symm) h₁
    have hroot := h'.roots par (List.mem_cons_self ..)
    have hend := hlast hJ
    refine ⟨s', ?_, h'.forget, ?_, ?_⟩
    · simp only [buildPattern, hops, hchain, Option.bind_eq_bind, Option.bind_some]
    · exact List.ne_nil_of_length_pos (by omega)
    · rwa [hend, Nat.add_sub_cancel]

end

/-! ## The whole construction -/

/-- Names of kept fragments. -/
def Kept (s : Scan) (x : FragName) : Prop := ∃ t, ∃ X ∈ s.pruning t, X.fname = x

theorem ScanForest.mpTr_inj {s : Scan} (h : ScanForest s) {x y : FragName} (hx : Kept s x) (hy : Kept s y)
    (heq : s.mpTr x = s.mpTr y) : x = y := by
  obtain ⟨t, X, hX, rfl⟩ := hx
  obtain ⟨t', Y, hY, rfl⟩ := hy
  obtain ⟨n, hn, -, hf⟩ := h.recorded t X hX
  obtain ⟨n', hn', -, hf'⟩ := h.recorded t' Y hY
  rw [heq, hn'] at hn
  cases hn
  rw [← hf, ← hf']

theorem ScanForest.ready {s : Scan} (h : ScanForest s) : Ready s.mpTr (Kept s) ⟨s.tr, fun _ => false⟩ [] where
  forest := h.forest
  valid := by
    rintro _ ⟨t, X, hX, rfl⟩
    obtain ⟨n, hn, -⟩ := h.recorded t X hX
    exact (List.getElem?_eq_some_iff.mp hn).1
  free := by
    rintro _ ⟨t, X, hX, rfl⟩ _
    obtain ⟨n, hn, hp, -⟩ := h.recorded t X hX
    exact ⟨n, hn, hp⟩
  roots := by simp
  nodup := List.nodup_nil
  apart := by simp

theorem kept_of_mem_joinLists {s : Scan} {J : List JoinCell} {e : Edges} (he : buildEdges s.pruning J = some e)
    {l : List FragName} (hl : l ∈ joinLists s.pruning e.edge J) : ∀ f ∈ l, Kept s f := by
  cases J with
  | nil => cases hl
  | cons c cs =>
    obtain ⟨-, ⟨X, hX, hhead⟩, hch⟩ := (mem_joinLists he).mp hl
    cases l with
    | nil => cases hhead
    | cons x l =>
      cases hhead
      have hgen : ∀ (l : List FragName) (x : FragName), Kept s x →
          (x :: l).IsChain (fun a b => ∃ p ∈ c :: cs, Linked s.pruning p a b) → ∀ f ∈ x :: l, Kept s f := by
        intro l
        induction l with
        | nil =>
          intro x hx _ f hf
          exact List.mem_singleton.mp hf ▸ hx
        | cons y l ih =>
          intro x hx hch f hf
          obtain ⟨⟨p, -, -, -, Y, hY, -, hy, -⟩, hch'⟩ := List.isChain_cons_cons.mp hch
          obtain rfl | hf := List.mem_cons.mp hf
          · exact hx
          · exact ih y ⟨_, Y, hY, hy⟩ hch' f hf
      exact hgen l _ ⟨_, X, hX, rfl⟩ hch

theorem pattern_kept {s : Scan} {J : List JoinCell} {JL : List (List FragName)}
    (htab : ∀ l ∈ JL, l.map FragName.table = relation J) (hkept : ∀ l ∈ JL, ∀ f ∈ l, Kept s f) {sz : Nat}
    {plist : Pattern} (hfull : Pattern.Full sz plist) (hsz : sz = (relation J).length)
    (hsec : ∀ t ∈ plist.sections, ∃ l ∈ JL, t = l.map FragName.num) :
    List.Forall₂ (fun rel nums => ∀ num ∈ nums, Kept s ⟨rel, num⟩) (relation J) plist := by
  rw [List.forall₂_iff_get]
  refine ⟨by rw [hfull.1, hsz], fun j h1 h2 z hz => ?_⟩
  obtain ⟨t, ht, htj⟩ := Bags.exists_section hfull.2 (List.getElem?_eq_getElem h2) hz
  obtain ⟨l, hl, rfl⟩ := hsec t ht
  rw [List.getElem?_map, Option.map_eq_some_iff] at htj
  obtain ⟨f, hf, rfl⟩ := htj
  have hrel : (relation J).get ⟨j, h1⟩ = f.table := by
    have : (relation J)[j]? = some f.table := by rw [← htab l hl, List.getElem?_map, hf]; rfl
    exact (List.getElem?_eq_some_iff.mp this).2
  rw [hrel]
  exact hkept l hl f (List.mem_of_getElem? hf)

/-- With a join list the sorted joins are a chain, and the list runs through its tables in order. -/
theorem Planned.kept_named {Tables : List MetadataTable} {q : Query} {p : JoinPlan} (hplan : Planned Tables q p)
    (hnamed : ∀ T ∈ Tables, ∀ F ∈ T.frags, F.fname.table = T.name) : NamedAfter p.scan.pruning := by
  intro t X hX
  obtain ⟨T, hT, rfl, hXT⟩ := scanTables_keptFrom hplan.scan t X hX
  exact hnamed T hT X hXT

theorem Planned.joinList_chain {Tables : List MetadataTable} {q : Query} {p : JoinPlan} (hplan : Planned Tables q p)
    (hnamed : ∀ T ∈ Tables, ∀ F ∈ T.frags, F.fname.table = T.name) {ch : List JoinCell} (hpath : Path ch q.join)
    {l : List FragName} (hl : l ∈ p.joinList) : Chain p.join ∧ l.map FragName.table = relation p.join := by
  have hpath' : Path ch p.query.join := by rwa [hplan.query_fields.2.2]
  have hedges := hplan.edges
  rw [hplan.join] at hedges
  rw [hplan.joinList, hplan.join] at hl
  rw [hplan.join]
  exact joinLists_of_path (hplan.kept_named hnamed) hpath' hedges hl

/-- The chained cells are those of the query, some of them turned. -/
theorem Planned.edges_perm {Tables : List MetadataTable} {q : Query} {p : JoinPlan} (hplan : Planned Tables q p) :
    (p.join.map JoinCell.edge).Perm (q.join.map JoinCell.edge) := by
  rw [hplan.join, hplan.query_fields.2.2]
  exact edges_sortJoin _

theorem Planned.cell_of_query {Tables : List MetadataTable} {q : Query} {p : JoinPlan} (hplan : Planned Tables q p)
    {c : JoinCell} (hc : c ∈ p.join) : ∃ d ∈ q.join, c = d ∨ c = d.swap := JoinCell.exists_of_edges hplan.edges_perm hc

theorem Planned.joinList_tables {Tables : List MetadataTable} {q : Query} {p : JoinPlan} (hplan : Planned Tables q p)
    (hnamed : ∀ T ∈ Tables, ∀ F ∈ T.frags, F.fname.table = T.name) {ch : List JoinCell} (hpath : Path ch q.join)
    {l : List FragName} (hl : l ∈ p.joinList) :
    l.map FragName.table = relation p.join ∧ p.join ≠ [] ∧ ∀ f ∈ l, Kept p.scan f := by
  refine ⟨(hplan.joinList_chain hnamed hpath hl).2, fun hnil => ?_, ?_⟩
  · rw [hplan.joinList, hnil] at hl
    cases hl
  · rw [hplan.joinList] at hl
    exact kept_of_mem_joinLists hplan.edges hl

theorem Planned.mem_joinSite {Tables : List MetadataTable} {q : Query} {p : JoinPlan} (hplan : Planned Tables q p)
    {site : Int} {l : List FragName} (hl : l ∈ p.joinSite site) : l ∈ p.joinList := by
  rw [hplan.joinSite] at hl
  exact List.mem_of_mem_filter hl

theorem Planned.sitePatterns {Tables : List MetadataTable} {q : Query} {p : JoinPlan} (hplan : Planned Tables q p)
    (hnamed : ∀ T ∈ Tables, ∀ F ∈ T.frags, F.fname.table = T.name) {ch : List JoinCell} (hpath : Path ch q.join)
    {site : Int} (hne : p.joinSite site ≠ []) (h300 : (p.joinSite site).length ≤ 300) :
    p.join ≠ [] ∧ ∃ res, getPattern (p.joinSite site) (p.join.length + 1) = some res ∧
      (res.flatMap List.sections).Perm ((p.joinSite site).map fun l => l.map FragName.num) ∧
      ∀ plist ∈ res, Pattern.Full (relation p.join).length plist ∧
        List.Forall₂ (fun rel nums => ∀ num ∈ nums, Kept p.scan ⟨rel, num⟩) (relation p.join) plist := by
  have hlist : ∀ l ∈ p.joinSite site,
      l.map FragName.table = relation p.join ∧ p.join ≠ [] ∧ ∀ f ∈ l, Kept p.scan f :=
    fun l hl => hplan.joinList_tables hnamed hpath (hplan.mem_joinSite hl)
  obtain ⟨l₀, hl₀⟩ := List.exists_mem_of_ne_nil _ hne
  have hJ := (hlist l₀ hl₀).2.1
  have hrel := length_relation hJ
  have hsz : ∀ l ∈ p.joinSite site, l.length = p.join.length + 1 := fun l hl => by
    rw [← hrel, ← (hlist l hl).1, List.length_map]
  obtain ⟨res, hres, hsec, hfull⟩ := getPattern_exact hsz h300
  refine ⟨hJ, res, hres, hsec, fun plist hplist => ⟨hrel ▸ hfull plist hplist, ?_⟩⟩
  refine pattern_kept (fun l hl => (hlist l hl).1) (fun l hl => (hlist l hl).2.2) (hfull plist hplist) hrel.symm ?_
  intro t ht
  have htmem := hsec.mem_iff.mp (List.mem_flatMap.mpr ⟨plist, hplist, ht⟩)
  obtain ⟨l, hl, rfl⟩ := List.mem_map.mp htmem
  exact ⟨l, hl, rfl⟩

theorem buildForest_ready {Tables : List MetadataTable} {q : Query} {p : JoinPlan} (hplan : Planned Tables q p)
    (hnamed : ∀ T ∈ Tables, ∀ F ∈ T.frags, F.fname.table = T.name) {ch : List JoinCell} (hpath : Path ch q.join)
    (hne : p.scan.tr ≠ []) (h300 : ∀ site ∈ ([1, 2, 3, 4] : List Int), (p.joinSite site).length ≤ 300) :
    ∃ tr, buildForest p = some tr ∧ Forested tr ∧ tr ≠ [] ∧ Root tr (tr.length - 1) := by
  have hforest := scanTables_forest hplan.scan
  have hsite : ∀ site ∈ ([1, 2, 3, 4] : List Int), ∀ s : Build,
      (Ready p.scan.mpTr (Kept p.scan) s [] ∧ s.tr ≠ [] ∧ Root s.tr (s.tr.length - 1)) →
      ∃ s', buildSite p.scan.mpTr p.query.selectAttr p.join p.joinSite s site = some s' ∧
        (Ready p.scan.mpTr (Kept p.scan) s' [] ∧ s'.tr ≠ [] ∧ Root s'.tr (s'.tr.length - 1)) := by
    intro site hfour s hs
    unfold buildSite
    split_ifs with hnil
    · exact ⟨s, rfl, hs⟩
    · obtain ⟨hJ, res, hres, -, hkept⟩ := hplan.sitePatterns hnamed hpath hnil (h300 site hfour)
      rw [hres]
      refine Loops.progress
        (I := fun (c : Build) => Ready p.scan.mpTr (Kept p.scan) c [] ∧ c.tr ≠ [] ∧ Root c.tr (c.tr.length - 1)) ?_ hs
      intro plist hplist c hc
      exact buildPattern_ready (fun x y => hforest.mpTr_inj) site p.query.selectAttr hJ (hkept plist hplist).2 hc.1
  obtain ⟨s, hs, hready, hsne, hlast⟩ := Loops.progress hsite ⟨hforest.ready, hne, hforest.last hne⟩
  exact ⟨s.tr, by rw [buildForest, hs]; rfl, hready.forest, hsne, hlast⟩

/-- A completed construction met at most 300 join lists at each site. -/
theorem joinSite_length_of_forest {p : JoinPlan} {tr : List TreeNode} (h : buildForest p = some tr) :
    ∀ site ∈ ([1, 2, 3, 4] : List Int), (p.joinSite site).length ≤ 300 := by
  intro site hsite
  obtain ⟨s, hs, -⟩ := Option.map_eq_some_iff.mp h
  by_contra hlong
  have hstuck : ∀ c, buildSite p.scan.mpTr p.query.selectAttr p.join p.joinSite c site = none := by
    intro c
    have hnil : p.joinSite site ≠ [] := by
      intro hnil
      rw [hnil] at hlong
      exact hlong (Nat.zero_le _)
    have hnone : getPattern (p.joinSite site) (p.join.length + 1) = none := by
      cases hres : getPattern (p.joinSite site) (p.join.length + 1) with
      | none => rfl
      | some res => exact absurd (getPattern_length hres) hlong
    simp only [buildSite, if_neg hnil, hnone, Option.bind_eq_bind, Option.bind_none]
  rw [Loops.stuck hsite hstuck] at hs
  cases hs

/-- The vector of a completed construction is a forest. -/
theorem buildForest_forest {Tables : List MetadataTable} {q : Query} {p : JoinPlan} (hplan : Planned Tables q p)
    (hnamed : ∀ T ∈ Tables, ∀ F ∈ T.frags, F.fname.table = T.name) {ch : List JoinCell} (hpath : Path ch q.join)
    (hne : p.scan.tr ≠ []) {tr : List TreeNode} (h : buildForest p = some tr) :
    Forested tr ∧ tr ≠ [] ∧ Root tr (tr.length - 1) := by
  obtain ⟨tr', htr', hforest⟩ := buildForest_ready hplan hnamed hpath hne (joinSite_length_of_forest h)
  obtain rfl : tr' = tr := Option.some.inj (htr'.symm.trans h)
  exact hforest

theorem buildForest_nil {Tables : List MetadataTable} {q : Query} {p : JoinPlan} (hplan : Planned Tables q p)
    (hnamed : ∀ T ∈ Tables, ∀ F ∈ T.frags, F.fname.table = T.name) {ch : List JoinCell} (hpath : Path ch q.join)
    (hnil : p.scan.tr = []) : buildForest p = some [] := by
  have hforest := scanTables_forest hplan.scan
  have hempty : ∀ site, p.joinSite site = [] := by
    intro site
    by_contra hne
    obtain ⟨l, hl⟩ := List.exists_mem_of_ne_nil _ hne
    obtain ⟨htab, hJ, hkept⟩ := hplan.joinList_tables hnamed hpath (hplan.mem_joinSite hl)
    have hlen : l ≠ [] := by
      rintro rfl
      have := congrArg List.length htab
      rw [length_relation hJ] at this
      cases this
    obtain ⟨x, hx⟩ := List.exists_mem_of_ne_nil l hlen
    have hlt := hforest.ready.valid x (hkept x hx)
    rw [hnil] at hlt
    cases hlt
  rw [buildForest_of_joinList_nil fun site _ => hempty site, hnil]

theorem buildForest_forested {Tables : List MetadataTable} {q : Query} {p : JoinPlan} (hplan : Planned Tables q p)
    (hnamed : ∀ T ∈ Tables, ∀ F ∈ T.frags, F.fname.table = T.name) {ch : List JoinCell} (hpath : Path ch q.join)
    {tr : List TreeNode} (h : buildForest p = some tr) : Forested tr := by
  by_cases hnil : p.scan.tr = []
  · obtain rfl := Option.some.inj ((buildForest_nil hplan hnamed hpath hnil).symm.trans h)
    exact forest_nil
  · exact (buildForest_forest hplan hnamed hpath hnil h).1

theorem unionPhase_wellFormed (site : Int) (S : List String) {tr : List TreeNode} (h : Forested tr) (hne : tr ≠ [])
    (hlast : Root tr (tr.length - 1)) : (unionPhase site S tr).WellFormed := by
  have hpos : 0 < tr.length := List.length_pos_of_ne_nil hne
  by_cases hlen : 1 < (parentless tr).length
  · obtain ⟨n, hn, -, hchild, hpar, -⟩ := unionPhase_getElem?_root site S hlen
    have ha : Adopted TreeNode.parent TreeNode.child tr (unionPhase site S tr).tr (parentless tr) n := by
      refine ⟨unionPhase_length site S hlen, hn, hchild, hpar, fun j m hj => ?_⟩
      rw [unionPhase_getElem? site S hlen (List.getElem?_eq_some_iff.mp hj).1, hj]
      refine ⟨_, rfl, ?_, ?_⟩
      · split_ifs <;> rfl
      · split_ifs <;> rfl
    have hbare : ({ n with child := [] } : TreeNode).parent = -1 := hpar
    refine .of_forest (k := tr.length) (unionPhase_root site S hlen)
      (h.adopt ha hbare rfl (parentless_nodup tr) fun i hi => mem_parentless.mp hi)
      ha.isRoot_top ?_
    intro i hi
    by_contra hne'
    have hilt : i < tr.length := by
      have := hi.lt
      rw [ha.length] at this
      omega
    obtain ⟨m', hm', -, hp'⟩ := ha.node i _ (List.getElem?_eq_getElem hilt)
    obtain ⟨m, hm, hp⟩ := hi
    rw [hm'] at hm
    cases hm
    by_cases hroot : i ∈ parentless tr
    · rw [if_pos hroot] at hp'
      omega
    · rw [if_neg hroot, hp] at hp'
      exact hroot (mem_parentless.mpr ⟨_, List.getElem?_eq_getElem hilt, hp'.symm⟩)
  · rw [unionPhase_of_le site S (not_lt.mp hlen)]
    refine .of_forest (k := tr.length - 1) (by simp only; omega) h hlast fun i hi => ?_
    have h1 : i ∈ parentless tr := mem_parentless.mpr hi
    have h2 : tr.length - 1 ∈ parentless tr := mem_parentless.mpr hlast
    match hp : parentless tr, hlen with
    | [], _ => rw [hp] at h1; cases h1
    | [a], _ =>
      rw [hp, List.mem_singleton] at h1 h2
      rw [h1, h2]
    | _ :: _ :: _, hlen => simp at hlen

/-- **`build_query_tree` returns a well-formed rooted tree** for queries without join and for queries
whose join graph is a simple path, from any first cell. -/
theorem buildQueryTree_wellFormed (Tables : List MetadataTable) (q : Query)
    (hnamed : ∀ T ∈ Tables, ∀ F ∈ T.frags, F.fname.table = T.name) (hpath : ∃ ch, Path ch q.join) :
    (PlanDefined Tables q → ∃ p, planJoins Tables q = some p) ∧
    ∀ p, planJoins Tables q = some p → p.scan.tr ≠ [] → (∀ site ∈ ([1, 2, 3, 4] : List Int), (p.joinSite site).length ≤ 300) →
      ∃ t, buildQueryTree Tables q = some t ∧ t.WellFormed := by
  refine ⟨planJoins_defined, fun p hp hne h300 => ?_⟩
  obtain ⟨ch, hpath⟩ := hpath
  obtain ⟨tr, htr, hforest, htrne, hlast⟩ := buildForest_ready (planJoins_planned hp) hnamed hpath hne
    h300
  refine ⟨_, ?_, unionPhase_wellFormed (p.processSite.head?.getD 0) p.query.selectAttr hforest htrne hlast⟩
  simp only [buildQueryTree, hp, htr, Option.bind_eq_bind, Option.bind_some]

theorem Planned.joinSite_length {Tables : List MetadataTable} {q : Query} {p : JoinPlan} (h : Planned Tables q p)
    (site : Int) : (p.joinSite site).length ≤ p.joinList.length := by
  rw [h.joinSite]
  exact List.length_filter_le ..

/-- `select Book.title, Customer.name from Book, Orders, Customer where Book.id=Orders.book_id and
Orders.customer_id=Customer.id`. -/
def bookOrdersCustomer : Query where
  fromTable := ["Book", "Orders", "Customer"]
  selectAttr := ["Book.title", "Customer.name"]
  allAttr := ["Book.title", "Customer.name", "Book.id", "Orders.book_id", "Orders.customer_id", "Customer.id"]
  predicate := []
  join := [⟨"Book", "id", "Orders", "book_id"⟩, ⟨"Orders", "customer_id", "Customer", "id"⟩]

theorem bookOrdersCustomer_path : Path bookOrdersCustomer.join bookOrdersCustomer.join where
  linked := by simp [bookOrdersCustomer]
  distinct := by decide
  edges := .refl _

/-- The query joins two horizontally fragmented tables with a vertically fragmented one. -/
theorem bookOrdersCustomer_wellFormed :
    ∃ t, buildQueryTree getMetadata bookOrdersCustomer = some t ∧ t.WellFormed := by
  have h := buildQueryTree_wellFormed getMetadata bookOrdersCustomer (by decide) ⟨_, bookOrdersCustomer_path⟩
  obtain ⟨p, hp⟩ := h.1 ⟨by decide, by decide, by decide, by decide, by decide, by decide, by decide⟩
  have hall : ((planJoins getMetadata bookOrdersCustomer).all fun p =>
      p.scan.tr ≠ [] ∧ p.joinList.length ≤ 300) = true := by decide
  rw [hp, Option.all_some, decide_eq_true_eq] at hall
  exact h.2 p hp hall.1 fun site _ => ((planJoins_planned hp).joinSite_length site).trans hall.2

end EasyDDB.Optimizer
