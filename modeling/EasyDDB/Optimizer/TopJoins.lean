import EasyDDB.Optimizer.JoinAlgebra

/-! # The topmost Join nodes

Every pattern leaves one Join node without a Join node above it. These nodes and their values are followed
through the loops over patterns and sites and through the final phase. -/
namespace EasyDDB.Optimizer
open Arena
set_option autoImplicit false

/-- The Join nodes that are no operand of another Join node. -/
def topJoins (tr : List TreeNode) : List Nat :=
  (List.range tr.length).filter fun i => (tr[i]?).any fun n =>
    n.type = .join ∧ (n.parent = -1 ∨ (tr[n.parent.toNat]?).all fun m => m.type ≠ .join)

/-- The topmost Join nodes with their values: each is a root, every other Join node has a Join node as
parent. -/
structure Tops (db : Placement) (k : Nat) (tr : List TreeNode) (vals : List (Nat × List Comb)) : Prop where
  nodup : (vals.map Prod.fst).Nodup
  top : ∀ e ∈ vals, (∃ n, tr[e.1]? = some n ∧ n.type = .join ∧ n.parent = -1) ∧ EvalsTo (combSemantics db) tr k e.1 e.2
  linked : ∀ (j : Nat) (n : TreeNode), tr[j]? = some n → n.type = .join → j ∈ vals.map Prod.fst ∨
    ∃ (p : Nat) (m : TreeNode), n.parent = p ∧ tr[p]? = some m ∧ m.type = .join

theorem length_le_of_nodup_lt {is : List Nat} (hnd : is.Nodup) {N : Nat} (h : ∀ i ∈ is, i < N) : is.length ≤ N := by
  have hsub : is ⊆ List.range N := fun i hi => List.mem_range.mpr (h i hi)
  simpa using (List.subperm_of_subset hnd hsub).length_le

/-- A vector in which the old nodes stay, with one Join node as the only new one without a Join node above it. -/
theorem Tops.snoc {db : Placement} {k L : Nat} {tr tr' : List TreeNode} {vals : List (Nat × List Comb)}
    (h : Tops db k tr vals) (hc : Closed tr) (hg : Grown L tr tr') (hL : L = tr.length) {par : Nat} {n : TreeNode}
    {value : List Comb} (hpar : L ≤ par) (hn : tr'[par]? = some n ∧ n.type = .join ∧ n.parent = -1)
    (hvalue : EvalsTo (combSemantics db) tr' k par value) (hlink : JoinsLinked L tr' par) :
    Tops db k tr' (vals ++ [(par, value)]) := by
  have hold : ∀ (j : Nat) (m : TreeNode), tr[j]? = some m → m.type = .join → tr'[j]? = some m := by
    intro j m hm hmt
    obtain ⟨p, hp, hkeep⟩ := hg.node j m hm
    rw [hp, hkeep (hL ▸ (List.getElem?_eq_some_iff.mp hm).1) (by rw [hmt]; exact NodeType.noConfusion)]
    rfl
  refine ⟨?_, ?_, ?_⟩
  · rw [List.map_append, List.map_singleton]
    refine h.nodup.append (List.nodup_singleton _) ?_
    intro j hj hjpar
    obtain ⟨e, he, rfl⟩ := List.mem_map.mp hj
    obtain ⟨⟨m, hm, -⟩, -⟩ := h.top e he
    have hlt := (List.getElem?_eq_some_iff.mp hm).1
    rw [List.mem_singleton] at hjpar
    omega
  · intro e he
    obtain he | he := List.mem_append.mp he
    · obtain ⟨⟨m, hm, hmt, hmp⟩, hev⟩ := h.top e he
      exact ⟨⟨m, hold _ m hm hmt, hmt, hmp⟩, hev.grown (combSemantics_ignoresLinks db) hg hc⟩
    · rw [List.mem_singleton] at he
      subst he
      exact ⟨⟨n, hn⟩, hvalue⟩
  · intro j m hm hmt
    rw [List.map_append, List.mem_append]
    by_cases hj : j < L
    · obtain ⟨m₀, hm₀⟩ : ∃ m, tr[j]? = some m := ⟨_, List.getElem?_eq_getElem (hL ▸ hj)⟩
      have hmt₀ : m₀.type = .join := by
        obtain ⟨p, hp, -⟩ := hg.node j m₀ hm₀
        rw [hm] at hp
        cases hp
        exact hmt
      have heq := hold j m₀ hm₀ hmt₀
      rw [hm] at heq
      cases heq
      obtain hmem | ⟨p, m', hp, hm', hmt'⟩ := h.linked j m hm₀ hmt
      · exact .inl (.inl hmem)
      · exact .inr ⟨p, m', hp, hold p m' hm' hmt', hmt'⟩
    · obtain rfl | hlinked := hlink j m (by omega) hm hmt
      · exact .inl (.inr (by simp))
      · exact .inr hlinked

section
variable {db : Placement} {mpTr : FragName → Nat} {recorded : FragName → Prop} {leafOf : FragName → List Comb}
  (hinj : ∀ x y, recorded x → recorded y → mpTr x = mpTr y → x = y)
include hinj

theorem buildPattern_tops {site : Int} {S : List String} {J : List JoinCell} (hJ : J ≠ []) {plist : Pattern}
    (hx : List.Forall₂ (fun rel nums => ∀ num ∈ nums, recorded ⟨rel, num⟩) (relation J) plist) {s : Build}
    (hready : Ready mpTr recorded s []) (hl : Leaves db mpTr recorded leafOf s.tr) {vals : List (Nat × List Comb)}
    (htops : Tops db (J.length + 2) s.tr vals) :
    ∃ s' i, buildPattern site mpTr S J s plist = some s' ∧ Ready mpTr recorded s' [] ∧
      Leaves db mpTr recorded leafOf s'.tr ∧ Tops db (J.length + 2) s'.tr (vals ++ [(i, patternValue leafOf J plist)]) ∧
      J.length + 2 ≤ s'.tr.length := by
  obtain ⟨is, s₁, hops, hislen, hready₁⟩ := operands_ready hinj site hx hready
  rw [length_relation hJ] at hislen
  obtain ⟨hg₁, hnj, hvals, hat⟩ := operands_eval (L := s.tr.length) hinj hx hready hl le_rfl
    (fun j n hj hn => absurd (List.getElem?_eq_some_iff.mp hn).1 (by omega)) hops
  rw [List.append_nil] at hready₁
  generalize hvs : operandValues leafOf (relation J) plist = vs at hvals
  cases hvals with
  | nil => cases hislen
  | @cons i v is vs hv hvs' =>
    have hlen : J.length = is.length := by simpa using hislen.symm
    have hready₁' : Ready mpTr recorded s₁ (i :: is ++ []) := by rwa [List.append_nil]
    obtain ⟨par, s', hchain, hready', -⟩ := joinChain_ready site S hlen hready₁'
    have hlink : JoinsLinked s.tr.length s₁.tr i := fun j n hj hn ht => absurd ht (hnj j n hj hn)
    obtain ⟨hg₂, hval, hlink', hlen', htop⟩ := joinChain_eval hready₁' hg₁.length
      (.inr (hat i (List.mem_cons_self ..))) (fun j hj => hat j (List.mem_cons_of_mem i hj)) le_rfl hv hvs' hlink hlen hchain
    obtain ⟨hLpar, n, hn, hnt⟩ := htop hJ
    obtain ⟨n', hn', hroot⟩ := hready'.roots par (List.mem_cons_self ..)
    obtain rfl : n = n' := Option.some.inj (hn.symm.trans hn')
    have hg := hg₁.trans hg₂
    have hsize : J.length + 2 ≤ s'.tr.length := by
      have h1 : (i :: is).length ≤ s₁.tr.length :=
        length_le_of_nodup_lt hready₁.nodup fun j hj => (hready₁.roots j hj).lt
      have h2 : 0 < J.length := List.length_pos_of_ne_nil hJ
      rw [List.length_cons] at h1
      omega
    have hpv : patternValue leafOf J plist = chainJoin J v vs := by simp only [patternValue, hvs]
    rw [Nat.add_comm 2 J.length, ← hpv] at hval
    refine ⟨s', par, ?_, hready'.forget, hl.grown hg, ?_, hsize⟩
    · simp only [buildPattern, hops, hchain, Option.bind_eq_bind, Option.bind_some]
    · exact htops.snoc hready.forest.closed hg rfl hLpar ⟨hn, hnt, hroot⟩ hval hlink'

end

/-! ## The final phase -/

theorem mem_topJoins {tr : List TreeNode} {i : Nat} :
    i ∈ topJoins tr ↔ ∃ n, tr[i]? = some n ∧ n.type = .join ∧
      (n.parent = -1 ∨ ∀ m, tr[n.parent.toNat]? = some m → m.type ≠ .join) := by
  simp only [topJoins, List.mem_filter, List.mem_range, Option.any_eq_true, decide_eq_true_eq, Option.all_eq_true]
  constructor
  · rintro ⟨-, n, hn, ht, hp⟩
    exact ⟨n, hn, ht, hp⟩
  · rintro ⟨n, hn, ht, hp⟩
    exact ⟨(List.getElem?_eq_some_iff.mp hn).1, n, hn, ht, hp⟩

theorem unionPhase_grown (site : Int) (S : List String) (tr : List TreeNode) : Grown 0 tr (unionPhase site S tr).tr := by
  by_cases hlen : 1 < (parentless tr).length
  · refine ⟨by rw [unionPhase_length site S hlen]; omega, fun j n hn => ?_⟩
    rw [unionPhase_getElem? site S hlen (List.getElem?_eq_some_iff.mp hn).1, hn, Option.map_some]
    split_ifs
    · exact ⟨_, rfl, by omega⟩
    · exact ⟨n.parent, rfl, by omega⟩
  · rw [unionPhase_of_le site S (not_lt.mp hlen)]
    exact .refl ..

/-- The final phase gives the nodes without a parent the new Union node as parent, if there is one. -/
theorem unionPhase_node (site : Int) (S : List String) {tr : List TreeNode} {j : Nat} {n : TreeNode}
    (hn : tr[j]? = some n) :
    ∃ par, (unionPhase site S tr).tr[j]? = some (n.under par) ∧ (n.parent ≠ -1 → par = n.parent) ∧
      (n.parent = -1 → par = -1 ∨ ∃ m, (unionPhase site S tr).tr[par.toNat]? = some m ∧ m.type = .union) := by
  by_cases hlen : 1 < (parentless tr).length
  · obtain ⟨u, hu, hut, -⟩ := unionPhase_getElem?_root site S hlen
    have hmem : j ∈ parentless tr ↔ n.parent = -1 := by
      rw [mem_parentless]
      exact ⟨fun ⟨n', hn', hp⟩ => by rw [hn] at hn'; cases hn'; exact hp, fun hp => ⟨n, hn, hp⟩⟩
    rw [unionPhase_getElem? site S hlen (List.getElem?_eq_some_iff.mp hn).1, hn, Option.map_some]
    by_cases hp : n.parent = -1
    · rw [if_pos (hmem.mpr hp)]
      exact ⟨_, rfl, fun hne => absurd hp hne, fun _ => .inr ⟨u, by rw [Int.toNat_natCast]; exact hu, hut⟩⟩
    · rw [if_neg fun h' => hp (hmem.mp h')]
      exact ⟨n.parent, rfl, fun _ => rfl, fun hp' => absurd hp' hp⟩
  · rw [unionPhase_of_le site S (not_lt.mp hlen)]
    exact ⟨n.parent, hn, fun _ => rfl, fun hp => .inl hp⟩

theorem lt_of_unionPhase_join {site : Int} {S : List String} {tr : List TreeNode} {j : Nat} {n : TreeNode}
    (hn : (unionPhase site S tr).tr[j]? = some n) (ht : n.type = .join) : j < tr.length := by
  by_contra hj
  have hlt := (List.getElem?_eq_some_iff.mp hn).1
  by_cases hlen : 1 < (parentless tr).length
  · rw [unionPhase_length site S hlen] at hlt
    obtain ⟨u, hu, hut, -⟩ := unionPhase_getElem?_root site S hlen
    obtain rfl : j = tr.length := by omega
    rw [hn] at hu
    cases hu
    exact NodeType.noConfusion (ht.symm.trans hut)
  · rw [unionPhase_of_le site S (not_lt.mp hlen)] at hlt
    exact hj hlt

section
variable {db : Placement} {k : Nat} {tr : List TreeNode} {vals : List (Nat × List Comb)} (h : Tops db k tr vals)
  (site : Int) (S : List String)
include h

theorem Tops.mem_topJoins_iff (i : Nat) : i ∈ topJoins (unionPhase site S tr).tr ↔ i ∈ vals.map Prod.fst := by
  rw [mem_topJoins]
  constructor
  · rintro ⟨n', hn', ht, hp⟩
    obtain ⟨n, hn⟩ : ∃ n, tr[i]? = some n := ⟨_, List.getElem?_eq_getElem (lt_of_unionPhase_join hn' ht)⟩
    obtain ⟨par, hpar, hkeep, -⟩ := unionPhase_node site S hn
    rw [hn'] at hpar
    cases hpar
    obtain hmem | ⟨p, m, hpp, hm, hmt⟩ := h.linked i n hn ht
    · exact hmem
    · obtain ⟨par', hm', -⟩ := unionPhase_node site S hm
      have hparp : par = p := (hkeep (by omega)).trans hpp
      obtain hp | hp := hp
      · simp only [TreeNode.under] at hp
        omega
      · refine absurd hmt (hp (m.under par') ?_)
        change (unionPhase site S tr).tr[par.toNat]? = _
        rw [hparp, Int.toNat_natCast]
        exact hm'
  · intro hmem
    obtain ⟨e, he, rfl⟩ := List.mem_map.mp hmem
    obtain ⟨⟨n, hn, ht, hp⟩, -⟩ := h.top e he
    obtain ⟨par, hpar, -, hroot⟩ := unionPhase_node site S hn
    refine ⟨_, hpar, ht, ?_⟩
    obtain hp | ⟨u, hu, hut⟩ := hroot hp
    · exact .inl hp
    · refine .inr fun m hm => ?_
      obtain rfl : u = m := Option.some.inj (hu.symm.trans hm)
      rw [hut]
      exact NodeType.noConfusion

theorem Tops.final (hc : Closed tr) (hk : vals ≠ [] → k ≤ tr.length) :
    ((topJoins (unionPhase site S tr).tr).flatMap
        (evalNode (combSemantics db) (unionPhase site S tr).tr (unionPhase site S tr).tr.length)).Perm
      (vals.flatMap Prod.snd) := by
  have hg := unionPhase_grown site S tr
  have hperm : (topJoins (unionPhase site S tr).tr).Perm (vals.map Prod.fst) :=
    (List.perm_ext_iff_of_nodup (List.nodup_range.filter _) h.nodup).mpr (h.mem_topJoins_iff site S)
  refine (hperm.flatMap_right _).trans (.of_eq ?_)
  rw [List.flatMap_map]
  refine List.flatMap_congr fun e he => ?_
  have hev := (h.top e he).2.grown (combSemantics_ignoresLinks db) hg hc
  exact hev.2 _ ((hk (List.ne_nil_of_mem he)).trans hg.length)

end

end EasyDDB.Optimizer
