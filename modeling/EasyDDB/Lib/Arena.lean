import Mathlib.Data.Finset.Lattice.Fold
import Mathlib.Data.List.Nodup
import Mathlib.Logic.Relation
import Mathlib.Order.Interval.Finset.Nat

/-! # Forests stored in a vector

Nodes that refer to each other by index: every node names its parent, `-1` for none, and lists its
children. A forest grows by fresh nodes without relatives and by hanging roots below another root. -/
namespace EasyDDB.Arena
set_option autoImplicit false

section
variable {α : Type} (par : α → Int) (kids : α → List Nat)

/-- A node without a parent. -/
def IsRoot (tr : List α) (i : Nat) : Prop := ∃ n, tr[i]? = some n ∧ par n = -1

/-- One step from a node to its parent. -/
def Up (tr : List α) (i p : Nat) : Prop := ∃ n, tr[i]? = some n ∧ par n = (p : Int)

/-- Parents and child lists agree, no child is listed twice, and some rank grows towards the parent. -/
structure Forest (tr : List α) : Prop where
  child : ∀ p m, tr[p]? = some m → ∀ i ∈ kids m, Up par tr i p
  nodup : ∀ (p : Nat) (m : α), tr[p]? = some m → (kids m).Nodup
  parent : ∀ i, i < tr.length → IsRoot par tr i ∨ ∃ p m, Up par tr i p ∧ tr[p]? = some m ∧ i ∈ kids m
  rank : ∃ r : Nat → Nat, ∀ i p, Up par tr i p → r i < r p

end

section
variable {α : Type} {par : α → Int} {kids : α → List Nat} {tr tr' : List α}

theorem IsRoot.lt {i : Nat} (h : IsRoot par tr i) : i < tr.length := by
  obtain ⟨n, hn, -⟩ := h
  exact (List.getElem?_eq_some_iff.mp hn).1

theorem Up.lt {i p : Nat} (h : Up par tr i p) : i < tr.length := by
  obtain ⟨n, hn, -⟩ := h
  exact (List.getElem?_eq_some_iff.mp hn).1

theorem IsRoot.not_up {i p : Nat} (h : IsRoot par tr i) : ¬ Up par tr i p := by
  rintro ⟨n, hn, hp⟩
  obtain ⟨n', hn', hr⟩ := h
  rw [hn] at hn'
  cases hn'
  omega

theorem Up.unique {i p q : Nat} (hp : Up par tr i p) (hq : Up par tr i q) : p = q := by
  obtain ⟨n, hn, hp⟩ := hp
  obtain ⟨n', hn', hq⟩ := hq
  rw [hn] at hn'
  cases hn'
  omega

theorem forest_nil : Forest par kids [] where
  child := by simp
  nodup := by simp
  parent := by simp
  rank := ⟨id, by rintro i p ⟨n, hn, -⟩; simp at hn⟩

theorem isRoot_append {i : Nat} (h : IsRoot par tr i) (l : List α) : IsRoot par (tr ++ l) i := by
  obtain ⟨n, hn, hr⟩ := h
  exact ⟨n, by rw [List.getElem?_append_left (List.getElem?_eq_some_iff.mp hn).1, hn], hr⟩

theorem isRoot_concat {n : α} (hn : par n = -1) : IsRoot par (tr ++ [n]) tr.length :=
  ⟨n, List.getElem?_concat_length, hn⟩

theorem getElem?_concat_cases {n m : α} {i : Nat} (h : (tr ++ [n])[i]? = some m) :
    tr[i]? = some m ∨ (i = tr.length ∧ m = n) := by
  rw [List.getElem?_append] at h
  split_ifs at h with hi
  · exact .inl h
  · have hz : i - tr.length = 0 := by
      by_contra hne
      rw [List.getElem?_eq_none (by simp only [List.length_singleton]; omega)] at h
      cases h
    rw [hz] at h
    exact .inr ⟨by omega, (Option.some.inj h).symm⟩

theorem Forest.push (h : Forest par kids tr) {n : α} (hn : par n = -1) (hk : kids n = []) :
    Forest par kids (tr ++ [n]) := by
  have hold : ∀ {i : Nat} {m : α}, tr[i]? = some m → (tr ++ [n])[i]? = some m := by
    intro i m hm
    rw [List.getElem?_append_left (List.getElem?_eq_some_iff.mp hm).1, hm]
  have hup : ∀ {i p}, Up par (tr ++ [n]) i p ↔ Up par tr i p := by
    intro i p
    constructor
    · rintro ⟨m, hm, hp⟩
      obtain hm | ⟨-, rfl⟩ := getElem?_concat_cases hm
      · exact ⟨m, hm, hp⟩
      · omega
    · rintro ⟨m, hm, hp⟩
      exact ⟨m, hold hm, hp⟩
  refine ⟨?_, ?_, ?_, ?_⟩
  · intro p m hm i hi
    obtain hm | ⟨-, rfl⟩ := getElem?_concat_cases hm
    · exact hup.mpr (h.child p m hm i hi)
    · rw [hk] at hi
      cases hi
  · intro p m hm
    obtain hm | ⟨-, rfl⟩ := getElem?_concat_cases hm
    · exact h.nodup p m hm
    · rw [hk]
      exact List.nodup_nil
  · intro i hi
    by_cases hlt : i < tr.length
    · obtain hr | ⟨p, m, hu, hm, hmem⟩ := h.parent i hlt
      · exact .inl (isRoot_append hr _)
      · exact .inr ⟨p, m, hup.mpr hu, hold hm, hmem⟩
    · have : i = tr.length := by
        simp only [List.length_append, List.length_singleton] at hi
        omega
      exact .inl (this ▸ isRoot_concat hn)
  · obtain ⟨r, hr⟩ := h.rank
    exact ⟨r, fun i p hu => hr i p (hup.mp hu)⟩

/-- `tr'` is `tr` with the nodes `cs` hung below `p`. -/
structure Hung (par : α → Int) (kids : α → List Nat) (tr tr' : List α) (cs : List Nat) (p : Nat) : Prop where
  length : tr'.length = tr.length
  node : ∀ j n, tr[j]? = some n → ∃ n', tr'[j]? = some n' ∧
    kids n' = (if j = p then kids n ++ cs else kids n) ∧ par n' = if j ∈ cs then (p : Int) else par n

section
variable {cs : List Nat} {p : Nat} (hh : Hung par kids tr tr' cs p)
include hh

theorem Hung.node_inv {j : Nat} {n' : α} (hn' : tr'[j]? = some n') :
    ∃ n, tr[j]? = some n ∧ kids n' = (if j = p then kids n ++ cs else kids n) ∧
      par n' = if j ∈ cs then (p : Int) else par n := by
  have hj : j < tr.length := hh.length ▸ (List.getElem?_eq_some_iff.mp hn').1
  obtain ⟨n'', hn'', hk, hp⟩ := hh.node j _ (List.getElem?_eq_getElem hj)
  rw [hn'] at hn''
  cases hn''
  exact ⟨_, List.getElem?_eq_getElem hj, hk, hp⟩

theorem Hung.up_of_mem {i : Nat} (hi : i ∈ cs) (hlt : i < tr.length) : Up par tr' i p := by
  obtain ⟨n', hn', -, hp⟩ := hh.node i _ (List.getElem?_eq_getElem hlt)
  exact ⟨n', hn', by rw [hp, if_pos hi]⟩

theorem Hung.up_of_notMem {i q : Nat} (hi : i ∉ cs) : Up par tr' i q ↔ Up par tr i q := by
  constructor
  · rintro ⟨n', hn', hq⟩
    obtain ⟨n, hn, -, hp⟩ := hh.node_inv hn'
    rw [if_neg hi] at hp
    exact ⟨n, hn, hp ▸ hq⟩
  · rintro ⟨n, hn, hq⟩
    obtain ⟨n', hn', -, hp⟩ := hh.node i n hn
    rw [if_neg hi] at hp
    exact ⟨n', hn', hp.trans hq⟩

theorem Hung.isRoot {i : Nat} (hi : i ∉ cs) (hr : IsRoot par tr i) : IsRoot par tr' i := by
  obtain ⟨n, hn, hr⟩ := hr
  obtain ⟨n', hn', -, hp⟩ := hh.node i n hn
  rw [if_neg hi] at hp
  exact ⟨n', hn', hp.trans hr⟩

theorem Forest.hang (h : Forest par kids tr) (hcs : cs.Nodup) (hroots : ∀ i ∈ cs, IsRoot par tr i)
    (hp : IsRoot par tr p) (hpcs : p ∉ cs) : Forest par kids tr' := by
  have hnotKid : ∀ q m, tr[q]? = some m → ∀ i ∈ kids m, i ∉ cs := fun q m hm i hi hmem =>
    (hroots i hmem).not_up (h.child q m hm i hi)
  refine ⟨?_, ?_, ?_, ?_⟩
  · intro q m' hm' i hi
    obtain ⟨m, hm, hk, -⟩ := hh.node_inv hm'
    by_cases hq : q = p
    · subst hq
      rw [hk, if_pos rfl, List.mem_append] at hi
      obtain hi | hi := hi
      · exact (hh.up_of_notMem (hnotKid q m hm i hi)).mpr (h.child q m hm i hi)
      · exact hh.up_of_mem hi (hroots i hi).lt
    · rw [hk, if_neg hq] at hi
      exact (hh.up_of_notMem (hnotKid q m hm i hi)).mpr (h.child q m hm i hi)
  · intro q m' hm'
    obtain ⟨m, hm, hk, -⟩ := hh.node_inv hm'
    rw [hk]
    split_ifs
    · exact (h.nodup q m hm).append hcs fun i hi hi' => hnotKid q m hm i hi hi'
    · exact h.nodup q m hm
  · intro i hi
    rw [hh.length] at hi
    by_cases hmem : i ∈ cs
    · obtain ⟨n, hn, -⟩ := hp
      obtain ⟨m', hm', hk, -⟩ := hh.node p n hn
      refine .inr ⟨p, m', hh.up_of_mem hmem hi, hm', ?_⟩
      rw [hk, if_pos rfl]
      exact List.mem_append_right _ hmem
    · obtain hr | ⟨q, m, hu, hm, hin⟩ := h.parent i hi
      · exact .inl (hh.isRoot hmem hr)
      · obtain ⟨m', hm', hk, -⟩ := hh.node q m hm
        refine .inr ⟨q, m', (hh.up_of_notMem hmem).mpr hu, hm', ?_⟩
        rw [hk]
        split_ifs
        · exact List.mem_append_left _ hin
        · exact hin
  · obtain ⟨r, hr⟩ := h.rank
    refine ⟨Function.update r p (r p + cs.toFinset.sup r + 1), fun i q hu => ?_⟩
    by_cases hmem : i ∈ cs
    · obtain rfl : p = q := (hh.up_of_mem hmem (hroots i hmem).lt).unique hu
      have hne : i ≠ p := fun e => hpcs (e ▸ hmem)
      have hle : r i ≤ cs.toFinset.sup r := Finset.le_sup (f := r) (List.mem_toFinset.mpr hmem)
      rw [Function.update_self, Function.update_of_ne hne]
      omega
    · have hu' := (hh.up_of_notMem hmem).mp hu
      have hlt := hr i q hu'
      have hne : i ≠ p := fun e => hp.not_up (e ▸ hu')
      rw [Function.update_of_ne hne]
      by_cases hq : q = p
      · subst hq
        rw [Function.update_self]
        omega
      · rwa [Function.update_of_ne hq]

end

/-- `tr'` is `tr` with a new root `m` above the nodes `cs`. -/
structure Adopted (par : α → Int) (kids : α → List Nat) (tr tr' : List α) (cs : List Nat) (m : α) : Prop where
  length : tr'.length = tr.length + 1
  top : tr'[tr.length]? = some m
  topKids : kids m = cs
  topPar : par m = -1
  node : ∀ j n, tr[j]? = some n → ∃ n', tr'[j]? = some n' ∧ kids n' = kids n ∧
    par n' = if j ∈ cs then (tr.length : Int) else par n

/-- A new root above existing roots. The proof pushes a childless copy `m₀` of it first. -/
theorem Forest.adopt (h : Forest par kids tr) {cs : List Nat} {m m₀ : α} (ha : Adopted par kids tr tr' cs m)
    (h₀ : par m₀ = -1) (hk₀ : kids m₀ = []) (hcs : cs.Nodup) (hroots : ∀ i ∈ cs, IsRoot par tr i) :
    Forest par kids tr' := by
  have hnot : tr.length ∉ cs := fun hmem => absurd (hroots _ hmem).lt (lt_irrefl _)
  have hpush : Forest par kids (tr ++ [m₀]) := h.push h₀ hk₀
  refine Forest.hang ⟨?_, ?_⟩ hpush hcs (fun i hi => isRoot_append (hroots i hi) _) (isRoot_concat h₀) hnot
  · rw [ha.length, List.length_append, List.length_singleton]
  · intro j n hj
    obtain hj | ⟨rfl, rfl⟩ := getElem?_concat_cases hj
    · obtain ⟨n', hn', hk, hp⟩ := ha.node j n hj
      have hne : j ≠ tr.length := (List.getElem?_eq_some_iff.mp hj).1.ne
      exact ⟨n', hn', by rw [hk, if_neg hne], hp⟩
    · exact ⟨m, ha.top, by rw [ha.topKids, hk₀, if_pos rfl, List.nil_append], by rw [ha.topPar, h₀, if_neg hnot]⟩

theorem Adopted.isRoot {cs : List Nat} {m : α} (ha : Adopted par kids tr tr' cs m) {i : Nat} (hi : i ∉ cs)
    (hr : IsRoot par tr i) : IsRoot par tr' i := by
  obtain ⟨n, hn, hr⟩ := hr
  obtain ⟨n', hn', -, hp⟩ := ha.node i n hn
  rw [if_neg hi] at hp
  exact ⟨n', hn', hp.trans hr⟩

theorem Adopted.isRoot_top {cs : List Nat} {m : α} (ha : Adopted par kids tr tr' cs m) : IsRoot par tr' tr.length :=
  ⟨m, ha.top, ha.topPar⟩

theorem Forest.reaches_root (h : Forest par kids tr) {i : Nat} (hi : i < tr.length) :
    ∃ k, IsRoot par tr k ∧ Relation.ReflTransGen (Up par tr) i k := by
  obtain ⟨r, hr⟩ := h.rank
  have hbound : ∀ j < tr.length, r j ≤ (Finset.range tr.length).sup r := fun j hj =>
    Finset.le_sup (f := r) (Finset.mem_range.mpr hj)
  induction hd : (Finset.range tr.length).sup r - r i using Nat.strong_induction_on generalizing i with
  | _ d ih =>
    obtain hroot | ⟨p, m, hu, hm, -⟩ := h.parent i hi
    · exact ⟨i, hroot, .refl⟩
    · have hp : p < tr.length := (List.getElem?_eq_some_iff.mp hm).1
      have h1 := hr i p hu
      have h2 := hbound p hp
      obtain ⟨k, hk, hpath⟩ := ih _ (by omega) hp rfl
      exact ⟨k, hk, .head hu hpath⟩

/-- Parents do not lead back to a node. -/
theorem Forest.acyclic (h : Forest par kids tr) (i : Nat) : ¬ Relation.TransGen (Up par tr) i i := by
  obtain ⟨r, hr⟩ := h.rank
  have hrank : ∀ {j}, Relation.TransGen (Up par tr) i j → r i < r j := fun hpath => by
    induction hpath with
    | single hup => exact hr _ _ hup
    | tail _ hup ih => exact ih.trans (hr _ _ hup)
  exact fun hcircle => Nat.lt_irrefl _ (hrank hcircle)

/-! ## Trees -/

theorem not_transGen_self {i k : Nat} (hroot : IsRoot par tr k) (h : Relation.ReflTransGen (Up par tr) i k) :
    ¬ Relation.TransGen (Up par tr) i i := by
  induction h using Relation.ReflTransGen.head_induction_on with
  | refl =>
    intro hcircle
    obtain ⟨p, hup, -⟩ := Relation.TransGen.head'_iff.1 hcircle
    exact hroot.not_up hup
  | @head i p hup _ ih =>
    intro hcircle
    obtain ⟨p', hup', hback⟩ := Relation.TransGen.head'_iff.1 hcircle
    obtain rfl := hup.unique hup'
    exact ih (Relation.TransGen.tail' hback hup)

/-- Where parents lead from every node to one root, a nonempty set of nodes has a member with no child in it. -/
theorem exists_lowest {k : Nat} (hroot : IsRoot par tr k)
    (hreach : ∀ i < tr.length, Relation.ReflTransGen (Up par tr) i k) {U : Nat → Prop}
    (hne : ∃ i < tr.length, U i) : ∃ i < tr.length, U i ∧ ∀ c, Up par tr c i → ¬ U c := by
  let below : Fin tr.length → Fin tr.length → Prop := fun c i => Relation.TransGen (Up par tr) c i
  have htrans : IsTrans (Fin tr.length) below := ⟨fun _ _ _ hab hbc => hab.trans hbc⟩
  have hirrefl : Std.Irrefl below := ⟨fun i => not_transGen_self hroot (hreach i i.2)⟩
  obtain ⟨j, hj, hU⟩ := hne
  obtain ⟨i, hi, hmin⟩ := (Finite.wellFounded_of_trans_of_irrefl below).has_min {i | U i} ⟨⟨j, hj⟩, hU⟩
  refine ⟨i, i.2, hi, fun c hc hUc => ?_⟩
  exact hmin ⟨c, hc.lt⟩ hUc (.single hc)

theorem exists_parent {k : Nat} (hroot : IsRoot par tr k)
    (hreach : ∀ i < tr.length, Relation.ReflTransGen (Up par tr) i k) {i : Nat} (hi : i < tr.length) (hne : i ≠ k) :
    ∃ p < tr.length, Up par tr i p := by
  obtain heq | ⟨p, hup, hp⟩ := Relation.ReflTransGen.cases_head (hreach i hi)
  · exact absurd heq hne
  · obtain rfl | ⟨q, hq, -⟩ := Relation.ReflTransGen.cases_head hp
    · exact ⟨p, hroot.lt, hup⟩
    · exact ⟨p, hq.lt, hup⟩

theorem comparable {k : Nat} (hreach : ∀ i < tr.length, Relation.ReflTransGen (Up par tr) i k)
    (hunary : ∀ p a b, Up par tr a p → Up par tr b p → a = b) {i j : Nat} (hi : i < tr.length) (hj : j < tr.length) :
    Relation.ReflTransGen (Up par tr) i j ∨ Relation.ReflTransGen (Up par tr) j i := by
  have hpath := hreach i hi
  clear hi
  induction hpath using Relation.ReflTransGen.head_induction_on with
  | refl => exact .inr (hreach j hj)
  | @head i p hup _ ih =>
    rcases ih with hpj | hjp
    · exact .inl (.head hup hpj)
    · rcases Relation.ReflTransGen.cases_tail hjp with heq | ⟨c, hjc, hcp⟩
      · exact .inl (.single (heq ▸ hup))
      · exact .inr (hunary p c i hcp hup ▸ hjc)

/-! ## Evaluation from the leaves up -/

open Classical in
/-- The nodes at or below `i`. -/
noncomputable def below (par : α → Int) (tr : List α) (i : Nat) : Finset Nat :=
  (Finset.range tr.length).filter fun j => Relation.ReflTransGen (Up par tr) j i

theorem mem_below {i j : Nat} : j ∈ below par tr i ↔ j < tr.length ∧ Relation.ReflTransGen (Up par tr) j i := by
  classical rw [below, Finset.mem_filter, Finset.mem_range]

theorem card_below_le (i : Nat) : (below par tr i).card ≤ tr.length := by
  classical exact (Finset.card_filter_le _ _).trans (Nat.le_of_eq (Finset.card_range _))

theorem card_below_pos {i : Nat} (hi : i < tr.length) : 0 < (below par tr i).card :=
  Finset.card_pos.2 ⟨i, mem_below.2 ⟨hi, .refl⟩⟩

theorem card_below_lt {c i : Nat} (hacyclic : ∀ i < tr.length, ¬ Relation.TransGen (Up par tr) i i)
    (hi : i < tr.length) (hc : Up par tr c i) : (below par tr c).card < (below par tr i).card := by
  refine Finset.card_lt_card ((Finset.ssubset_iff_of_subset fun j hj => ?_).2 ⟨i, ?_, fun hmem => ?_⟩)
  · obtain ⟨hlt, hjc⟩ := mem_below.1 hj
    exact mem_below.2 ⟨hlt, hjc.tail hc⟩
  · exact mem_below.2 ⟨hi, .refl⟩
  · exact hacyclic i hi (.tail' (mem_below.1 hmem).2 hc)

/-- The value of a node computed by `f` from those of other nodes, at most `fuel` levels down. -/
def bottomUp {β : Type} (f : Nat → (Nat → β) → β) (b : β) : Nat → Nat → β
  | 0, _ => b
  | fuel + 1, i => f i (bottomUp f b fuel)

section
variable {β : Type} {f : Nat → (Nat → β) → β} {b : β}
  (hacyclic : ∀ i < tr.length, ¬ Relation.TransGen (Up par tr) i i)
  (hlocal : ∀ i < tr.length, ∀ g g' : Nat → β, (∀ c, Up par tr c i → g c = g' c) → f i g = f i g')
include hacyclic hlocal

theorem bottomUp_stable {fuel fuel' i : Nat} (hi : i < tr.length) (h : (below par tr i).card ≤ fuel)
    (h' : (below par tr i).card ≤ fuel') : bottomUp f b fuel i = bottomUp f b fuel' i := by
  have hpos : 0 < (below par tr i).card := card_below_pos hi
  induction fuel generalizing i fuel' with
  | zero => omega
  | succ fuel ih =>
    obtain ⟨fuel', rfl⟩ : ∃ m, fuel' = m + 1 := ⟨fuel' - 1, by omega⟩
    refine hlocal i hi _ _ fun c hc => ?_
    have hlt := card_below_lt hacyclic hi hc
    exact ih hc.lt (by omega) (by omega) (card_below_pos hc.lt)

/-- Where the value of a node depends on its children only, as many levels as there are nodes are enough: the value of
every node is what `f` makes of the values of its children. -/
theorem bottomUp_eq {i : Nat} (hi : i < tr.length) :
    bottomUp f b tr.length i = f i (bottomUp f b tr.length) := by
  obtain ⟨n, hn⟩ : ∃ n, tr.length = n + 1 := ⟨tr.length - 1, by omega⟩
  have hle : (below par tr i).card ≤ tr.length := card_below_le i
  rw [hn]
  refine hlocal i hi _ _ fun c hc => ?_
  have hlt := card_below_lt hacyclic hi hc
  exact bottomUp_stable hacyclic hlocal hc.lt (by omega) (by omega)

end

end

end EasyDDB.Arena
