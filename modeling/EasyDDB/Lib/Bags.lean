import Mathlib.Data.List.Basic
import Mathlib.Data.List.Nodup
import Mathlib.Data.List.Perm.Basic
import Mathlib.Data.List.Sections

/-! # Lists as bags

Query results are lists up to permutation. -/
namespace EasyDDB.Bags
set_option autoImplicit false

variable {ι α β : Type}

/-! ## Filtered blocks -/

theorem length_flatMap_filter_le (l : List ι) (A : ι → List α) (p p' : ι → α → Bool)
    (hle : ∀ i a, p' i a = true → p i a = true) :
    (l.flatMap fun i => (A i).filter (p' i)).length ≤ (l.flatMap fun i => (A i).filter (p i)).length := by
  induction l with
  | nil => simp
  | cons i l ih =>
    rw [List.flatMap_cons, List.flatMap_cons, List.length_append, List.length_append]
    have h : ((A i).filter (p' i)).length ≤ ((A i).filter (p i)).length :=
      (List.monotone_filter_right (A i) (hle i)).length_le
    omega

theorem filter_imp_of_length_eq {l : List α} {p p' : α → Bool} (hle : ∀ a, p' a = true → p a = true)
    (h : (l.filter p).length = (l.filter p').length) : ∀ a ∈ l, p a = true → p' a = true := by
  intro a ha hp
  have hsub : (l.filter p').Sublist (l.filter p) := List.monotone_filter_right l hle
  have hmem : a ∈ l.filter p' := hsub.eq_of_length h.symm ▸ List.mem_filter.mpr ⟨ha, hp⟩
  exact (List.mem_filter.mp hmem).2

/-- Blocks of rows filtered by a weaker and by a stronger condition make the same bag only when the two
conditions agree on every row. -/
theorem perm_flatMap_filter_iff (l : List ι) (A : ι → List α) (p p' : ι → α → Bool) (g : α → β)
    (hle : ∀ i a, p' i a = true → p i a = true) :
    ((l.flatMap fun i => (A i).filter (p i)).map g).Perm ((l.flatMap fun i => (A i).filter (p' i)).map g) ↔
      ∀ i ∈ l, ∀ a ∈ A i, p i a = true → p' i a = true := by
  constructor
  · intro h
    have hlen := h.length_eq
    rw [List.length_map, List.length_map] at hlen
    clear h
    induction l with
    | nil => simp
    | cons i l ih =>
      rw [List.flatMap_cons, List.flatMap_cons, List.length_append, List.length_append] at hlen
      have h1 : ((A i).filter (p' i)).length ≤ ((A i).filter (p i)).length :=
        (List.monotone_filter_right (A i) (hle i)).length_le
      have h2 := length_flatMap_filter_le l A p p' hle
      intro j hj
      obtain rfl | hj := List.mem_cons.mp hj
      · exact filter_imp_of_length_eq (hle j) (by omega)
      · exact ih (by omega) j hj
  · intro h
    have heq : (l.flatMap fun i => (A i).filter (p i)) = l.flatMap fun i => (A i).filter (p' i) := by
      refine List.flatMap_congr fun i hi => List.filter_congr fun a ha => ?_
      rw [Bool.eq_iff_iff]
      exact ⟨h i hi a ha, hle i a⟩
    rw [heq]

/-! ## Keys -/

theorem filter_key_eq [DecidableEq β] {l : List α} {key : α → β} (hnd : (l.map key).Nodup) {a : α} (ha : a ∈ l) :
    (l.filter fun b => key a = key b) = [a] := by
  induction l with
  | nil => cases ha
  | cons b l ih =>
    rw [List.map_cons, List.nodup_cons] at hnd
    obtain rfl | ha := List.mem_cons.mp ha
    · rw [List.filter_cons_of_pos (by simp), List.filter_eq_nil_iff.mpr]
      intro c hc hkey
      exact hnd.1 (of_decide_eq_true hkey ▸ List.mem_map_of_mem hc)
    · have hne : key a ≠ key b := fun h => hnd.1 (h ▸ List.mem_map_of_mem ha)
      rw [List.filter_cons_of_neg (by simpa using hne)]
      exact ih hnd.2 ha

/-- Matching two filtered copies of a list by a unique key pairs every element with itself. -/
theorem flatMap_filter_key [DecidableEq β] {l : List α} {key : α → β} (hnd : (l.map key).Nodup) (p p' : α → Bool)
    {γ : Type} (f : α → α → γ) :
    ((l.filter p).flatMap fun a => ((l.filter p').filter fun b => key a = key b).map (f a)) =
      (l.filter fun a => p a && p' a).map fun a => f a a := by
  have hblock : ∀ a ∈ l, ((l.filter p').filter fun b => key a = key b).map (f a) =
      ([a].filter p').map fun a => f a a := by
    intro a ha
    have hself := filter_key_eq hnd ha
    rw [List.filter_comm, hself]
    by_cases h : p' a = true <;> simp [h]
  rw [List.flatMap_congr fun a ha => hblock a (List.mem_of_mem_filter ha)]
  clear hnd hblock
  induction l with
  | nil => rfl
  | cons a l ih =>
    by_cases h : p a = true <;> by_cases h' : p' a = true <;> simp_all [List.filter_cons]

/-! ## Nested loops -/

theorem flatMap_comm {γ : Type} (l : List ι) (m : List α) (f : ι → α → List γ) :
    (l.flatMap fun a => m.flatMap fun b => f a b).Perm (m.flatMap fun b => l.flatMap fun a => f a b) := by
  induction l with
  | nil => simp
  | cons a l ih =>
    simp only [List.flatMap_cons]
    exact (ih.append_left _).trans (List.flatMap_append_perm ..)

theorem flatMap_filter_of_nil {l : List α} {p : α → Bool} {f : α → List β} (h : ∀ a ∈ l, p a = false → f a = []) :
    (l.filter p).flatMap f = l.flatMap f := by
  induction l with
  | nil => rfl
  | cons a l ih =>
    have ih' := ih fun b hb => h b (List.mem_cons_of_mem a hb)
    by_cases hp : p a = true
    · rw [List.filter_cons_of_pos hp, List.flatMap_cons, List.flatMap_cons, ih']
    · rw [List.filter_cons_of_neg hp, List.flatMap_cons, h a (List.mem_cons_self ..) (Bool.eq_false_iff.mpr hp), ih']
      rfl

theorem filter_eq_flatMap (l : List α) (p : α → Bool) : l.filter p = l.flatMap fun a => if p a then [a] else [] := by
  induction l with
  | nil => rfl
  | cons a l ih =>
    rw [List.flatMap_cons, List.filter_cons, ih]
    split_ifs <;> rfl

theorem flatMap_filter_keys [DecidableEq β] {keys : List β} (hnd : keys.Nodup) {l : List α} {key : α → β}
    (hkey : ∀ a ∈ l, key a ∈ keys) : (keys.flatMap fun k => l.filter fun a => key a = k).Perm l := by
  have hone : ∀ a ∈ l, (keys.flatMap fun k => if key a = k then [a] else []) = [a] := by
    intro a ha
    have hself : (keys.filter fun k => id (key a) = id k) = [key a] :=
      filter_key_eq (by rwa [List.map_id]) (hkey a ha)
    simp only [id_eq] at hself
    have hblock : (keys.flatMap fun k => if key a = k then [a] else []) =
        (keys.filter fun k => key a = k).flatMap fun _ => [a] := by
      rw [filter_eq_flatMap, List.flatMap_assoc]
      refine List.flatMap_congr fun k _ => ?_
      by_cases h : key a = k <;> simp [h]
    rw [hblock, hself]
    rfl
  simp only [filter_eq_flatMap l, decide_eq_true_eq]
  refine (flatMap_comm ..).trans (.of_eq ?_)
  rw [List.flatMap_congr hone]
  exact List.flatMap_singleton' l

/-- Blocks that share out the elements that pass a test, each to exactly one block, make the same bag. -/
theorem flatMap_filter_owner {l : List ι} {t : List α} {p : ι → α → Bool} {keep : α → Bool}
    (hone : ∀ a ∈ t, l.countP (fun i => p i a) = if keep a then 1 else 0) :
    (l.flatMap fun i => t.filter (p i)).Perm (t.filter keep) := by
  have hsplit : (l.flatMap fun i => t.filter (p i)) =
      l.flatMap fun i => t.flatMap fun a => if p i a then [a] else [] := by
    simp only [filter_eq_flatMap]
  have hown : ∀ a ∈ t, (l.flatMap fun i => if p i a then [a] else []) = if keep a then [a] else [] := by
    intro a ha
    calc (l.flatMap fun i => if p i a then [a] else [])
        = (l.filter fun i => p i a).map fun _ => a := by
          rw [filter_eq_flatMap, List.map_flatMap]
          exact List.flatMap_congr fun i _ => by split <;> rfl
      _ = List.replicate (if keep a then 1 else 0) a := by
          rw [List.map_const', ← List.countP_eq_length_filter, hone a ha]
      _ = if keep a then [a] else [] := by split <;> rfl
  rw [hsplit, filter_eq_flatMap t keep, ← List.flatMap_congr hown]
  exact flatMap_comm l t _

/-! ## Choices of one element from each list -/

theorem sections_flatMap (Ls : List (List ι)) (g : ι → List α) :
    (List.sections (Ls.map fun L => L.flatMap g)).Perm (Ls.sections.flatMap fun t => List.sections (t.map g)) := by
  induction Ls with
  | nil => simp [List.sections]
  | cons L Ls ih =>
    have hleft : (List.sections ((L :: Ls).map fun L => L.flatMap g)).Perm
        (Ls.sections.flatMap fun t => (List.sections (t.map g)).flatMap fun s => L.flatMap fun a => (g a).map (· :: s)) := by
      simp only [List.map_cons, List.sections, List.map_flatMap]
      exact (ih.flatMap_right _).trans (.of_eq List.flatMap_assoc)
    have hright : ((L :: Ls).sections.flatMap fun t => List.sections (t.map g)) =
        Ls.sections.flatMap fun t => L.flatMap fun a => (List.sections (t.map g)).flatMap fun s => (g a).map (· :: s) := by
      simp only [List.sections, List.flatMap_assoc, List.flatMap_map, List.map_cons]
    rw [hright]
    refine hleft.trans ?_
    exact List.Perm.flatMap_left _ fun t _ => flatMap_comm ..

/-- Lists that are equal as bags have the same choices. -/
theorem sections_perm {Ls Ms : List (List α)} (h : List.Forall₂ List.Perm Ls Ms) : Ls.sections.Perm Ms.sections := by
  induction h with
  | nil => exact .refl _
  | cons hL _ ih =>
    rw [List.sections, List.sections]
    exact (ih.flatMap_right _).trans (List.Perm.flatMap_left _ fun s _ => hL.map _)

theorem sections_concat (Ls : List (List α)) (L : List α) :
    (Ls ++ [L]).sections.Perm (L.flatMap fun a => Ls.sections.map (· ++ [a])) := by
  induction Ls with
  | nil => simp [List.sections, List.map_eq_flatMap]
  | cons M Ls ih =>
    rw [List.cons_append, List.sections]
    refine (ih.flatMap_right _).trans (.of_eq ?_)
    simp only [List.sections, List.flatMap_assoc, List.flatMap_map, List.map_flatMap, List.map_map]
    rfl

/-- One element of each list, in the opposite order. -/
theorem sections_reverse (Ls : List (List α)) : Ls.reverse.sections.Perm (Ls.sections.map List.reverse) := by
  induction Ls with
  | nil => exact .refl _
  | cons L Ls ih =>
    have hstep : (L :: Ls).sections.map List.reverse =
        Ls.sections.flatMap fun s => L.flatMap fun a => [s.reverse ++ [a]] := by
      rw [List.sections, List.map_flatMap]
      refine List.flatMap_congr fun s _ => ?_
      rw [List.map_map, List.map_eq_flatMap]
      exact List.flatMap_congr fun a _ => congrArg (fun t => [t]) List.reverse_cons
    have hconcat : ∀ a ∈ L, (Ls.reverse.sections.map (· ++ [a])).Perm
        (Ls.sections.flatMap fun s => [s.reverse ++ [a]]) := by
      intro a _
      rw [← List.map_eq_flatMap]
      exact (ih.map _).trans (.of_eq List.map_map)
    rw [List.reverse_cons, hstep]
    exact (sections_concat _ L).trans ((List.Perm.flatMap_left L hconcat).trans (flatMap_comm _ _ _))

theorem sections_nodup {Ls : List (List α)} (h : ∀ L ∈ Ls, L.Nodup) : Ls.sections.Nodup := by
  induction Ls with
  | nil => exact List.nodup_singleton _
  | cons L Ls ih =>
    have hL := h L (List.mem_cons_self ..)
    refine List.nodup_flatMap.mpr ⟨fun s _ => hL.map fun a b hab => (List.cons.inj hab).1, ?_⟩
    refine (ih fun L' hL' => h L' (List.mem_cons_of_mem L hL')).imp fun {s s'} hne => ?_
    simp only [Function.onFun, List.disjoint_left, List.mem_map]
    rintro _ ⟨a, -, rfl⟩ ⟨b, -, heq⟩
    exact hne (List.cons.inj heq).2.symm

theorem sections_ne_nil {Ls : List (List α)} (hne : ∀ L ∈ Ls, L ≠ []) : Ls.sections ≠ [] := by
  induction Ls with
  | nil => exact List.cons_ne_nil _ _
  | cons L Ls ih =>
    obtain ⟨s, ss, hs⟩ := List.exists_cons_of_ne_nil (ih fun L' hL' => hne L' (List.mem_cons_of_mem L hL'))
    obtain ⟨a, as, ha⟩ := List.exists_cons_of_ne_nil (hne L (List.mem_cons_self ..))
    simp [List.sections, hs, ha]

/-- Any element of one of the lists is part of a choice if no list is empty. -/
theorem exists_section {Ls : List (List α)} (hne : ∀ L ∈ Ls, L ≠ []) {j : Nat} {L : List α} {a : α}
    (hj : Ls[j]? = some L) (ha : a ∈ L) : ∃ s ∈ Ls.sections, s[j]? = some a := by
  induction Ls generalizing j with
  | nil => cases hj
  | cons L' Ls ih =>
    have hne' : ∀ L ∈ Ls, L ≠ [] := fun L hL => hne L (List.mem_cons_of_mem L' hL)
    cases j with
    | zero =>
      cases hj
      obtain ⟨s, hs⟩ := List.exists_mem_of_ne_nil _ (sections_ne_nil hne')
      exact ⟨a :: s, List.mem_flatMap.mpr ⟨s, hs, List.mem_map_of_mem ha⟩, rfl⟩
    | succ j =>
      obtain ⟨b, hb⟩ := List.exists_mem_of_ne_nil _ (hne L' (List.mem_cons_self ..))
      obtain ⟨s, hs, hsj⟩ := ih hne' hj
      exact ⟨b :: s, List.mem_flatMap.mpr ⟨s, hs, List.mem_map_of_mem hb⟩, hsj⟩

theorem filter_all_sections (p : α → Bool) (Ls : List (List α)) :
    (Ls.sections.filter fun s => s.all p) = (Ls.map fun L => L.filter p).sections := by
  induction Ls with
  | nil => rfl
  | cons L Ls ih =>
    rw [List.map_cons, List.sections, List.sections, ← ih, List.filter_flatMap, filter_eq_flatMap Ls.sections,
      List.flatMap_assoc]
    refine List.flatMap_congr fun s _ => ?_
    rw [List.filter_map]
    by_cases hs : s.all p = true <;> simp [Function.comp_def, hs]

theorem length_sections_eq_one {Ls : List (List α)} (h : ∀ L ∈ Ls, L.length = 1) : Ls.sections.length = 1 := by
  induction Ls with
  | nil => rfl
  | cons L Ls ih =>
    obtain ⟨hL, hLs⟩ := List.forall_mem_cons.mp h
    obtain ⟨a, rfl⟩ := List.length_eq_one_iff.mp hL
    obtain ⟨s, hs⟩ := List.length_eq_one_iff.mp (ih hLs)
    rw [List.sections, hs]
    rfl

/-! ## Positions -/

theorem flatMap_range_getElem? (l : List α) (f : α → List β) :
    ((List.range l.length).flatMap fun i => (l[i]?).elim [] f) = l.flatMap f := by
  induction l with
  | nil => rfl
  | cons a l ih =>
    rw [List.length_cons, List.range_succ_eq_map, List.flatMap_cons, List.flatMap_map, List.flatMap_cons, ← ih]
    rfl

/-- Of the numbered entries of a list only the one at a position contributes. -/
theorem flatMap_zipIdx_at (l : List α) (f : α → List β) (j : Nat) :
    (l.zipIdx.flatMap fun p => if p.2 = j then f p.1 else []) = (l[j]?.map f).getD [] := by
  have hgen : ∀ (l : List α) (k j : Nat),
      ((l.zipIdx k).flatMap fun p => if p.2 = k + j then f p.1 else []) = (l[j]?.map f).getD [] := by
    intro l
    induction l with
    | nil => exact fun _ _ => rfl
    | cons a l ih =>
      intro k j
      rw [List.zipIdx_cons, List.flatMap_cons]
      cases j with
      | zero =>
        have hrest : ((l.zipIdx (k + 1)).flatMap fun p => if p.2 = k + 0 then f p.1 else []) = [] := by
          refine List.flatMap_eq_nil_iff.mpr fun p hp => if_neg ?_
          have := List.le_snd_of_mem_zipIdx hp
          omega
        rw [hrest]
        simp
      | succ j =>
        have hrest := ih (k + 1) j
        rw [Nat.add_right_comm, Nat.add_assoc] at hrest
        simp [hrest]
  simpa using hgen l 0 j

end EasyDDB.Bags
