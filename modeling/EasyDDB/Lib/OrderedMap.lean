import Mathlib.Data.List.Basic
import Mathlib.Order.Lattice

/-! # Ordered maps

A map that is iterated in key order, kept as the list of its entries. -/
namespace EasyDDB.OrderedMap
set_option autoImplicit false

variable {κ ν : Type}

/-- `m[k] = v`. -/
def setKey [LinearOrder κ] (k : κ) (v : ν) : List (κ × ν) → List (κ × ν)
  | [] => [(k, v)]
  | (k', v') :: m =>
    if k < k' then (k, v) :: (k', v') :: m
    else if k' < k then (k', v') :: setKey k v m
    else (k, v) :: m

/-- `m[k]` read from a map to integers. -/
def readKey [DecidableEq κ] (m : List (κ × Int)) (k : κ) : Int := (m.lookup k).getD 0

variable [LinearOrder κ]

theorem readKey_cons (k k' : κ) (v : Int) (m : List (κ × Int)) :
    readKey ((k, v) :: m) k' = if k' = k then v else readKey m k' := by
  unfold readKey
  split_ifs with h
  · rw [h, List.lookup_cons_self, Option.getD_some]
  · rw [List.lookup_cons, beq_eq_false_iff_ne.mpr h]

theorem readKey_setKey (k k' : κ) (v : Int) (m : List (κ × Int)) :
    readKey (setKey k v m) k' = if k' = k then v else readKey m k' := by
  induction m with
  | nil => exact readKey_cons k k' v []
  | cons e m ih =>
    obtain ⟨j, w⟩ := e
    obtain hlt | rfl | hgt := lt_trichotomy k j
    · rw [setKey, if_pos hlt]
      exact readKey_cons k k' v _
    · rw [setKey, if_neg (lt_irrefl k), if_neg (lt_irrefl k), readKey_cons, readKey_cons]
      split_ifs <;> rfl
    · rw [setKey, if_neg hgt.asymm, if_pos hgt, readKey_cons, readKey_cons, ih]
      by_cases h : k' = j
      · rw [if_pos h, if_pos h, if_neg (h ▸ hgt.ne)]
      · rw [if_neg h, if_neg h]

theorem setKey_ne_nil (k : κ) (v : ν) (m : List (κ × ν)) : setKey k v m ≠ [] := by
  cases m with
  | nil => simp [setKey]
  | cons e m =>
    unfold setKey
    split_ifs <;> simp

/-- The keys are strictly increasing. -/
def Sorted (m : List (κ × ν)) : Prop := m.Pairwise fun e e' => e.1 < e'.1

theorem sorted_nil : Sorted ([] : List (κ × ν)) := List.Pairwise.nil

theorem mem_setKey {k : κ} {v : ν} {m : List (κ × ν)} (h : Sorted m) (e : κ × ν) :
    e ∈ setKey k v m ↔ e = (k, v) ∨ (e ∈ m ∧ e.1 ≠ k) := by
  induction m with
  | nil => simp [setKey]
  | cons d m ih =>
    obtain ⟨k', v'⟩ := d
    rw [Sorted, List.pairwise_cons] at h
    obtain ⟨hhead, htail⟩ := h
    have habove : ∀ j, j ≤ k' → ∀ e' ∈ m, e'.1 ≠ j := fun j hj e' he' heq =>
      absurd (hhead e' he') (not_lt.mpr (heq ▸ hj))
    unfold setKey
    split_ifs with h1 h2
    · have hne : ∀ e' ∈ (k', v') :: m, e'.1 ≠ k := by
        intro e' he' heq
        obtain rfl | he' := List.mem_cons.mp he'
        · exact h1.ne' heq
        · exact habove k h1.le e' he' heq
      rw [List.mem_cons]
      exact or_congr_right ⟨fun he => ⟨he, hne e he⟩, And.left⟩
    · rw [List.mem_cons, List.mem_cons, ih htail]
      constructor
      · rintro (rfl | rfl | ⟨he, hne⟩)
        · exact .inr ⟨.inl rfl, h2.ne⟩
        · exact .inl rfl
        · exact .inr ⟨.inr he, hne⟩
      · rintro (rfl | ⟨rfl | he, hne⟩)
        · exact .inr (.inl rfl)
        · exact .inl rfl
        · exact .inr (.inr ⟨he, hne⟩)
    · obtain rfl : k = k' := le_antisymm (not_lt.mp h2) (not_lt.mp h1)
      rw [List.mem_cons, List.mem_cons]
      constructor
      · rintro (rfl | he)
        · exact .inl rfl
        · exact .inr ⟨.inr he, habove k le_rfl e he⟩
      · rintro (rfl | ⟨rfl | he, hne⟩)
        · exact .inl rfl
        · exact absurd rfl hne
        · exact .inr he

theorem sorted_setKey (k : κ) (v : ν) {m : List (κ × ν)} (h : Sorted m) : Sorted (setKey k v m) := by
  induction m with
  | nil => exact List.pairwise_singleton _ _
  | cons d m ih =>
    obtain ⟨k', v'⟩ := d
    have hsorted := h
    rw [Sorted, List.pairwise_cons] at h
    obtain ⟨hhead, htail⟩ := h
    unfold setKey
    split_ifs with h1 h2
    · refine List.Pairwise.cons (fun e he => ?_) hsorted
      obtain rfl | he := List.mem_cons.mp he
      · exact h1
      · exact h1.trans (hhead e he)
    · refine List.Pairwise.cons (fun e he => ?_) (ih htail)
      obtain rfl | ⟨he, -⟩ := (mem_setKey htail e).mp he
      · exact h2
      · exact hhead e he
    · obtain rfl : k = k' := le_antisymm (not_lt.mp h2) (not_lt.mp h1)
      exact List.Pairwise.cons hhead htail

theorem Sorted.keys_nodup {m : List (κ × ν)} (h : Sorted m) : (m.map Prod.fst).Nodup :=
  List.pairwise_map.mpr (h.imp fun hlt => hlt.ne)

end EasyDDB.OrderedMap
