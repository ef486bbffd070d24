import Mathlib.Data.List.Forall2

/-! # Lists related entry by entry -/
namespace EasyDDB.Pointwise
set_option autoImplicit false

variable {α β : Type} {R : α → β → Prop} {l : List α} {m : List β}

theorem getElem? (h : List.Forall₂ R l m) {i : Nat} {a : α} (ha : l[i]? = some a) : ∃ b, m[i]? = some b ∧ R a b := by
  induction h generalizing i with
  | nil => cases ha
  | @cons _ b _ _ hab _ ih =>
    cases i with
    | zero =>
      cases ha
      exact ⟨b, rfl, hab⟩
    | succ i => exact ih ha

theorem mem_left (h : List.Forall₂ R l m) {a : α} (ha : a ∈ l) : ∃ b ∈ m, R a b := by
  obtain ⟨i, hi⟩ := List.mem_iff_getElem?.mp ha
  obtain ⟨b, hb, hab⟩ := getElem? h hi
  exact ⟨b, List.mem_of_getElem? hb, hab⟩

theorem mem_right (h : List.Forall₂ R l m) {b : β} (hb : b ∈ m) : ∃ a ∈ l, R a b := mem_left h.flip hb

theorem modify (h : List.Forall₂ R l m) {f : α → α} {g : β → β} (hfg : ∀ a b, R a b → R (f a) (g b)) (i : Nat) :
    List.Forall₂ R (l.modify i f) (m.modify i g) := by
  induction h generalizing i with
  | nil => simp
  | cons hab hrest ih =>
    cases i with
    | zero => exact .cons (hfg _ _ hab) hrest
    | succ i => exact .cons hab (ih i)

theorem map {γ δ : Type} {S : γ → δ → Prop} {f : α → γ} {g : β → δ} (h : List.Forall₂ R l m)
    (hfg : ∀ a b, R a b → S (f a) (g b)) : List.Forall₂ S (l.map f) (m.map g) := by
  rw [List.forall₂_map_left_iff, List.forall₂_map_right_iff]
  exact h.imp hfg

theorem map_eq {γ : Type} {f : α → γ} {g : β → γ} (h : List.Forall₂ R l m) (hfg : ∀ a b, R a b → f a = g b) :
    l.map f = m.map g := by
  rw [← List.forall₂_eq_eq_eq]
  exact map h hfg

theorem mapM_eq_some_iff {f : α → Option β} : l.mapM f = some m ↔ List.Forall₂ (fun a b => f a = some b) l m := by
  induction l generalizing m with
  | nil => simp [eq_comm]
  | cons a l ih =>
    simp only [List.mapM_cons, Option.bind_eq_bind, Option.bind_eq_some_iff, ih, Option.pure_def,
      Option.some.injEq]
    constructor
    · rintro ⟨b, hb, m, hm, rfl⟩
      exact .cons hb hm
    · intro h
      cases h with
      | cons hb hm => exact ⟨_, hb, _, hm, rfl⟩

theorem mapM_defined {f : α → Option β} (h : ∀ a ∈ l, (f a).isSome) :
    ∃ m, l.mapM f = some m ∧ ∀ b, b ∈ m ↔ ∃ a ∈ l, f a = some b := by
  induction l with
  | nil => exact ⟨[], rfl, by simp⟩
  | cons a l ih =>
    obtain ⟨b, hb⟩ := Option.isSome_iff_exists.1 (h a (List.mem_cons_self ..))
    obtain ⟨m, hm, hmem⟩ := ih fun x hx => h x (List.mem_cons_of_mem a hx)
    refine ⟨b :: m, ?_, fun c => ?_⟩
    · rw [List.mapM_cons, hb, hm]
      rfl
    · rw [List.mem_cons, hmem, List.exists_mem_cons_iff, hb, Option.some.injEq, eq_comm]

theorem forall₂_range_iff {S : Nat → β → Prop} :
    List.Forall₂ S (List.range m.length) m ↔ ∀ i b, m[i]? = some b → S i b := by
  simp only [List.forall₂_iff_get, List.length_range, List.get_eq_getElem, List.getElem_range, true_and,
    List.getElem?_eq_some_iff]
  constructor
  · rintro h i b ⟨hi, rfl⟩
    exact h i hi hi
  · intro h i _ hi
    exact h i _ ⟨hi, rfl⟩

theorem getElem?_filterMap {f : α → Option β} (h : ∀ a ∈ l, (f a).isSome) (i : Nat) :
    (l.filterMap f)[i]? = l[i]?.bind f := by
  induction l generalizing i with
  | nil => rfl
  | cons a l ih =>
    obtain ⟨b, hb⟩ := Option.isSome_iff_exists.1 (h a (List.mem_cons_self ..))
    rw [List.filterMap_cons_some hb]
    cases i with
    | zero => exact hb.symm
    | succ i => exact ih (fun x hx => h x (List.mem_cons_of_mem a hx)) i

end EasyDDB.Pointwise
