import EasyDDB.Lib.Loops

/-! # Runs of a transition system

The states a system reaches by steps that each meet a guard, the invariant rule for them, and runs along a given
schedule. -/
namespace EasyDDB.Runs
set_option autoImplicit false

variable {S E : Type}

/-- The states reached from `s` by steps that each meet the guard `C`. -/
inductive Reaches (step : S → E → Option S) (C : S → E → Prop) (s : S) : S → Prop
  | refl : Reaches step C s s
  | tail {t t' : S} {c : E} : Reaches step C s t → C t c → step t c = some t' → Reaches step C s t'

/-- The run along a schedule, undefined where a step misses the guard. -/
def run (step : S → E → Option S) (C : S → E → Prop) [∀ s c, Decidable (C s c)] (schedule : List E) (s : S) :
    Option S :=
  schedule.foldlM (fun t c => if C t c then step t c else none) s

variable {step : S → E → Option S} {C : S → E → Prop} {s t u : S}

theorem Reaches.trans (hst : Reaches step C s t) (htu : Reaches step C t u) : Reaches step C s u := by
  induction htu with
  | refl => exact hst
  | tail _ hc h ih => exact ih.tail hc h

/-- A property of the first state that every step of a run keeps holds in every state reached. -/
theorem Reaches.invariant {I : S → Prop}
    (hstep : ∀ t t' c, Reaches step C s t → I t → C t c → step t c = some t' → I t') (hinit : I s)
    (h : Reaches step C s t) : I t := by
  induction h with
  | refl => exact hinit
  | tail hreach hc h ih => exact hstep _ _ _ hreach ih hc h

theorem reaches_of_run [∀ s c, Decidable (C s c)] {schedule : List E} (h : run step C schedule s = some t) :
    Reaches step C s t := by
  refine Loops.invariant (I := Reaches step C s) ?_ .refl h
  intro c _ u u' hu hstep
  by_cases hc : C u c
  · rw [if_pos hc] at hstep
    exact hu.tail hc hstep
  · rw [if_neg hc] at hstep
    cases hstep

theorem exists_of_run [∀ s c, Decidable (C s c)] {schedule : List E} {b : S → Bool}
    (h : (run step C schedule s).any b = true) : ∃ t, Reaches step C s t ∧ b t = true := by
  cases ht : run step C schedule s with
  | none =>
    rw [ht] at h
    cases h
  | some t =>
    rw [ht] at h
    exact ⟨t, reaches_of_run ht, h⟩

/-- A measure that every step of a run lowers bounds the length of the run. -/
theorem length_le_of_run [∀ s c, Decidable (C s c)] {I : S → Prop} {μ : S → Nat}
    (hstep : ∀ t t' c, I t → C t c → step t c = some t' → I t' ∧ μ t' < μ t) (hinit : I s) {schedule : List E}
    (h : run step C schedule s = some t) : schedule.length + μ t ≤ μ s := by
  induction schedule generalizing s with
  | nil =>
    cases h
    exact Nat.le_of_eq (Nat.zero_add _)
  | cons c schedule ih =>
    simp only [run, List.foldlM_cons, Option.bind_eq_bind, Option.bind_eq_some_iff] at h
    obtain ⟨u, hu, h⟩ := h
    by_cases hc : C s c
    · rw [if_pos hc] at hu
      obtain ⟨hI, hlt⟩ := hstep s u c hinit hc hu
      have hrest := ih hI h
      rw [List.length_cons]
      omega
    · rw [if_neg hc] at hu
      cases hu

end EasyDDB.Runs
