import EasyDDB.Catalog.Condition

/-! # The interval view of a condition

For constants and values within `±INF` the bounds of `get_section` describe a comparison exactly, and
an interval turned back into conditions accepts the values of the interval. -/
namespace EasyDDB
open Condition
set_option autoImplicit false

/-- The values the optimizer's intervals can represent. -/
def InRange (v : Int) : Prop := -INF ≤ v ∧ v ≤ INF

/-- The comparisons the optimizer is made for: `=,<,<=,>,>=` of an int column with a constant in
range, `=` of a string column. -/
def Condition.Plain (c : Condition) : Prop :=
  (c.type = .int ∧ c.opt ∈ [Opt.eq, .lt, .le, .gt, .ge] ∧ InRange c.ival) ∨ (c.type = .string ∧ c.opt = .eq)

instance (v : Int) : Decidable (InRange v) := inferInstanceAs (Decidable (_ ∧ _))
instance (c : Condition) : Decidable c.Plain := inferInstanceAs (Decidable (_ ∨ _))

/-- The integers of a row are in range. -/
def Row.InRange (r : Row) : Prop := ∀ a v, r a = some (.int v) → EasyDDB.InRange v

theorem Row.ofList_inRange {l : List (String × Value)} (h : ∀ e ∈ l, ∀ v ∈ e.2.int?, EasyDDB.InRange v) :
    (Row.ofList l).InRange := by
  intro a v hv
  obtain ⟨l₁, l₂, rfl, -⟩ := List.lookup_eq_some_iff.mp hv
  exact h (a, .int v) (by simp) v rfl

theorem Condition.Plain.getSection_isSome {c : Condition} (h : c.Plain) : c.getSection.isSome := by
  obtain ⟨-, hopt, hlo, hhi⟩ | ⟨-, hopt⟩ := h
  · have h1 : c.ival + 1 ≤ intMax := by simp only [INF, intMax] at *; omega
    have h2 : intMin ≤ c.ival - 1 := by simp only [INF, intMin] at *; omega
    simp only [List.mem_cons, List.not_mem_nil, or_false] at hopt
    obtain h | h | h | h | h := hopt <;> simp [getSection, h, h1, h2]
  · simp [getSection, hopt]

theorem Condition.Plain.opt_eq {c : Condition} (h : c.Plain) (ht : c.type = .string) : c.opt = .eq := by
  obtain ⟨hi, -⟩ | ⟨-, ho⟩ := h
  · rw [ht] at hi
    cases hi
  · exact ho

theorem getSection_holds_iff {c : Condition} {a b v : Int} (hs : c.getSection = some (a, b)) (hv : InRange v) :
    c.opt.holds v c.ival = true ↔ a ≤ v ∧ v ≤ b := by
  obtain ⟨hlo, hhi⟩ := hv
  unfold getSection at hs
  cases hopt : c.opt <;> simp only [hopt, reduceCtorEq, Option.some.injEq, Prod.mk.injEq,
    Option.ite_none_right_eq_some] at hs
  case eq => obtain ⟨rfl, rfl⟩ := hs; simp only [Opt.holds, decide_eq_true_eq]; omega
  case lt => obtain ⟨-, rfl, rfl⟩ := hs; simp only [Opt.holds, decide_eq_true_eq]; omega
  case le => obtain ⟨rfl, rfl⟩ := hs; simp only [Opt.holds, decide_eq_true_eq]; omega
  case gt => obtain ⟨-, rfl, rfl⟩ := hs; simp only [Opt.holds, decide_eq_true_eq]; omega
  case ge => obtain ⟨rfl, rfl⟩ := hs; simp only [Opt.holds, decide_eq_true_eq]; omega

theorem ofSection_column (table attr : String) (a b : Int) :
    (ofSection table attr a b).column = table ++ "." ++ attr := by
  unfold ofSection column
  split_ifs <;> rfl

theorem ofSection_type (table attr : String) (a b : Int) : (ofSection table attr a b).type = .int := by
  unfold ofSection
  split_ifs <;> rfl

theorem ofSection_holds_iff (table attr : String) {a b v : Int} (hv : InRange v)
    (hab : a = -INF ∨ b = INF ∨ a = b) :
    (ofSection table attr a b).opt.holds v (ofSection table attr a b).ival = true ↔ a ≤ v ∧ v ≤ b := by
  obtain ⟨hlo, hhi⟩ := hv
  unfold ofSection
  split_ifs with h1 h2 <;> simp only [Opt.holds, decide_eq_true_eq] <;> omega

/-! ## Satisfaction by the value of the column -/

theorem satisfied_iff_int {c : Condition} {r : Row} {v : Int} (hr : r c.column = some (.int v)) :
    c.satisfied r = true ↔ c.type = .int ∧ c.opt.holds v c.ival = true := by
  unfold Condition.satisfied
  rw [hr]
  cases c.type <;> simp

theorem satisfied_iff_str {c : Condition} {r : Row} {s : String} (hr : r c.column = some (.str s)) :
    c.satisfied r = true ↔ c.type = .string ∧ c.opt.holds s c.sval = true := by
  unfold Condition.satisfied
  rw [hr]
  cases c.type <;> simp

theorem satisfied_cases {c : Condition} {r : Row} (h : c.satisfied r = true) :
    (∃ v, c.type = .int ∧ r c.column = some (.int v) ∧ c.opt.holds v c.ival = true) ∨
      ∃ s, c.type = .string ∧ r c.column = some (.str s) ∧ c.opt.holds s c.sval = true := by
  cases hr : r c.column with
  | none => simp [Condition.satisfied, hr] at h
  | some w =>
    cases w with
    | int v => exact .inl ⟨v, ((satisfied_iff_int hr).mp h).1, rfl, ((satisfied_iff_int hr).mp h).2⟩
    | str s => exact .inr ⟨s, ((satisfied_iff_str hr).mp h).1, rfl, ((satisfied_iff_str hr).mp h).2⟩

theorem satisfiesAll_append (cs ds : List Condition) (r : Row) :
    satisfiesAll (cs ++ ds) r = (satisfiesAll cs r && satisfiesAll ds r) := List.all_append

theorem satisfiesAll_iff (cs : List Condition) (r : Row) :
    satisfiesAll cs r = true ↔ ∀ c ∈ cs, c.satisfied r = true := List.all_eq_true

theorem satisfiesAll_perm {cs ds : List Condition} (h : cs.Perm ds) : satisfiesAll cs = satisfiesAll ds := by
  funext r
  rw [Bool.eq_iff_iff, satisfiesAll_iff, satisfiesAll_iff]
  exact forall_congr' fun c => imp_congr_left h.mem_iff

theorem sameColumn_iff {x y : Condition} : x.sameColumn y = true ↔ x.table = y.table ∧ x.attr = y.attr := by
  simp [sameColumn]

theorem column_eq_of_sameColumn {x y : Condition} (h : x.sameColumn y = true) : x.column = y.column := by
  obtain ⟨h1, h2⟩ := sameColumn_iff.mp h
  rw [column, column, h1, h2]

/-! ## Projections -/

theorem project_project {cs ds : List String} (h : ∀ a ∈ cs, a ∈ ds) (r : Row) :
    (r.project ds).project cs = r.project cs := by
  funext a
  by_cases ha : a ∈ cs
  · simp [Row.project, ha, h a ha]
  · simp [Row.project, ha]

theorem project_congr {cs ds : List String} (h : ∀ a, a ∈ cs ↔ a ∈ ds) : Row.project cs = Row.project ds := by
  funext r a
  simp [Row.project, h a]

theorem satisfied_project {cols : List String} {c : Condition} (h : c.column ∈ cols) (r : Row) :
    c.satisfied (r.project cols) = c.satisfied r := by
  simp [Condition.satisfied, Row.project, h]

theorem satisfiesAll_project {cols : List String} {cs : List Condition} (h : ∀ c ∈ cs, c.column ∈ cols) (r : Row) :
    satisfiesAll cs (r.project cols) = satisfiesAll cs r := by
  rw [Bool.eq_iff_iff, satisfiesAll_iff, satisfiesAll_iff]
  exact forall₂_congr fun c hc => by rw [satisfied_project (h c hc)]

theorem merge_project (cs ds : List String) (r : Row) :
    Row.merge (r.project cs) (r.project ds) = r.project (cs ++ ds) := by
  funext a
  by_cases hc : a ∈ cs <;> by_cases hd : a ∈ ds <;> cases h : r a <;> simp [Row.merge, Row.project, hc, hd, h]

end EasyDDB
