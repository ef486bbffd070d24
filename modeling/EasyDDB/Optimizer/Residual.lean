import EasyDDB.Catalog.Section
import EasyDDB.Lib.Loops
import EasyDDB.Optimizer.CheckCondition
import Mathlib.Algebra.Order.Ring.Nat
import Mathlib.Data.List.Count

/-! # What `check_condition` computes

The loops in closed form: the list is empty on a contradiction and otherwise collects, predicate by
predicate, what is left to filter; `cnt` is the number of pairs in which a predicate covers a fragment
condition. On rows that satisfy the fragment's conditions the residual list is exact. -/
namespace EasyDDB.Optimizer
open Condition
set_option autoImplicit false

/-! ## One pair -/

/-- No value satisfies both conditions. -/
def clashes (x y : Condition) : Bool :=
  if x.type = .string then x.sval ≠ y.sval
  else
    match x.getSection, y.getSection with
    | some (a1, b1), some (a2, b2) => min b1 b2 < max a1 a2
    | _, _ => false

/-- The interval (or string) of `y` lies within that of `x`. -/
def covers (x y : Condition) : Bool :=
  if x.type = .string then x.sval = y.sval
  else
    match x.getSection, y.getSection with
    | some (a1, b1), some (a2, b2) => a1 ≤ a2 ∧ b2 ≤ b1
    | _, _ => false

/-- What the inner loop pushes for a pair. -/
def pushed (x y : Condition) : List Condition :=
  if x.type = .string then [y]
  else
    match x.getSection, y.getSection with
    | some (a1, b1), some (a2, b2) => residual x (max a1 a2) (min b1 b2)
    | _, _ => []

/-- The comparison of a pair reads no unset bound. -/
def PairSet (x y : Condition) : Prop :=
  x.type = .string ∨ (x.getSection.isSome ∧ y.getSection.isSome)

theorem residual_ne_nil (x : Condition) (a b : Int) : residual x a b ≠ [] := by
  unfold residual
  split_ifs <;> simp

theorem pushed_ne_nil {x y : Condition} (h : PairSet x y) : pushed x y ≠ [] := by
  unfold pushed
  split_ifs with ht
  · simp
  · obtain ⟨h1, h2⟩ := h.resolve_left ht
    obtain ⟨⟨a1, b1⟩, hs1⟩ := Option.isSome_iff_exists.mp h1
    obtain ⟨⟨a2, b2⟩, hs2⟩ := Option.isSome_iff_exists.mp h2
    rw [hs1, hs2]
    exact residual_ne_nil x _ _

theorem checkPair_spec {x y : Condition} (h : PairSet x y) (inter : List Condition) (cnt : Nat) :
    checkPair x y inter cnt =
      if clashes x y then .contradiction else .go (inter ++ pushed x y) (cnt + if covers x y then 1 else 0) := by
  unfold checkPair clashes covers pushed
  by_cases ht : x.type = .string
  · by_cases hs : x.sval = y.sval <;> simp [ht, hs]
  · obtain ⟨h1, h2⟩ := h.resolve_left ht
    obtain ⟨⟨a1, b1⟩, hs1⟩ := Option.isSome_iff_exists.mp h1
    obtain ⟨⟨a2, b2⟩, hs2⟩ := Option.isSome_iff_exists.mp h2
    have hcov : (max a1 a2 = a2 ∧ min b1 b2 = b2) ↔ (a1 ≤ a2 ∧ b2 ≤ b1) := by
      rw [max_eq_right_iff, min_eq_right_iff]
    simp only [ht, hs1, hs2, if_false, hcov, decide_eq_true_eq]
    by_cases hc : max a1 a2 ≤ min b1 b2
    · rw [if_pos hc, if_neg (not_lt.mpr hc)]
      split_ifs <;> rfl
    · rw [if_neg hc, if_pos (not_le.mp hc)]

/-! ## The loops -/

/-- Some fragment condition on the column of `x` excludes it. -/
def excluded (hfCondition : List Condition) (x : Condition) : Bool :=
  hfCondition.any fun y => x.sameColumn y && clashes x y

/-- The number of fragment conditions on the column of `x` that `x` covers. -/
def coverings (hfCondition : List Condition) (x : Condition) : Nat :=
  hfCondition.countP fun y => x.sameColumn y && covers x y

/-- What one predicate leaves to filter. -/
def residualOf (hfCondition : List Condition) (x : Condition) : List Condition :=
  if hfCondition.any x.sameColumn then (hfCondition.filter x.sameColumn).flatMap (pushed x)
  else if hfCondition.head?.any fun y => x.table = y.table then [x] else []

/-- Some predicate contradicts a fragment condition. -/
def contradicts (hfCondition Predicate : List Condition) : Bool := Predicate.any (excluded hfCondition)

/-- The pairs in which a predicate covers a fragment condition on its column. -/
def coverCount (hfCondition Predicate : List Condition) : Nat := (Predicate.map (coverings hfCondition)).sum

/-- `check_condition` reads no unset value: `hf_condition[0]` exists and every comparison of two
intervals has its bounds. -/
def CheckSet (hfCondition Predicate : List Condition) : Prop :=
  (Predicate = [] ∨ hfCondition ≠ []) ∧
    ∀ x ∈ Predicate, ∀ y ∈ hfCondition, x.sameColumn y = true → PairSet x y

theorem checkInner_spec (x : Condition) (H : List Condition)
    (h : ∀ y ∈ H, x.sameColumn y = true → PairSet x y) (inter : List Condition) (cnt : Nat) :
    checkInner x H inter cnt =
      if excluded H x then .contradiction
      else .go (inter ++ (H.filter x.sameColumn).flatMap (pushed x)) (cnt + coverings H x) := by
  induction H generalizing inter cnt with
  | nil => simp [checkInner, excluded, coverings]
  | cons y ys ih =>
    have hys : ∀ z ∈ ys, x.sameColumn z = true → PairSet x z := fun z hz => h z (List.mem_cons_of_mem y hz)
    rw [checkInner]
    by_cases hc : x.sameColumn y = true
    · rw [if_pos hc, checkPair_spec (h y (List.mem_cons_self ..) hc)]
      by_cases hcl : clashes x y = true
      · simp [hcl, hc, excluded]
      · simp only [hcl, Bool.false_eq_true, if_false]
        rw [ih hys]
        simp only [excluded, coverings, List.any_cons, hc, hcl, Bool.true_and, Bool.false_or, List.filter_cons,
          List.flatMap_cons, List.append_assoc, List.countP_cons, if_true]
        rw [Nat.add_assoc, Nat.add_comm (if covers x y then 1 else 0)]
    · rw [if_neg hc, ih hys]
      simp [excluded, coverings, hc]

theorem checkPredicate_spec {H : List Condition} (hH : H ≠ []) (x : Condition)
    (h : ∀ y ∈ H, x.sameColumn y = true → PairSet x y) (inter : List Condition) (cnt : Nat) :
    checkPredicate H x inter cnt =
      if excluded H x then .contradiction else .go (inter ++ residualOf H x) (cnt + coverings H x) := by
  obtain ⟨y, ys, rfl⟩ := List.exists_cons_of_ne_nil hH
  unfold checkPredicate
  rw [checkInner_spec x _ h]
  by_cases he : excluded (y :: ys) x = true
  · simp [he]
  · simp only [he, Bool.false_eq_true, if_false]
    unfold residualOf
    by_cases ha : (y :: ys).any x.sameColumn = true
    · rw [if_pos ha, if_pos ha]
    · have hnil : (y :: ys).filter x.sameColumn = [] := by
        rw [List.filter_eq_nil_iff]
        intro z hz hzc
        exact ha (List.any_eq_true.mpr ⟨z, hz, hzc⟩)
      rw [if_neg ha, if_neg ha, hnil]
      by_cases ht : x.table = y.table <;> simp [ht]

theorem checkOuter_spec {H : List Condition} (P : List Condition) (h : CheckSet H P) (inter : List Condition)
    (cnt : Nat) :
    checkOuter H P inter cnt =
      if contradicts H P then .contradiction
      else .go (inter ++ P.flatMap (residualOf H)) (cnt + coverCount H P) := by
  induction P generalizing inter cnt with
  | nil => simp [checkOuter, contradicts, coverCount]
  | cons x xs ih =>
    obtain ⟨hne, hset⟩ := h
    have hH : H ≠ [] := hne.resolve_left (by simp)
    have hxs : CheckSet H xs := ⟨.inr hH, fun z hz => hset z (List.mem_cons_of_mem x hz)⟩
    rw [checkOuter, checkPredicate_spec hH x (hset x (List.mem_cons_self ..))]
    by_cases he : excluded H x = true
    · simp [he, contradicts]
    · simp only [he, Bool.false_eq_true, if_false]
      rw [ih hxs]
      simp only [contradicts, List.any_cons, he, Bool.false_or, List.flatMap_cons, List.append_assoc, coverCount,
        List.map_cons, List.sum_cons, Nat.add_assoc]

/-- **`check_condition` in closed form.** -/
theorem checkCondition_spec {H P : List Condition} (h : CheckSet H P) :
    checkCondition H P =
      some (if contradicts H P then ([], 0) else (P.flatMap (residualOf H), coverCount H P)) := by
  unfold checkCondition
  rw [checkOuter_spec P h]
  by_cases hc : contradicts H P = true <;> simp [hc]

/-! ## Rows of the fragment -/

section Rows
variable {x y : Condition} {r : Row}

theorem section_of_satisfied {c : Condition} {a b v : Int} (hr : r.InRange) (hs : c.getSection = some (a, b))
    (hv : r c.column = some (.int v)) (hc : c.satisfied r = true) : a ≤ v ∧ v ≤ b :=
  (getSection_holds_iff hs (hr _ _ hv)).mp ((satisfied_iff_int hv).mp hc).2

theorem not_satisfied_of_clashes (hr : r.InRange) (hc : x.sameColumn y = true) (hx : x.Plain) (hy : y.Plain)
    (hcl : clashes x y = true) (hry : y.satisfied r = true) : ¬ x.satisfied r = true := by
  intro hrx
  have hcol := column_eq_of_sameColumn hc
  obtain ⟨v, htx, hv, -⟩ | ⟨s, htx, hs, hhx⟩ := satisfied_cases hrx
  · have hvy : r y.column = some (.int v) := hcol ▸ hv
    obtain ⟨⟨a1, b1⟩, hs1⟩ := Option.isSome_iff_exists.mp hx.getSection_isSome
    obtain ⟨⟨a2, b2⟩, hs2⟩ := Option.isSome_iff_exists.mp hy.getSection_isSome
    obtain ⟨h1, h2⟩ := section_of_satisfied hr hs1 hv hrx
    obtain ⟨h3, h4⟩ := section_of_satisfied hr hs2 hvy hry
    simp only [clashes, htx, hs1, hs2, reduceCtorEq, if_false, decide_eq_true_eq] at hcl
    exact absurd ((max_le h1 h3).trans (le_min h2 h4)) (not_le.mpr hcl)
  · have hsy : r y.column = some (.str s) := hcol ▸ hs
    obtain ⟨hty, hhy⟩ := (satisfied_iff_str hsy).mp hry
    simp only [hx.opt_eq htx, hy.opt_eq hty, Opt.holds, decide_eq_true_eq] at hhx hhy
    simp [clashes, htx, ← hhx, ← hhy] at hcl

theorem residual_satisfied_iff {a b v : Int} (hr : r.InRange) (hv : r x.column = some (.int v)) :
    satisfiesAll (residual x a b) r = true ↔ a ≤ v ∧ v ≤ b := by
  have hpt : ∀ a' b', (a' = -INF ∨ b' = INF ∨ a' = b') →
      ((ofSection x.table x.attr a' b').satisfied r = true ↔ a' ≤ v ∧ v ≤ b') := by
    intro a' b' hab
    have hcol : r (ofSection x.table x.attr a' b').column = some (.int v) := by
      rw [ofSection_column]; exact hv
    rw [satisfied_iff_int hcol, ofSection_holds_iff _ _ (hr _ _ hv) hab]
    simp [ofSection_type]
  have hvr := hr _ _ hv
  unfold residual
  split_ifs with h
  · simp only [satisfiesAll, List.all_cons, List.all_nil, Bool.and_true, Bool.and_eq_true]
    rw [hpt a INF (by simp), hpt (-INF) b (by simp)]
    have := hvr.1
    have := hvr.2
    omega
  · simp only [satisfiesAll, List.all_cons, List.all_nil, Bool.and_true]
    exact hpt a b (by tauto)

theorem pushed_satisfied_iff (hr : r.InRange) (hc : x.sameColumn y = true) (hx : x.Plain) (hy : y.Plain)
    (hty : x.type = y.type) (hcl : clashes x y = false) (hry : y.satisfied r = true) :
    satisfiesAll (pushed x y) r = true ↔ x.satisfied r = true := by
  have hcol := column_eq_of_sameColumn hc
  obtain ⟨v, hyt, hvy, -⟩ | ⟨s, hyt, hsy, hhy⟩ := satisfied_cases hry
  · have hv : r x.column = some (.int v) := hcol ▸ hvy
    obtain ⟨⟨a1, b1⟩, hs1⟩ := Option.isSome_iff_exists.mp hx.getSection_isSome
    obtain ⟨⟨a2, b2⟩, hs2⟩ := Option.isSome_iff_exists.mp hy.getSection_isSome
    have hsec := section_of_satisfied hr hs2 hvy hry
    have htx : x.type = .int := hty.trans hyt
    simp only [pushed, htx, hs1, hs2, reduceCtorEq, if_false]
    rw [residual_satisfied_iff hr hv, satisfied_iff_int hv, getSection_holds_iff hs1 (hr _ _ hv)]
    rw [max_le_iff, le_min_iff]
    tauto
  · have hs : r x.column = some (.str s) := hcol ▸ hsy
    have htx : x.type = .string := hty.trans hyt
    simp only [hy.opt_eq hyt, Opt.holds, decide_eq_true_eq] at hhy
    have hsv : x.sval = y.sval := by simpa [clashes, htx] using hcl
    rw [satisfied_iff_str hs]
    simp [pushed, htx, satisfiesAll, hry, hx.opt_eq htx, Opt.holds, hhy, hsv]

/-- A covered fragment condition implies the predicate. -/
theorem satisfied_of_covers (hr : r.InRange) (hc : x.sameColumn y = true) (hx : x.Plain) (hy : y.Plain)
    (hty : x.type = y.type) (hcov : covers x y = true) (hry : y.satisfied r = true) : x.satisfied r = true := by
  have hcol := column_eq_of_sameColumn hc
  obtain ⟨v, hyt, hvy, -⟩ | ⟨s, hyt, hsy, hhy⟩ := satisfied_cases hry
  · have hv : r x.column = some (.int v) := hcol ▸ hvy
    obtain ⟨⟨a1, b1⟩, hs1⟩ := Option.isSome_iff_exists.mp hx.getSection_isSome
    obtain ⟨⟨a2, b2⟩, hs2⟩ := Option.isSome_iff_exists.mp hy.getSection_isSome
    obtain ⟨h1, h2⟩ := section_of_satisfied hr hs2 hvy hry
    have htx : x.type = .int := hty.trans hyt
    simp only [covers, htx, hs1, hs2, reduceCtorEq, if_false, decide_eq_true_eq] at hcov
    rw [satisfied_iff_int hv, getSection_holds_iff hs1 (hr _ _ hv)]
    exact ⟨htx, hcov.1.trans h1, h2.trans hcov.2⟩
  · have hs : r x.column = some (.str s) := hcol ▸ hsy
    have htx : x.type = .string := hty.trans hyt
    have hcl : clashes x y = false := by simpa [clashes, covers, htx] using hcov
    rw [← pushed_satisfied_iff hr hc hx hy hty hcl hry]
    simp [pushed, htx, satisfiesAll, hry]

end Rows

/-! ## Lists of conditions -/

/-- A fragment of `table` carries conditions, and they are about the table. -/
structure OwnConditions (table : String) (H : List Condition) : Prop where
  ne_nil : H ≠ []
  table_eq : ∀ y ∈ H, y.table = table

/-- The conditions of a fragment of `table`, as the optimizer expects them. -/
structure FragConditions (table : String) (H : List Condition) : Prop extends OwnConditions table H where
  plain : ∀ y ∈ H, y.Plain

section Lists
variable {table : String} {H P : List Condition} {r : Row}

theorem CheckSet.of_plain (hH : FragConditions table H) (hP : ∀ x ∈ P, x.Plain) : CheckSet H P :=
  ⟨.inr hH.ne_nil, fun x hx y hy _ => .inr ⟨(hP x hx).getSection_isSome, (hH.plain y hy).getSection_isSome⟩⟩

theorem head?_table (hH : OwnConditions table H) (x : Condition) :
    (H.head?.any fun y => x.table = y.table) = decide (x.table = table) := by
  obtain ⟨y, ys, rfl⟩ := List.exists_cons_of_ne_nil hH.ne_nil
  simp [hH.table_eq y (List.mem_cons_self ..)]

theorem residualOf_eq_nil_iff (hH : OwnConditions table H) {x : Condition}
    (hset : ∀ y ∈ H, x.sameColumn y = true → PairSet x y) : residualOf H x = [] ↔ x.table ≠ table := by
  unfold residualOf
  by_cases ha : H.any x.sameColumn = true
  · obtain ⟨y, hy, hc⟩ := List.any_eq_true.mp ha
    have ht : x.table = table := (sameColumn_iff.mp hc).1.trans (hH.table_eq y hy)
    rw [if_pos ha]
    simp only [ht, ne_eq, not_true_eq_false, iff_false, List.flatMap_eq_nil_iff, List.mem_filter]
    intro h
    exact pushed_ne_nil (hset y hy hc) (h y ⟨hy, hc⟩)
  · rw [if_neg ha, head?_table hH]
    by_cases ht : x.table = table <;> simp [ht]

/-- With no contradiction the returned list is empty only when no predicate is about the table. -/
theorem residual_eq_nil_iff (hH : OwnConditions table H) (hset : CheckSet H P) :
    P.flatMap (residualOf H) = [] ↔ ∀ x ∈ P, x.table ≠ table := by
  rw [List.flatMap_eq_nil_iff]
  exact forall₂_congr fun x hx => residualOf_eq_nil_iff hH (hset.2 x hx)

theorem contradicts_iff :
    contradicts H P = true ↔ ∃ x ∈ P, ∃ y ∈ H, x.sameColumn y = true ∧ clashes x y = true := by
  simp only [contradicts, excluded, List.any_eq_true, Bool.and_eq_true]

/-- The returned list is empty on a contradiction, and when no predicate is about the table. -/
theorem checkCondition_empty_iff (hH : OwnConditions table H) (hset : CheckSet H P) :
    ∃ out, checkCondition H P = some out ∧
      (out.1 = [] ↔ contradicts H P = true ∨ ∀ x ∈ P, x.table ≠ table) := by
  refine ⟨_, checkCondition_spec hset, ?_⟩
  rw [← residual_eq_nil_iff hH hset]
  by_cases hc : contradicts H P = true <;> simp [hc]

/-- A loop that passes over the elements whose conditions leave nothing and pushes an entry for each other one. -/
theorem collect_checked {α β : Type} {conditions : α → List Condition} {keep : α → Bool} {g : α → β} {l : List α}
    (hcheck : ∀ a ∈ l, ∃ out, checkCondition (conditions a) P = some out ∧ (out.1 = [] ↔ keep a = false)) :
    l.foldlM (fun acc a => do
      let out ← checkCondition (conditions a) P
      if out.1 = [] then some acc else some (acc ++ [g a])) [] = some ((l.filter keep).map g) := by
  apply Loops.collect
  intro a ha acc
  obtain ⟨out, hout, hkeep⟩ := hcheck a ha
  rw [hout, Option.bind_eq_bind, Option.bind_some]
  by_cases hnil : out.1 = []
  · rw [if_pos hnil, hkeep.1 hnil]
    rfl
  · have hkept : keep a = true := Bool.not_eq_false _ ▸ mt hkeep.2 hnil
    rw [if_neg hnil, if_pos hkept]

theorem residualOf_satisfied_iff (hH : FragConditions table H) (hr : r.InRange) (hrH : satisfiesAll H r = true)
    {x : Condition} (hx : x.Plain) (hty : ∀ y ∈ H, x.sameColumn y = true → x.type = y.type)
    (hex : excluded H x = false) :
    satisfiesAll (residualOf H x) r = true ↔ (x.table = table → x.satisfied r = true) := by
  have hsat := (satisfiesAll_iff H r).mp hrH
  have hcl : ∀ y ∈ H, x.sameColumn y = true → clashes x y = false := by
    intro y hy hc
    have h := List.any_eq_false.mp hex y hy
    simpa [hc] using h
  have hpush : ∀ y ∈ H, x.sameColumn y = true →
      (satisfiesAll (pushed x y) r = true ↔ x.satisfied r = true) := fun y hy hc =>
    pushed_satisfied_iff hr hc hx (hH.plain y hy) (hty y hy hc) (hcl y hy hc) (hsat y hy)
  unfold residualOf
  by_cases ha : H.any x.sameColumn = true
  · obtain ⟨y, hy, hc⟩ := List.any_eq_true.mp ha
    have ht : x.table = table := (sameColumn_iff.mp hc).1.trans (hH.table_eq y hy)
    rw [if_pos ha]
    simp only [satisfiesAll, List.all_flatMap, List.all_eq_true, List.mem_filter, ht, true_implies]
    constructor
    · intro h
      exact (hpush y hy hc).mp (List.all_eq_true.mpr (h y ⟨hy, hc⟩))
    · intro h z hz
      exact List.all_eq_true.mp ((hpush z hz.1 hz.2).mpr h)
  · rw [if_neg ha, head?_table hH.toOwnConditions]
    by_cases ht : x.table = table <;> simp [ht, satisfiesAll]

/-- **The residual list is exact**: a row of the fragment satisfies it if and only if it satisfies the
predicates about the table. -/
theorem residual_exact (hH : FragConditions table H) (hr : r.InRange) (hrH : satisfiesAll H r = true)
    (hP : ∀ x ∈ P, x.Plain) (hty : ∀ x ∈ P, ∀ y ∈ H, x.sameColumn y = true → x.type = y.type)
    (hcon : contradicts H P = false) :
    satisfiesAll (P.flatMap (residualOf H)) r = true ↔ ∀ x ∈ P, x.table = table → x.satisfied r = true := by
  simp only [satisfiesAll, List.all_flatMap, List.all_eq_true (l := P)]
  refine forall₂_congr fun x hx => ?_
  have hex : excluded H x = false := by simpa using List.any_eq_false.mp hcon x hx
  exact residualOf_satisfied_iff hH hr hrH (hP x hx) (hty x hx) hex

/-- A contradiction excludes every row of the fragment. -/
theorem contradicts_excludes (hH : FragConditions table H) (hr : r.InRange) (hrH : satisfiesAll H r = true)
    (hP : ∀ x ∈ P, x.Plain) (hcon : contradicts H P = true) :
    ∃ x ∈ P, x.table = table ∧ ¬ x.satisfied r = true := by
  obtain ⟨x, hx, y, hy, hc, hcl⟩ := contradicts_iff.mp hcon
  exact ⟨x, hx, (sameColumn_iff.mp hc).1.trans (hH.table_eq y hy),
    not_satisfied_of_clashes hr hc (hP x hx) (hH.plain y hy) hcl ((satisfiesAll_iff H r).mp hrH y hy)⟩

/-- **What `check_condition` returns is exact**: an empty list when no row of the fragment satisfies the predicates
about the table, and otherwise conditions that select the same rows of the fragment as they do. -/
theorem checkCondition_exact (hH : FragConditions table H) (hP : ∀ x ∈ P, x.Plain) (hon : ∃ x ∈ P, x.table = table)
    (hty : ∀ x ∈ P, ∀ y ∈ H, x.sameColumn y = true → x.type = y.type) :
    ∃ L cnt, checkCondition H P = some (L, cnt) ∧ ∀ r : Row, r.InRange → satisfiesAll H r = true →
      (L = [] → ∃ x ∈ P, x.table = table ∧ ¬ x.satisfied r = true) ∧
      (L ≠ [] → (satisfiesAll L r = true ↔ ∀ x ∈ P, x.table = table → x.satisfied r = true)) := by
  have hset := CheckSet.of_plain hH hP
  rw [checkCondition_spec hset]
  by_cases hcon : contradicts H P = true
  · rw [if_pos hcon]
    refine ⟨[], 0, rfl, fun r hr hrH => ⟨fun _ => contradicts_excludes hH hr hrH hP hcon, ?_⟩⟩
    exact fun hne => absurd rfl hne
  · rw [if_neg hcon]
    rw [Bool.not_eq_true] at hcon
    refine ⟨_, _, rfl, fun r hr hrH => ⟨fun hnil => ?_, fun _ => residual_exact hH hr hrH hP hty hcon⟩⟩
    obtain ⟨x, hx, ht⟩ := hon
    exact absurd ht ((residual_eq_nil_iff hH.toOwnConditions hset).mp hnil x hx)

end Lists

/-- The books with an id below 207000 and the title `C` in the second fragment of `Book`. -/
theorem bookTitle_residual_exact :
    ∃ L cnt, checkCondition [condGe "Book" "id" 205000, condLt "Book" "id" 210000]
        [condLt "Book" "id" 207000, condEqStr "Book" "title" "C"] = some (L, cnt) ∧ L ≠ [] ∧
      satisfiesAll L (Row.ofList [("Book.id", .int 206999), ("Book.title", .str "C")]) = true := by
  have hH : FragConditions "Book" [condGe "Book" "id" 205000, condLt "Book" "id" 210000] :=
    ⟨⟨by decide, by decide⟩, by decide⟩
  obtain ⟨L, cnt, hL, hrow⟩ := checkCondition_exact
    (P := [condLt "Book" "id" 207000, condEqStr "Book" "title" "C"]) hH (by decide) (by decide) (by decide)
  have hne : L ≠ [] := by
    have hall : ((checkCondition [condGe "Book" "id" 205000, condLt "Book" "id" 210000]
        [condLt "Book" "id" 207000, condEqStr "Book" "title" "C"]).all fun e => e.1 ≠ []) = true := by decide
    rw [hL] at hall
    simpa using hall
  refine ⟨L, cnt, hL, hne, ?_⟩
  have hr := hrow (Row.ofList [("Book.id", .int 206999), ("Book.title", .str "C")])
    (Row.ofList_inRange (by decide)) (by decide)
  exact (hr.2 hne).mpr (by decide)

/-! ## The interval of a condition -/

/-- The bounds that `get_section` sets describe the comparison with `v`, and the conditions that `check_condition` makes
of a nonempty interval describe the interval. -/
def IntervalExact (c : Condition) (v : Int) : Prop :=
  ∃ a b, c.getSection = some (a, b) ∧ ((a ≤ v ∧ v ≤ b) ↔ c.opt.holds v c.ival = true) ∧
    (a ≤ b → ((∀ d ∈ residual c a b, d.opt.holds v d.ival = true) ↔ (a ≤ v ∧ v ≤ b)))

/-- Where `±INF` can stand for infinity in a comparison of `v` with `ival`. -/
def WithinInf (opt : Opt) (ival v : Int) : Prop :=
  match opt with
  | .eq => ¬ (ival = -INF ∧ v < -INF) ∧ ¬ (ival = INF ∧ INF < v)
  | .gt => ival < intMax ∧ (INF < v → v ≤ ival) ∧ ¬ (ival + 1 = -INF ∧ v < -INF)
  | .ge => (INF < v → v < ival) ∧ ¬ (ival = -INF ∧ v < -INF)
  | .lt => intMin < ival ∧ (v < -INF → ival ≤ v)
  | .le => v < -INF → ival < v
  | .ne => False
  | .unset => False

theorem ofSection_holds {table attr : String} {a b v : Int} :
    (ofSection table attr a b).opt.holds v (ofSection table attr a b).ival = true ↔
      if a = -INF then v ≤ b else if b = INF then a ≤ v else v = a := by
  unfold ofSection
  split_ifs <;> simp [Opt.holds]

theorem residual_holds {x : Condition} {a b v : Int} :
    (∀ d ∈ residual x a b, d.opt.holds v d.ival = true) ↔
      if a ≠ -INF ∧ b ≠ INF ∧ a ≠ b then a ≤ v ∧ v ≤ b
      else if a = -INF then v ≤ b else if b = INF then a ≤ v else v = a := by
  unfold residual
  split_ifs with htwo
  · simp [ofSection_holds, htwo.1]
  all_goals simp_all [ofSection_holds]

theorem intervalExact_of_section {c : Condition} {a b v : Int} (h : c.getSection = some (a, b)) :
    IntervalExact c v ↔ ((a ≤ v ∧ v ≤ b) ↔ c.opt.holds v c.ival = true) ∧
      (a ≤ b → ((if a ≠ -INF ∧ b ≠ INF ∧ a ≠ b then a ≤ v ∧ v ≤ b
        else if a = -INF then v ≤ b else if b = INF then a ≤ v else v = a) ↔ (a ≤ v ∧ v ≤ b))) := by
  rw [← residual_holds (x := c)]
  constructor
  · rintro ⟨a', b', h', hexact⟩
    obtain ⟨rfl, rfl⟩ : a = a' ∧ b = b' := by simpa [h] using h'
    exact hexact
  · exact fun hexact => ⟨a, b, h, hexact⟩

theorem not_intervalExact {c : Condition} {v : Int} (h : c.getSection = none) : ¬ IntervalExact c v := by
  rintro ⟨a, b, h', -⟩
  simp [h] at h'

/-- **The interval view of a comparison is exact exactly where** the operator has an interval, its bound does not
overflow and `v` is not beyond a bound at `±INF`. -/
theorem interval_exact_iff (c : Condition) (v : Int) : IntervalExact c v ↔ WithinInf c.opt c.ival v := by
  have hINF : INF = 1000000000 := rfl
  have hmax : intMax = 2147483647 := rfl
  have hmin : intMin = -2147483648 := rfl
  cases hopt : c.opt with
  | unset | ne => simpa [WithinInf] using not_intervalExact (by simp [getSection, hopt])
  | eq =>
    rw [intervalExact_of_section (a := c.ival) (b := c.ival) (by simp [getSection, hopt])]
    simp only [hopt, WithinInf, Opt.holds, decide_eq_true_eq]
    split_ifs <;> omega
  | ge =>
    rw [intervalExact_of_section (a := c.ival) (b := INF) (by simp [getSection, hopt])]
    simp only [hopt, WithinInf, Opt.holds, decide_eq_true_eq]
    split_ifs <;> omega
  | le =>
    rw [intervalExact_of_section (a := -INF) (b := c.ival) (by simp [getSection, hopt])]
    simp only [hopt, WithinInf, Opt.holds, decide_eq_true_eq]
    split_ifs <;> omega
  | gt =>
    by_cases hover : c.ival + 1 ≤ intMax
    · rw [intervalExact_of_section (a := c.ival + 1) (b := INF) (by simp [getSection, hopt, hover])]
      simp only [hopt, WithinInf, Opt.holds, decide_eq_true_eq]
      split_ifs <;> omega
    · have hnot := not_intervalExact (c := c) (v := v) (by simp [getSection, hopt, hover])
      simp only [hnot, WithinInf, false_iff]
      omega
  | lt =>
    by_cases hover : intMin ≤ c.ival - 1
    · rw [intervalExact_of_section (a := -INF) (b := c.ival - 1) (by simp [getSection, hopt, hover])]
      simp only [hopt, WithinInf, Opt.holds, decide_eq_true_eq]
      split_ifs <;> omega
    · have hnot := not_intervalExact (c := c) (v := v) (by simp [getSection, hopt, hover])
      simp only [hnot, WithinInf, false_iff]
      omega

/-- `Book.id > 5` is read as `[6, 10^9]`: two thousand million satisfies the comparison and lies outside. -/
theorem aboveFive_not_exact :
    ¬ IntervalExact { table := "Book", attr := "id", opt := .gt, type := .int, ival := 5, sval := "" } 2000000000 := by
  rw [intervalExact_of_section (a := 6) (b := INF) (by decide)]
  decide

end EasyDDB.Optimizer
