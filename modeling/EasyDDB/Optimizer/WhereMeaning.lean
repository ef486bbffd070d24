import EasyDDB.Optimizer.Conjuncts
import EasyDDB.Optimizer.JoinAlgebra

/-! # What the extracted WHERE clause means

`get_Expression` walks AND and OR alike: it collects every comparison of the clause, and the optimizer
takes the collected predicates and joins together. That is the meaning of the clause exactly when an OR
never holds by one of its sides alone. -/
namespace EasyDDB.Optimizer
set_option autoImplicit false

/-! ## Meaning of a clause -/

/-- A combination satisfies a predicate: the row it has of the predicate's table does. -/
def Comb.satisfies (comb : Comb) (c : Condition) : Bool :=
  match comb.lookup c.table with
  | none => false
  | some r => c.satisfied r

namespace Expr

/-- A comparison operator between two values of one type. -/
def compares (opType : OperatorType) : Value → Value → Bool
  | .int v, .int w => ((operatorToToken opType).getD .unset).holds v w
  | .str v, .str w => ((operatorToToken opType).getD .unset).holds v w
  | _, _ => false

/-- The value of an operand in a combination. -/
def operandValue (comb : Comb) : Expr → Option Value
  | columnRef (some table) name => Comb.value comb table name
  | literalString name => some (.str name)
  | literal _ ival => some (.int ival)
  | _ => Option.none

/-- What a WHERE clause means for a combination of rows. -/
def holds (comb : Comb) : Expr → Bool
  | binary .and expr expr2 => holds comb expr && holds comb expr2
  | binary .or expr expr2 => holds comb expr || holds comb expr2
  | binary opType expr expr2 =>
    match operandValue comb expr, operandValue comb expr2 with
    | some v, some w => compares opType v w
    | _, _ => false
  | _ => false

/-- A qualified column compared with a literal, or equated with a qualified column. -/
def comparesColumn : OperatorType → Expr → Expr → Bool
  | opType, columnRef (some _) _, columnRef (some _) _ => opType = .equals
  | opType, columnRef (some _) _, literalString _ => (operatorToToken opType).isSome
  | opType, columnRef (some _) _, literal _ _ => (operatorToToken opType).isSome
  | _, _, _ => false

/-- A clause built from AND and OR over comparisons of qualified columns. -/
def isClause : Expr → Bool
  | binary .and expr expr2 => expr.isClause && expr2.isClause
  | binary .or expr expr2 => expr.isClause && expr2.isClause
  | binary opType expr expr2 => comparesColumn opType expr expr2
  | _ => false

/-- The comparisons of a clause, from left to right. -/
def comparisons : Expr → List Expr
  | binary .and expr expr2 => comparisons expr ++ comparisons expr2
  | binary .or expr expr2 => comparisons expr ++ comparisons expr2
  | e => [e]

/-- The operands of each OR of a clause. -/
def alternatives : Expr → List (Expr × Expr)
  | binary .and expr expr2 => alternatives expr ++ alternatives expr2
  | binary .or expr expr2 => (expr, expr2) :: (alternatives expr ++ alternatives expr2)
  | _ => []

/-- The columns an expression mentions. -/
def columns : Expr → List String
  | columnRef (some table) name => [table ++ "." ++ name]
  | unary _ expr => columns expr
  | binary _ expr expr2 => columns expr ++ columns expr2
  | _ => []

/-- The integer literals of an expression are `int` values. -/
def fitsInt : Expr → Bool
  | literal _ ival => intMin ≤ ival && ival ≤ intMax
  | unary _ expr => fitsInt expr
  | binary _ expr expr2 => fitsInt expr && fitsInt expr2
  | _ => true

end Expr

/-- The lists `get_Expression` fills mention every column of the clause, and the predicates and joins
hold together in exactly the combinations of the FROM tables in which the clause holds. -/
def Extracted (fromTable selectAttr : List String) (e : Expr) : Prop :=
  ∃ mark s, getExpression fromTable e ⟨selectAttr, [], []⟩ = some (mark, s) ∧ (∀ a ∈ e.columns, a ∈ s.allAttr) ∧
    ∀ comb : Comb, comb.map Prod.fst = fromTable →
      (s.predicate.all comb.satisfies && holdsAll s.join comb) = e.holds comb

/-! ## The comparisons -/

section
open EasyDDB.Optimizer.Expr

/-- Clauses one constructor at a time. -/
theorem isClause_induction {motive : Expr → Prop}
    (hand : ∀ l r, l.isClause = true → r.isClause = true → motive l → motive r → motive (binary .and l r))
    (hor : ∀ l r, l.isClause = true → r.isClause = true → motive l → motive r → motive (binary .or l r))
    (hcmp : ∀ opType l r, opType ≠ .and → opType ≠ .or → comparesColumn opType l r = true →
      motive (binary opType l r)) (e : Expr) (he : e.isClause = true) : motive e := by
  induction e with
  | binary opType l r ihl ihr =>
    by_cases ha : opType = .and
    · subst ha
      obtain ⟨hl, hr⟩ := Bool.and_eq_true_iff.mp he
      exact hand l r hl hr (ihl hl) (ihr hr)
    · by_cases ho : opType = .or
      · subst ho
        obtain ⟨hl, hr⟩ := Bool.and_eq_true_iff.mp he
        exact hor l r hl hr (ihl hl) (ihr hr)
      · have hc : comparesColumn opType l r = true := by
          cases opType <;> first | exact he | exact absurd rfl ha | exact absurd rfl ho
        exact hcmp opType l r ha ho hc
  | _ => cases he

section
variable {opType : OperatorType} (ha : opType ≠ .and) (ho : opType ≠ .or) (l r : Expr)
include ha ho

theorem comparisons_binary : (binary opType l r).comparisons = [binary opType l r] := by
  cases opType <;> first | rfl | exact absurd rfl ha | exact absurd rfl ho

theorem alternatives_binary : (binary opType l r).alternatives = [] := by
  cases opType <;> first | rfl | exact absurd rfl ha | exact absurd rfl ho

theorem holds_binary (comb : Comb) :
    (binary opType l r).holds comb = match operandValue comb l, operandValue comb r with
      | some v, some w => compares opType v w
      | _, _ => false := by
  cases opType <;> first | rfl | exact absurd rfl ha | exact absurd rfl ho

end

theorem isComparison_of_comparesColumn {opType : OperatorType} {l r : Expr} (ha : opType ≠ .and)
    (h : comparesColumn opType l r = true) : (binary opType l r).isComparison = true := by
  unfold comparesColumn at h
  split at h
  · simp [isComparison, isLeaf, ha]
  · simp [isComparison, isLeaf, ha]
  · simp [isComparison, isLeaf, ha]
  · cases h

theorem getExpression_comparisons (fromTable : List String) {e : Expr} (he : e.isClause = true) (s : Where) :
    getExpression fromTable e s = (e.comparisons.foldlM (conjunct fromTable) s).map fun s => (false, s) := by
  have hnode : ∀ opType l r,
      (∀ s, getExpression fromTable l s = (l.comparisons.foldlM (conjunct fromTable) s).map fun s => (false, s)) →
      (∀ s, getExpression fromTable r s = (r.comparisons.foldlM (conjunct fromTable) s).map fun s => (false, s)) →
      ∀ s, getExpression fromTable (binary opType l r) s =
        ((l.comparisons ++ r.comparisons).foldlM (conjunct fromTable) s).map fun s => (false, s) := by
    intro opType l r hl hr s
    simp only [getExpression, hl, List.foldlM_append, Option.bind_eq_bind]
    cases l.comparisons.foldlM (conjunct fromTable) s with
    | none => rfl
    | some s₁ =>
      simp only [Option.map_some, Option.bind_some, hr]
      cases r.comparisons.foldlM (conjunct fromTable) s₁ <;> rfl
  revert s
  apply isClause_induction ?_ ?_ ?_ e he
  · intro l r _ _ hl hr
    exact hnode .and l r hl hr
  · intro l r _ _ hl hr
    exact hnode .or l r hl hr
  · intro opType l r ha ho hc s
    rw [comparisons_binary ha ho, getExpression_comparison fromTable (isComparison_of_comparesColumn ha hc)]
    simp

/-- What one comparison adds holds exactly when the comparison does. -/
structure PartMeans (e : Expr) (t : Where) : Prop where
  columns : ∀ a ∈ e.columns, a ∈ t.allAttr
  meaning : e.fitsInt = true → ∀ comb : Comb, (t.predicate.all comb.satisfies && holdsAll t.join comb) = e.holds comb

theorem toInt32_of_fits {v : Int} (h : (intMin ≤ v && v ≤ intMax) = true) : toInt32 v = v := by
  obtain ⟨hlo, hhi⟩ := Bool.and_eq_true_iff.mp h
  replace hlo : -2147483648 ≤ v := of_decide_eq_true hlo
  replace hhi : v ≤ 2147483647 := of_decide_eq_true hhi
  change Int.bmod v 4294967296 = v
  exact Int.bmod_eq_of_le (by omega) (by omega)

theorem satisfies_eq (comb : Comb) (c : Condition) :
    comb.satisfies c = match c.type, Comb.value comb c.table c.attr with
      | .int, some (.int v) => c.opt.holds v c.ival
      | .string, some (.str s) => c.opt.holds s c.sval
      | _, _ => false := by
  unfold Comb.satisfies Comb.value
  cases comb.lookup c.table with
  | none => cases c.type <;> rfl
  | some r => rfl

theorem sameValue_eq (v w : Option Value) :
    sameValue v w = match v, w with
      | some v, some w => compares .equals v w
      | _, _ => false := by
  cases v with
  | none => rfl
  | some v =>
    cases w with
    | none => rfl
    | some w => cases v <;> cases w <;> simp [sameValue, compares, operatorToToken, Opt.holds]

theorem part_means (fromTable : List String) {opType : OperatorType} {l r : Expr} (ha : opType ≠ .and)
    (ho : opType ≠ .or) (hc : comparesColumn opType l r = true) :
    ∃ t, part fromTable (binary opType l r) = some t ∧ PartMeans (binary opType l r) t := by
  unfold comparesColumn at hc
  split at hc
  · rename_i ltab lcol rtab rcol
    obtain rfl : opType = .equals := by simpa using hc
    refine ⟨_, rfl, ?_, ?_⟩
    · simp [Expr.columns, JoinCell.left, JoinCell.right]
    · intro _ comb
      rw [holds_binary ha ho]
      simp [Where.empty, holdsAll, cellHolds, sameValue_eq, operandValue]
  · rename_i table name sval
    obtain ⟨o, hopt⟩ := Option.isSome_iff_exists.mp hc
    refine ⟨⟨[table ++ "." ++ name], [⟨table, name, o, .string, 0, sval⟩], []⟩, ?_, ?_, ?_⟩
    · simp [part, conjunct, comparison, table?, name?, hopt, Where.empty, withConstant, Condition.ofOpt, Condition.column]
    · simp [Expr.columns]
    · intro _ comb
      rw [holds_binary ha ho]
      simp only [List.all_cons, List.all_nil, Bool.and_true, holdsAll, satisfies_eq, operandValue]
      cases Comb.value comb table name with
      | none => rfl
      | some v => cases v <;> simp [compares, hopt]
  · rename_i table name lname ival
    obtain ⟨o, hopt⟩ := Option.isSome_iff_exists.mp hc
    refine ⟨⟨[table ++ "." ++ name], [⟨table, name, o, .int, toInt32 ival, ""⟩], []⟩, ?_, ?_, ?_⟩
    · simp [part, conjunct, comparison, table?, name?, hopt, Where.empty, withConstant, Condition.ofOpt, Condition.column]
    · simp [Expr.columns]
    · intro hfit comb
      have hival : toInt32 ival = ival := toInt32_of_fits (by simpa [fitsInt] using hfit)
      rw [holds_binary ha ho, hival]
      simp only [List.all_cons, List.all_nil, Bool.and_true, holdsAll, satisfies_eq, operandValue]
      cases Comb.value comb table name with
      | none => rfl
      | some v => cases v <;> simp [compares, hopt]
  · cases hc

/-! ## Clauses -/

/-- The collected lists mention what the comparisons mention and hold when all comparisons do. -/
theorem parts_means (fromTable : List String) {cs : List Expr}
    (h : ∀ c ∈ cs, ∃ t, part fromTable c = some t ∧ PartMeans c t) :
    (cs.all fun c => (part fromTable c).isSome) = true ∧
      (∀ c ∈ cs, ∀ a ∈ c.columns, a ∈ (parts fromTable cs).allAttr) ∧
      ((∀ c ∈ cs, c.fitsInt = true) → ∀ comb : Comb,
        ((parts fromTable cs).predicate.all comb.satisfies && holdsAll (parts fromTable cs).join comb) =
          cs.all fun c => c.holds comb) := by
  induction cs with
  | nil => simp [parts, holdsAll]
  | cons c cs ih =>
    obtain ⟨⟨t, ht, hmeans⟩, hrest⟩ := List.forall_mem_cons.mp h
    obtain ⟨ihsome, ihcols, ihmean⟩ := ih hrest
    have hparts : parts fromTable (c :: cs) = t.append (parts fromTable cs) := by
      simp [parts, Where.append, ht]
    rw [hparts]
    refine ⟨by rw [List.all_cons, ht, ihsome]; rfl, ?_, ?_⟩
    · intro d hd a ha
      obtain rfl | hd := List.mem_cons.mp hd
      · exact List.mem_append_left _ (hmeans.columns a ha)
      · exact List.mem_append_right _ (ihcols d hd a ha)
    · intro hfit comb
      obtain ⟨hfitc, hfitcs⟩ := List.forall_mem_cons.mp hfit
      rw [List.all_cons, ← hmeans.meaning hfitc comb, ← ihmean hfitcs comb]
      simp only [Where.append, holdsAll, List.all_append]
      ac_rfl

theorem part_of_mem_comparisons (fromTable : List String) {e : Expr} (he : e.isClause = true) :
    ∀ c ∈ e.comparisons, ∃ t, part fromTable c = some t ∧ PartMeans c t := by
  apply isClause_induction ?_ ?_ ?_ e he
  · intro l r _ _ hl hr c hc
    exact (List.mem_append.mp hc).elim (hl c) (hr c)
  · intro l r _ _ hl hr c hc
    exact (List.mem_append.mp hc).elim (hl c) (hr c)
  · intro opType l r ha ho hcmp c hc
    rw [comparisons_binary ha ho, List.mem_singleton] at hc
    subst hc
    exact part_means fromTable ha ho hcmp

theorem columns_comparisons {e : Expr} (he : e.isClause = true) :
    ∀ a ∈ e.columns, ∃ c ∈ e.comparisons, a ∈ c.columns := by
  have hnode : ∀ l r : Expr, (∀ a ∈ l.columns, ∃ c ∈ l.comparisons, a ∈ c.columns) →
      (∀ a ∈ r.columns, ∃ c ∈ r.comparisons, a ∈ c.columns) →
      ∀ a ∈ l.columns ++ r.columns, ∃ c ∈ l.comparisons ++ r.comparisons, a ∈ c.columns := by
    intro l r hl hr a ha
    obtain ha | ha := List.mem_append.mp ha
    · obtain ⟨c, hc, hac⟩ := hl a ha
      exact ⟨c, List.mem_append_left _ hc, hac⟩
    · obtain ⟨c, hc, hac⟩ := hr a ha
      exact ⟨c, List.mem_append_right _ hc, hac⟩
  apply isClause_induction ?_ ?_ ?_ e he
  · intro l r _ _ hl hr
    exact hnode l r hl hr
  · intro l r _ _ hl hr
    exact hnode l r hl hr
  · intro opType l r ha ho _ a hmem
    rw [comparisons_binary ha ho]
    exact ⟨_, List.mem_singleton_self _, hmem⟩

theorem fitsInt_comparisons {e : Expr} (he : e.isClause = true) (hfit : e.fitsInt = true) :
    ∀ c ∈ e.comparisons, c.fitsInt = true := by
  revert hfit
  apply isClause_induction ?_ ?_ ?_ e he
  · intro l r _ _ hl hr hfit c hc
    obtain ⟨hfl, hfr⟩ := Bool.and_eq_true_iff.mp hfit
    exact (List.mem_append.mp hc).elim (hl hfl c) (hr hfr c)
  · intro l r _ _ hl hr hfit c hc
    obtain ⟨hfl, hfr⟩ := Bool.and_eq_true_iff.mp hfit
    exact (List.mem_append.mp hc).elim (hl hfl c) (hr hfr c)
  · intro opType l r ha ho _ hfit c hc
    rw [comparisons_binary ha ho, List.mem_singleton] at hc
    exact hc ▸ hfit

/-- All comparisons of a clause hold when the clause does and no OR holds by one side only. -/
theorem all_comparisons_iff {e : Expr} (he : e.isClause = true) (comb : Comb) :
    (e.comparisons.all fun c => c.holds comb) = true ↔
      e.holds comb = true ∧ ∀ p ∈ e.alternatives, p.1.holds comb = true ∧ p.2.holds comb = true := by
  apply isClause_induction ?_ ?_ ?_ e he
  · intro l r _ _ hl hr
    simp only [comparisons, holds, alternatives, List.all_append, Bool.and_eq_true_iff, hl, hr, List.forall_mem_append]
    tauto
  · intro l r _ _ hl hr
    simp only [comparisons, holds, alternatives, List.all_append, Bool.and_eq_true_iff, Bool.or_eq_true_iff, hl, hr,
      List.forall_mem_cons, List.forall_mem_append]
    tauto
  · intro opType l r ha ho _
    simp [comparisons_binary ha ho, alternatives_binary ha ho]

theorem getExpression_clause (fromTable selectAttr : List String) {e : Expr} (he : e.isClause = true) :
    getExpression fromTable e ⟨selectAttr, [], []⟩ =
      some (false, Where.append ⟨selectAttr, [], []⟩ (parts fromTable e.comparisons)) := by
  rw [getExpression_comparisons fromTable he, foldlM_conjunct,
    if_pos (parts_means fromTable (part_of_mem_comparisons fromTable he)).1]
  rfl

theorem exists_separating {o : Opt} (ho : o ≠ .unset) {i j : Int} (h : i ≠ j) :
    ∃ v, o.holds v i ≠ o.holds v j := by
  obtain hlt | hlt := lt_or_gt_of_ne h
  · cases o with
    | unset => exact absurd rfl ho
    | eq | ne => exact ⟨i, by simp [Opt.holds, h]⟩
    | lt | ge => exact ⟨i, by simp [Opt.holds, hlt]⟩
    | le | gt => exact ⟨j, by simp [Opt.holds, hlt]⟩
  · cases o with
    | unset => exact absurd rfl ho
    | eq | ne => exact ⟨i, by simp [Opt.holds, h]⟩
    | lt | ge => exact ⟨j, by simp [Opt.holds, hlt]⟩
    | le | gt => exact ⟨i, by simp [Opt.holds, hlt]⟩

theorem toInt32_ne {v : Int} (h : (intMin ≤ v && v ≤ intMax) = false) : v ≠ toInt32 v := by
  intro heq
  have hlo : -2147483648 ≤ Int.bmod v 4294967296 := by
    have := Int.le_bmod (x := v) (m := 4294967296) (by omega)
    omega
  have hhi : Int.bmod v 4294967296 < 2147483648 := by
    have := Int.bmod_lt (x := v) (m := 4294967296) (by omega)
    omega
  replace heq : v = Int.bmod v 4294967296 := heq
  have hfits : (intMin ≤ v && v ≤ intMax) = true := by
    rw [Bool.and_eq_true_iff]
    constructor
    · exact decide_eq_true (show (-2147483648 : Int) ≤ v by omega)
    · exact decide_eq_true (show v ≤ (2147483647 : Int) by omega)
  rw [hfits] at h
  cases h

theorem lookup_map_pair {tabs : List String} {tab : String} (r : Row) (h : tab ∈ tabs) :
    (tabs.map fun t => (t, r)).lookup tab = some r := by
  induction tabs with
  | nil => cases h
  | cons t ts ih =>
    by_cases ht : tab = t
    · simp [ht]
    · rw [List.map_cons, List.lookup_cons, beq_false_of_ne ht]
      exact ih ((List.mem_cons.mp h).resolve_left ht)

/-- One comparison with an integer outside of `int` changes its meaning. -/
theorem not_extracted_of_not_fits {fromTable selectAttr : List String} {opType : OperatorType} {table name : String}
    {lname : Option String} {ival : Int} (htab : table ∈ fromTable) (hopt : (operatorToToken opType).isSome = true)
    (hfit : (intMin ≤ ival && ival ≤ intMax) = false) :
    ¬ Extracted fromTable selectAttr (binary opType (columnRef table name) (literal lname ival)) := by
  rintro ⟨mark, s, hs, -, hmean⟩
  obtain ⟨o, ho⟩ := Option.isSome_iff_exists.mp hopt
  have hand : opType ≠ .and := by
    rintro rfl
    cases hopt
  have hor : opType ≠ .or := by
    rintro rfl
    cases hopt
  have hunset : o ≠ .unset := by
    rintro rfl
    cases opType <;> cases ho
  have hpred : s.predicate = [⟨table, name, o, .int, toInt32 ival, ""⟩] ∧ s.join = [] := by
    simp [getExpression, comparison, table?, name?, ho, withConstant, Condition.ofOpt, hand] at hs
    simp [← hs.2]
  obtain ⟨v, hv⟩ := exists_separating hunset (toInt32_ne hfit)
  let comb : Comb := fromTable.map fun t => (t, Row.ofList [(table ++ "." ++ name, .int v)])
  have hcomb : comb.map Prod.fst = fromTable := by
    rw [List.map_map]
    exact List.map_id fromTable
  have hvalue : Comb.value comb table name = some (.int v) := by
    rw [Comb.value, lookup_map_pair _ htab]
    simp [Row.ofList]
  have hboth := hmean comb hcomb
  rw [hpred.1, hpred.2, holds_binary hand hor] at hboth
  simp only [List.all_cons, List.all_nil, Bool.and_true, holdsAll, satisfies_eq, operandValue, hvalue, compares, ho,
    Option.getD_some] at hboth
  exact hv hboth.symm

/-- **The extraction of a WHERE clause keeps its meaning exactly when no OR of it can hold by one side
only.** Integer literals are cut to `int`, so a comparison with a larger one is never kept. -/
theorem where_extracted_iff (fromTable selectAttr : List String) :
    (∀ e : Expr, e.isClause = true → e.fitsInt = true →
      (Extracted fromTable selectAttr e ↔ ∀ comb : Comb, comb.map Prod.fst = fromTable → e.holds comb = true →
        ∀ p ∈ e.alternatives, p.1.holds comb = true ∧ p.2.holds comb = true)) ∧
      ∀ (opType : OperatorType) (table name : String) (lname : Option String) (ival : Int), table ∈ fromTable →
        (operatorToToken opType).isSome = true → (intMin ≤ ival && ival ≤ intMax) = false →
        ¬ Extracted fromTable selectAttr (binary opType (columnRef table name) (literal lname ival)) := by
  refine ⟨?_, fun _ _ _ _ _ htab hopt hfit => not_extracted_of_not_fits htab hopt hfit⟩
  intro e he hfit
  obtain ⟨-, hcols, hmean⟩ := parts_means fromTable (part_of_mem_comparisons fromTable he)
  have hall := hmean (fitsInt_comparisons he hfit)
  have hget := getExpression_clause fromTable selectAttr he
  constructor
  · rintro ⟨mark, s, hs, -, hiff⟩ comb hcomb hholds
    rw [hget] at hs
    cases hs
    have heq := hiff comb hcomb
    simp only [Where.append, List.nil_append] at heq
    rw [hall comb, hholds] at heq
    exact ((all_comparisons_iff he comb).mp heq).2
  · intro hone
    refine ⟨false, _, hget, ?_, ?_⟩
    · intro a ha
      obtain ⟨c, hc, hac⟩ := columns_comparisons he a ha
      exact List.mem_append_right _ (hcols c hc a hac)
    · intro comb hcomb
      simp only [Where.append, List.nil_append]
      rw [hall comb, Bool.eq_iff_iff, all_comparisons_iff he comb]
      exact ⟨fun h => h.1, fun h => ⟨h, hone comb hcomb h⟩⟩

/-- Books with an identifier from one of two ranges. -/
def smallOrLargeId : Expr :=
  binary .or (binary .less (columnRef "Book" "id") (literal none 205000))
    (binary .greater (columnRef "Book" "id") (literal none 210000))

/-- No book satisfies both predicates that are collected. -/
theorem smallOrLargeId_not_extracted :
    smallOrLargeId.isClause = true ∧ ¬ Extracted ["Book"] ["Book.title"] smallOrLargeId := by
  refine ⟨by decide, ?_⟩
  rintro ⟨mark, s, hs, -, hiff⟩
  cases hs
  exact absurd (hiff [("Book", Row.ofList [("Book.id", .int 100)])] rfl) (by decide)

/-- Orders of books with an identifier from a range. -/
def ordersOfSmallIds : Expr :=
  binary .and (binary .equals (columnRef "Orders" "book_id") (columnRef "Book" "id"))
    (binary .less (columnRef "Book" "id") (literal none 205000))

theorem ordersOfSmallIds_extracted : Extracted ["Orders", "Book"] ["Book.title"] ordersOfSmallIds := by
  refine ((where_extracted_iff ["Orders", "Book"] ["Book.title"]).1 ordersOfSmallIds (by decide) (by decide)).mpr ?_
  intro comb _ _ p hp
  cases hp

end

/-! ## Transferred predicates -/

/-- The tables of a cell have no dot in their names. -/
def JoinCell.NoDot (x : JoinCell) : Prop := '.' ∉ x.ltab.toList ∧ '.' ∉ x.rtab.toList

/-- What is transferred is about the column on the other side of the cell, with the predicate's own comparison. -/
theorem transferred_cases {p c : Condition} {x : JoinCell} (hx : x.NoDot) (h : transferred p x = some c) :
    ((p.table = x.ltab ∧ p.attr = x.lcol ∧ c.table = x.rtab ∧ c.attr = x.rcol) ∨
      (p.table = x.rtab ∧ p.attr = x.rcol ∧ c.table = x.ltab ∧ c.attr = x.lcol)) ∧
    c.opt = p.opt ∧ c.type = p.type ∧ (p.type = .int → c.ival = p.ival) ∧ (p.type ≠ .int → c.sval = p.sval) := by
  have hother : ∀ tab col, '.' ∉ tab.toList → x.find p.table p.attr = tab ++ "." ++ col →
      (c.table = tab ∧ c.attr = col) ∧
        c.opt = p.opt ∧ c.type = p.type ∧ (p.type = .int → c.ival = p.ival) ∧ (p.type ≠ .int → c.sval = p.sval) := by
    intro tab col hdot hfind
    have hne : tab ++ "." ++ col ≠ "" := by
      intro heq
      have htext := congrArg String.toList heq
      rw [toList_qualified] at htext
      simp at htext
    unfold transferred at h
    rw [hfind] at h
    simp only [hne, if_false, beforeDot_qualified hdot, afterDot_qualified hdot] at h
    split_ifs at h with htype <;> cases h <;> simp [Condition.ofOpt, htype]
  by_cases hl : x.ltab = p.table ∧ x.lcol = p.attr
  · have hfind : x.find p.table p.attr = x.rtab ++ "." ++ x.rcol := by
      rw [JoinCell.find, if_pos hl]
      rfl
    obtain ⟨hcol, hrest⟩ := hother x.rtab x.rcol hx.2 hfind
    exact ⟨.inl ⟨hl.1.symm, hl.2.symm, hcol⟩, hrest⟩
  by_cases hr : x.rtab = p.table ∧ x.rcol = p.attr
  · have hfind : x.find p.table p.attr = x.ltab ++ "." ++ x.lcol := by
      rw [JoinCell.find, if_neg hl, if_pos hr]
      rfl
    obtain ⟨hcol, hrest⟩ := hother x.ltab x.lcol hx.1 hfind
    exact ⟨.inr ⟨hr.1.symm, hr.2.symm, hcol⟩, hrest⟩
  · simp [transferred, JoinCell.find, hl, hr] at h

theorem value_eq_of_cellHolds {comb : Comb} {x : JoinCell} (h : cellHolds comb x = true) :
    Comb.value comb x.ltab x.lcol = Comb.value comb x.rtab x.rcol := by
  obtain ⟨v, hl, hr⟩ := sameValue_iff.mp h
  rw [hl, hr]

theorem transferred_satisfies {comb : Comb} {p c : Condition} {x : JoinCell} (hx : x.NoDot)
    (h : transferred p x = some c) (hcell : cellHolds comb x = true) (hp : comb.satisfies p = true) :
    comb.satisfies c = true := by
  obtain ⟨hcol, hopt, htype, hival, hsval⟩ := transferred_cases hx h
  have hvalue : Comb.value comb c.table c.attr = Comb.value comb p.table p.attr := by
    have hcell := value_eq_of_cellHolds hcell
    obtain ⟨hpt, hpa, hct, hca⟩ | ⟨hpt, hpa, hct, hca⟩ := hcol
    · rw [hpt, hpa, hct, hca, hcell]
    · rw [hpt, hpa, hct, hca, hcell]
  rw [satisfies_eq] at hp ⊢
  rw [htype, hvalue, hopt]
  generalize Comb.value comb p.table p.attr = value at hp ⊢
  cases hty : p.type with
  | int =>
    rw [hty] at hp
    rw [hival hty]
    obtain _ | (v | s) := value <;> exact hp
  | string =>
    have hne : p.type ≠ .int := by
      rw [hty]
      decide
    rw [hty] at hp
    rw [hsval hne]
    obtain _ | (v | s) := value <;> exact hp
  | unset => rwa [hty] at hp

/-- **Predicates move through join equalities without a loss**: a combination that satisfies the predicates and the
joins satisfies every predicate that is added, so the longer list accepts the same combinations. -/
theorem transfer_keeps_combinations (q : Query) (hdot : ∀ x ∈ q.join, x.NoDot) (comb : Comb) :
    ((q.predicate.all comb.satisfies && holdsAll q.join comb) = true →
      ∀ c ∈ addPred q.predicate q.join, comb.satisfies c = true) ∧
    ((extendPredicate q).predicate.all comb.satisfies && holdsAll (extendPredicate q).join comb) =
      (q.predicate.all comb.satisfies && holdsAll q.join comb) := by
  have hadded : (q.predicate.all comb.satisfies && holdsAll q.join comb) = true →
      ∀ c ∈ addPred q.predicate q.join, comb.satisfies c = true := by
    intro hall c hc
    obtain ⟨hpred, hjoin⟩ := Bool.and_eq_true_iff.mp hall
    obtain ⟨p, hp, hc⟩ := List.mem_flatMap.mp hc
    obtain ⟨x, hx, htransferred⟩ := List.mem_filterMap.mp hc
    have hcell := List.all_eq_true.mp hjoin x hx
    exact transferred_satisfies (hdot x hx) htransferred hcell (List.all_eq_true.mp hpred p hp)
  refine ⟨hadded, ?_⟩
  rw [Bool.eq_iff_iff]
  constructor
  · intro hall
    simp only [extendPredicate, List.all_append, Bool.and_eq_true_iff] at hall
    rw [hall.1.1, hall.2, Bool.and_self]
  · intro hall
    have hmore := List.all_eq_true.mpr (hadded hall)
    obtain ⟨hpred, hjoin⟩ := Bool.and_eq_true_iff.mp hall
    simp only [extendPredicate, List.all_append, hpred, hmore, hjoin, Bool.and_self]

/-- `select Book.title from Book, Orders where Book.id < 205000 and Book.id = Orders.book_id` -/
def titlesOfSmallIds : Query where
  fromTable := ["Book", "Orders"]
  selectAttr := ["Book.title"]
  allAttr := ["Book.id", "Orders.book_id", "Book.title"]
  predicate := [condLt "Book" "id" 205000]
  join := [⟨"Book", "id", "Orders", "book_id"⟩]

theorem titlesOfSmallIds_transferred :
    Comb.satisfies [("Book", Row.ofList [("Book.id", .int 200001)]),
      ("Orders", Row.ofList [("Orders.book_id", .int 200001)])] (condLt "Orders" "book_id" 205000) = true := by
  have hdot : ∀ x ∈ titlesOfSmallIds.join, x.NoDot := by
    intro x hx
    rw [List.mem_singleton.mp hx]
    exact ⟨by decide, by decide⟩
  exact (transfer_keeps_combinations titlesOfSmallIds hdot _).1 (by decide) _ (by decide)

end EasyDDB.Optimizer
