import EasyDDB.Lib.Loops
import EasyDDB.Optimizer.Statement

/-! # Reordered WHERE clauses

A WHERE clause made of AND-ed comparisons contributes the predicates, joins and attributes of its
comparisons one after the other. Reordering the comparisons, or exchanging the sides of an equi-join,
reorders the three lists and turns join cells around. -/
namespace EasyDDB.Optimizer
set_option autoImplicit false

namespace Expr

/-- The AND-ed parts of a WHERE clause, from left to right. -/
def conjuncts : Expr → List Expr
  | binary .and expr expr2 => conjuncts expr ++ conjuncts expr2
  | e => [e]

/-- An expression that is no operator. -/
def isLeaf : Expr → Bool
  | unary .. => false
  | binary .. => false
  | _ => true

/-- An operator other than AND between two expressions that are no operators. -/
def isComparison : Expr → Bool
  | binary opType expr expr2 => opType ≠ .and && expr.isLeaf && expr2.isLeaf
  | _ => false

/-- The same comparison, or an equi-join with its sides exchanged. -/
inductive Turned : Expr → Expr → Prop
  | same (e : Expr) : Turned e e
  | sides (ltab rtab : Option String) (lcol rcol : String) :
      Turned (binary .equals (columnRef ltab lcol) (columnRef rtab rcol))
        (binary .equals (columnRef rtab rcol) (columnRef ltab lcol))

/-- Two WHERE clauses made of the same AND-ed comparisons. -/
def Reordered (e e' : Expr) : Prop := ∃ cs, (conjuncts e).Perm cs ∧ List.Forall₂ Turned cs (conjuncts e')

end Expr

/-- The same join equalities, in any order and with any orientation. -/
def SameJoins (J J' : List JoinCell) : Prop := ∃ K, J.Perm K ∧ List.Forall₂ (fun c d => d = c ∨ d = c.swap) K J'

/-- Queries that differ in the order of their predicates and joins only. -/
structure Query.Reordered (q q' : Query) : Prop where
  fromTable : q'.fromTable = q.fromTable
  selectAttr : q'.selectAttr = q.selectAttr
  allAttr : q'.allAttr = q.allAttr
  predicate : q.predicate.Perm q'.predicate
  join : SameJoins q.join q'.join

/-! ## `get_Expression` on AND-ed comparisons -/

/-- What one comparison does. -/
def conjunct (fromTable : List String) (s : Where) : Expr → Option Where
  | .binary opType expr expr2 => comparison fromTable opType expr expr2 s
  | _ => none

theorem getExpression_leaf (fromTable : List String) {e : Expr} (h : e.isLeaf = true) (s : Where) :
    getExpression fromTable e s = some (true, s) := by
  cases e <;> first | rfl | cases h

theorem getExpression_comparison (fromTable : List String) {e : Expr} (h : e.isComparison = true) (s : Where) :
    getExpression fromTable e s = (conjunct fromTable s e).map fun s => (false, s) := by
  match e, h with
  | .binary opType expr expr2, h =>
    simp only [Expr.isComparison, Bool.and_eq_true, decide_eq_true_eq] at h
    obtain ⟨⟨hop, hl⟩, hr⟩ := h
    simp only [getExpression, getExpression_leaf fromTable hl, getExpression_leaf fromTable hr, Option.bind_eq_bind,
      Option.bind_some, conjunct]
    rw [if_pos (by simpa using hop)]
    cases comparison fromTable opType expr expr2 s <;> rfl

theorem getExpression_conjuncts (fromTable : List String) {e : Expr} (h : ∀ c ∈ e.conjuncts, c.isComparison = true)
    (s : Where) :
    getExpression fromTable e s = (e.conjuncts.foldlM (conjunct fromTable) s).map fun s => (false, s) := by
  induction e generalizing s with
  | binary opType expr expr2 ihl ihr =>
    by_cases hop : opType = .and
    · subst hop
      have hl : ∀ c ∈ expr.conjuncts, c.isComparison = true := fun c hc => h c (List.mem_append_left _ hc)
      have hr : ∀ c ∈ expr2.conjuncts, c.isComparison = true := fun c hc => h c (List.mem_append_right _ hc)
      have hconj : (Expr.binary .and expr expr2).conjuncts = expr.conjuncts ++ expr2.conjuncts := rfl
      rw [hconj, List.foldlM_append]
      simp only [getExpression, ihl hl, Option.bind_eq_bind]
      cases expr.conjuncts.foldlM (conjunct fromTable) s with
      | none => rfl
      | some s₁ =>
        simp only [Option.map_some, Option.bind_some, ihr hr]
        cases expr2.conjuncts.foldlM (conjunct fromTable) s₁ <;> rfl
    · have hconj : (Expr.binary opType expr expr2).conjuncts = [.binary opType expr expr2] := by
        cases opType <;> first | rfl | exact absurd rfl hop
      rw [hconj] at h ⊢
      rw [getExpression_comparison fromTable (h _ (List.mem_singleton_self _))]
      simp
  | _ => cases h _ (List.mem_singleton_self _)

/-! ## The contribution of a comparison -/

/-- Lists put behind the lists collected so far. -/
def Where.append (s t : Where) : Where := ⟨s.allAttr ++ t.allAttr, s.predicate ++ t.predicate, s.join ++ t.join⟩

def Where.empty : Where := ⟨[], [], []⟩

/-- What a comparison adds to the three lists. -/
def part (fromTable : List String) (c : Expr) : Option Where := conjunct fromTable .empty c

theorem conjunct_eq (fromTable : List String) (s : Where) (c : Expr) :
    conjunct fromTable s c = (part fromTable c).map s.append := by
  unfold part
  match c with
  | .binary opType expr expr2 =>
    simp only [conjunct, comparison]
    split
    · cases expr.table? <;> cases expr.name? <;> rename_i rtab _ <;> cases rtab <;>
        simp [Where.append, Where.empty]
    · cases expr.table?.orElse fun _ => fromTable.head? <;> cases operatorToToken opType <;> cases expr.name? <;>
        simp [Where.append, Where.empty]
  | .star | .columnRef .. | .literalString _ | .literal .. | .unary .. => rfl

/-- The lists collected from comparisons. -/
def parts (fromTable : List String) (cs : List Expr) : Where where
  allAttr := cs.flatMap fun c => ((part fromTable c).getD .empty).allAttr
  predicate := cs.flatMap fun c => ((part fromTable c).getD .empty).predicate
  join := cs.flatMap fun c => ((part fromTable c).getD .empty).join

theorem foldlM_conjunct (fromTable : List String) (cs : List Expr) (s : Where) :
    cs.foldlM (conjunct fromTable) s =
      if cs.all fun c => (part fromTable c).isSome then some (s.append (parts fromTable cs)) else none := by
  induction cs generalizing s with
  | nil => simp [parts, Where.append]
  | cons c cs ih =>
    rw [List.foldlM_cons, conjunct_eq]
    cases hp : part fromTable c with
    | none => simp [hp]
    | some t =>
      simp only [Option.map_some, Option.bind_eq_bind, Option.bind_some, ih, List.all_cons, hp, Option.isSome_some,
        Bool.true_and]
      congr 2
      simp [parts, Where.append, hp]

/-! ## Reordering -/

/-- A turned comparison is defined along with the original, adds the same predicates and attributes, and
its join cell is the same or turned around. -/
theorem part_turned (fromTable : List String) {c d : Expr} (h : c.Turned d) {t : Where} (ht : part fromTable c = some t) :
    ∃ t', part fromTable d = some t' ∧ t.allAttr.Perm t'.allAttr ∧ t'.predicate = t.predicate ∧
      List.Forall₂ (fun x y => y = x ∨ y = x.swap) t.join t'.join := by
  cases h with
  | same => exact ⟨t, ht, .refl _, rfl, List.forall₂_same.mpr fun _ _ => .inl rfl⟩
  | sides ltab rtab lcol rcol =>
    simp only [part, conjunct, comparison, Expr.table?, Expr.name?, Option.bind_eq_bind, Option.bind_some,
      Option.bind_eq_some_iff, Where.empty, List.nil_append] at ht
    obtain ⟨l, rfl, r, rfl, ht⟩ := ht
    cases ht
    refine ⟨_, rfl, ?_, rfl, .cons (.inr rfl) .nil⟩
    exact List.Perm.swap ..

theorem parts_turned (fromTable : List String) {cs ds : List Expr} (h : List.Forall₂ Expr.Turned cs ds)
    (hall : (cs.all fun c => (part fromTable c).isSome) = true) :
    (ds.all fun c => (part fromTable c).isSome) = true ∧
      (parts fromTable cs).allAttr.Perm (parts fromTable ds).allAttr ∧
      (parts fromTable ds).predicate = (parts fromTable cs).predicate ∧
      List.Forall₂ (fun x y => y = x ∨ y = x.swap) (parts fromTable cs).join (parts fromTable ds).join := by
  induction h with
  | nil => exact ⟨rfl, .refl _, rfl, .nil⟩
  | @cons c d cs ds hcd _ ih =>
    rw [List.all_cons, Bool.and_eq_true] at hall
    obtain ⟨t, ht⟩ := Option.isSome_iff_exists.mp hall.1
    obtain ⟨t', ht', hattr, hpred, hjoin⟩ := part_turned fromTable hcd ht
    obtain ⟨ihall, ihattr, ihpred, ihjoin⟩ := ih hall.2
    refine ⟨by rw [List.all_cons, ht', ihall]; rfl, ?_, ?_, ?_⟩
    · simpa [parts, ht, ht'] using hattr.append ihattr
    · simp only [parts, List.flatMap_cons, ht, ht', Option.getD_some, hpred] at ihpred ⊢
      rw [ihpred]
    · simpa [parts, ht, ht'] using List.rel_append hjoin ihjoin

theorem comparisons_turned {cs ds : List Expr} (h : List.Forall₂ Expr.Turned cs ds)
    (hcs : ∀ c ∈ cs, c.isComparison = true) : ∀ d ∈ ds, d.isComparison = true := by
  induction h with
  | nil => simp
  | cons hcd _ ih =>
    rw [List.forall_mem_cons] at hcs ⊢
    refine ⟨?_, ih hcs.2⟩
    cases hcd with
    | same => exact hcs.1
    | sides => rfl

theorem sortUnique_perm {l l' : List String} (h : l.Perm l') : sortUnique l = sortUnique l' := by
  have hperm : (l.insertionSort (· ≤ ·)).Perm (l'.insertionSort (· ≤ ·)) :=
    (List.perm_insertionSort _ l).trans (h.trans (List.perm_insertionSort _ l').symm)
  unfold sortUnique
  rw [hperm.eq_of_pairwise (fun a b _ _ => le_antisymm) (List.pairwise_insertionSort _ l)
    (List.pairwise_insertionSort _ l')]

/-- The query of a statement whose WHERE clause consists of AND-ed comparisons. -/
theorem initSQL_conjuncts (Statement : SelectStatement) {e : Expr} (hcmp : ∀ c ∈ e.conjuncts, c.isComparison = true) :
    initSQL { Statement with whereClause := some e } =
      (selectAttrs Statement.fromTable Statement.selectList).bind fun selectAttr =>
        if e.conjuncts.all fun c => (part Statement.fromTable c).isSome then
          some { fromTable := Statement.fromTable, selectAttr := selectAttr
                 allAttr := sortUnique (selectAttr ++ (parts Statement.fromTable e.conjuncts).allAttr)
                 predicate := (parts Statement.fromTable e.conjuncts).predicate
                 join := (parts Statement.fromTable e.conjuncts).join }
        else none := by
  simp only [initSQL, getExpression_conjuncts _ hcmp, foldlM_conjunct, Option.bind_eq_bind]
  congr 1
  funext selectAttr
  split_ifs <;> rfl

/-- **Reordering the WHERE clause** reorders the predicates and joins of the query and nothing else. -/
theorem initSQL_reordered {Statement : SelectStatement} {e e' : Expr} (hcmp : ∀ c ∈ e.conjuncts, c.isComparison = true)
    (h : e.Reordered e') {q : Query} (hq : initSQL { Statement with whereClause := some e } = some q) :
    ∃ q', initSQL { Statement with whereClause := some e' } = some q' ∧ q.Reordered q' := by
  obtain ⟨cs, hperm, hturn⟩ := h
  have hcs : ∀ c ∈ cs, c.isComparison = true := fun c hc => hcmp c (hperm.mem_iff.mpr hc)
  rw [initSQL_conjuncts Statement hcmp, Option.bind_eq_some_iff] at hq
  obtain ⟨selectAttr, hsel, hq⟩ := hq
  rw [Option.ite_none_right_eq_some] at hq
  obtain ⟨hall, hq⟩ := hq
  cases hq
  obtain ⟨hdef, hattr, hpred, hjoin⟩ := parts_turned Statement.fromTable hturn (by rwa [← hperm.all_eq])
  rw [initSQL_conjuncts Statement (comparisons_turned hturn hcs), hsel, Option.bind_some, if_pos hdef]
  refine ⟨_, rfl, ⟨rfl, rfl, sortUnique_perm ?_, ?_, _, hperm.flatMap_right _, hjoin⟩⟩
  · exact (((hperm.flatMap_right _).trans hattr).append_left selectAttr).symm
  · exact (hperm.flatMap_right _).trans (.of_eq hpred.symm)

end EasyDDB.Optimizer
