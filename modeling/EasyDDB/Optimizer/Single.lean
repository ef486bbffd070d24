import EasyDDB.Catalog.Section
import EasyDDB.Lib.Bags
import EasyDDB.Optimizer.ScanFacts

/-! # Single-table queries

The select list of a query over one table, and the evaluation of trees that consist of Fragment nodes
under a Union node. -/
namespace EasyDDB.Optimizer
open Condition
set_option autoImplicit false

/-! ## The select list -/

/-- The columns a select list stands for. -/
def selectColumns (T : MetadataTable) (S : List String) : List String := if S = ["*"] then T.attrs else S

/-- A select list over one table: `*`, or columns of the table. -/
def SelectOk (T : MetadataTable) (S A : List String) : Prop :=
  (S = ["*"] ∧ "*" ∈ A) ∨ (S ≠ [] ∧ "*" ∉ S ∧ ∀ a ∈ S, a ∈ T.attrs)

instance (T : MetadataTable) (S A : List String) : Decidable (SelectOk T S A) := inferInstanceAs (Decidable (_ ∨ _))

theorem findTable_of_mem {Tables : List MetadataTable} {T : MetadataTable}
    (hname : (Tables.map MetadataTable.name).Nodup) (hT : T ∈ Tables) : findTable Tables T.name = some T := by
  unfold findTable
  induction Tables with
  | nil => cases hT
  | cons T' Tables ih =>
    rw [List.map_cons, List.nodup_cons] at hname
    rw [List.find?_cons]
    obtain rfl | hT := List.mem_cons.mp hT
    · simp
    · have hne : T'.name ≠ T.name := fun h => hname.1 (h ▸ List.mem_map_of_mem hT)
      simp only [hne, decide_false]
      exact ih hname.2 hT

theorem mem_foldl_addNew (l all : List String) (a : String) :
    a ∈ l.foldl (fun all x => if x ∈ all then all else all ++ [x]) all ↔ a ∈ all ∨ a ∈ l := by
  induction l generalizing all with
  | nil => simp
  | cons x l ih =>
    rw [List.foldl_cons, ih]
    by_cases hx : x ∈ all
    · rw [if_pos hx, List.mem_cons]
      constructor
      · tauto
      · rintro (h | rfl | h) <;> tauto
    · rw [if_neg hx, List.mem_append, List.mem_singleton, List.mem_cons]
      tauto

theorem expandStar_single {Tables : List MetadataTable} {T : MetadataTable} {q : Query}
    (hname : (Tables.map MetadataTable.name).Nodup) (hT : T ∈ Tables) (hfrom : q.fromTable = [T.name])
    (hS : SelectOk T q.selectAttr q.allAttr) :
    ∃ q', expandStar Tables q = some q' ∧ q'.selectAttr = selectColumns T q.selectAttr ∧
      ∀ a ∈ T.attrs, q.selectAttr = ["*"] ∨ a ∈ q.allAttr → a ∈ q'.allAttr := by
  obtain ⟨hs, hstar⟩ | ⟨hne, hstar, -⟩ := hS
  · have hq : expandStar Tables q = some { q with
        selectAttr := T.attrs
        allAttr := T.attrs.foldl (fun all x => if x ∈ all then all else all ++ [x]) (q.allAttr.erase "*") } := by
      simp [expandStar, hs, hfrom, findTable_of_mem hname hT, hstar]
    refine ⟨_, hq, by simp [selectColumns, hs], ?_⟩
    exact fun a ha _ => (mem_foldl_addNew ..).mpr (.inr ha)
  · obtain ⟨s, S, hs⟩ := List.exists_cons_of_ne_nil hne
    have hs1 : s ≠ "*" := fun h => hstar (by rw [hs, h]; exact List.mem_cons_self ..)
    have hs2 : q.selectAttr ≠ ["*"] := fun h => hstar (by rw [h]; exact List.mem_cons_self ..)
    refine ⟨q, by simp [expandStar, hs, hs1], by simp [selectColumns, hs2], ?_⟩
    exact fun a _ h => h.resolve_left hs2

theorem selectColumns_subset {T : MetadataTable} {S A : List String} (h : SelectOk T S A) :
    ∀ a ∈ selectColumns T S, a ∈ T.attrs := by
  intro a ha
  obtain ⟨hs, -⟩ | ⟨-, hstar, hsub⟩ := h
  · simpa [selectColumns, hs] using ha
  · have hs : S ≠ ["*"] := fun h => hstar (by rw [h]; exact List.mem_cons_self ..)
    rw [selectColumns, if_neg hs] at ha
    exact hsub a ha

theorem selectColumns_ne_nil {T : MetadataTable} {S A : List String} (h : SelectOk T S A) (hT : T.attrs ≠ []) :
    selectColumns T S ≠ [] := by
  obtain ⟨hs, -⟩ | ⟨hne, -, -⟩ := h
  · simpa [selectColumns, hs] using hT
  · unfold selectColumns
    split_ifs <;> assumption

/-! ## Trees of Fragment nodes -/

theorem evalNode_fragment {α : Type} (sem : Semantics α) {tr : List TreeNode} {i : Nat} {n : TreeNode} (fuel : Nat)
    (hi : tr[i]? = some n) (hn : n.type = .fragment) : evalNode sem tr (fuel + 1) i = sem.leaf n := by
  simp [evalNode, hi, hn]

theorem evalNode_union {α : Type} (sem : Semantics α) {tr : List TreeNode} {i : Nat} {n : TreeNode} (fuel : Nat)
    (hi : tr[i]? = some n) (hn : n.type = .union) :
    evalNode sem tr (fuel + 1) i = sem.union n (n.child.map (evalNode sem tr fuel)) := by
  simp [evalNode, hi, hn]

theorem evalNode_join {α : Type} (sem : Semantics α) {tr : List TreeNode} {i : Nat} {n : TreeNode} (fuel : Nat)
    (hi : tr[i]? = some n) (hn : n.type = .join) :
    evalNode sem tr (fuel + 1) i = sem.join n (n.child.map (evalNode sem tr fuel)) := by
  simp [evalNode, hi, hn]

theorem leaf_eq (db : Placement) (S : List String) (n : TreeNode) (hout : ∀ a, a ∈ n.output ↔ a ∈ S) :
    (rowSemantics db).leaf n = (selected db n).map (Row.project S) := by
  change (selected db n).map (Row.project n.output) = _
  rw [project_congr hout]

theorem union_project {db : Placement} {S : List String} {n : TreeNode} (hn : n.projection ∈ [S, []])
    (rs : List (List Row)) (rows : List Row) (hrs : rs.flatten = rows.map (Row.project S)) :
    (rowSemantics db).union n rs = rows.map (Row.project S) := by
  simp only [List.mem_cons, List.not_mem_nil, or_false] at hn
  change (if n.projection = [] then rs.flatten else rs.flatten.map (Row.project n.projection)) = _
  split_ifs with h
  · exact hrs
  · rw [hn.resolve_right h, hrs, List.map_map]
    congr 1
    funext r
    exact project_project (fun a ha => ha) r

theorem unionPhase_eval_fragments {db : Placement} {tr : List TreeNode} (site : Int) {S : List String}
    (hfrag : ∀ n ∈ tr, n.type = .fragment ∧ n.parent = -1 ∧ ∀ a, a ∈ n.output ↔ a ∈ S) :
    (unionPhase site S tr).eval (rowSemantics db) = (tr.flatMap (selected db)).map (Row.project S) := by
  have hall : parentless tr = List.range tr.length := by
    unfold parentless
    rw [List.filter_eq_self]
    intro i hi
    have hi' := List.mem_range.mp hi
    rw [List.getElem?_eq_getElem hi']
    simp [(hfrag _ (List.getElem_mem hi')).2.1]
  by_cases hlen : 1 < tr.length
  · have hlen' : 1 < (parentless tr).length := by rwa [hall, List.length_range]
    obtain ⟨n, hn, htype, hchild, -, hproj⟩ := unionPhase_getElem?_root site S hlen'
    unfold Tree.eval
    rw [unionPhase_root site S hlen', if_pos (Int.natCast_nonneg _), unionPhase_length site S hlen', Int.toNat_natCast,
      evalNode_union _ _ hn htype]
    refine union_project hproj _ _ ?_
    have hleaf : ∀ i ∈ List.range tr.length,
        evalNode (rowSemantics db) (unionPhase site S tr).tr tr.length i =
          (tr[i]?).elim [] fun n => (selected db n).map (Row.project S) := by
      intro i hi
      have hi' := List.mem_range.mp hi
      obtain ⟨fuel, hfuel⟩ : ∃ fuel, tr.length = fuel + 1 := ⟨tr.length - 1, by omega⟩
      have hget := unionPhase_getElem? site S hlen' hi'
      obtain ⟨ht, -, hout⟩ := hfrag _ (List.getElem_mem hi')
      rw [List.getElem?_eq_getElem hi', Option.map_some, if_pos (by rw [hall]; exact hi)] at hget
      conv => lhs; rw [hfuel]
      rw [evalNode_fragment _ fuel hget ht, List.getElem?_eq_getElem hi']
      exact leaf_eq db S _ hout
    rw [hchild, hall, List.map_congr_left hleaf, ← List.flatMap_def,
      Bags.flatMap_range_getElem? tr fun n => (selected db n).map (Row.project S), List.map_flatMap]
  · have hlen' : (parentless tr).length ≤ 1 := by rw [hall, List.length_range]; omega
    rw [unionPhase_of_le site S hlen']
    match tr, hlen with
    | [], _ => rfl
    | [n], _ =>
      obtain ⟨ht, -, hout⟩ := hfrag n (List.mem_singleton_self n)
      change evalNode (rowSemantics db) [n] 1 0 = _
      rw [evalNode_fragment (rowSemantics db) 0 rfl ht, leaf_eq db S n hout]
      simp
    | _ :: _ :: _, h => simp at h

end EasyDDB.Optimizer
