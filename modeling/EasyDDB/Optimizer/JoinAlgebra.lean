import EasyDDB.Lib.Bags
import EasyDDB.Optimizer.JoinTree

/-! # Left-deep joins as filtered products

The chain of joins over operands of single rows delivers the combinations of one row for each operand in
which every cell holds, and it distributes over the fragments the operands are made of. -/
namespace EasyDDB.Optimizer
set_option autoImplicit false

/-- The equality of a cell holds in a combination. -/
def cellHolds (comb : Comb) (c : JoinCell) : Bool :=
  sameValue (Comb.value comb c.ltab c.lcol) (Comb.value comb c.rtab c.rcol)

/-- All join equalities hold in a combination. -/
def holdsAll (J : List JoinCell) (comb : Comb) : Bool := J.all (cellHolds comb)

/-! ## Values in combinations -/

theorem value_append_left {l : Comb} {tab : String} (h : tab ∈ l.map Prod.fst) (m : Comb) (col : String) :
    Comb.value (l ++ m) tab col = Comb.value l tab col := by
  have hsome : (l.lookup tab).isSome := by
    rw [List.lookup_isSome_iff]
    obtain ⟨e, he, rfl⟩ := List.mem_map.mp h
    exact ⟨e, he, beq_self_eq_true _⟩
  obtain ⟨r, hr⟩ := Option.isSome_iff_exists.mp hsome
  unfold Comb.value
  rw [List.lookup_append, hr]
  rfl

theorem value_append_right {l : Comb} {tab : String} (h : tab ∉ l.map Prod.fst) (m : Comb) (col : String) :
    Comb.value (l ++ m) tab col = Comb.value m tab col := by
  have hnone : l.lookup tab = none := by
    rw [List.lookup_eq_none_iff]
    intro e he
    have hne : tab ≠ e.1 := fun heq => h (heq ▸ List.mem_map_of_mem he)
    simpa using hne
  unfold Comb.value
  rw [List.lookup_append, hnone, Option.none_or]

theorem value_cons_self (b : String × Row) (m : Comb) (col : String) :
    Comb.value (b :: m) b.1 col = b.2 (b.1 ++ "." ++ col) := by
  obtain ⟨t, r⟩ := b
  simp [Comb.value]

theorem cellHolds_append {l : Comb} {c : JoinCell} {b : String × Row} (hl : c.ltab ∈ l.map Prod.fst)
    (hr : c.rtab ∉ l.map Prod.fst) (hb : b.1 = c.rtab) (m : Comb) :
    cellHolds (l ++ b :: m) c = sameValue (Comb.value l c.ltab c.lcol) (Comb.value [b] c.rtab c.rcol) := by
  unfold cellHolds
  rw [value_append_left hl, value_append_right hr, ← hb, value_cons_self, value_cons_self]

/-! ## The chain -/

/-- The rows of the table `c.rtab` that a combination is joined with. -/
def matching (c : JoinCell) (l : Comb) (B : List (String × Row)) : List (String × Row) :=
  B.filter fun b => sameValue (Comb.value l c.ltab c.lcol) (Comb.value [b] c.rtab c.rcol)

theorem joinCombs_singles (c : JoinCell) (acc : List Comb) (B : List (String × Row)) :
    joinCombs c acc (B.map fun b => [b]) = acc.flatMap fun l => (matching c l B).map fun b => l ++ [b] := by
  unfold joinCombs
  refine List.flatMap_congr fun l _ => ?_
  rw [List.filter_map, List.map_map]
  rfl

theorem joinCombs_keys {c : JoinCell} {acc : List Comb} {B : List (String × Row)} {ts : List String}
    (hacc : ∀ l ∈ acc, l.map Prod.fst = ts) (hb : ∀ b ∈ B, b.1 = c.rtab) :
    ∀ l' ∈ joinCombs c acc (B.map fun b => [b]), l'.map Prod.fst = ts ++ [c.rtab] := by
  intro l' hl'
  rw [joinCombs_singles] at hl'
  obtain ⟨l, hlacc, hl'⟩ := List.mem_flatMap.mp hl'
  obtain ⟨b, hbB, rfl⟩ := List.mem_map.mp hl'
  rw [List.map_append, hacc l hlacc, List.map_singleton, hb b (List.mem_of_mem_filter hbB)]

theorem sections_cons_perm (l : Comb) (B : List (String × Row)) (Bs : List (List (String × Row))) :
    ((List.sections (B :: Bs)).map (l ++ ·)).Perm (B.flatMap fun b => Bs.sections.map fun s => l ++ b :: s) := by
  have h := Bags.flatMap_comm Bs.sections B fun s b => [l ++ b :: s]
  simp only [← List.map_eq_flatMap] at h
  simpa only [List.sections, List.map_flatMap, List.map_map, Function.comp_def] using h

/-- The combinations of `l` with one more table and the others: the rows of the new table are taken first. -/
theorem filter_holdsAll_cons {c : JoinCell} {cs : List JoinCell} {l : Comb} {B : List (String × Row)}
    (hl : c.ltab ∈ l.map Prod.fst) (hr : c.rtab ∉ l.map Prod.fst) (hb : ∀ b ∈ B, b.1 = c.rtab)
    (Bs : List (List (String × Row))) :
    ((matching c l B).flatMap fun b => (Bs.sections.map (l ++ [b] ++ ·)).filter (holdsAll cs)).Perm
      (((List.sections (B :: Bs)).map (l ++ ·)).filter (holdsAll (c :: cs))) := by
  refine .trans (.of_eq ?_) ((sections_cons_perm l B Bs).symm.filter _)
  rw [List.filter_flatMap, matching, Bags.filter_eq_flatMap, List.flatMap_assoc]
  refine List.flatMap_congr fun b hbB => ?_
  have hcell : ∀ s : Comb, holdsAll (c :: cs) (l ++ b :: s) =
      (sameValue (Comb.value l c.ltab c.lcol) (Comb.value [b] c.rtab c.rcol) && holdsAll cs (l ++ b :: s)) := by
    intro s
    rw [holdsAll, List.all_cons, cellHolds_append hl hr (hb b hbB)]
    rfl
  rw [List.filter_map]
  by_cases hm : sameValue (Comb.value l c.ltab c.lcol) (Comb.value [b] c.rtab c.rcol) = true
  · simp only [hm, if_true, List.flatMap_singleton, List.filter_map, Function.comp_def, hcell, Bool.true_and,
      List.append_assoc, List.singleton_append]
  · simp only [hm, Bool.false_eq_true, if_false, List.flatMap_nil, Function.comp_def, hcell, Bool.false_and]
    simp

theorem chainJoin_sections {cs : List JoinCell} {Bs : List (List (String × Row))} {acc : List Comb} {ts : List String}
    (hlink : cs.IsChain fun c d => c.rtab = d.ltab) (hhead : ∀ c ∈ cs.head?, c.ltab ∈ ts)
    (hnd : (ts ++ cs.map JoinCell.rtab).Nodup) (hB : List.Forall₂ (fun c B => ∀ b ∈ B, b.1 = c.rtab) cs Bs)
    (hacc : ∀ l ∈ acc, l.map Prod.fst = ts) :
    (chainJoin cs acc (Bs.map fun B => B.map fun b => [b])).Perm
      (acc.flatMap fun l => (Bs.sections.map (l ++ ·)).filter (holdsAll cs)) := by
  induction cs generalizing Bs acc ts with
  | nil =>
    cases hB
    have hall : ∀ l : Comb, [l].filter (holdsAll []) = [l] := fun _ => rfl
    simp [chainJoin, List.sections, hall]
  | cons c cs ih =>
    cases hB with
    | @cons _ B _ Bs hb hB =>
      have hl : c.ltab ∈ ts := hhead c rfl
      have hr : c.rtab ∉ ts := by
        intro hmem
        exact (List.nodup_append.mp hnd).2.2 c.rtab hmem c.rtab (List.mem_cons_self ..) rfl
      have hhead' : ∀ d ∈ cs.head?, d.ltab ∈ ts ++ [c.rtab] := by
        intro d hd
        cases cs with
        | nil => cases hd
        | cons d' cs =>
          cases hd
          rw [← (List.isChain_cons_cons.mp hlink).1]
          simp
      have hnd' : ((ts ++ [c.rtab]) ++ cs.map JoinCell.rtab).Nodup := by
        rw [List.append_assoc]
        exact hnd
      refine (ih hlink.tail hhead' hnd' hB (joinCombs_keys hacc hb)).trans ?_
      rw [joinCombs_singles, List.flatMap_assoc]
      refine List.Perm.flatMap_left _ fun l hlacc => ?_
      rw [List.flatMap_map]
      have hkeys := hacc l hlacc
      exact filter_holdsAll_cons (hkeys.symm ▸ hl) (hkeys.symm ▸ hr) hb Bs

/-- The combinations a chain of cells selects from lists of rows, one list for each table. -/
def selectCombs (J : List JoinCell) (Bs : List (List (String × Row))) : List Comb := Bs.sections.filter (holdsAll J)

theorem chainJoin_eq_selectCombs {J : List JoinCell} (hJ : Chain J) (hne : J ≠ []) {B : List (String × Row)}
    {Bs : List (List (String × Row))}
    (hB : List.Forall₂ (fun t B => ∀ b ∈ B, b.1 = t) (relation J) (B :: Bs)) :
    (chainJoin J (B.map fun b => [b]) (Bs.map fun B => B.map fun b => [b])).Perm (selectCombs J (B :: Bs)) := by
  obtain ⟨c, cs, rfl⟩ := List.exists_cons_of_ne_nil hne
  have hrel := relation_cons hJ.linked
  rw [hrel] at hB
  obtain ⟨hB0, hBs⟩ := List.forall₂_cons.mp hB
  have hnd := hJ.distinct
  rw [hrel] at hnd
  have hfirst : ∀ l ∈ B.map (fun b => [b]), l.map Prod.fst = [c.ltab] := by
    intro l hl
    obtain ⟨b, hb, rfl⟩ := List.mem_map.mp hl
    simp [hB0 b hb]
  have h := chainJoin_sections hJ.linked (by simp) hnd (List.forall₂_map_left_iff.mp hBs) hfirst
  refine h.trans ?_
  rw [List.flatMap_map]
  have hexp : ((B :: Bs).sections).Perm (B.flatMap fun b => Bs.sections.map fun s => b :: s) := by
    have h := Bags.flatMap_comm Bs.sections B fun s b => [b :: s]
    simp only [← List.map_eq_flatMap] at h
    exact h
  unfold selectCombs
  refine .trans (.of_eq ?_) (hexp.symm.filter _)
  rw [List.filter_flatMap]
  rfl

/-! ## Patterns and join lists -/

section
variable {rowsOf : FragName → List (String × Row)}

/-- The rows of every fragment carry the name of its table. -/
def TaggedRows (rowsOf : FragName → List (String × Row)) : Prop := ∀ f, ∀ b ∈ rowsOf f, b.1 = f.table

/-- The combinations one sequence of fragments contributes. -/
def tupleCombs (J : List JoinCell) (rowsOf : FragName → List (String × Row)) (l : List FragName) : List Comb :=
  selectCombs J (l.map rowsOf)

theorem selectCombs_flatMap (J : List JoinCell) (rowsOf : FragName → List (String × Row)) (Ls : List (List FragName)) :
    (selectCombs J (Ls.map fun L => L.flatMap rowsOf)).Perm (Ls.sections.flatMap (tupleCombs J rowsOf)) := by
  unfold selectCombs tupleCombs
  refine ((Bags.sections_flatMap Ls rowsOf).filter _).trans (.of_eq ?_)
  rw [List.filter_flatMap]
  rfl

/-- The fragment names a pattern ranges over. -/
def patternNames (rels : List String) (plist : Pattern) : List (List FragName) :=
  List.zipWith (fun rel nums => nums.map (FragName.mk rel)) rels plist

theorem sections_patternNames {rels : List String} {plist : Pattern} (h : rels.length = plist.length) :
    (patternNames rels plist).sections = plist.sections.map (List.zipWith FragName.mk rels) := by
  induction plist generalizing rels with
  | nil => cases rels <;> simp_all [patternNames, List.sections]
  | cons nums plist ih =>
    cases rels with
    | nil => cases h
    | cons rel rels =>
      have ih' := ih (by simpa using h)
      simp only [patternNames, List.zipWith_cons_cons, List.sections] at ih' ⊢
      rw [ih', List.flatMap_map, List.map_flatMap]
      refine List.flatMap_congr fun s _ => ?_
      rw [List.map_map, List.map_map]
      rfl

theorem zipWith_mk_of_tables {l : List FragName} {rels : List String} (h : l.map FragName.table = rels) :
    List.zipWith FragName.mk rels (l.map FragName.num) = l := by
  subst h
  induction l with
  | nil => rfl
  | cons f l ih => exact congrArg (f :: ·) ih

/-- The value of the subtree of a pattern. -/
def patternValue (leafOf : FragName → List Comb) (J : List JoinCell) (plist : Pattern) : List Comb :=
  match operandValues leafOf (relation J) plist with
  | [] => []
  | v :: vs => chainJoin J v vs

/-- **The subtree of a pattern delivers the combinations of the fragment sequences the pattern stands
for.** -/
theorem patternValue_perm {J : List JoinCell} (hJ : Chain J) (hne : J ≠ []) (htag : TaggedRows rowsOf) {plist : Pattern}
    (hlen : plist.length = (relation J).length) :
    (patternValue (fun f => (rowsOf f).map fun b => [b]) J plist).Perm
      (plist.sections.flatMap fun nums => tupleCombs J rowsOf (List.zipWith FragName.mk (relation J) nums)) := by
  have hvals : operandValues (fun f => (rowsOf f).map fun b => [b]) (relation J) plist =
      (((patternNames (relation J) plist).map fun L => L.flatMap rowsOf).map fun B => B.map fun b => [b]) := by
    unfold operandValues patternNames
    rw [List.map_zipWith, List.map_zipWith]
    congr 1
    funext rel nums
    rw [List.flatMap_map, List.map_flatMap]
  have htabs : List.Forall₂ (fun t B => ∀ b ∈ B, b.1 = t) (relation J)
      ((patternNames (relation J) plist).map fun L => L.flatMap rowsOf) := by
    rw [List.forall₂_map_right_iff, List.forall₂_iff_get]
    refine ⟨by simp [patternNames, hlen], fun i h1 h2 b hb => ?_⟩
    obtain ⟨f, hf, hb⟩ := List.mem_flatMap.mp hb
    simp only [patternNames, List.get_eq_getElem, List.getElem_zipWith, List.mem_map] at hf
    obtain ⟨num, -, rfl⟩ := hf
    exact htag _ b hb
  have hsel := selectCombs_flatMap J rowsOf (patternNames (relation J) plist)
  rw [sections_patternNames hlen.symm, List.flatMap_map] at hsel
  refine .trans ?_ hsel
  unfold patternValue
  rw [hvals]
  cases hB : (patternNames (relation J) plist).map fun L => L.flatMap rowsOf with
  | nil =>
    have hz := congrArg List.length hB
    have hrl := length_relation hne
    simp [patternNames, hlen, hrl] at hz
  | cons B Bs =>
    rw [hB] at htabs
    exact chainJoin_eq_selectCombs hJ hne htabs

end

end EasyDDB.Optimizer
