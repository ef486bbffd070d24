import EasyDDB.Optimizer.Single
import EasyDDB.Optimizer.WellFormed

/-! # What the join subtrees compute

Nodes that exist before a step keep everything but their parent, so a finished subtree keeps its value
while the vector grows. From the Fragment nodes upwards: the value of an operand, of the left-deep chain
over the operands, and the list of topmost Join nodes. -/
namespace EasyDDB.Optimizer
open Arena
set_option autoImplicit false

/-! ## Growing trees -/

/-- Nodes stay as they are but for their parent, and Union and Join nodes below `L` keep that, too. -/
structure Grown (L : Nat) (tr tr' : List TreeNode) : Prop where
  length : tr.length ≤ tr'.length
  node : ∀ (j : Nat) (n : TreeNode), tr[j]? = some n →
    ∃ par, tr'[j]? = some (n.under par) ∧ (j < L → n.type ≠ .fragment → par = n.parent)

theorem Grown.refl (L : Nat) (tr : List TreeNode) : Grown L tr tr :=
  ⟨le_rfl, fun _ n hn => ⟨n.parent, hn, fun _ _ => rfl⟩⟩

theorem Grown.trans {L : Nat} {tr tr' tr'' : List TreeNode} (h : Grown L tr tr') (h' : Grown L tr' tr'') :
    Grown L tr tr'' := by
  refine ⟨h.length.trans h'.length, fun j n hn => ?_⟩
  obtain ⟨par, hpar, hkeep⟩ := h.node j n hn
  obtain ⟨par', hpar', hkeep'⟩ := h'.node j _ hpar
  exact ⟨par', hpar', fun hj ht => (hkeep' hj ht).trans (hkeep hj ht)⟩

theorem Grown.append (L : Nat) (tr l : List TreeNode) : Grown L tr (tr ++ l) := by
  refine ⟨by simp, fun j n hn => ⟨n.parent, ?_, fun _ _ => rfl⟩⟩
  rw [List.getElem?_append_left (List.getElem?_eq_some_iff.mp hn).1, hn]
  rfl

theorem Grown.setParent {L : Nat} {tr : List TreeNode} {i : Nat} (par : Nat)
    (hi : L ≤ i ∨ ∃ n, tr[i]? = some n ∧ n.type = .fragment) : Grown L tr (setParent tr i par) := by
  refine ⟨by rw [setParent_length], fun j n hn => ?_⟩
  rw [setParent_getElem?, hn, Option.map_some]
  by_cases hij : i = j
  · subst hij
    rw [if_pos rfl]
    refine ⟨par, rfl, fun hlt ht => ?_⟩
    obtain hL | ⟨n', hn', ht'⟩ := hi
    · omega
    · rw [hn] at hn'
      cases hn'
      exact absurd ht' ht
  · rw [if_neg hij]
    exact ⟨n.parent, rfl, fun _ _ => rfl⟩

/-- All children are nodes of the vector. -/
def Closed (tr : List TreeNode) : Prop := ∀ (p : Nat) (m : TreeNode), tr[p]? = some m → ∀ i ∈ m.child, i < tr.length

theorem Forested.closed {tr : List TreeNode} (h : Forested tr) : Closed tr := fun p m hm i hi => (h.child p m hm i hi).lt

/-- The results of a semantics do not depend on the links of a node. -/
structure Semantics.IgnoresLinks {α : Type} (sem : Semantics α) : Prop where
  leaf : ∀ n par cs, sem.leaf { n with parent := par, child := cs } = sem.leaf n
  union : ∀ n par rs, sem.union (TreeNode.under n par) rs = sem.union n rs
  join : ∀ n par rs, sem.join (TreeNode.under n par) rs = sem.join n rs

theorem combSemantics_ignoresLinks (db : Placement) : (combSemantics db).IgnoresLinks :=
  ⟨fun _ _ _ => rfl, fun _ _ _ => rfl, fun _ _ _ => rfl⟩

theorem rowSemantics_ignoresLinks (db : Placement) : (rowSemantics db).IgnoresLinks :=
  ⟨fun _ _ _ => rfl, fun _ _ _ => rfl, fun _ _ _ => rfl⟩

theorem evalNode_grown {α : Type} {sem : Semantics α} (hsem : sem.IgnoresLinks) {L : Nat} {tr tr' : List TreeNode}
    (h : Grown L tr tr') (hc : Closed tr) (fuel : Nat) {i : Nat} (hi : i < tr.length) :
    evalNode sem tr' fuel i = evalNode sem tr fuel i := by
  induction fuel generalizing i with
  | zero => rfl
  | succ fuel ih =>
    obtain ⟨n, hn⟩ : ∃ n, tr[i]? = some n := ⟨_, List.getElem?_eq_getElem hi⟩
    obtain ⟨par, hn', -⟩ := h.node i n hn
    have hkids : n.child.map (evalNode sem tr' fuel) = n.child.map (evalNode sem tr fuel) :=
      List.map_congr_left fun j hj => ih (hc i n hn j hj)
    have hkids' : (n.under par).child.map (evalNode sem tr' fuel) = n.child.map (evalNode sem tr fuel) := hkids
    cases ht : n.type with
    | fragment =>
      rw [evalNode_fragment sem fuel hn ht, evalNode_fragment sem fuel hn' (show (n.under par).type = _ from ht)]
      exact hsem.leaf n par n.child
    | union =>
      rw [evalNode_union sem fuel hn ht, evalNode_union sem fuel hn' (show (n.under par).type = _ from ht), hkids']
      exact hsem.union n par _
    | join =>
      rw [evalNode_join sem fuel hn ht, evalNode_join sem fuel hn' (show (n.under par).type = _ from ht), hkids']
      exact hsem.join n par _

/-- A node has the value `v` from `k` levels of fuel on. -/
def EvalsTo {α : Type} (sem : Semantics α) (tr : List TreeNode) (k i : Nat) (v : List α) : Prop :=
  i < tr.length ∧ ∀ fuel, k ≤ fuel → evalNode sem tr fuel i = v

theorem EvalsTo.grown {α : Type} {sem : Semantics α} (hsem : sem.IgnoresLinks) {L k i : Nat} {tr tr' : List TreeNode}
    {v : List α} (h : EvalsTo sem tr k i v) (hg : Grown L tr tr') (hc : Closed tr) : EvalsTo sem tr' k i v :=
  ⟨h.1.trans_le hg.length, fun fuel hf => (evalNode_grown hsem hg hc fuel h.1).trans (h.2 fuel hf)⟩

/-- A Fragment node that delivers `v`. -/
def FragNode {α : Type} (sem : Semantics α) (tr : List TreeNode) (i : Nat) (v : List α) : Prop :=
  ∃ n, tr[i]? = some n ∧ n.type = .fragment ∧ sem.leaf n = v

theorem FragNode.grown {α : Type} {sem : Semantics α} (hsem : sem.IgnoresLinks) {L i : Nat} {tr tr' : List TreeNode}
    {v : List α} (h : FragNode sem tr i v) (hg : Grown L tr tr') : FragNode sem tr' i v := by
  obtain ⟨n, hn, ht, hv⟩ := h
  obtain ⟨par, hn', -⟩ := hg.node i n hn
  exact ⟨n.under par, hn', ht, (hsem.leaf n par n.child).trans hv⟩

theorem FragNode.lt {α : Type} {sem : Semantics α} {tr : List TreeNode} {i : Nat} {v : List α}
    (h : FragNode sem tr i v) : i < tr.length := by
  obtain ⟨n, hn, -⟩ := h
  exact (List.getElem?_eq_some_iff.mp hn).1

theorem FragNode.evalsTo {α : Type} {sem : Semantics α} {tr : List TreeNode} {i : Nat} {v : List α}
    (h : FragNode sem tr i v) : EvalsTo sem tr 1 i v := by
  refine ⟨h.lt, fun fuel hf => ?_⟩
  obtain ⟨n, hn, ht, hv⟩ := h
  obtain ⟨f, rfl⟩ : ∃ f, fuel = f + 1 := ⟨fuel - 1, by omega⟩
  rw [evalNode_fragment sem f hn ht, hv]

/-- From index `L` on there is no Join node. -/
def NoJoin (L : Nat) (tr : List TreeNode) : Prop :=
  ∀ (j : Nat) (n : TreeNode), L ≤ j → tr[j]? = some n → n.type ≠ .join

/-! ## Operands -/

section
variable {db : Placement} {mpTr : FragName → Nat} {recorded : FragName → Prop} {leafOf : FragName → List Comb}

/-- The recorded nodes are Fragment nodes that deliver `leafOf`. -/
def Leaves (db : Placement) (mpTr : FragName → Nat) (recorded : FragName → Prop) (leafOf : FragName → List Comb)
    (tr : List TreeNode) : Prop :=
  ∀ x, recorded x → FragNode (combSemantics db) tr (mpTr x) (leafOf x)

theorem Leaves.grown {L : Nat} {tr tr' : List TreeNode} (h : Leaves db mpTr recorded leafOf tr) (hg : Grown L tr tr') :
    Leaves db mpTr recorded leafOf tr' :=
  fun x hx => (h x hx).grown (combSemantics_ignoresLinks db) hg

theorem getTreeNode_grown (L : Nat) {s s' : Build} {x : FragName} {i : Nat} (hl : Leaves db mpTr recorded leafOf s.tr)
    (hx : recorded x) (h : getTreeNode mpTr x s = some (i, s')) :
    Grown L s.tr s'.tr ∧ FragNode (combSemantics db) s'.tr i (leafOf x) ∧ NoJoin s.tr.length s'.tr := by
  obtain ⟨n, hn, ht, hv⟩ := hl x hx
  unfold getTreeNode at h
  split_ifs at h
  · rw [hn] at h
    cases h
    refine ⟨Grown.append .., ⟨_, List.getElem?_concat_length, ht, ?_⟩, ?_⟩
    · exact ((combSemantics_ignoresLinks db).leaf n (-1) []).trans hv
    · intro j m hj hm
      obtain hm | ⟨-, rfl⟩ := getElem?_concat_cases hm
      · have := (List.getElem?_eq_some_iff.mp hm).1
        omega
      · exact fun hjoin => NodeType.noConfusion (ht.symm.trans hjoin)
  · cases h
    refine ⟨.refl .., ⟨n, hn, ht, hv⟩, fun j m hj hm => ?_⟩
    have hlt : j < s.tr.length := (List.getElem?_eq_some_iff.mp hm).1
    omega

/-- The vector after node `i` has become a child of the Union node `par`. -/
def withChild (tr : List TreeNode) (par i : Nat) (attr : List String) : List TreeNode :=
  setParent (tr.modify par fun n => { n with child := n.child ++ [i], attr := attr }) i par

theorem withChild_getElem? (tr : List TreeNode) (par i : Nat) (attr : List String) (j : Nat) :
    (withChild tr par i attr)[j]? = (tr[j]?).map fun n =>
      if i = j then (if par = j then { n with child := n.child ++ [i], attr := attr } else n).under par
      else if par = j then { n with child := n.child ++ [i], attr := attr } else n := by
  rw [withChild, setParent_getElem?, List.getElem?_modify, Option.map_eq_map, Option.map_map]
  rfl

theorem addChild_inv {s s' : Build} {rel : String} {par : Nat} {num : Int} (h : addChild mpTr rel par s num = some s') :
    ∃ i s₁ node, getTreeNode mpTr ⟨rel, num⟩ s = some (i, s₁) ∧ s₁.tr[i]? = some node ∧
      s' = { s₁ with tr := withChild s₁.tr par i node.output } := by
  simp only [addChild, Option.bind_eq_bind, Option.bind_eq_some_iff] at h
  obtain ⟨⟨i, s₁⟩, hget, node, hnode, h⟩ := h
  cases h
  exact ⟨i, s₁, node, hget, hnode, rfl⟩

/-- While a Union node is filled: its children deliver the fragments seen so far. -/
structure Filling (db : Placement) (leafOf : FragName → List Comb) (L : Nat) (rel : String) (tr₀ : List TreeNode)
    (seen : List Int) (tr : List TreeNode) : Prop where
  grown : Grown L tr₀ tr
  noJoin : NoJoin tr₀.length tr
  union : ∃ n, tr[tr₀.length]? = some n ∧ n.type = .union ∧
    List.Forall₂ (fun i num => FragNode (combSemantics db) tr i (leafOf ⟨rel, num⟩)) n.child seen

theorem addChild_filling {L : Nat} {rel : String} {tr₀ : List TreeNode} (hl : Leaves db mpTr recorded leafOf tr₀)
    {seen : List Int} {num : Int} (hx : recorded ⟨rel, num⟩) {c c' : Build}
    (hc : Filling db leafOf L rel tr₀ seen c.tr) (h : addChild mpTr rel tr₀.length c num = some c') :
    Filling db leafOf L rel tr₀ (seen ++ [num]) c'.tr := by
  obtain ⟨i, s₁, node, hget, hnode, rfl⟩ := addChild_inv h
  obtain ⟨hg₁, hi₁, hnj₁⟩ := getTreeNode_grown L (hl.grown hc.grown) hx hget
  obtain ⟨u, hu, hut, hkids⟩ := hc.union
  obtain ⟨up, hu₁, -⟩ := hg₁.node _ u hu
  have hfrag : ∀ {j : Nat} {v : List Comb}, FragNode (combSemantics db) s₁.tr j v → j ≠ tr₀.length := by
    rintro j v ⟨n, hn, ht, -⟩ rfl
    rw [hu₁] at hn
    cases hn
    exact NodeType.noConfusion (hut.symm.trans ht)
  have hstep : ∀ (j : Nat) (n : TreeNode), s₁.tr[j]? = some n → j ≠ tr₀.length →
      ∃ par, (withChild s₁.tr tr₀.length i node.output)[j]? = some (n.under par) ∧ (j ≠ i → par = n.parent) := by
    intro j n hn hj
    rw [withChild_getElem?, hn]
    by_cases hij : i = j
    · exact ⟨tr₀.length, by simp [hij, Ne.symm hj], fun hne => absurd hij.symm hne⟩
    · exact ⟨n.parent, by simp [hij, Ne.symm hj, TreeNode.under], fun _ => rfl⟩
  have hmoved : ∀ {j : Nat} {v : List Comb}, FragNode (combSemantics db) s₁.tr j v →
      FragNode (combSemantics db) (withChild s₁.tr tr₀.length i node.output) j v := by
    intro j v hv
    have hj := hfrag hv
    obtain ⟨n, hn, ht, hv⟩ := hv
    obtain ⟨par, hn', -⟩ := hstep j n hn hj
    exact ⟨n.under par, hn', ht, ((combSemantics_ignoresLinks db).leaf n par n.child).trans hv⟩
  refine ⟨⟨?_, ?_⟩, ?_, ?_⟩
  · rw [withChild, setParent_length, List.length_modify]
    exact hc.grown.length.trans hg₁.length
  · intro j n hn
    obtain ⟨par, hpar, hkeep⟩ := (hc.grown.trans hg₁).node j n hn
    have hj : j ≠ tr₀.length := ((List.getElem?_eq_some_iff.mp hn).1).ne
    obtain ⟨par', hpar', hsame⟩ := hstep j _ hpar hj
    refine ⟨par', hpar', fun hL ht => ?_⟩
    have hji : j ≠ i := by
      rintro rfl
      obtain ⟨m, hm, hmt, -⟩ := hi₁
      rw [hpar] at hm
      cases hm
      exact ht hmt
    exact (hsame hji).trans (hkeep hL ht)
  · intro j n hj hn
    rw [withChild_getElem?] at hn
    obtain ⟨n₂, hn₂, rfl⟩ := Option.map_eq_some_iff.mp hn
    have htype : n₂.type ≠ .join := by
      by_cases hjc : j < c.tr.length
      · obtain ⟨n₃, hn₃⟩ : ∃ n, c.tr[j]? = some n := ⟨_, List.getElem?_eq_getElem hjc⟩
        obtain ⟨par, hpar, -⟩ := hg₁.node j n₃ hn₃
        rw [hn₂] at hpar
        cases hpar
        exact hc.noJoin j n₃ hj hn₃
      · exact hnj₁ j n₂ (by omega) hn₂
    by_cases hij : i = j <;> by_cases hjt : tr₀.length = j <;> simpa [hij, hjt, TreeNode.under] using htype
  · refine ⟨{ u.under up with child := u.child ++ [i], attr := node.output }, ?_, hut, ?_⟩
    · rw [withChild_getElem?, hu₁]
      simp [(hfrag hi₁), TreeNode.under]
    · refine List.rel_append (hkids.imp fun _ _ hv => ?_) (.cons (hmoved hi₁) .nil)
      exact hmoved (hv.grown (combSemantics_ignoresLinks db) hg₁)

theorem operand_eval {L : Nat} {site : Int} {rel : String} {nums : List Int} {s s' : Build} {i : Nat}
    (hl : Leaves db mpTr recorded leafOf s.tr) (hx : ∀ num ∈ nums, recorded ⟨rel, num⟩)
    (h : operand site mpTr rel nums s = some (i, s')) :
    Grown L s.tr s'.tr ∧ NoJoin s.tr.length s'.tr ∧
      EvalsTo (combSemantics db) s'.tr 2 i (nums.flatMap fun num => leafOf ⟨rel, num⟩) ∧
      ∃ n, s'.tr[i]? = some n ∧ n.type ≠ .join ∧ (n.type ≠ .fragment → s.tr.length ≤ i) := by
  unfold operand at h
  split at h
  · rename_i num
    obtain ⟨hg, hv, hnj⟩ := getTreeNode_grown L hl (hx num (List.mem_singleton_self num)) h
    have hval := hv.evalsTo
    obtain ⟨n, hn, ht, -⟩ := hv
    refine ⟨hg, hnj, ⟨hval.1, fun fuel hf => ?_⟩, n, hn, by rw [ht]; exact NodeType.noConfusion, fun hne => absurd ht hne⟩
    rw [hval.2 fuel (by omega), List.flatMap_singleton]
  · simp only [Option.bind_eq_bind, Option.bind_eq_some_iff] at h
    obtain ⟨c, hloop, h⟩ := h
    cases h
    have hinit : Filling db leafOf L rel s.tr [] (s.tr ++ [{ type := .union, site := site }]) := by
      refine ⟨Grown.append .., fun j n hj hn => ?_, _, List.getElem?_concat_length, rfl, .nil⟩
      obtain hn | ⟨-, rfl⟩ := getElem?_concat_cases hn
      · have := (List.getElem?_eq_some_iff.mp hn).1
        omega
      · exact NodeType.noConfusion
    have hfill := Loops.invariant_seen (I := fun seen (c : Build) => Filling db leafOf L rel s.tr seen c.tr)
      (fun pre num post hsplit c c' hc hstep =>
        addChild_filling hl (hx num (by rw [hsplit]; simp)) hc hstep) hinit hloop
    obtain ⟨n, hn, ht, hkids⟩ := hfill.union
    refine ⟨hfill.grown, hfill.noJoin, ⟨(List.getElem?_eq_some_iff.mp hn).1, fun fuel hf => ?_⟩, n, hn,
      by rw [ht]; exact NodeType.noConfusion, fun _ => le_rfl⟩
    obtain ⟨f, rfl⟩ : ∃ f, fuel = f + 1 := ⟨fuel - 1, by omega⟩
    rw [evalNode_union _ f hn ht]
    change (n.child.map _).flatten = _
    rw [List.flatMap_def]
    congr 1
    have hval : List.Forall₂ Eq (n.child.map (evalNode (combSemantics db) s'.tr f))
        (nums.map fun num => leafOf ⟨rel, num⟩) := by
      rw [List.forall₂_map_left_iff, List.forall₂_map_right_iff]
      exact hkids.imp fun _ _ hv => hv.evalsTo.2 f (by omega)
    simpa only [List.forall₂_eq_eq_eq] using hval

/-- The values of the operands of a pattern. -/
def operandValues (leafOf : FragName → List Comb) (rels : List String) (plist : Pattern) : List (List Comb) :=
  List.zipWith (fun rel nums => nums.flatMap fun num => leafOf ⟨rel, num⟩) rels plist

/-- What a node index says about an operand of the pattern that is built from index `L` on. -/
def OperandAt (L : Nat) (tr : List TreeNode) (i : Nat) : Prop :=
  ∃ n, tr[i]? = some n ∧ n.type ≠ .join ∧ (n.type ≠ .fragment → L ≤ i)

theorem OperandAt.grown {L : Nat} {tr tr' : List TreeNode} {i : Nat} (h : OperandAt L tr i) (hg : Grown L tr tr') :
    OperandAt L tr' i := by
  obtain ⟨n, hn, ht, hL⟩ := h
  obtain ⟨par, hn', -⟩ := hg.node i n hn
  exact ⟨n.under par, hn', ht, hL⟩

section
variable (hinj : ∀ x y, recorded x → recorded y → mpTr x = mpTr y → x = y)
include hinj

theorem operands_eval {L : Nat} {site : Int} {rels : List String} {plist : Pattern}
    (hx : List.Forall₂ (fun rel nums => ∀ num ∈ nums, recorded ⟨rel, num⟩) rels plist) {s s' : Build} {R is : List Nat}
    (hready : Ready mpTr recorded s R) (hl : Leaves db mpTr recorded leafOf s.tr) (hL : L ≤ s.tr.length)
    (hnj : NoJoin L s.tr) (h : operands site mpTr rels plist s = some (is, s')) :
    Grown L s.tr s'.tr ∧ NoJoin L s'.tr ∧
      List.Forall₂ (EvalsTo (combSemantics db) s'.tr 2) is (operandValues leafOf rels plist) ∧
      ∀ i ∈ is, OperandAt L s'.tr i := by
  induction hx generalizing s R is with
  | nil =>
    cases h
    exact ⟨.refl .., hnj, .nil, by simp⟩
  | @cons rel nums rels plist hnums _ ih =>
    simp only [operands, Option.bind_eq_bind, Option.bind_eq_some_iff] at h
    obtain ⟨⟨i, s₁⟩, hop, ⟨is, s₂⟩, hops, h⟩ := h
    cases h
    obtain ⟨i', s₁', hop', hready₁⟩ := operand_ready hinj site hready hnums
    obtain ⟨rfl, rfl⟩ : i = i' ∧ s₁ = s₁' := Prod.mk.inj (Option.some.inj (hop.symm.trans hop'))
    obtain ⟨hg, hnj₁, hval, n, hn, ht, hi⟩ := operand_eval (L := L) hl hnums hop
    have hnjL : NoJoin L s₁.tr := by
      intro j m hj hm
      by_cases hjs : j < s.tr.length
      · obtain ⟨m₀, hm₀⟩ : ∃ m, s.tr[j]? = some m := ⟨_, List.getElem?_eq_getElem hjs⟩
        obtain ⟨par, hm', -⟩ := hg.node j m₀ hm₀
        rw [hm] at hm'
        cases hm'
        exact hnj j m₀ hj hm₀
      · exact hnj₁ j m (by omega) hm
    obtain ⟨hg₂, hnj₂, hvals, hat⟩ := ih hready₁ (hl.grown hg) (hL.trans hg.length) hnjL hops
    refine ⟨hg.trans hg₂, hnj₂, .cons ?_ hvals, fun j hj => ?_⟩
    · exact hval.grown (combSemantics_ignoresLinks db) hg₂ hready₁.forest.closed
    · obtain rfl | hj := List.mem_cons.mp hj
      · exact OperandAt.grown ⟨n, hn, ht, fun hne => hL.trans (hi hne)⟩ hg₂
      · exact hat j hj

end

/-! ## The chain of Join nodes -/

/-- The left-deep join of operand values along the cells. -/
def chainJoin : List JoinCell → List Comb → List (List Comb) → List Comb
  | c :: cs, v, r :: rs => chainJoin cs (joinCombs c v r) rs
  | _, v, _ => v

/-- From `L` on, every Join node but `par` has a Join node as parent. -/
def JoinsLinked (L : Nat) (tr : List TreeNode) (par : Nat) : Prop :=
  ∀ (j : Nat) (n : TreeNode), L ≤ j → tr[j]? = some n → n.type = .join → j = par ∨
    ∃ (p : Nat) (m : TreeNode), n.parent = p ∧ tr[p]? = some m ∧ m.type = .join

/-- The vector after the pushed node has become the parent of the nodes `l` and `r`. -/
def withTop (tr : List TreeNode) (node : TreeNode) (l r : Nat) : List TreeNode :=
  setParent (setParent (tr ++ [node]) l tr.length) r tr.length

theorem withTop_length (tr : List TreeNode) (node : TreeNode) (l r : Nat) :
    (withTop tr node l r).length = tr.length + 1 := by simp [withTop, setParent_length]

theorem withTop_getElem? (tr : List TreeNode) (node : TreeNode) (l r j : Nat) :
    (withTop tr node l r)[j]? = (tr ++ [node])[j]?.map fun n =>
      n.under (if l = j ∨ r = j then (tr.length : Int) else n.parent) := by
  rw [withTop, setParent_getElem?, setParent_getElem?, Option.map_map]
  congr 1
  funext n
  by_cases hjl : l = j <;> by_cases hjr : r = j <;> simp [hjl, hjr, TreeNode.under]

theorem withTop_old {tr : List TreeNode} {j : Nat} {n : TreeNode} (hn : tr[j]? = some n) (node : TreeNode)
    (l r : Nat) :
    (withTop tr node l r)[j]? = some (n.under (if l = j ∨ r = j then (tr.length : Int) else n.parent)) := by
  rw [withTop_getElem?, List.getElem?_append_left (List.getElem?_eq_some_iff.mp hn).1, hn, Option.map_some]

theorem withTop_new {tr : List TreeNode} {l r : Nat} (hl : l < tr.length) (hr : r < tr.length) (node : TreeNode) :
    (withTop tr node l r)[tr.length]? = some node := by
  have hne : ¬ (l = tr.length ∨ r = tr.length) := by omega
  rw [withTop_getElem?, List.getElem?_concat_length, Option.map_some, if_neg hne]
  rfl

theorem pushJoin_inv {site : Int} {S : List String} {c : JoinCell} {next : Option JoinCell} {l r par : Nat}
    {s s' : Build} (h : pushJoin site S c next l r s = some (par, s')) :
    ∃ node : TreeNode, (l < s.tr.length ∧ r < s.tr.length) ∧ node.type = .join ∧ node.join = c ∧ node.child = [l, r] ∧
      node.parent = -1 ∧ par = s.tr.length ∧ s' = { s with tr := withTop s.tr node l r } := by
  simp only [pushJoin, Option.bind_eq_bind, Option.bind_eq_some_iff] at h
  obtain ⟨x, hx, y, hy, h⟩ := h
  cases h
  exact ⟨_, ⟨(List.getElem?_eq_some_iff.mp hx).1, (List.getElem?_eq_some_iff.mp hy).1⟩, rfl, rfl, rfl, rfl, rfl, rfl⟩

/-- The node on top of a chain is the last one. -/
theorem joinChain_last {site : Int} {S : List String} {cs : List JoinCell} {is : List Nat} {par par' : Nat} {s s' : Build}
    (hlen : cs.length = is.length) (hne : cs ≠ []) (h : joinChain site S cs is par s = some (par', s')) :
    par' = s'.tr.length - 1 := by
  induction cs generalizing is par s with
  | nil => exact absurd rfl hne
  | cons c cs ih =>
    cases is with
    | nil => cases hlen
    | cons i is =>
      simp only [joinChain, Option.bind_eq_bind, Option.bind_eq_some_iff] at h
      obtain ⟨⟨par₁, s₁⟩, hpush, h⟩ := h
      by_cases hcs : cs = []
      · subst hcs
        obtain ⟨node, -, -, -, -, -, rfl, rfl⟩ := pushJoin_inv hpush
        cases h
        rw [withTop_length, Nat.add_sub_cancel]
      · exact ih (by simpa using hlen) hcs h

theorem withTop_grown {L : Nat} {tr : List TreeNode} {l r : Nat} (hl : L ≤ l ∨ OperandAt L tr l)
    (hr : L ≤ r ∨ OperandAt L tr r) (node : TreeNode) : Grown L tr (withTop tr node l r) := by
  refine ⟨by rw [withTop_length]; omega, fun j n hn => ⟨_, withTop_old hn node l r, fun hj ht => if_neg ?_⟩⟩
  have hkeep : ∀ i, (L ≤ i ∨ OperandAt L tr i) → i ≠ j := by
    rintro i (hi | ⟨n', hn', -, hi⟩) rfl
    · omega
    · rw [hn] at hn'
      cases hn'
      exact absurd (hi ht) (by omega)
  exact not_or.mpr ⟨hkeep l hl, hkeep r hr⟩

/-- The new node is the only Join node from `L` on that may lack a Join node above it. -/
theorem withTop_joinsLinked {L : Nat} {tr : List TreeNode} {l r : Nat} (hlt : l < tr.length) (hrt : r < tr.length)
    (hr : OperandAt L tr r) (hlink : JoinsLinked L tr l) {node : TreeNode} (hnode : node.type = .join) :
    JoinsLinked L (withTop tr node l r) tr.length := by
  intro j n hj hn ht
  by_cases hjs : j < tr.length
  · obtain ⟨n₀, hn₀⟩ : ∃ n, tr[j]? = some n := ⟨_, List.getElem?_eq_getElem hjs⟩
    rw [withTop_old hn₀] at hn
    cases hn
    have hrj : r ≠ j := by
      rintro rfl
      obtain ⟨m, hm, hmt, -⟩ := hr
      rw [hn₀] at hm
      cases hm
      exact hmt ht
    by_cases hlj : l = j
    · exact .inr ⟨tr.length, node, by simp [hlj, TreeNode.under], withTop_new hlt hrt node, hnode⟩
    · obtain hjl | ⟨p, m, hp, hm, hmt⟩ := hlink j n₀ hj hn₀ ht
      · exact absurd hjl.symm hlj
      · exact .inr ⟨p, _, by simpa [hlj, hrj, TreeNode.under] using hp, withTop_old hm node l r, hmt⟩
  · have hlen := (List.getElem?_eq_some_iff.mp hn).1
    rw [withTop_length] at hlen
    exact .inl (by omega)

theorem pushJoin_eval {L k : Nat} {site : Int} {S : List String} {c : JoinCell} {next : Option JoinCell}
    {l r par : Nat} {s s' : Build} {v w : List Comb} {R : List Nat} (hready : Ready mpTr recorded s (l :: r :: R))
    (hL : L ≤ s.tr.length) (hlat : L ≤ l ∨ OperandAt L s.tr l) (hrat : OperandAt L s.tr r) (hk : 2 ≤ k)
    (hv : EvalsTo (combSemantics db) s.tr k l v) (hw : EvalsTo (combSemantics db) s.tr 2 r w)
    (hlink : JoinsLinked L s.tr l) (h : pushJoin site S c next l r s = some (par, s')) :
    Grown L s.tr s'.tr ∧ EvalsTo (combSemantics db) s'.tr (k + 1) par (joinCombs c v w) ∧
      JoinsLinked L s'.tr par ∧ L ≤ par ∧ s'.tr.length = s.tr.length + 1 ∧
      ∃ n, s'.tr[par]? = some n ∧ n.type = .join := by
  obtain ⟨node, ⟨hl, hr⟩, hnt, hnc, hnk, -, rfl, rfl⟩ := pushJoin_inv h
  have htop := withTop_new hl hr node
  have hg := withTop_grown hlat (.inr hrat) node
  have hv' := hv.grown (combSemantics_ignoresLinks db) hg hready.forest.closed
  have hw' := hw.grown (combSemantics_ignoresLinks db) hg hready.forest.closed
  refine ⟨hg, ⟨(List.getElem?_eq_some_iff.mp htop).1, fun fuel hf => ?_⟩,
    withTop_joinsLinked hl hr hrat hlink hnt, hL, withTop_length .., node, htop, hnt⟩
  obtain ⟨f, rfl⟩ : ∃ f, fuel = f + 1 := ⟨fuel - 1, by omega⟩
  rw [evalNode_join _ f htop hnt, hnk]
  simp only [List.map_cons, List.map_nil, hv'.2 f (by omega), hw'.2 f (by omega)]
  change joinCombs node.join v w = joinCombs c v w
  rw [hnc]

theorem joinChain_eval {L k : Nat} {site : Int} {S : List String} {cs : List JoinCell} {is : List Nat} {par par' : Nat}
    {s s' : Build} {v : List Comb} {vs : List (List Comb)} {R : List Nat}
    (hready : Ready mpTr recorded s (par :: is ++ R)) (hL : L ≤ s.tr.length) (hpar : L ≤ par ∨ OperandAt L s.tr par)
    (his : ∀ i ∈ is, OperandAt L s.tr i) (hk : 2 ≤ k) (hv : EvalsTo (combSemantics db) s.tr k par v)
    (hvs : List.Forall₂ (EvalsTo (combSemantics db) s.tr 2) is vs) (hlink : JoinsLinked L s.tr par)
    (hlen : cs.length = is.length) (h : joinChain site S cs is par s = some (par', s')) :
    Grown L s.tr s'.tr ∧ EvalsTo (combSemantics db) s'.tr (k + cs.length) par' (chainJoin cs v vs) ∧
      JoinsLinked L s'.tr par' ∧ s'.tr.length = s.tr.length + cs.length ∧
      (cs ≠ [] → L ≤ par' ∧ ∃ n, s'.tr[par']? = some n ∧ n.type = .join) := by
  induction cs generalizing is par s k v vs with
  | nil =>
    obtain rfl := List.length_eq_zero_iff.mp hlen.symm
    cases h
    exact ⟨.refl .., by simpa [chainJoin] using hv, hlink, rfl, fun hne => absurd rfl hne⟩
  | cons c cs ih =>
    cases hvs with
    | nil => cases hlen
    | @cons i w is vs hw hvs =>
      simp only [joinChain, Option.bind_eq_bind, Option.bind_eq_some_iff] at h
      obtain ⟨⟨p₁, s₁⟩, hpush, h⟩ := h
      obtain ⟨s₁', hpush', hready₁, -⟩ := pushJoin_ready site S c cs.head? hready
      obtain ⟨rfl, rfl⟩ : p₁ = s.tr.length ∧ s₁ = s₁' := Prod.mk.inj (Option.some.inj (hpush.symm.trans hpush'))
      obtain ⟨hg, hval, hlink₁, hL₁, hlen₁, n, hn, ht⟩ :=
        pushJoin_eval hready hL hpar (his i (List.mem_cons_self ..)) hk hv hw hlink hpush
      have hclosed := hready.forest.closed
      obtain ⟨hg₂, hval₂, hlink₂, hlen₂, htop⟩ := ih hready₁ (by omega) (.inl hL₁)
        (fun j hj => (his j (List.mem_cons_of_mem i hj)).grown hg) (by omega) hval
        (hvs.imp fun _ _ h' => h'.grown (combSemantics_ignoresLinks db) hg hclosed) hlink₁ (by simpa using hlen) h
      refine ⟨hg.trans hg₂, ?_, hlink₂, ?_, fun _ => ?_⟩
      · have hsum : k + 1 + cs.length = k + (c :: cs).length := by rw [List.length_cons]; omega
        rw [← hsum]
        exact hval₂
      · rw [hlen₂, hlen₁, List.length_cons]
        omega
      · by_cases hcs : cs = []
        · subst hcs
          obtain rfl := List.length_eq_zero_iff.mp (by simpa using hlen.symm : is.length = 0)
          cases h
          exact ⟨hL₁, n, hn, ht⟩
        · exact htop hcs

end

end EasyDDB.Optimizer
