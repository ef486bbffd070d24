import EasyDDB.Optimizer.JoinTree

/-! # Where the nodes come from

Apart from parents, the node vector only grows while the join subtrees are built: a Union node is complete when its
operand is, and no other node is changed. Every node is therefore one of four things for good: a node of the scan, a
copy of one, a Union node over fragments of one table, or a Join node of the chain of a pattern. -/
namespace EasyDDB.Optimizer
open Arena
set_option autoImplicit false

/-! ## Contents of the vector -/

/-- The nodes without their parents. -/
def contents (tr : List TreeNode) : List TreeNode := tr.map fun n => n.under (-1)

theorem contents_length (tr : List TreeNode) : (contents tr).length = tr.length := List.length_map ..

theorem contents_append (tr l : List TreeNode) : contents (tr ++ l) = contents tr ++ contents l := List.map_append

theorem contents_getElem? (tr : List TreeNode) (i : Nat) : (contents tr)[i]? = (tr[i]?).map fun n => n.under (-1) :=
  List.getElem?_map ..

theorem output_under (n : TreeNode) (par : Int) : (n.under par).output = n.output := rfl

theorem contents_setParent (tr : List TreeNode) (i par : Nat) : contents (setParent tr i par) = contents tr := by
  refine List.ext_getElem? fun j => ?_
  rw [contents_getElem?, contents_getElem?, setParent_getElem?, Option.map_map]
  congr 1
  funext n
  by_cases h : i = j <;> simp [h, TreeNode.under]

theorem contents_withTop (tr : List TreeNode) (node : TreeNode) (l r : Nat) :
    contents (withTop tr node l r) = contents tr ++ [node.under (-1)] := by
  rw [withTop, contents_setParent, contents_setParent, contents_append]
  rfl

theorem contents_withChild (tr : List TreeNode) (par i : Nat) (attr : List String) :
    contents (withChild tr par i attr) =
      (contents tr).modify par fun n => { n with child := n.child ++ [i], attr := attr } := by
  rw [withChild, contents_setParent]
  refine List.ext_getElem? fun j => ?_
  rw [contents_getElem?, List.getElem?_modify, List.getElem?_modify, contents_getElem?]
  cases tr[j]? with
  | none => rfl
  | some n => by_cases h : par = j <;> simp [h, TreeNode.under]

theorem prefix_getElem? {C C' : List TreeNode} (h : C <+: C') {i : Nat} {n : TreeNode} (hn : C[i]? = some n) :
    C'[i]? = some n := by
  obtain ⟨l, rfl⟩ := h
  rw [List.getElem?_append_left (List.getElem?_eq_some_iff.mp hn).1, hn]

/-! ## The kinds of nodes -/

/-- A node that stands for the fragment `x`: the one the scan recorded, or a copy of it. The fragments that may be asked
for are those with `ok`. -/
def NodeFor (sc : Scan) (ok : FragName → Prop) (C : List TreeNode) (x : FragName) (i : Nat) : Prop :=
  ok x ∧ ∃ n, (contents sc.tr)[sc.mpTr x]? = some n ∧
    ((i = sc.mpTr x ∧ C[i]? = some n) ∨ C[i]? = some { n with child := [] })

/-- A Union node over the nodes `child`. -/
def unionNode (site : Int) (child : List Nat) (attr : List String) : TreeNode :=
  { type := .union, site := site, child := child, attr := attr }

/-- The operand of one table in a pattern. A Union node delivers the columns of its last child. -/
inductive OperandFor (sc : Scan) (ok : FragName → Prop) (C : List TreeNode) (rel : String) : List Int → Nat → Prop
  | node {num : Int} {i : Nat} (h : NodeFor sc ok C ⟨rel, num⟩ i) : OperandFor sc ok C rel [num] i
  | union {nums : List Int} {i : Nat} {site : Int} {child : List Nat} {attr : List String} (hnums : ∀ num, nums ≠ [num])
      (hne : nums ≠ []) (hnode : C[i]? = some (unionNode site child attr))
      (hchild : List.Forall₂ (fun j num => NodeFor sc ok C ⟨rel, num⟩ j) child nums)
      (hattr : ∀ j, child.getLast? = some j → ∃ n, C[j]? = some n ∧ attr = n.output) : OperandFor sc ok C rel nums i

/-- The Join node over the nodes `x` and `y` with the indices `l` and `r`. -/
def joinNode (site : Int) (S : List String) (c : JoinCell) (next : Option JoinCell) (l r : Nat) (x y : TreeNode) :
    TreeNode :=
  { type := .join, site := site, join := c, child := [l, r], attr := getAttr x y
    projection := joinProjection S (getAttr x y) c next }

/-- The node that joins the first `k + 1` operands of a pattern. -/
inductive ChainFor (sc : Scan) (ok : FragName → Prop) (C : List TreeNode) (S : List String) (J : List JoinCell)
    (plist : Pattern) :
    Nat → Nat → Prop
  | start {rel : String} {nums : List Int} {i : Nat} (hrel : (relation J)[0]? = some rel) (hnums : plist[0]? = some nums)
      (h : OperandFor sc ok C rel nums i) : ChainFor sc ok C S J plist 0 i
  | step {k l r i : Nat} {rel : String} {nums : List Int} {c : JoinCell} {x y : TreeNode} {site : Int}
      (hl : ChainFor sc ok C S J plist k l) (hrel : (relation J)[k + 1]? = some rel) (hnums : plist[k + 1]? = some nums)
      (hr : OperandFor sc ok C rel nums r) (hc : J[k]? = some c) (hx : C[l]? = some x) (hy : C[r]? = some y)
      (hnode : C[i]? = some (joinNode site S c J[k + 1]? l r x y)) : ChainFor sc ok C S J plist (k + 1) i

/-- What a node of the vector can be. A copy is made of a fragment that is asked for again; a Join node of a chain joins
all tables or is joined with the next one. -/
inductive Origin (sc : Scan) (ok : FragName → Prop) (C : List TreeNode) (S : List String) (J : List JoinCell)
    (again : FragName → Prop) :
    Nat → Prop
  | scanned {i : Nat} (h : i < sc.tr.length) : Origin sc ok C S J again i
  | copied {x : FragName} {n : TreeNode} {i : Nat} (hx : again x) (hk : ok x) (hn : (contents sc.tr)[sc.mpTr x]? = some n)
      (hnode : C[i]? = some { n with child := [] }) : Origin sc ok C S J again i
  | union {rel : String} {nums : List Int} {i : Nat} (hrel : rel ∈ relation J) (hnums : ∀ num, nums ≠ [num])
      (h : OperandFor sc ok C rel nums i) : Origin sc ok C S J again i
  | join {plist : Pattern} {k i : Nat} (h : ChainFor sc ok C S J plist (k + 1) i)
      (hnext : k + 1 = J.length ∨ ∃ (j : Nat) (m : TreeNode), C[j]? = some m ∧ i ∈ m.child) :
      Origin sc ok C S J again i

section
variable {sc : Scan} {ok : FragName → Prop} {C C' : List TreeNode} {S : List String} {J : List JoinCell}

theorem NodeFor.mono (h : C <+: C') {x : FragName} {i : Nat} (hx : NodeFor sc ok C x i) : NodeFor sc ok C' x i := by
  obtain ⟨hk, n, hn, ⟨rfl, hi⟩ | hi⟩ := hx
  · exact ⟨hk, n, hn, .inl ⟨rfl, prefix_getElem? h hi⟩⟩
  · exact ⟨hk, n, hn, .inr (prefix_getElem? h hi)⟩

theorem OperandFor.mono (h : C <+: C') {rel : String} {nums : List Int} {i : Nat} (hop : OperandFor sc ok C rel nums i) :
    OperandFor sc ok C' rel nums i := by
  cases hop with
  | node hx => exact .node (hx.mono h)
  | union hnums hne hnode hchild hattr =>
    refine .union hnums hne (prefix_getElem? h hnode) (hchild.imp fun _ _ hx => hx.mono h) ?_
    intro j hj
    obtain ⟨n, hn, ha⟩ := hattr j hj
    exact ⟨n, prefix_getElem? h hn, ha⟩

theorem ChainFor.mono (h : C <+: C') {plist : Pattern} {k i : Nat} (hch : ChainFor sc ok C S J plist k i) :
    ChainFor sc ok C' S J plist k i := by
  induction hch with
  | start hrel hnums hop => exact .start hrel hnums (hop.mono h)
  | step _ hrel hnums hr hc hx hy hnode ih =>
    exact .step ih hrel hnums (hr.mono h) hc (prefix_getElem? h hx) (prefix_getElem? h hy) (prefix_getElem? h hnode)

theorem Origin.mono (h : C <+: C') {again again' : FragName → Prop} (hag : ∀ x, again x → again' x) {i : Nat}
    (ho : Origin sc ok C S J again i) : Origin sc ok C' S J again' i := by
  cases ho with
  | scanned hi => exact .scanned hi
  | copied hx hk hn hnode => exact .copied (hag _ hx) hk hn (prefix_getElem? h hnode)
  | union hrel hnums hop => exact .union hrel hnums (hop.mono h)
  | join hch hnext =>
    refine .join (hch.mono h) (hnext.imp_right ?_)
    rintro ⟨j, m, hm, hi⟩
    exact ⟨j, m, prefix_getElem? h hm, hi⟩

end

/-! ## The calls of `get_treeNode` -/

/-- The state in which the loop that fills a Union node starts. -/
def openUnion (site : Int) (s : Build) : Build := { s with tr := s.tr ++ [{ type := .union, site := site }] }

section
variable (site : Int) (mpTr : FragName → Nat)

/-- The operand of `rel` in state `s` asks for the fragment `x` in state `c`. -/
def OperandCall (rel : String) (nums : List Int) (s : Build) (x : FragName) (c : Build) : Prop :=
  (∃ num, nums = [num] ∧ x = ⟨rel, num⟩ ∧ c = s) ∨
    ((∀ num, nums ≠ [num]) ∧ ∃ num, x = ⟨rel, num⟩ ∧
      Loops.Visits (addChild mpTr rel s.tr.length) nums (openUnion site s) num c)

/-- The operands of a pattern ask for `x` in state `c`. -/
inductive OperandsCall : List String → Pattern → Build → FragName → Build → Prop
  | here {rel : String} {rels : List String} {nums : List Int} {plist : Pattern} {s c : Build} {x : FragName}
      (h : OperandCall site mpTr rel nums s x c) : OperandsCall (rel :: rels) (nums :: plist) s x c
  | later {rel : String} {rels : List String} {nums : List Int} {plist : Pattern} {s s' c : Build} {x : FragName}
      {i : Nat} (hop : operand site mpTr rel nums s = some (i, s')) (h : OperandsCall rels plist s' x c) :
      OperandsCall (rel :: rels) (nums :: plist) s x c

end

/-- The subtrees of one site ask for `x` in state `c`. -/
def SiteCall (mpTr : FragName → Nat) (S : List String) (J : List JoinCell) (JoinSite : Int → List (List FragName))
    (s : Build) (site : Int) (x : FragName) (c : Build) : Prop :=
  JoinSite site ≠ [] ∧ ∃ res plist d, getPattern (JoinSite site) (J.length + 1) = some res ∧
    Loops.Visits (buildPattern site mpTr S J) res s plist d ∧ OperandsCall site mpTr (relation J) plist d x c

/-- The construction of the join subtrees calls `get_treeNode` for `x` in state `c`. -/
def TreeNodeCall (p : JoinPlan) (x : FragName) (c : Build) : Prop :=
  ∃ site d, Loops.Visits (buildSite p.scan.mpTr p.query.selectAttr p.join p.joinSite) [1, 2, 3, 4]
    ⟨p.scan.tr, fun _ => false⟩ site d ∧ SiteCall p.scan.mpTr p.query.selectAttr p.join p.joinSite d site x c

/-! ## Growth -/

/-- The vector has grown from `s` to `s'`: new nodes are of the four kinds, and every call for a fragment that was used
before has left a copy. -/
structure Grows (sc : Scan) (ok : FragName → Prop) (S : List String) (J : List JoinCell)
    (call : FragName → Build → Prop) (s s' : Build) : Prop where
  kept : contents s.tr <+: contents s'.tr
  origin : ∀ i, s.tr.length ≤ i → i < s'.tr.length →
    Origin sc ok (contents s'.tr) S J (fun x => ∃ c, call x c ∧ c.cpTr x = true) i
  calls : ∀ x c, call x c → ok x ∧ contents sc.tr <+: contents c.tr ∧
    (c.cpTr x = true → ∀ n, (contents sc.tr)[sc.mpTr x]? = some n → { n with child := [] } ∈ contents s'.tr)

section
variable {sc : Scan} {ok : FragName → Prop} {S : List String} {J : List JoinCell}
  {call call' : FragName → Build → Prop} {s s' s'' : Build}

theorem Grows.refl (hcall : ∀ x c, ¬ call x c) : Grows sc ok S J call s s where
  kept := List.prefix_refl _
  origin := fun i h h' => absurd h' (by omega)
  calls := fun x c h => absurd h (hcall x c)

/-- Where a node comes from, if the vector has grown from the scanned one. -/
theorem Grows.origin_of_scan (h : Grows sc ok S J call s s') (hs : s.tr = sc.tr) {i : Nat} {m : TreeNode}
    (hi : (contents s'.tr)[i]? = some m) :
    Origin sc ok (contents s'.tr) S J (fun x => ∃ c, call x c ∧ c.cpTr x = true) i := by
  by_cases hlt : i < sc.tr.length
  · exact .scanned hlt
  · have hi' := (List.getElem?_eq_some_iff.mp hi).1
    rw [contents_length] at hi'
    exact h.origin i (hs ▸ Nat.le_of_not_lt hlt) hi'

theorem Grows.trans (h : Grows sc ok S J call s s') (h' : Grows sc ok S J call' s' s'') :
    Grows sc ok S J (fun x c => call x c ∨ call' x c) s s'' where
  kept := h.kept.trans h'.kept
  origin := by
    intro i hi hi'
    by_cases hlt : i < s'.tr.length
    · exact (h.origin i hi hlt).mono h'.kept fun x hx => hx.imp fun c hc => ⟨.inl hc.1, hc.2⟩
    · exact (h'.origin i (by omega) hi').mono (List.prefix_refl _) fun x hx => hx.imp fun c hc => ⟨.inr hc.1, hc.2⟩
  calls := by
    rintro x c (hc | hc)
    · obtain ⟨hk, hbase, hcopy⟩ := h.calls x c hc
      exact ⟨hk, hbase, fun hcp n hn => h'.kept.subset (hcopy hcp n hn)⟩
    · exact h'.calls x c hc

theorem Grows.congr (h : Grows sc ok S J call s s') (hiff : ∀ x c, call x c ↔ call' x c) : Grows sc ok S J call' s s' := by
  have heq : call = call' := by
    funext x c
    exact propext (hiff x c)
  exact heq ▸ h

/-- A loop whose steps grow the vector: the calls of its steps, and what every step has established. -/
theorem Grows.loop {α : Type} {f : Build → α → Option Build} {R : α → Build → FragName → Build → Prop}
    {Q : α → List TreeNode → Prop} (hQ : ∀ a C C', C <+: C' → Q a C → Q a C') {l : List α}
    (hbase : contents sc.tr <+: contents s.tr)
    (hstep : ∀ a ∈ l, ∀ c c', contents sc.tr <+: contents c.tr → f c a = some c' →
      Grows sc ok S J (R a c) c c' ∧ Q a (contents c'.tr))
    (h : l.foldlM f s = some s') :
    Grows sc ok S J (fun x d => ∃ a e, Loops.Visits f l s a e ∧ R a e x d) s s' ∧ ∀ a ∈ l, Q a (contents s'.tr) := by
  refine Loops.invariant_visits (I := fun seen (c : Build) =>
    Grows sc ok S J (fun x d => ∃ a e, Loops.Visits f seen s a e ∧ R a e x d) s c ∧ ∀ a ∈ seen, Q a (contents c.tr))
    ?_ ⟨.refl fun x d hd => ?_, by simp⟩ h
  · rintro pre a post hsplit c c' hrun ⟨hc, hpre⟩ hf
    obtain ⟨hg, ha⟩ := hstep a (by rw [hsplit]; simp) c c' (hbase.trans hc.kept) hf
    refine ⟨(hc.trans hg).congr fun x d => ?_, fun a' ha' => ?_⟩
    · constructor
      · rintro (⟨a', e, hv, hd⟩ | hd)
        · exact ⟨a', e, Loops.visits_concat.mpr (.inl hv), hd⟩
        · exact ⟨a, c, Loops.visits_concat.mpr (.inr ⟨rfl, hrun⟩), hd⟩
      · rintro ⟨a', e, hv, hd⟩
        obtain hv | ⟨rfl, hrun'⟩ := Loops.visits_concat.mp hv
        · exact .inl ⟨a', e, hv, hd⟩
        · obtain rfl : c = e := Option.some.inj (hrun.symm.trans hrun')
          exact .inr hd
    · obtain ha' | ha' := List.mem_append.mp ha'
      · exact hQ a' _ _ hg.kept (hpre a' ha')
      · obtain rfl := List.mem_singleton.mp ha'
        exact ha
  · obtain ⟨a, e, hv, -⟩ := hd
    exact Loops.not_visits_nil hv

end

/-! ## One operand -/

section
variable {sc : Scan} {ok : FragName → Prop} (hvalid : ∀ x, ok x → sc.mpTr x < sc.tr.length)
include hvalid

theorem getTreeNode_contents {s s' : Build} {x : FragName} {i : Nat} (hbase : contents sc.tr <+: contents s.tr)
    (hx : ok x) (h : getTreeNode sc.mpTr x s = some (i, s')) :
    NodeFor sc ok (contents s'.tr) x i ∧ ∃ n, (contents sc.tr)[sc.mpTr x]? = some n ∧
      ((s.cpTr x = false ∧ contents s'.tr = contents s.tr) ∨
        (s.cpTr x = true ∧ contents s'.tr = contents s.tr ++ [{ n with child := [] }])) := by
  obtain ⟨n, hn⟩ : ∃ n, (contents sc.tr)[sc.mpTr x]? = some n :=
    ⟨_, List.getElem?_eq_getElem (by rw [contents_length]; exact hvalid x hx)⟩
  unfold getTreeNode at h
  split_ifs at h with hcp
  · simp only [Option.bind_eq_bind, Option.bind_eq_some_iff, Option.some.injEq, Prod.mk.injEq] at h
    obtain ⟨node, hnode, rfl, rfl⟩ := h
    have hsame : n = node.under (-1) := by
      have hat := prefix_getElem? hbase hn
      rw [contents_getElem?, hnode] at hat
      exact (Option.some.inj hat).symm
    have hpush : contents (s.tr ++ [{ node with child := [], parent := -1 }]) =
        contents s.tr ++ [{ n with child := [] }] := by
      rw [contents_append, hsame]
      rfl
    refine ⟨⟨hx, n, hn, .inr ?_⟩, n, hn, .inr ⟨hcp, hpush⟩⟩
    rw [hpush, ← contents_length s.tr, List.getElem?_concat_length]
  · rw [Option.some.injEq, Prod.mk.injEq] at h
    obtain ⟨rfl, rfl⟩ := h
    exact ⟨⟨hx, n, hn, .inl ⟨rfl, prefix_getElem? hbase hn⟩⟩, n, hn, .inl ⟨Bool.eq_false_iff.mpr hcp, rfl⟩⟩

variable (hplain : ∀ n ∈ sc.tr, n.type ≠ .union)
include hplain

omit hvalid in
theorem NodeFor.node {C : List TreeNode} {x : FragName} {i : Nat} (h : NodeFor sc ok C x i) :
    ∃ n, C[i]? = some n ∧ n.type ≠ .union := by
  have htype : ∀ n : TreeNode, (contents sc.tr)[sc.mpTr x]? = some n → n.type ≠ .union := by
    intro n hn
    rw [contents_getElem?, Option.map_eq_some_iff] at hn
    obtain ⟨m, hm, rfl⟩ := hn
    exact hplain m (List.mem_of_getElem? hm)
  obtain ⟨-, n, hn, ⟨-, hi⟩ | hi⟩ := h
  · exact ⟨n, hi, htype n hn⟩
  · exact ⟨_, hi, htype n hn⟩

omit hvalid hplain in
theorem getElem?_refill {C₀ L M : List TreeNode} {u v m : TreeNode} (hu : u.type = .union) {i : Nat}
    (hi : (C₀ ++ u :: L)[i]? = some m) (hm : m.type ≠ .union) : (C₀ ++ v :: (L ++ M))[i]? = some m := by
  by_cases hlt : i < C₀.length
  · rw [List.getElem?_append_left hlt] at hi ⊢
    exact hi
  · rw [List.getElem?_append_right (by omega)] at hi ⊢
    cases hk : i - C₀.length with
    | zero =>
      rw [hk] at hi
      cases hi
      exact absurd hu hm
    | succ k =>
      rw [hk, List.getElem?_cons_succ] at hi
      rw [List.getElem?_cons_succ, List.getElem?_append_left (List.getElem?_eq_some_iff.mp hi).1, hi]

omit hvalid in
theorem NodeFor.refill {C₀ L : List TreeNode} {u : TreeNode} (hu : u.type = .union) {x : FragName} {i : Nat}
    (h : NodeFor sc ok (C₀ ++ u :: L) x i) (u' : TreeNode) (L' : List TreeNode) :
    NodeFor sc ok (C₀ ++ u' :: (L ++ L')) x i := by
  obtain ⟨m, hm, hmt⟩ := h.node hplain
  have hat := getElem?_refill (v := u') (M := L') hu hm hmt
  obtain ⟨hk, n, hn, ⟨rfl, hi⟩ | hi⟩ := h
  · obtain rfl : m = n := Option.some.inj (hm.symm.trans hi)
    exact ⟨hk, m, hn, .inl ⟨rfl, hat⟩⟩
  · obtain rfl : m = { n with child := [] } := Option.some.inj (hm.symm.trans hi)
    exact ⟨hk, n, hn, .inr hat⟩

end

/-- A Union node over the fragments seen so far, with the copies made for it behind it. -/
structure FillsUnion (sc : Scan) (ok : FragName → Prop) (rel : String) (site : Int) (s : Build) (seen : List Int) (c : Build)
    (idxs : List Nat) (columns : List String) (copies : List TreeNode) : Prop where
  shape : contents c.tr = contents s.tr ++ unionNode site idxs columns :: copies
  child : List.Forall₂ (fun j num => NodeFor sc ok (contents c.tr) ⟨rel, num⟩ j) idxs seen
  attr : ∀ j, idxs.getLast? = some j → ∃ n, (contents c.tr)[j]? = some n ∧ columns = n.output
  copied : ∀ m ∈ copies, ∃ num d n, Loops.Visits (addChild sc.mpTr rel s.tr.length) seen (openUnion site s) num d ∧
    d.cpTr ⟨rel, num⟩ = true ∧ ok ⟨rel, num⟩ ∧ (contents sc.tr)[sc.mpTr ⟨rel, num⟩]? = some n ∧
    m = { n with child := [] }
  visited : ∀ num d, Loops.Visits (addChild sc.mpTr rel s.tr.length) seen (openUnion site s) num d →
    contents sc.tr <+: contents d.tr ∧ (d.cpTr ⟨rel, num⟩ = true →
      ∀ n, (contents sc.tr)[sc.mpTr ⟨rel, num⟩]? = some n → { n with child := [] } ∈ copies)

section
variable {sc : Scan} {ok : FragName → Prop} (hvalid : ∀ x, ok x → sc.mpTr x < sc.tr.length)
  (hplain : ∀ n ∈ sc.tr, n.type ≠ .union) {rel : String} {site : Int}
include hvalid hplain

theorem addChild_fills {s c c' : Build} {seen : List Int} {num : Int} {idxs : List Nat} {columns : List String}
    {copies : List TreeNode} (hbase : contents sc.tr <+: contents s.tr) (hx : ok ⟨rel, num⟩)
    (hrun : seen.foldlM (addChild sc.mpTr rel s.tr.length) (openUnion site s) = some c)
    (hc : FillsUnion sc ok rel site s seen c idxs columns copies)
    (h : addChild sc.mpTr rel s.tr.length c num = some c') :
    ∃ idxs' columns' copies', FillsUnion sc ok rel site s (seen ++ [num]) c' idxs' columns' copies' := by
  obtain ⟨i, s₁, node, hget, hnode, rfl⟩ := addChild_inv h
  have hbasec : contents sc.tr <+: contents c.tr := by
    rw [hc.shape]
    exact hbase.trans (List.prefix_append _ _)
  obtain ⟨hi, n, hn, hcase⟩ := getTreeNode_contents hvalid hbasec hx hget
  obtain ⟨new, hnew, hnewmem⟩ : ∃ new, contents s₁.tr = contents c.tr ++ new ∧
      ((c.cpTr ⟨rel, num⟩ = false ∧ new = []) ∨ (c.cpTr ⟨rel, num⟩ = true ∧ new = [{ n with child := [] }])) := by
    obtain ⟨hcp, heq⟩ | ⟨hcp, heq⟩ := hcase
    · exact ⟨[], by rw [heq, List.append_nil], .inl ⟨hcp, rfl⟩⟩
    · exact ⟨_, heq, .inr ⟨hcp, rfl⟩⟩
  have hs₁ : contents s₁.tr = contents s.tr ++ unionNode site idxs columns :: (copies ++ new) := by
    rw [hnew, hc.shape, List.append_assoc, List.cons_append]
  have hshape : contents (withChild s₁.tr s.tr.length i node.output) =
      contents s.tr ++ unionNode site (idxs ++ [i]) node.output :: (copies ++ new) := by
    rw [contents_withChild, hs₁, ← contents_length s.tr, List.modify_eq_take_drop, List.take_left, List.drop_left]
    rfl
  have hmove : ∀ {x : FragName} {j : Nat}, NodeFor sc ok (contents s₁.tr) x j →
      NodeFor sc ok (contents (withChild s₁.tr s.tr.length i node.output)) x j := by
    intro x j hj
    rw [hs₁] at hj
    have := hj.refill hplain rfl (unionNode site (idxs ++ [i]) node.output) []
    rwa [List.append_nil, ← hshape] at this
  refine ⟨idxs ++ [i], node.output, copies ++ new, ⟨hshape, ?_, ?_, ?_, ?_⟩⟩
  · refine List.rel_append (hc.child.imp fun j m hj => hmove ?_) (.cons (hmove hi) .nil)
    exact hj.mono (by rw [hnew]; exact List.prefix_append _ _)
  · intro j hj
    rw [List.getLast?_concat, Option.some.injEq] at hj
    subst hj
    obtain ⟨m, hm, hmt⟩ := hi.node hplain
    have hmn : m = node.under (-1) := by
      rw [contents_getElem?, hnode] at hm
      exact (Option.some.inj hm).symm
    refine ⟨m, ?_, by rw [hmn, output_under]⟩
    rw [hs₁] at hm
    have := getElem?_refill (v := unionNode site (idxs ++ [i]) node.output) (M := []) rfl hm hmt
    rwa [List.append_nil, ← hshape] at this
  · intro m hm
    obtain hm | hm := List.mem_append.mp hm
    · obtain ⟨num', d, n', hv, hrest⟩ := hc.copied m hm
      exact ⟨num', d, n', Loops.visits_concat.mpr (.inl hv), hrest⟩
    · obtain ⟨-, rfl⟩ | ⟨hcp, rfl⟩ := hnewmem
      · cases hm
      · exact ⟨num, c, n, Loops.visits_concat.mpr (.inr ⟨rfl, hrun⟩), hcp, hx, hn, List.mem_singleton.mp hm⟩
  · intro num' d hv
    obtain hv | ⟨rfl, hd⟩ := Loops.visits_concat.mp hv
    · obtain ⟨hb, hcopy⟩ := hc.visited num' d hv
      exact ⟨hb, fun hcp n' hn' => List.mem_append_left _ (hcopy hcp n' hn')⟩
    · obtain rfl : c = d := Option.some.inj (hrun.symm.trans hd)
      refine ⟨hbasec, fun hcp n' hn' => List.mem_append_right _ ?_⟩
      obtain rfl : n = n' := Option.some.inj (hn.symm.trans hn')
      obtain ⟨hcp', -⟩ | ⟨-, rfl⟩ := hnewmem
      · rw [hcp] at hcp'
        cases hcp'
      · exact List.mem_singleton_self _

/-- **One operand**: the vector grows, and the operand is what its fragments ask for. -/
theorem operand_grows (S : List String) {J : List JoinCell} (hrel : rel ∈ relation J) {nums : List Int}
    (hne : nums ≠ []) (hx : ∀ num ∈ nums, ok ⟨rel, num⟩) {s s' : Build} {i : Nat}
    (hbase : contents sc.tr <+: contents s.tr) (h : operand site sc.mpTr rel nums s = some (i, s')) :
    Grows sc ok S J (OperandCall site sc.mpTr rel nums s) s s' ∧ OperandFor sc ok (contents s'.tr) rel nums i := by
  unfold operand at h
  split at h
  · rename_i num
    have hk := hx num (List.mem_singleton_self num)
    obtain ⟨hi, n, hn, hcase⟩ := getTreeNode_contents hvalid hbase hk h
    have hcall : ∀ x c, OperandCall site sc.mpTr rel [num] s x c ↔ x = ⟨rel, num⟩ ∧ c = s := by
      intro x c
      constructor
      · rintro (⟨num', heq, rfl, rfl⟩ | ⟨hnone, -⟩)
        · rw [List.singleton_inj.mp heq]
          exact ⟨rfl, rfl⟩
        · exact absurd rfl (hnone num)
      · rintro ⟨rfl, rfl⟩
        exact .inl ⟨num, rfl, rfl, rfl⟩
    refine ⟨⟨?_, ?_, ?_⟩, .node hi⟩
    · obtain ⟨-, heq⟩ | ⟨-, heq⟩ := hcase
      · rw [heq]
      · rw [heq]
        exact List.prefix_append _ _
    · intro j hj hj'
      rw [← contents_length] at hj hj'
      obtain ⟨-, heq⟩ | ⟨hcp, heq⟩ := hcase
      · rw [heq] at hj'
        omega
      · have hjeq : j = (contents s.tr).length := by
          rw [heq, List.length_append, List.length_singleton] at hj'
          omega
        refine .copied (x := ⟨rel, num⟩) ⟨s, (hcall _ _).mpr ⟨rfl, rfl⟩, hcp⟩ hk hn ?_
        rw [heq, hjeq, List.getElem?_concat_length]
    · intro x c hc
      obtain ⟨rfl, rfl⟩ := (hcall x c).mp hc
      refine ⟨hk, hbase, fun hcp m hm => ?_⟩
      obtain rfl : n = m := Option.some.inj (hn.symm.trans hm)
      obtain ⟨hcp', -⟩ | ⟨-, heq⟩ := hcase
      · rw [hcp] at hcp'
        cases hcp'
      · rw [heq]
        exact List.mem_append_right _ (List.mem_singleton_self _)
  · rename_i hmany
    have hmany' : ∀ num, nums ≠ [num] := fun num heq => hmany num heq
    simp only [Option.bind_eq_bind, Option.bind_eq_some_iff, Option.some.injEq, Prod.mk.injEq] at h
    obtain ⟨c, hloop, rfl, rfl⟩ := h
    have hinit : FillsUnion sc ok rel site s [] (openUnion site s) [] [] [] := by
      refine ⟨contents_append .., .nil, by simp, by simp, ?_⟩
      intro num d hv
      exact absurd hv Loops.not_visits_nil
    obtain ⟨idxs, columns, copies, hfill⟩ := Loops.invariant_visits
      (I := fun seen (c : Build) => ∃ idxs columns copies, FillsUnion sc ok rel site s seen c idxs columns copies)
      (fun pre num post hsplit d d' hrun hd hstep => by
        obtain ⟨idxs, columns, copies, hd⟩ := hd
        exact addChild_fills hvalid hplain hbase (hx num (by rw [hsplit]; simp)) hrun hd hstep)
      ⟨[], [], [], hinit⟩ hloop
    have hat : (contents c.tr)[s.tr.length]? = some (unionNode site idxs columns) := by
      rw [hfill.shape, ← contents_length s.tr, List.getElem?_append_right le_rfl, Nat.sub_self]
      rfl
    have hop : OperandFor sc ok (contents c.tr) rel nums s.tr.length := .union hmany' hne hat hfill.child hfill.attr
    have hcall : ∀ x d, OperandCall site sc.mpTr rel nums s x d ↔ ∃ num, x = ⟨rel, num⟩ ∧
        Loops.Visits (addChild sc.mpTr rel s.tr.length) nums (openUnion site s) num d := by
      intro x d
      constructor
      · rintro (⟨num, heq, -⟩ | ⟨-, hv⟩)
        · exact absurd heq (hmany' num)
        · exact hv
      · exact fun hv => .inr ⟨hmany', hv⟩
    refine ⟨⟨?_, ?_, ?_⟩, hop⟩
    · rw [hfill.shape]
      exact List.prefix_append _ _
    · intro j hj hj'
      obtain rfl | hlt := Nat.eq_or_lt_of_le hj
      · exact .union hrel hmany' hop
      · obtain ⟨k, rfl⟩ : ∃ k, j = (contents s.tr).length + (k + 1) :=
          ⟨j - s.tr.length - 1, by rw [contents_length]; omega⟩
        have hget : (contents c.tr)[(contents s.tr).length + (k + 1)]? = copies[k]? := by
          rw [hfill.shape, List.getElem?_append_right (by omega), Nat.add_sub_cancel_left, List.getElem?_cons_succ]
        obtain ⟨m, hm⟩ : ∃ m, (contents c.tr)[(contents s.tr).length + (k + 1)]? = some m :=
          ⟨_, List.getElem?_eq_getElem (by rw [contents_length c.tr]; exact hj')⟩
        obtain ⟨num, d, n, hv, hcp, hk, hn, rfl⟩ := hfill.copied m (List.mem_of_getElem? (hget ▸ hm))
        exact .copied (x := ⟨rel, num⟩) ⟨d, (hcall _ _).mpr ⟨num, rfl, hv⟩, hcp⟩ hk hn hm
    · intro x d hc
      obtain ⟨num, rfl, hv⟩ := (hcall x d).mp hc
      obtain ⟨hb, hcopy⟩ := hfill.visited num d hv
      have hmem : num ∈ nums := by
        obtain ⟨pre, post, rfl, -⟩ := hv
        simp
      refine ⟨hx num hmem, hb, fun hcp n hn => ?_⟩
      rw [hfill.shape]
      exact List.mem_append_right _ (List.mem_cons_of_mem _ (hcopy hcp n hn))

/-! ## One pattern -/

theorem operands_grows (S : List String) {J : List JoinCell} {rels : List String} {plist : Pattern}
    (hx : List.Forall₂ (fun rel nums => rel ∈ relation J ∧ nums ≠ [] ∧ ∀ num ∈ nums, ok ⟨rel, num⟩) rels plist)
    {s s' : Build} {is : List Nat} (hbase : contents sc.tr <+: contents s.tr)
    (h : operands site sc.mpTr rels plist s = some (is, s')) :
    Grows sc ok S J (OperandsCall site sc.mpTr rels plist s) s s' ∧
      List.Forall₂ (fun i rn => OperandFor sc ok (contents s'.tr) rn.1 rn.2 i) is (rels.zip plist) := by
  induction hx generalizing s is with
  | nil =>
    cases h
    exact ⟨.refl fun x c hc => (by cases hc), .nil⟩
  | @cons rel nums rels plist hnums _ ih =>
    simp only [operands, Option.bind_eq_bind, Option.bind_eq_some_iff] at h
    obtain ⟨⟨i, s₁⟩, hop, ⟨is, s₂⟩, hops, heq⟩ := h
    cases heq
    obtain ⟨hg₁, hi⟩ := operand_grows hvalid hplain S hnums.1 hnums.2.1 hnums.2.2 hbase hop
    obtain ⟨hg₂, his⟩ := ih (hbase.trans hg₁.kept) hops
    refine ⟨(hg₁.trans hg₂).congr fun x c => ?_, .cons (hi.mono hg₂.kept) his⟩
    constructor
    · rintro (hc | hc)
      · exact .here hc
      · exact .later hop hc
    · intro hc
      cases hc with
      | here hc => exact .inl hc
      | later hop' hc =>
        rw [hop] at hop'
        cases hop'
        exact .inr hc

omit hvalid hplain in
theorem pushJoin_contents {S : List String} {c : JoinCell} {next : Option JoinCell} {l r par : Nat} {s s' : Build}
    (h : pushJoin site S c next l r s = some (par, s')) :
    ∃ x y, (contents s.tr)[l]? = some x ∧ (contents s.tr)[r]? = some y ∧ par = s.tr.length ∧
      contents s'.tr = contents s.tr ++ [joinNode site S c next l r x y] := by
  simp only [pushJoin, Option.bind_eq_bind, Option.bind_eq_some_iff, Option.some.injEq, Prod.mk.injEq] at h
  obtain ⟨x, hx, y, hy, rfl, rfl⟩ := h
  refine ⟨x.under (-1), y.under (-1), ?_, ?_, rfl, contents_withTop ..⟩
  · rw [contents_getElem?, hx]
    rfl
  · rw [contents_getElem?, hy]
    rfl

omit hvalid hplain in
theorem joinChain_grows {S : List String} {J cs : List JoinCell} {plist : Pattern} {k par par' : Nat} {is : List Nat}
    {s s' : Build} (hcs : J.drop k = cs) (hpar : ChainFor sc ok (contents s.tr) S J plist k par)
    (his : List.Forall₂ (fun i rn => OperandFor sc ok (contents s.tr) rn.1 rn.2 i) is
      (((relation J).zip plist).drop (k + 1)))
    (hlen : cs.length = is.length) (h : joinChain site S cs is par s = some (par', s')) :
    Grows sc ok S J (fun _ _ => False) s s' ∧ ChainFor sc ok (contents s'.tr) S J plist (k + cs.length) par' ∧
      (cs = [] ∨ ∃ (j : Nat) (m : TreeNode), (contents s'.tr)[j]? = some m ∧ par ∈ m.child) := by
  induction cs generalizing k is par s with
  | nil =>
    obtain rfl := List.length_eq_zero_iff.mp hlen.symm
    cases h
    exact ⟨.refl fun _ _ => id, hpar, .inl rfl⟩
  | cons c cs ih =>
    cases is with
    | nil => cases hlen
    | cons i is =>
      simp only [joinChain, Option.bind_eq_bind, Option.bind_eq_some_iff] at h
      obtain ⟨⟨par₁, s₁⟩, hpush, h⟩ := h
      obtain ⟨x, y, hx, hy, rfl, hcont⟩ := pushJoin_contents hpush
      have hck : J[k]? = some c := by
        rw [← List.head?_drop, hcs]
        rfl
      have hdrop : J.drop (k + 1) = cs := by
        rw [← List.drop_drop, hcs]
        rfl
      have hnext : cs.head? = J[k + 1]? := by rw [← hdrop, List.head?_drop]
      have hkept : contents s.tr <+: contents s₁.tr := by
        rw [hcont]
        exact List.prefix_append _ _
      obtain ⟨⟨rel, nums⟩, rest, hop, hrest, hzip⟩ := List.forall₂_cons_left_iff.mp his
      have hat : ((relation J).zip plist)[k + 1]? = some (rel, nums) := by
        rw [← List.head?_drop, hzip]
        rfl
      obtain ⟨hrel, hnums⟩ := List.getElem?_zip_eq_some.mp hat
      have hnode : (contents s₁.tr)[s.tr.length]? = some (joinNode site S c J[k + 1]? par i x y) := by
        rw [hcont, hnext, ← contents_length s.tr, List.getElem?_concat_length]
      have hstep : ChainFor sc ok (contents s₁.tr) S J plist (k + 1) s.tr.length :=
        .step (hpar.mono hkept) hrel hnums (hop.mono hkept) hck (prefix_getElem? hkept hx) (prefix_getElem? hkept hy) hnode
      have hrest' : List.Forall₂ (fun i rn => OperandFor sc ok (contents s₁.tr) rn.1 rn.2 i) is
          (((relation J).zip plist).drop (k + 1 + 1)) := by
        rw [← List.drop_drop, hzip]
        exact hrest.imp fun _ _ ho => ho.mono hkept
      obtain ⟨hg₂, htop, hjoined⟩ := ih hdrop hstep hrest' (by simpa using hlen) h
      have hsum : k + 1 + cs.length = k + (c :: cs).length := by
        rw [List.length_cons]
        omega
      have hlenJ : J.length = k + 1 + cs.length := by
        rw [← hdrop, List.length_drop]
        have := (List.getElem?_eq_some_iff.mp hck).1
        omega
      refine ⟨⟨hkept.trans hg₂.kept, fun j hj hj' => ?_, fun _ _ => False.elim⟩, hsum ▸ htop, .inr ?_⟩
      · by_cases hlt : j < s₁.tr.length
        · have hjeq : j = s.tr.length := by
            rw [← contents_length, hcont, List.length_append, contents_length, List.length_singleton] at hlt
            omega
          rw [hjeq]
          refine .join (hstep.mono hg₂.kept) (hjoined.imp_left fun hnil => ?_)
          rw [hlenJ, hnil, List.length_nil]
        · exact (hg₂.origin j (Nat.le_of_not_lt hlt) hj').mono (List.prefix_refl _) fun _ => id
      · exact ⟨s.tr.length, _, prefix_getElem? hg₂.kept hnode, by simp [joinNode]⟩

/-- **One pattern**: its top, the last node, is the Join node of the whole chain. -/
theorem buildPattern_grows {S : List String} {J : List JoinCell} (hJ : J ≠ []) {plist : Pattern}
    (hx : List.Forall₂ (fun rel nums => nums ≠ [] ∧ ∀ num ∈ nums, ok ⟨rel, num⟩) (relation J) plist) {s s' : Build}
    (hbase : contents sc.tr <+: contents s.tr) (h : buildPattern site sc.mpTr S J s plist = some s') :
    Grows sc ok S J (OperandsCall site sc.mpTr (relation J) plist s) s s' ∧
      ChainFor sc ok (contents s'.tr) S J plist J.length (s'.tr.length - 1) := by
  simp only [buildPattern, Option.bind_eq_bind, Option.bind_eq_some_iff] at h
  obtain ⟨⟨is, s₁⟩, hops, h⟩ := h
  have hx' : List.Forall₂ (fun rel nums => rel ∈ relation J ∧ nums ≠ [] ∧ ∀ num ∈ nums, ok ⟨rel, num⟩)
      (relation J) plist := by
    refine List.forall₂_iff_get.mpr ⟨hx.length_eq, fun i h₁ h₂ => ⟨List.get_mem _ _, ?_⟩⟩
    exact (List.forall₂_iff_get.mp hx).2 i h₁ h₂
  obtain ⟨hg₁, his⟩ := operands_grows hvalid hplain S hx' hbase hops
  have hlen : is.length = J.length + 1 := by
    rw [his.length_eq, List.length_zip, ← hx.length_eq, Nat.min_self, length_relation hJ]
  cases is with
  | nil => cases h
  | cons i is =>
    simp only [Option.bind_eq_some_iff] at h
    obtain ⟨⟨top, s₂⟩, hchain, heq⟩ := h
    cases heq
    obtain ⟨⟨rel, nums⟩, rest, hop, hrest, hzip⟩ := List.forall₂_cons_left_iff.mp his
    have hat : ((relation J).zip plist)[0]? = some (rel, nums) := by
      rw [hzip]
      rfl
    obtain ⟨hrel, hnums⟩ := List.getElem?_zip_eq_some.mp hat
    have hrest' : List.Forall₂ (fun i rn => OperandFor sc ok (contents s₁.tr) rn.1 rn.2 i) is
        (((relation J).zip plist).drop (0 + 1)) := by
      rw [hzip]
      exact hrest
    have hlen' : J.length = is.length := by simpa using hlen.symm
    obtain ⟨hg₂, htop, -⟩ := joinChain_grows (k := 0) List.drop_zero (.start hrel hnums hop) hrest' hlen' hchain
    refine ⟨(hg₁.trans hg₂).congr fun _ _ => by rw [or_false], ?_⟩
    rwa [Nat.zero_add, joinChain_last hlen' hJ hchain] at htop

end

/-! ## The whole construction -/

/-- The nodes of a vertically fragmented table: Fragment nodes, and at most one Join node over several of them. -/
theorem VfShape.types {q : Query} {table : MetadataTable} {first frag : Fragment} {sz : Nat} {below : List TreeNode}
    {top : TreeNode} (h : VfShape q table first sz frag below top) :
    (∀ n ∈ below, n.type = .fragment) ∧ (top.type = .fragment ∨ (top.type = .join ∧ 2 ≤ top.child.length)) := by
  cases h with
  | key _ => exact ⟨by simp, .inl rfl⟩
  | one frag _ => exact ⟨by simp, .inl rfl⟩
  | several hlen =>
    refine ⟨?_, .inr ⟨rfl, ?_⟩⟩
    · intro n hn
      obtain ⟨m, hm, rfl⟩ := List.mem_map.mp hn
      obtain ⟨F, -, projection, rfl⟩ := vfOperands_node hm
      rfl
    · simpa [vfJoinNode, vfOperands] using hlen

/-- The scan makes Fragment nodes, and Join nodes over at least two nodes. -/
def ScanTypes (tr : List TreeNode) : Prop :=
  ∀ n ∈ tr, n.type = .fragment ∨ (n.type = .join ∧ 2 ≤ n.child.length)

theorem scanTables_types {q : Query} {Tables : List MetadataTable} {s : Scan} (h : scanTables q Tables = some s) :
    ScanTypes s.tr := by
  refine Loops.invariant (I := fun (c : Scan) => ScanTypes c.tr) ?_ (by intro n hn; cases hn) h
  intro table _ c c' hc hstep
  refine scanTable_invariant (fun c => ScanTypes c.tr) (fun c r hc => hc) ?_ ?_ hc hstep
  · intro c frag select r siteNums _ _ hc _ _ n hn
    obtain hn | hn := List.mem_append.mp hn
    · exact hc n hn
    · obtain rfl := List.mem_singleton.mp hn
      exact .inl rfl
  · intro c first frag below top r siteNums _ hc hshape _ n hn
    obtain ⟨hbelow, htop⟩ := hshape.types
    obtain hn | hn := List.mem_append.mp hn
    · exact hc n hn
    · obtain hn | hn := List.mem_append.mp hn
      · exact .inl (hbelow n hn)
      · obtain rfl := List.mem_singleton.mp hn
        exact htop

theorem ScanTypes.plain {tr : List TreeNode} (h : ScanTypes tr) : ∀ n ∈ tr, n.type ≠ .union := by
  intro n hn hu
  obtain ht | ⟨ht, -⟩ := h n hn
  · exact NodeType.noConfusion (hu.symm.trans ht)
  · exact NodeType.noConfusion (hu.symm.trans ht)

/-- The fragments the patterns of the four sites ask for are recorded ones. -/
structure Asks (p : JoinPlan) (ok : FragName → Prop) : Prop where
  valid : ∀ x, ok x → p.scan.mpTr x < p.scan.tr.length
  types : ScanTypes p.scan.tr
  patterns : ∀ site res, p.joinSite site ≠ [] → getPattern (p.joinSite site) (p.join.length + 1) = some res →
    p.join ≠ [] ∧ (res.flatMap List.sections).Perm ((p.joinSite site).map fun l => l.map FragName.num) ∧
      ∀ plist ∈ res, List.Forall₂ (fun rel nums => nums ≠ [] ∧ ∀ num ∈ nums, ok ⟨rel, num⟩) (relation p.join) plist

section
variable {p : JoinPlan} {ok : FragName → Prop} (hasks : Asks p ok)
include hasks

theorem buildSite_grows {s s' : Build} {site : Int} (hbase : contents p.scan.tr <+: contents s.tr)
    (h : buildSite p.scan.mpTr p.query.selectAttr p.join p.joinSite s site = some s') :
    Grows p.scan ok p.query.selectAttr p.join (SiteCall p.scan.mpTr p.query.selectAttr p.join p.joinSite s site) s s' ∧
      ∀ l ∈ p.joinSite site, ∃ plist top, l.map FragName.num ∈ List.sections plist ∧
        ChainFor p.scan ok (contents s'.tr) p.query.selectAttr p.join plist p.join.length top := by
  unfold buildSite at h
  split_ifs at h with hnil
  · cases h
    exact ⟨.refl fun x c hc => hc.1 hnil, by simp [hnil]⟩
  · simp only [Option.bind_eq_bind, Option.bind_eq_some_iff] at h
    obtain ⟨res, hres, h⟩ := h
    obtain ⟨hJ, hsec, hx⟩ := hasks.patterns site res hnil hres
    obtain ⟨hg, htops⟩ := Grows.loop (R := fun plist c => OperandsCall site p.scan.mpTr (relation p.join) plist c)
      (Q := fun plist C => ∃ top, ChainFor p.scan ok C p.query.selectAttr p.join plist p.join.length top)
      (fun plist C C' hC hQ => hQ.imp fun top ht => ht.mono hC) hbase
      (fun plist hplist c c' hc hstep =>
        (buildPattern_grows hasks.valid hasks.types.plain hJ (hx plist hplist) hc hstep).imp_right fun htop => ⟨_, htop⟩) h
    refine ⟨hg.congr fun x c => ?_, fun l hl => ?_⟩
    · constructor
      · rintro ⟨plist, d, hv, hc⟩
        exact ⟨hnil, res, plist, d, hres, hv, hc⟩
      · rintro ⟨-, res', plist, d, hres', hv, hc⟩
        obtain rfl : res = res' := Option.some.inj (hres.symm.trans hres')
        exact ⟨plist, d, hv, hc⟩
    · have hmem := hsec.mem_iff.mpr (List.mem_map_of_mem hl)
      obtain ⟨plist, hplist, hin⟩ := List.mem_flatMap.mp hmem
      obtain ⟨top, htop⟩ := htops plist hplist
      exact ⟨plist, top, hin, htop⟩

/-- **Every node has an origin**, every call finds the scanned nodes in place, and every join list of the four sites has
a chain of Join nodes. -/
theorem buildForest_grows {tr : List TreeNode} (h : buildForest p = some tr) :
    ∃ cp, Grows p.scan ok p.query.selectAttr p.join (TreeNodeCall p) ⟨p.scan.tr, fun _ => false⟩ ⟨tr, cp⟩ ∧
      ∀ site ∈ ([1, 2, 3, 4] : List Int), ∀ l ∈ p.joinSite site, ∃ plist top, l.map FragName.num ∈ List.sections plist ∧
        ChainFor p.scan ok (contents tr) p.query.selectAttr p.join plist p.join.length top := by
  obtain ⟨s, hs, rfl⟩ := Option.map_eq_some_iff.mp h
  exact ⟨s.cpTr, Grows.loop
    (R := fun site c => SiteCall p.scan.mpTr p.query.selectAttr p.join p.joinSite c site)
    (Q := fun site C => ∀ l ∈ p.joinSite site, ∃ plist top, l.map FragName.num ∈ List.sections plist ∧
      ChainFor p.scan ok C p.query.selectAttr p.join plist p.join.length top)
    (fun site C C' hC hQ l hl => (hQ l hl).imp fun plist hp => hp.imp fun top ht => ⟨ht.1, ht.2.mono hC⟩)
    (List.prefix_refl _) (fun site _ c c' hc hstep => buildSite_grows hasks hc hstep) hs⟩

end

theorem Planned.asks_kept {Tables : List MetadataTable} {q : Query} {p : JoinPlan} (hplan : Planned Tables q p)
    (hnamed : ∀ T ∈ Tables, ∀ F ∈ T.frags, F.fname.table = T.name) {ch : List JoinCell} (hpath : Path ch q.join) :
    Asks p (Kept p.scan) where
  valid := (scanTables_forest hplan.scan).ready.valid
  types := scanTables_types hplan.scan
  patterns := by
    intro site res hnil hres
    obtain ⟨hJ, res', hres', hsec, hkept⟩ := hplan.sitePatterns hnamed hpath hnil (getPattern_length hres)
    obtain rfl : res = res' := Option.some.inj (hres.symm.trans hres')
    refine ⟨hJ, hsec, fun plist hplist => ?_⟩
    obtain ⟨hfull, hk⟩ := hkept plist hplist
    exact List.forall₂_iff_get.mpr ⟨hk.length_eq, fun i h₁ h₂ =>
      ⟨hfull.2 _ (List.get_mem _ _), (List.forall₂_iff_get.mp hk).2 i h₁ h₂⟩⟩

/-- An unrecorded fragment has the index 0. -/
theorem scanTables_mpTr {q : Query} {Tables : List MetadataTable} {s : Scan} (h : scanTables q Tables = some s)
    (hne : s.tr ≠ []) (x : FragName) : s.mpTr x < s.tr.length := by
  have hinv : ∀ x, s.mpTr x < s.tr.length ∨ s.mpTr x = 0 := by
    refine Loops.invariant (I := fun (c : Scan) => ∀ x, c.mpTr x < c.tr.length ∨ c.mpTr x = 0) ?_ (fun _ => .inr rfl) h
    have hrec : ∀ (c : Scan) (below : List TreeNode) (top : TreeNode) (table : MetadataTable) (frag : Fragment)
        (r : List (String × Int)) (siteNums : List SiteNum), (∀ x, c.mpTr x < c.tr.length ∨ c.mpTr x = 0) →
        ∀ x, (c.record below top table frag r siteNums).mpTr x < (c.record below top table frag r siteNums).tr.length ∨
          (c.record below top table frag r siteNums).mpTr x = 0 := by
      intro c below top table frag r siteNums hc x
      simp only [Scan.record, List.length_append, List.length_singleton]
      by_cases hx : x = frag.fname
      · subst hx
        rw [Function.update_self]
        exact .inl (by omega)
      · rw [Function.update_of_ne hx]
        exact (hc x).imp_left fun hlt => by omega
    intro table _ c c' hc hstep
    exact scanTable_invariant (fun c => ∀ x, c.mpTr x < c.tr.length ∨ c.mpTr x = 0) (fun c r hc => hc)
      (fun c frag select r siteNums _ _ hc _ _ => hrec c [] _ table frag r siteNums hc)
      (fun c first frag below top r siteNums _ hc _ _ => hrec c below top table frag r siteNums hc) hc hstep
  obtain hlt | hzero := hinv x
  · exact hlt
  · rw [hzero]
    exact List.length_pos_of_ne_nil hne

theorem Planned.asks_valid {Tables : List MetadataTable} {q : Query} {p : JoinPlan} (hplan : Planned Tables q p) :
    Asks p fun x => p.scan.mpTr x < p.scan.tr.length where
  valid := fun _ hx => hx
  types := scanTables_types hplan.scan
  patterns := by
    intro site res hnil hres
    obtain ⟨l₀, hl₀⟩ := List.exists_mem_of_ne_nil _ hnil
    have hlists : ∀ l ∈ p.joinSite site, p.join ≠ [] ∧ l.length = p.join.length + 1 ∧ ∀ f ∈ l, Kept p.scan f := by
      intro l hl
      have hmem := hplan.mem_joinSite hl
      rw [hplan.joinList] at hmem
      cases hj : p.join with
      | nil =>
        rw [hj] at hmem
        cases hmem
      | cons c cs =>
        have hedges := hplan.edges
        rw [hj] at hmem hedges
        exact ⟨List.cons_ne_nil _ _, ((mem_joinLists hedges).mp hmem).1, kept_of_mem_joinLists hedges hmem⟩
    have hJ := (hlists l₀ hl₀).1
    obtain ⟨res', hres', hsec, hfull⟩ := getPattern_exact (fun l hl => (hlists l hl).2.1) (getPattern_length hres)
    obtain rfl : res = res' := Option.some.inj (hres.symm.trans hres')
    have hne : p.scan.tr ≠ [] := by
      obtain ⟨-, hlen, hkept⟩ := hlists l₀ hl₀
      obtain ⟨x, hx⟩ := List.exists_mem_of_ne_nil l₀ (by rintro rfl; cases hlen)
      have hlt := (scanTables_forest hplan.scan).ready.valid x (hkept x hx)
      exact List.ne_nil_of_length_pos (Nat.zero_lt_of_lt hlt)
    refine ⟨hJ, hsec, fun plist hplist => List.forall₂_iff_get.mpr ⟨?_, fun i h₁ h₂ => ⟨?_, fun num _ => ?_⟩⟩⟩
    · rw [length_relation hJ, (hfull plist hplist).1]
    · exact (hfull plist hplist).2 _ (List.get_mem _ _)
    · exact scanTables_mpTr hplan.scan hne _

/-! ## The final phase -/

/-- The columns of the nodes without a parent. -/
def rootAttr (tr : List TreeNode) : List String :=
  (parentless tr).foldl (fun attr i => sortUnique (attr ++ ((tr[i]?).map TreeNode.output).getD [])) []

/-- The Union node over several nodes without a parent. -/
def rootNode (site : Int) (S : List String) (tr : List TreeNode) : TreeNode :=
  { type := .union, site := site, child := parentless tr, attr := rootAttr tr
    projection := if (rootAttr tr).length ≠ S.length then S else [] }

theorem contents_setParents (is : List Nat) (par : Nat) (tr : List TreeNode) :
    contents (is.foldl (fun tr i => setParent tr i par) tr) = contents tr := by
  induction is generalizing tr with
  | nil => rfl
  | cons i is ih => rw [List.foldl_cons, ih, contents_setParent]

theorem contents_unionPhase (site : Int) (S : List String) (tr : List TreeNode) :
    contents (unionPhase site S tr).tr =
      contents tr ++ if 1 < (parentless tr).length then [rootNode site S tr] else [] := by
  by_cases h : 1 < (parentless tr).length
  · have htr : (unionPhase site S tr).tr =
        (parentless tr).foldl (fun tr' i => setParent tr' i tr.length) tr ++ [rootNode site S tr] := by
      unfold unionPhase
      rw [if_pos h]
      rfl
    rw [if_pos h, htr, contents_append, contents_setParents]
    rfl
  · rw [if_neg h, List.append_nil, unionPhase_of_le site S (Nat.le_of_not_lt h)]

end EasyDDB.Optimizer
