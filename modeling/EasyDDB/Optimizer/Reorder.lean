import EasyDDB.Lib.Pointwise
import EasyDDB.Optimizer.Conjuncts
import EasyDDB.Optimizer.Defined
import EasyDDB.Optimizer.Paths

/-! # Trees of reordered queries

Two queries that differ in the order of predicates and joins make the same fragments, sites and nodes, but
for the order of the selections, as long as the sorted join lists agree. -/
namespace EasyDDB.Optimizer
set_option autoImplicit false

/-! ## Selections under permuted predicates -/

/-- A step of `check_condition` started with more in `intersection` and `cnt`. -/
def Check.after (intersection : List Condition) (cnt : Nat) : Check → Check
  | .go i c => .go (intersection ++ i) (cnt + c)
  | stop => stop

theorem checkPair_after (x y : Condition) (inter : List Condition) (cnt : Nat) :
    checkPair x y inter cnt = (checkPair x y [] 0).after inter cnt := by
  unfold checkPair
  split_ifs
  · rfl
  · rfl
  · split
    · dsimp only
      split_ifs <;> simp [Check.after]
    · rfl

theorem checkInner_after (x : Condition) (H inter : List Condition) (cnt : Nat) :
    checkInner x H inter cnt = (checkInner x H [] 0).after inter cnt := by
  induction H generalizing inter cnt with
  | nil => simp [checkInner, Check.after]
  | cons y H ih =>
    unfold checkInner
    split_ifs
    · rw [checkPair_after]
      cases checkPair x y [] 0 with
      | undefined => rfl
      | contradiction => rfl
      | go i c =>
        simp only [Check.after]
        rw [ih, ih i c]
        cases checkInner x H [] 0 <;> simp [Check.after, Nat.add_assoc]
    · exact ih inter cnt

theorem checkPredicate_after (H : List Condition) (x : Condition) (inter : List Condition) (cnt : Nat) :
    checkPredicate H x inter cnt = (checkPredicate H x [] 0).after inter cnt := by
  unfold checkPredicate
  rw [checkInner_after]
  cases checkInner x H [] 0 with
  | undefined => rfl
  | contradiction => rfl
  | go i c =>
    simp only [Check.after]
    split_ifs
    · rfl
    · cases H.head? with
      | none => rfl
      | some y => by_cases ht : x.table = y.table <;> simp [ht]

/-- What one predicate adds when the loop goes on. -/
def Check.lists : Check → List Condition
  | .go i _ => i
  | _ => []
def Check.count : Check → Nat
  | .go _ c => c
  | _ => 0
def Check.goesOn : Check → Bool
  | .go .. => true
  | _ => false

theorem checkOuter_cases (H P inter : List Condition) (cnt : Nat) :
    if P.all fun x => (checkPredicate H x [] 0).goesOn then
      checkOuter H P inter cnt = .go (inter ++ P.flatMap fun x => (checkPredicate H x [] 0).lists)
        (cnt + (P.map fun x => (checkPredicate H x [] 0).count).sum)
    else checkOuter H P inter cnt = .undefined ∨ checkOuter H P inter cnt = .contradiction := by
  induction P generalizing inter cnt with
  | nil => simp [checkOuter]
  | cons x P ih =>
    unfold checkOuter
    rw [checkPredicate_after]
    cases hx : checkPredicate H x [] 0 with
    | undefined => simp [Check.goesOn, Check.after, hx]
    | contradiction => simp [Check.goesOn, Check.after, hx]
    | go i c => simpa [Check.goesOn, Check.after, Check.lists, Check.count, hx, Nat.add_assoc] using ih (inter ++ i) (cnt + c)

theorem checkCondition_perm {H P P' : List Condition} (h : P.Perm P') {r r' : List Condition × Nat}
    (hr : checkCondition H P = some r) (hr' : checkCondition H P' = some r') : r.1.Perm r'.1 ∧ r.2 = r'.2 := by
  have hc := checkOuter_cases H P [] 0
  have hc' := checkOuter_cases H P' [] 0
  rw [← h.all_eq] at hc'
  unfold checkCondition at hr hr'
  split_ifs at hc hc' with hall
  · rw [hc] at hr
    rw [hc'] at hr'
    cases hr
    cases hr'
    exact ⟨(h.flatMap_right _).append_left _, congrArg (0 + ·) (h.map _).sum_nat⟩
  · obtain hc | hc := hc
    · rw [hc] at hr
      cases hr
    · obtain hc' | hc' := hc'
      · rw [hc'] at hr'
        cases hr'
      · rw [hc] at hr
        rw [hc'] at hr'
        cases hr
        cases hr'
        exact ⟨.refl _, rfl⟩

theorem fragSelect_perm {H P P' : List Condition} (h : P.Perm P') {o o' : Option (List Condition)}
    (ho : fragSelect H P = some o) (ho' : fragSelect H P' = some o') :
    (o = none ∧ o' = none) ∨ ∃ s s', o = some s ∧ o' = some s' ∧ s.Perm s' := by
  simp only [fragSelect, Option.bind_eq_bind, Option.bind_eq_some_iff] at ho ho'
  obtain ⟨⟨cs, cnt⟩, hc, ho⟩ := ho
  obtain ⟨⟨cs', cnt'⟩, hc', ho'⟩ := ho'
  obtain ⟨hperm, hcnt⟩ := checkCondition_perm h hc hc'
  dsimp only at hperm hcnt ho ho'
  subst hcnt
  have hnil : cs' = [] ↔ cs = [] := ⟨fun e => (e ▸ hperm).eq_nil, fun e => (e ▸ hperm).symm.eq_nil⟩
  have hnilP : P' = [] ↔ P = [] := ⟨fun e => (e ▸ h).eq_nil, fun e => (e ▸ h).symm.eq_nil⟩
  simp only [ne_eq, hnil, hnilP] at ho'
  split_ifs at ho ho' with h1 h2
  · exact .inl ⟨(Option.some.inj ho).symm, (Option.some.inj ho').symm⟩
  · exact .inr ⟨[], [], (Option.some.inj ho).symm, (Option.some.inj ho').symm, .refl _⟩
  · exact .inr ⟨cs, cs', (Option.some.inj ho).symm, (Option.some.inj ho').symm, hperm⟩

/-! ## Joins -/

theorem find_swap (c : JoinCell) (tab attr : String) : c.swap.find tab attr = c.find tab attr := by
  change (if c.rtab = tab ∧ c.rcol = attr then c.left else if c.ltab = tab ∧ c.lcol = attr then c.right else "") =
    if c.ltab = tab ∧ c.lcol = attr then c.right else if c.rtab = tab ∧ c.rcol = attr then c.left else ""
  by_cases hl : c.ltab = tab ∧ c.lcol = attr
  · by_cases hr : c.rtab = tab ∧ c.rcol = attr
    · rw [if_pos hr, if_pos hl, JoinCell.left, JoinCell.right, hl.1, hl.2, hr.1, hr.2]
    · rw [if_neg hr, if_pos hl, if_pos hl]
  · rw [if_neg hl, if_neg hl]

theorem SameJoins.edges {J J' : List JoinCell} (h : SameJoins J J') :
    (J.map JoinCell.edge).Perm (J'.map JoinCell.edge) := by
  obtain ⟨K, hperm, hturn⟩ := h
  refine (hperm.map _).trans (.of_eq (Pointwise.map_eq hturn fun c d hcd => ?_))
  obtain rfl | rfl := hcd
  · rfl
  · exact c.edge_swap.symm

theorem SameJoins.filterMap_transferred {J J' : List JoinCell} (h : SameJoins J J') (p : Condition) :
    (J.filterMap (transferred p)).Perm (J'.filterMap (transferred p)) := by
  obtain ⟨K, hperm, hturn⟩ := h
  refine (hperm.filterMap _).trans (.of_eq ?_)
  have hmap : K.map (transferred p) = J'.map (transferred p) := by
    refine Pointwise.map_eq hturn fun c d hcd => ?_
    obtain rfl | rfl := hcd
    · rfl
    · simp only [transferred, find_swap]
  simpa using congrArg (List.filterMap id) hmap

theorem SameJoins.mem_joinAttr {J J' : List JoinCell} (h : SameJoins J J') (a : String) :
    a ∈ joinAttr J' ↔ a ∈ joinAttr J := by
  obtain ⟨K, hperm, hturn⟩ := h
  have hK : a ∈ joinAttr J ↔ a ∈ joinAttr K := (hperm.flatMap_right _).mem_iff
  rw [hK]
  clear hperm hK
  induction hturn with
  | nil => rfl
  | @cons c d K J' hcd _ ih =>
    have hcell : a ∈ [d.left, d.right] ↔ a ∈ [c.left, c.right] := by
      obtain rfl | rfl := hcd
      · rfl
      · exact (List.Perm.swap ..).mem_iff
    simp only [joinAttr, List.flatMap_cons, List.mem_append] at ih ⊢
    exact or_congr hcell ih

section
variable {q q' : Query} (h : q.Reordered q')
include h

theorem Query.Reordered.extendPredicate_same : (extendPredicate q).Reordered (extendPredicate q') where
  fromTable := h.fromTable
  selectAttr := h.selectAttr
  allAttr := h.allAttr
  predicate := h.predicate.append (h.predicate.flatMap fun p _ => h.join.filterMap_transferred p)
  join := h.join

theorem Query.Reordered.expandStar_some {Tables : List MetadataTable} {r : Query} (hr : expandStar Tables q = some r) :
    ∃ r', expandStar Tables q' = some r' ∧ r.Reordered r' := by
  unfold expandStar at hr ⊢
  rw [h.selectAttr, h.fromTable, h.allAttr]
  cases hS : q.selectAttr with
  | nil =>
    rw [hS] at hr
    cases hr
  | cons s S =>
    rw [hS] at hr
    by_cases hstar : s = "*"
    · simp only [hstar, if_true, Option.bind_eq_bind, Option.bind_eq_some_iff, Option.ite_none_right_eq_some] at hr ⊢
      obtain ⟨t, ht, T, hT, hmem, hr⟩ := hr
      cases hr
      exact ⟨_, ⟨t, ht, T, hT, hmem, rfl⟩, rfl, rfl, rfl, h.predicate, h.join⟩
    · simp only [hstar, if_false] at hr ⊢
      cases hr
      exact ⟨q', rfl, h⟩

theorem Query.Reordered.needed_eq : needed q' = needed q := by
  funext a
  unfold needed
  rw [h.selectAttr, Bool.eq_iff_iff, decide_eq_true_iff, decide_eq_true_iff, h.join.mem_joinAttr]

theorem Query.Reordered.tablePredicates_perm (table : MetadataTable) :
    (tablePredicates q table).Perm (tablePredicates q' table) := h.predicate.filter _

end

/-! ## Nodes -/

/-- Nodes that differ in the order of their selection and in their site only. -/
inductive SameNode (n : TreeNode) : TreeNode → Prop
  | mk (select : List Condition) (site : Int) (h : n.select.Perm select) :
      SameNode n { n with select := select, site := site }

theorem SameNode.under {n m : TreeNode} (h : SameNode n m) (parent : Int) :
    SameNode (n.under parent) (m.under parent) := by
  cases h with
  | mk select site h => exact ⟨select, site, h⟩

theorem SameNode.keepKey_same {n m : TreeNode} (h : SameNode n m) (table : MetadataTable) :
    SameNode (keepKey table n) (keepKey table m) := by
  cases h with
  | mk select site h =>
    unfold keepKey
    dsimp only
    split_ifs <;> exact ⟨select, site, h⟩

section
variable {q q' : Query} (h : q.Reordered q')
include h

theorem Query.Reordered.hfNode_same (table : MetadataTable) (frag : Fragment) {select select' : List Condition}
    (hs : select.Perm select') : SameNode (hfNode q table frag select) (hfNode q' table frag select') := by
  unfold hfNode
  rw [h.needed_eq]
  exact ⟨select', frag.site, hs⟩

theorem Query.Reordered.vfNode_same (table : MetadataTable) (frag : Fragment) :
    SameNode (vfNode q table frag) (vfNode q' table frag) := by
  unfold vfNode
  rw [h.allAttr, h.needed_eq]
  exact ⟨_, frag.site, List.Perm.flatMap_left _ fun x _ => (h.tablePredicates_perm table).filter _⟩

theorem Query.Reordered.vfKeyNode_same (table : MetadataTable) (first : Fragment) :
    SameNode (vfKeyNode q table first) (vfKeyNode q' table first) := ⟨_, 1, h.tablePredicates_perm table⟩

theorem Query.Reordered.vfMarked_eq (table : MetadataTable) : vfMarked q' table = vfMarked q table := by
  unfold vfMarked
  rw [h.allAttr]

theorem Query.Reordered.vfJoinNode_same (table : MetadataTable) (first : Fragment) {nodes nodes' : List TreeNode}
    (hn : List.Forall₂ SameNode nodes nodes') (sz : Nat) :
    SameNode (vfJoinNode q table first nodes sz) (vfJoinNode q' table first nodes' sz) := by
  have hattr : nodes'.map TreeNode.attr = nodes.map TreeNode.attr :=
    (Pointwise.map_eq hn fun n m hnm => by cases hnm; rfl).symm
  have hflat : nodes'.reverse.flatMap TreeNode.attr = nodes.reverse.flatMap TreeNode.attr := by
    rw [List.flatMap_def, List.flatMap_def, List.map_reverse, List.map_reverse, hattr]
  unfold vfJoinNode
  rw [h.needed_eq, hflat, ← hn.length_eq]
  exact ⟨[], _, .refl _⟩

end

/-! ## The scan -/

/-- Scans that differ in the selections and sites of their nodes only. -/
structure SameScan (s s' : Scan) : Prop where
  eq : s' = { s with tr := s'.tr }
  tr : List.Forall₂ SameNode s.tr s'.tr

theorem SameScan.record {s s' : Scan} (h : SameScan s s') {below below' : List TreeNode} {top top' : TreeNode}
    (hb : List.Forall₂ SameNode below below') (ht : SameNode top top') (table : MetadataTable) (frag : Fragment)
    (relationSize : List (String × Int)) (siteNums : List SiteNum) :
    SameScan (s.record below top table frag relationSize siteNums)
      (s'.record below' top' table frag relationSize siteNums) := by
  refine ⟨?_, List.rel_append h.tr (List.rel_append hb (.cons ht .nil))⟩
  rw [h.eq]
  simp only [Scan.record, h.tr.length_eq, hb.length_eq]

/-- Two runs that start with the same computation go on from the same value. -/
theorem exists_of_both_bind {α β : Type*} {o : Option α} {f g : α → Option β} {b c : β} (hf : o.bind f = some b)
    (hg : o.bind g = some c) : ∃ a, o = some a ∧ f a = some b ∧ g a = some c := by
  obtain ⟨a, ha, hb⟩ := Option.bind_eq_some_iff.1 hf
  obtain ⟨a', ha', hc⟩ := Option.bind_eq_some_iff.1 hg
  obtain rfl : a = a' := Option.some.inj (ha.symm.trans ha')
  exact ⟨a, ha, hb, hc⟩

section
variable {q q' : Query} (h : q.Reordered q') {s s' r r' : Scan} (hs : SameScan s s')
include h hs

theorem scanHfFrag_same {table : MetadataTable} {frag : Fragment} (hr : scanHfFrag q table s frag = some r)
    (hr' : scanHfFrag q' table s' frag = some r') : SameScan r r' := by
  have hsites : s'.siteNums = s.siteNums := by rw [hs.eq]
  have hsize : s'.relationSize = s.relationSize := by rw [hs.eq]
  obtain ⟨hsel, rfl⟩ | ⟨select, siteNums, hsel, hadd, rfl⟩ := scanHfFrag_inv hr <;>
    obtain ⟨hsel', rfl⟩ | ⟨select', siteNums', hsel', hadd', rfl⟩ := scanHfFrag_inv hr' <;>
      obtain ⟨h1, h2⟩ | ⟨t, t', h1, h2, hp⟩ := fragSelect_perm h.predicate hsel hsel' <;> cases h1 <;> cases h2
  · exact hs
  · rw [hsites, hadd] at hadd'
    cases hadd'
    rw [hsize]
    exact hs.record .nil (h.hfNode_same table frag hp) table frag _ siteNums

theorem scanVf_same {table : MetadataTable} (hr : scanVf q table s = some r) (hr' : scanVf q' table s' = some r') :
    SameScan r r' := by
  have hsites : s'.siteNums = s.siteNums := by rw [hs.eq]
  have hsize : s'.relationSize = s.relationSize := by rw [hs.eq]
  obtain ⟨first, -, hr, hr'⟩ := exists_of_both_bind hr hr'
  rw [h.vfMarked_eq, hsites, hsize] at hr'
  cases hm : table.frags.filter (vfMarked q table) with
  | nil =>
    rw [hm] at hr hr'
    obtain ⟨siteNums, -, hr, hr'⟩ := exists_of_both_bind hr hr'
    cases hr
    cases hr'
    exact hs.record .nil (h.vfKeyNode_same table first) table first _ siteNums
  | cons frag rest =>
    rw [hm] at hr hr'
    cases rest with
    | nil =>
      obtain ⟨siteNums, -, hr, hr'⟩ := exists_of_both_bind hr hr'
      cases hr
      cases hr'
      exact hs.record .nil (h.vfNode_same table frag) table frag _ siteNums
    | cons frag' rest =>
      obtain ⟨siteNums, -, hr, hr'⟩ := exists_of_both_bind hr hr'
      cases hr
      cases hr'
      have hnodes : List.Forall₂ SameNode ((frag :: frag' :: rest).map fun frag => keepKey table (vfNode q table frag))
          ((frag :: frag' :: rest).map fun frag => keepKey table (vfNode q' table frag)) := by
        rw [List.forall₂_map_left_iff, List.forall₂_map_right_iff, List.forall₂_same]
        exact fun frag _ => (h.vfNode_same table frag).keepKey_same table
      have hrec := hs.record (Pointwise.map hnodes fun n m hnm => hnm.under ((s.tr.length + (rest.length + 2) : Nat) : Int))
        (h.vfJoinNode_same table first hnodes (s.tr.length + (rest.length + 2))) table first
        (OrderedMap.setKey table.name first.size s.relationSize) siteNums
      simp only [Scan.record, List.length_map, List.length_cons, ← List.append_assoc, hs.tr.length_eq] at hrec ⊢
      exact hrec

theorem scanTable_same {table : MetadataTable} (hr : scanTable q s table = some r)
    (hr' : scanTable q' s' table = some r') : SameScan r r' := by
  unfold scanTable at hr hr'
  rw [h.fromTable] at hr'
  split_ifs at hr hr' with hmem
  · cases htype : table.type with
    | hf =>
      rw [htype] at hr hr'
      have hstart : SameScan { s with relationSize := OrderedMap.setKey table.name 0 s.relationSize }
          { s' with relationSize := OrderedMap.setKey table.name 0 s'.relationSize } :=
        ⟨by rw [hs.eq], hs.tr⟩
      refine Loops.simulation (R := SameScan) ?_ hstart hr hr'
      exact fun frag _ d e d' e' hde hd he => scanHfFrag_same h hde hd he
    | vf =>
      rw [htype] at hr hr'
      exact scanVf_same h hs hr hr'
  · cases hr
    cases hr'
    exact hs

omit hs

theorem scanTables_same {Tables : List MetadataTable} (hr : scanTables q Tables = some r)
    (hr' : scanTables q' Tables = some r') : SameScan r r' := by
  have hinit : SameScan Scan.init Scan.init := ⟨rfl, .nil⟩
  refine Loops.simulation (R := SameScan) ?_ hinit hr hr'
  exact fun table _ d e d' e' hde hd he => scanTable_same h hde hd he

end

end EasyDDB.Optimizer
