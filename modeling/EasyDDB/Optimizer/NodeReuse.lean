import EasyDDB.Optimizer.Origins

/-! # Using a node twice

From the second use on `get_treeNode` hands out a copy without children. A copied Fragment node delivers what the
original delivers; a copy of the Join node over several vertical fragments is an empty Join node and stays one. -/
namespace EasyDDB.Optimizer
set_option autoImplicit false

/-- The call gives a node whose subtree delivers the relation of the recorded node. -/
def SameRelation (mpTr : FragName → Nat) (x : FragName) (c : Build) : Prop :=
  ∃ i c', getTreeNode mpTr x c = some (i, c') ∧ ∀ db : Placement,
    evalNode (rowSemantics db) c'.tr c'.tr.length i = evalNode (rowSemantics db) c'.tr c'.tr.length (mpTr x)

/-- Only a copied Join node can lose something. -/
theorem sameRelation_of_fragment {mpTr : FragName → Nat} {x : FragName} {c : Build} {n : TreeNode}
    (hn : c.tr[mpTr x]? = some n) (ht : c.cpTr x = true → n.type = .fragment) : SameRelation mpTr x c := by
  by_cases hcp : c.cpTr x = true
  · have hcopy : getTreeNode mpTr x c =
        some (c.tr.length, { c with tr := c.tr ++ [{ n with child := [], parent := -1 }] }) := by
      simp [getTreeNode, hcp, hn]
    refine ⟨_, _, hcopy, fun db => ?_⟩
    have hold : (c.tr ++ [{ n with child := [], parent := -1 }])[mpTr x]? = some n := by
      rw [List.getElem?_append_left (List.getElem?_eq_some_iff.mp hn).1, hn]
    have hnew : (c.tr ++ [{ n with child := [], parent := -1 }])[c.tr.length]? =
        some { n with child := [], parent := -1 } := List.getElem?_concat_length
    dsimp only
    rw [List.length_append, List.length_singleton, evalNode_fragment _ _ hnew (ht hcp),
      evalNode_fragment _ _ hold (ht hcp)]
    exact (rowSemantics_ignoresLinks db).leaf n (-1) []
  · exact ⟨mpTr x, _, if_neg hcp, fun db => rfl⟩

section
variable {p : JoinPlan} {tr : List TreeNode} {cp : FragName → Bool} {ok : FragName → Prop} (hasks : Asks p ok)
  (hg : Grows p.scan ok p.query.selectAttr p.join (TreeNodeCall p) ⟨p.scan.tr, fun _ => false⟩ ⟨tr, cp⟩)
include hasks hg

/-- Without a copied Join node every Join node has at least two children. -/
theorem two_children (hfrag : ∀ x c, TreeNodeCall p x c → c.cpTr x = true →
      ∀ n, p.scan.tr[p.scan.mpTr x]? = some n → n.type ≠ .join) :
    ∀ m ∈ contents tr, m.type = .join → 2 ≤ m.child.length := by
  intro m hm hjoin
  obtain ⟨i, hi⟩ := List.mem_iff_getElem?.mp hm
  have hscan : ∀ n : TreeNode, n ∈ contents p.scan.tr → n.type = .fragment ∨ (n.type = .join ∧ 2 ≤ n.child.length) := by
    intro n hn
    obtain ⟨n₀, hn₀, rfl⟩ := List.mem_map.mp hn
    exact hasks.types n₀ hn₀
  cases hg.origin_of_scan rfl hi with
  | scanned hlt =>
    obtain ⟨n, hn⟩ : ∃ n, (contents p.scan.tr)[i]? = some n :=
      ⟨_, List.getElem?_eq_getElem (by rw [contents_length]; exact hlt)⟩
    obtain rfl : n = m := Option.some.inj ((prefix_getElem? hg.kept hn).symm.trans hi)
    obtain ht | ht := hscan n (List.mem_of_getElem? hn)
    · exact NodeType.noConfusion (ht.symm.trans hjoin)
    · exact ht.2
  | @copied x n _ hx _ hn hnode =>
    obtain ⟨c, hcall, hcp⟩ := hx
    obtain rfl : { n with child := [] } = m := Option.some.inj (hnode.symm.trans hi)
    rw [contents_getElem?, Option.map_eq_some_iff] at hn
    obtain ⟨n₀, hn₀, rfl⟩ := hn
    exact absurd hjoin (hfrag x c hcall hcp n₀ hn₀)
  | union _ hnums hop =>
    cases hop with
    | node _ => exact absurd rfl (hnums _)
    | union _ _ hnode _ _ =>
      rw [hi] at hnode
      cases hnode
      cases hjoin
  | join hch _ =>
    cases hch with
    | step _ _ _ _ _ _ _ hnode =>
      rw [hi] at hnode
      cases hnode
      exact le_rfl

omit hasks in
/-- A copied Join node is a Join node without children for good. -/
theorem copied_join {x : FragName} {c : Build} (hcall : TreeNodeCall p x c) (hcp : c.cpTr x = true) {n : TreeNode}
    (hn : p.scan.tr[p.scan.mpTr x]? = some n) (ht : n.type = .join) :
    ∃ m ∈ contents tr, m.type = .join ∧ m.child = [] := by
  obtain ⟨-, -, hcopy⟩ := hg.calls x c hcall
  exact ⟨_, hcopy hcp (n.under (-1)) (by rw [contents_getElem?, hn]; rfl), ht, rfl⟩

end

theorem mem_unionPhase_join {site : Int} {S : List String} {tr : List TreeNode} {P : List Nat → Prop} :
    (∀ n ∈ (unionPhase site S tr).tr, n.type = .join → P n.child) ↔ ∀ m ∈ contents tr, m.type = .join → P m.child := by
  have hcontents : (∀ n ∈ (unionPhase site S tr).tr, n.type = .join → P n.child) ↔
      ∀ m ∈ contents (unionPhase site S tr).tr, m.type = .join → P m.child := by
    simp only [contents, List.forall_mem_map, TreeNode.under]
  rw [hcontents, contents_unionPhase, List.forall_mem_append]
  refine and_iff_left ?_
  intro m hm hjoin
  split_ifs at hm
  · rw [List.mem_singleton.mp hm] at hjoin
    cases hjoin
  · cases hm

/-- **Every use of a node is a use of its relation, and every Join node has two children, exactly if no fragment whose
recorded node is a Join node is asked for twice.** -/
theorem node_reuse_iff (Tables : List MetadataTable) (q : Query) (p : JoinPlan) (t : Tree)
    (hp : planJoins Tables q = some p) (ht : buildQueryTree Tables q = some t) :
    ((∀ x c, TreeNodeCall p x c → SameRelation p.scan.mpTr x c) ∧
        ∀ n ∈ t.tr, n.type = .join → 2 ≤ n.child.length) ↔
      ∀ x c, TreeNodeCall p x c → c.cpTr x = true →
        ∀ n, p.scan.tr[p.scan.mpTr x]? = some n → n.type ≠ .join := by
  have hplan := planJoins_planned hp
  have hasks := hplan.asks_valid
  obtain ⟨tr, htr, rfl⟩ := buildQueryTree_forest hp ht
  obtain ⟨cp, hg, -⟩ := buildForest_grows hasks htr
  constructor
  · rintro ⟨-, htwo⟩ x c hcall hcp n hn hjoin
    obtain ⟨m, hm, hmt, hmc⟩ := copied_join hg hcall hcp hn hjoin
    have := (mem_unionPhase_join (P := fun l => 2 ≤ l.length)).mp htwo m hm hmt
    rw [hmc] at this
    cases this
  · intro hfrag
    refine ⟨fun x c hcall => ?_, (mem_unionPhase_join (P := fun l => 2 ≤ l.length)).mpr (two_children hasks hg hfrag)⟩
    obtain ⟨hok, hbase, -⟩ := hg.calls x c hcall
    obtain ⟨n, hn⟩ : ∃ n, p.scan.tr[p.scan.mpTr x]? = some n := ⟨_, List.getElem?_eq_getElem hok⟩
    have hat := prefix_getElem? hbase (show (contents p.scan.tr)[p.scan.mpTr x]? = some (n.under (-1)) by
      rw [contents_getElem?, hn]; rfl)
    rw [contents_getElem?, Option.map_eq_some_iff] at hat
    obtain ⟨m, hm, hmn⟩ := hat
    have htype : (m.under (-1)).type = (n.under (-1)).type := congrArg TreeNode.type hmn
    refine sameRelation_of_fragment hm fun hcp => ?_
    obtain hf | hj := hasks.types n (List.mem_of_getElem? hn)
    · exact htype.trans hf
    · exact absurd hj.1 (hfrag x c hcall hcp n hn)

/-- Of the customers one vertical fragment is used, and its copies deliver the same rows. -/
theorem bookOrdersCustomer_reuse : ∃ p t, planJoins getMetadata bookOrdersCustomer = some p ∧
    buildQueryTree getMetadata bookOrdersCustomer = some t ∧
    (∀ x c, TreeNodeCall p x c → SameRelation p.scan.mpTr x c) ∧
      ∀ n ∈ t.tr, n.type = .join → 2 ≤ n.child.length := by
  have hrun : ((planJoins getMetadata bookOrdersCustomer).any fun p =>
      (buildQueryTree getMetadata bookOrdersCustomer).isSome && p.scan.tr.all fun n => n.type ≠ .join) = true := by
    decide +kernel
  simp only [Option.any_eq_true, Bool.and_eq_true, List.all_eq_true, decide_eq_true_eq] at hrun
  obtain ⟨p, hp, hsome, hscan⟩ := hrun
  obtain ⟨t, ht⟩ := Option.isSome_iff_exists.mp hsome
  refine ⟨p, t, hp, ht, (node_reuse_iff getMetadata bookOrdersCustomer p t hp ht).mpr ?_⟩
  intro x c _ _ n hn
  exact hscan n (List.mem_of_getElem? hn)

/-- The orders of customers with name and rank, joined at three sites. -/
def customerOrders : Query where
  fromTable := ["Customer", "Orders"]
  selectAttr := ["Customer.name", "Customer.rank", "Orders.quantity"]
  allAttr := ["Customer.id", "Customer.name", "Customer.rank", "Orders.customer_id", "Orders.quantity"]
  predicate := []
  join := [⟨"Customer", "id", "Orders", "customer_id"⟩]

/-- The orders of the second and third site are joined with an empty Join node in place of the customers. -/
theorem customerOrders_empty_joins : ∃ p t, planJoins getMetadata customerOrders = some p ∧
    buildQueryTree getMetadata customerOrders = some t ∧
    ¬ ((∀ x c, TreeNodeCall p x c → SameRelation p.scan.mpTr x c) ∧
      ∀ n ∈ t.tr, n.type = .join → 2 ≤ n.child.length) := by
  have hrun : ((planJoins getMetadata customerOrders).any fun _ =>
      (buildQueryTree getMetadata customerOrders).any fun t =>
        t.tr.any fun n => n.type = .join && n.child.length < 2) = true := by
    decide +kernel
  simp only [Option.any_eq_true, List.any_eq_true, Bool.and_eq_true, decide_eq_true_eq] at hrun
  obtain ⟨p, hp, t, ht, n, hn, hjoin, hlt⟩ := hrun
  refine ⟨p, t, hp, ht, fun hclaim => ?_⟩
  have := hclaim.2 n hn hjoin
  omega

end EasyDDB.Optimizer
