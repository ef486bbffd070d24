import EasyDDB.Optimizer.Origins

/-! # The nodes of the scan

Each node is the node of a horizontal fragment, or it belongs to the block of nodes of a vertically fragmented table;
and the node recorded for a kept fragment is the top node of the fragment's table. -/
namespace EasyDDB.Optimizer
set_option autoImplicit false

/-- The nodes of a vertically fragmented table stand from index `sz` on. -/
structure VfBlock (q : Query) (T : MetadataTable) (tr : List TreeNode) (sz : Nat) (first frag : Fragment)
    (below : List TreeNode) (top : TreeNode) : Prop where
  head : T.frags.head? = some first
  shape : VfShape q T first sz frag below top
  nodes : ∀ k n, (below ++ [top])[k]? = some n → tr[sz + k]? = some n

/-- What the node at an index of the scanned vector is. -/
inductive ScanNode (q : Query) (Tables : List MetadataTable) (tr : List TreeNode) (i : Nat) : TreeNode → Prop
  | hf {T : MetadataTable} {frag : Fragment} {select : List Condition} (hT : T ∈ Tables) (hfrom : T.name ∈ q.fromTable)
      (htype : T.type = .hf) (hfrag : frag ∈ T.frags) : ScanNode q Tables tr i (hfNode q T frag select)
  | vf {T : MetadataTable} {sz k : Nat} {first frag : Fragment} {below : List TreeNode} {top n : TreeNode}
      (hT : T ∈ Tables) (hfrom : T.name ∈ q.fromTable) (htype : T.type = .vf)
      (hblock : VfBlock q T tr sz first frag below top) (hk : (below ++ [top])[k]? = some n) (hi : i = sz + k) :
      ScanNode q Tables tr i n

theorem VfBlock.append {q : Query} {T : MetadataTable} {tr : List TreeNode} {sz : Nat} {first frag : Fragment}
    {below : List TreeNode} {top : TreeNode} (h : VfBlock q T tr sz first frag below top) (l : List TreeNode) :
    VfBlock q T (tr ++ l) sz first frag below top := by
  refine ⟨h.head, h.shape, fun k n hn => ?_⟩
  have hat := h.nodes k n hn
  rw [List.getElem?_append_left (List.getElem?_eq_some_iff.mp hat).1, hat]

theorem VfBlock.new {q : Query} {T : MetadataTable} {first frag : Fragment} {below : List TreeNode} {top : TreeNode}
    {tr : List TreeNode} (hfirst : T.frags.head? = some first)
    (hshape : VfShape q T first tr.length frag below top) :
    VfBlock q T (tr ++ (below ++ [top])) tr.length first frag below top := by
  refine ⟨hfirst, hshape, fun k n hn => ?_⟩
  rw [List.getElem?_append_right (Nat.le_add_right ..), Nat.add_sub_cancel_left, hn]

theorem ScanNode.append {q : Query} {Tables : List MetadataTable} {tr : List TreeNode} {i : Nat} {n : TreeNode}
    (h : ScanNode q Tables tr i n) (l : List TreeNode) : ScanNode q Tables (tr ++ l) i n := by
  cases h with
  | hf hT hfrom htype hfrag => exact .hf hT hfrom htype hfrag
  | vf hT hfrom htype hblock hk hi => exact .vf hT hfrom htype (hblock.append l) hk hi

/-- The scanned vector so far: every node is of a table of the catalog, and the vertically fragmented FROM tables among
`seen` have their block. -/
structure Scanned (q : Query) (Tables seen : List MetadataTable) (tr : List TreeNode) : Prop where
  nodes : ∀ i n, tr[i]? = some n → ScanNode q Tables tr i n
  blocks : ∀ T ∈ seen, T.name ∈ q.fromTable → T.type = .vf →
    ∃ sz first frag below top, VfBlock q T tr sz first frag below top

theorem Scanned.append {q : Query} {Tables seen : List MetadataTable} {tr l : List TreeNode}
    (h : Scanned q Tables seen tr) (hl : ∀ k n, l[k]? = some n → ScanNode q Tables (tr ++ l) (tr.length + k) n) :
    Scanned q Tables seen (tr ++ l) where
  nodes := by
    intro i n hn
    by_cases hlt : i < tr.length
    · rw [List.getElem?_append_left hlt] at hn
      exact (h.nodes i n hn).append l
    · obtain ⟨k, rfl⟩ := Nat.exists_eq_add_of_le (Nat.le_of_not_lt hlt)
      rw [List.getElem?_append_right (Nat.le_add_right ..), Nat.add_sub_cancel_left] at hn
      exact hl k n hn
  blocks := by
    intro T hT hfrom htype
    obtain ⟨sz, first, frag, below, top, hb⟩ := h.blocks T hT hfrom htype
    exact ⟨sz, first, frag, below, top, hb.append l⟩

theorem scanTables_nodes {q : Query} {Tables : List MetadataTable} {s : Scan} (h : scanTables q Tables = some s) :
    Scanned q Tables Tables s.tr := by
  refine Loops.invariant_seen (I := fun seen (c : Scan) => Scanned q Tables seen c.tr) ?_
    ⟨by simp [Scan.init], by simp⟩ h
  intro pre T post hsplit c c' hc hstep
  have hT : T ∈ Tables := by
    rw [hsplit]
    simp
  have hmore : ∀ {tr : List TreeNode}, Scanned q Tables pre tr →
      (T.name ∈ q.fromTable → T.type = .vf → ∃ sz first frag below top, VfBlock q T tr sz first frag below top) →
      Scanned q Tables (pre ++ [T]) tr := by
    intro tr htr hblock
    refine ⟨htr.nodes, fun T' hT' hfrom htype => ?_⟩
    obtain hT' | hT' := List.mem_append.mp hT'
    · exact htr.blocks T' hT' hfrom htype
    · obtain rfl := List.mem_singleton.mp hT'
      exact hblock hfrom htype
  obtain ⟨hout, rfl⟩ | ⟨hfrom, htype, hhf⟩ | ⟨hfrom, htype, hvf⟩ := scanTable_inv hstep
  · exact hmore hc fun hfrom => absurd hfrom hout
  · rw [scanHf_tr hhf]
    refine hmore (hc.append fun k n hn => ?_) fun _ hvf => by rw [htype] at hvf; cases hvf
    obtain ⟨F, hF, hmem⟩ := List.mem_flatMap.mp (List.mem_of_getElem? hn)
    unfold hfNodes at hmem
    split at hmem
    · rw [List.mem_singleton.mp hmem]
      exact .hf hT hfrom htype hF
    · cases hmem
  · obtain ⟨first, frag, below, top, siteNums, hfirst, hshape, -, rfl⟩ := scanVf_inv hvf
    have hblock := VfBlock.new hfirst hshape
    refine hmore (hc.append fun k n hn => ?_) fun _ _ => ⟨_, _, _, _, _, hblock⟩
    exact .vf hT hfrom htype hblock hn rfl

end EasyDDB.Optimizer
