import EasyDDB.Optimizer.LineUp

/-! # Columns come from the input

A projection takes columns the node has, and the columns of a Union or Join node are columns its children deliver.
Horizontal fragments, unions of fragments and the joins of a chain always keep to this; vertical fragments, copied Join
nodes and the root do so under conditions of their own. -/
namespace EasyDDB.Optimizer
set_option autoImplicit false

/-- The projection takes columns of the node, and the columns of a Union or Join node are delivered by a child. -/
structure Provided (C : List TreeNode) (n : TreeNode) : Prop where
  projection : ∀ a ∈ n.projection, a ∈ n.attr
  attr : n.type ≠ .fragment → ∀ a ∈ n.attr, ∃ j ∈ n.child, ∃ m, C[j]? = some m ∧ a ∈ m.output

theorem provided_contents {tr : List TreeNode} :
    (∀ n ∈ tr, Provided tr n) ↔ ∀ m ∈ contents tr, Provided (contents tr) m := by
  have hchild : ∀ (a : String) (j : Nat),
      (∃ m, (contents tr)[j]? = some m ∧ a ∈ m.output) ↔ ∃ m, tr[j]? = some m ∧ a ∈ m.output := by
    intro a j
    rw [contents_getElem?]
    cases tr[j]? with
    | none => simp
    | some m => simp [output_under]
  have hnode : ∀ n : TreeNode, Provided (contents tr) (n.under (-1)) ↔ Provided tr n := by
    intro n
    constructor
    · rintro ⟨hp, ha⟩
      refine ⟨hp, fun ht a hmem => ?_⟩
      obtain ⟨j, hj, hm⟩ := ha ht a hmem
      exact ⟨j, hj, (hchild a j).mp hm⟩
    · rintro ⟨hp, ha⟩
      refine ⟨hp, fun ht a hmem => ?_⟩
      obtain ⟨j, hj, hm⟩ := ha ht a hmem
      exact ⟨j, hj, (hchild a j).mpr hm⟩
  simp only [contents, List.forall_mem_map]
  exact forall₂_congr fun n _ => (hnode n).symm

/-! ## Fragment nodes -/

theorem hfNode_projection (q : Query) (T : MetadataTable) (frag : Fragment) (select : List Condition) :
    ∀ a ∈ (hfNode q T frag select).projection, a ∈ T.attrs := by
  intro a ha
  simp only [hfNode] at ha
  split_ifs at ha
  · cases ha
  · exact List.mem_of_mem_filter ha

theorem vfNode_projection (q : Query) (T : MetadataTable) (frag : Fragment) :
    ∀ a ∈ (vfNode q T frag).projection, a ∈ frag.vfColumn := by
  intro a ha
  simp only [vfNode] at ha
  split_ifs at ha
  · exact List.mem_of_mem_filter ha
  · cases ha

/-- The columns of a vertical fragment that are mentioned and still needed behind its selections. -/
def readColumns (q : Query) (F : Fragment) : List String := F.vfColumn.filter fun x => x ∈ q.allAttr ∧ needed q x

/-- A joined fragment delivers all its columns: none of them is read, all are, or all but one, and the key, which is not
read, makes up the number. -/
def ReadWhole (q : Query) (T : MetadataTable) (F : Fragment) : Prop :=
  readColumns q F = [] ∨ readColumns q F = F.vfColumn ∨
    (T.key ∉ readColumns q F ∧ (readColumns q F).length + 1 = F.vfColumn.length)

instance (q : Query) (T : MetadataTable) (F : Fragment) : Decidable (ReadWhole q T F) :=
  inferInstanceAs (Decidable (_ ∨ _ ∨ _))

/-- What a vertically fragmented table must meet. A key that is read alone is a column of the first fragment. Of several
useful fragments those that deliver a part of their columns have the key, and every column is read, the key, or a column
of a fragment that is delivered whole. -/
structure VfProvides (q : Query) (T : MetadataTable) : Prop where
  key : T.frags.filter (vfMarked q T) = [] → ∀ first, T.frags.head? = some first → T.keyColumn ∈ first.vfColumn
  kept : 2 ≤ (T.frags.filter (vfMarked q T)).length → ∀ F ∈ T.frags.filter (vfMarked q T),
    ¬ ReadWhole q T F → T.key ∈ F.vfColumn
  columns : 2 ≤ (T.frags.filter (vfMarked q T)).length → ∀ F ∈ T.frags.filter (vfMarked q T), ∀ a ∈ F.vfColumn,
    a ∈ readColumns q F ∨ a = T.key ∨ ∃ G ∈ T.frags.filter (vfMarked q T), ReadWhole q T G ∧ a ∈ G.vfColumn

theorem keepKey_projection (q : Query) (T : MetadataTable) (F : Fragment) :
    (keepKey T (vfNode q T F)).projection = if ReadWhole q T F then []
      else if T.key ∈ readColumns q F then readColumns q F else readColumns q F ++ [T.key] := by
  have hnode : (vfNode q T F).projection = if F.vfColumn ≠ readColumns q F then readColumns q F else [] := rfl
  by_cases hall : F.vfColumn = readColumns q F
  · rw [if_neg (not_not.mpr hall)] at hnode
    rw [keepKey, if_neg (fun h => h.1 hnode), hnode, if_pos (.inr (.inl hall.symm))]
  rw [if_pos hall] at hnode
  by_cases hnil : readColumns q F = []
  · rw [hnil] at hnode
    rw [keepKey, if_neg (fun h => h.1 hnode), hnode, if_pos (.inl hnil)]
  by_cases hkey : T.key ∈ readColumns q F
  · have hpart : ¬ ReadWhole q T F := by
      rintro (h | h | h)
      · exact hnil h
      · exact hall h.symm
      · exact h.1 hkey
    rw [keepKey, if_neg (fun h => h.2 (hnode ▸ hkey)), hnode, if_neg hpart, if_pos hkey]
  · have hlen : (readColumns q F ++ [T.key]).length = (vfNode q T F).attr.length ↔ ReadWhole q T F := by
      rw [List.length_append, List.length_singleton]
      refine ⟨fun h => .inr (.inr ⟨hkey, h⟩), ?_⟩
      rintro (h | h | h)
      · exact absurd h hnil
      · exact absurd h.symm hall
      · exact h.2
    rw [keepKey, if_pos (hnode ▸ ⟨hnil, hkey⟩), hnode]
    dsimp only
    by_cases hwhole : ReadWhole q T F
    · rw [if_pos (hlen.mpr hwhole), if_pos hwhole]
    · rw [if_neg (fun h => hwhole (hlen.mp h)), if_neg hwhole, if_neg hkey]

theorem keepKey_attr (q : Query) (T : MetadataTable) (F : Fragment) :
    (keepKey T (vfNode q T F)).attr = F.vfColumn := by
  obtain ⟨projection, h⟩ := keepKey_eq T (vfNode q T F)
  rw [h]
  rfl

theorem mem_readColumns {q : Query} {F : Fragment} {a : String} :
    a ∈ readColumns q F ↔ a ∈ F.vfColumn ∧ a ∈ q.allAttr ∧ needed q a = true := by
  simp [readColumns]

theorem keepKey_kept_iff {q : Query} {T : MetadataTable} {F : Fragment} :
    (∀ a ∈ (keepKey T (vfNode q T F)).projection, a ∈ F.vfColumn) ↔ (¬ ReadWhole q T F → T.key ∈ F.vfColumn) := by
  have hread : ∀ a ∈ readColumns q F, a ∈ F.vfColumn := fun a ha => (mem_readColumns.mp ha).1
  rw [keepKey_projection]
  split_ifs with hwhole hkey
  · exact iff_of_true (by simp) fun h => absurd hwhole h
  · exact iff_of_true hread fun _ => hread _ hkey
  · refine ⟨fun h _ => h _ (List.mem_append_right _ (List.mem_singleton_self _)), fun h a ha => ?_⟩
    obtain ha | ha := List.mem_append.mp ha
    · exact hread a ha
    · exact List.mem_singleton.mp ha ▸ h hwhole

theorem mem_keepKey_output {q : Query} {T : MetadataTable} {F : Fragment} {a : String} :
    a ∈ (keepKey T (vfNode q T F)).output ↔
      if ReadWhole q T F then a ∈ F.vfColumn else a ∈ readColumns q F ∨ a = T.key := by
  rw [TreeNode.output, keepKey_projection, keepKey_attr]
  by_cases hwhole : ReadWhole q T F
  · rw [if_pos hwhole, if_pos rfl, if_pos hwhole]
  have hne : readColumns q F ≠ [] := fun h => hwhole (.inl h)
  rw [if_neg hwhole, if_neg hwhole]
  by_cases hkey : T.key ∈ readColumns q F
  · rw [if_pos hkey, if_neg hne]
    exact ⟨.inl, fun h => h.elim id fun h => h ▸ hkey⟩
  · rw [if_neg hkey, if_neg (by simp), List.mem_append, List.mem_singleton]

section
variable {q : Query} {T : MetadataTable} {first : Fragment} {sz : Nat}

theorem mem_vfJoinNode_attr {nodes : List TreeNode} {a : String} :
    a ∈ (vfJoinNode q T first nodes sz).attr ↔ ∃ n ∈ nodes, a ∈ n.attr := by
  simp [vfJoinNode, mem_sortUnique]

theorem vfJoinNode_projection {nodes : List TreeNode} :
    ∀ a ∈ (vfJoinNode q T first nodes sz).projection, a ∈ (vfJoinNode q T first nodes sz).attr := by
  intro a ha
  simp only [vfJoinNode] at ha ⊢
  split_ifs at ha
  · cases ha
  · exact List.mem_of_mem_filter ha

theorem delivered_before {nodes C : List TreeNode} (hC : ∀ k n, nodes[k]? = some n → C[sz + k]? = some n) (a : String) :
    (∃ j ∈ (List.range nodes.length).map fun i => sz + nodes.length - (i + 1), ∃ m, C[j]? = some m ∧ a ∈ m.output) ↔
      ∃ m ∈ nodes, a ∈ m.output := by
  have hat : ∀ k, k < nodes.length → C[sz + k]? = nodes[k]? := by
    intro k hk
    rw [hC k nodes[k] (List.getElem?_eq_getElem hk), List.getElem?_eq_getElem hk]
  constructor
  · rintro ⟨j, hj, m, hm, ha⟩
    obtain ⟨i, hi, rfl⟩ := List.mem_map.mp hj
    rw [List.mem_range] at hi
    have hidx : sz + nodes.length - (i + 1) = sz + (nodes.length - (i + 1)) := by omega
    rw [hidx, hat _ (by omega)] at hm
    exact ⟨m, List.mem_of_getElem? hm, ha⟩
  · rintro ⟨m, hm, ha⟩
    obtain ⟨k, hk⟩ := List.mem_iff_getElem?.mp hm
    have hlt := (List.getElem?_eq_some_iff.mp hk).1
    refine ⟨sz + k, List.mem_map.mpr ⟨nodes.length - (k + 1), List.mem_range.mpr (by omega), by omega⟩, m, ?_, ha⟩
    rw [hat k hlt, hk]

/-- Every column of the joined fragments is delivered by one of them. -/
theorem vfOperands_deliver_iff : (∀ n ∈ vfOperands q T, ∀ a ∈ n.attr, ∃ m ∈ vfOperands q T, a ∈ m.output) ↔
    ∀ F ∈ T.frags.filter (vfMarked q T), ∀ a ∈ F.vfColumn,
      a ∈ readColumns q F ∨ a = T.key ∨ ∃ G ∈ T.frags.filter (vfMarked q T), ReadWhole q T G ∧ a ∈ G.vfColumn := by
  rw [vfOperands, List.forall_mem_map]
  refine forall₂_congr fun F hF => ?_
  rw [keepKey_attr]
  refine forall₂_congr fun a ha => ?_
  simp only [List.mem_map, exists_exists_and_eq_and]
  constructor
  · rintro ⟨G, hG, hout⟩
    rw [mem_keepKey_output] at hout
    split_ifs at hout with hwhole
    · exact .inr (.inr ⟨G, hG, hwhole, hout⟩)
    · obtain hread | hkey := hout
      · exact .inl (mem_readColumns.mpr ⟨ha, (mem_readColumns.mp hread).2⟩)
      · exact .inr (.inl hkey)
  · rintro (hread | hkey | ⟨G, hG, hwhole, haG⟩)
    · refine ⟨F, hF, mem_keepKey_output.mpr ?_⟩
      split_ifs
      · exact ha
      · exact .inl hread
    · refine ⟨F, hF, mem_keepKey_output.mpr ?_⟩
      split_ifs
      · exact ha
      · exact .inr hkey
    · exact ⟨G, hG, mem_keepKey_output.mpr (by rwa [if_pos hwhole])⟩

/-- **The nodes of a vertically fragmented table**: their columns come from the input under `VfProvides`. -/
theorem VfShape.provided_iff {frag : Fragment} {below C : List TreeNode} {top : TreeNode}
    (hfirst : T.frags.head? = some first) (h : VfShape q T first sz frag below top)
    (hC : ∀ k n, (contents (below ++ [top]))[k]? = some n → C[sz + k]? = some n) :
    (∀ n ∈ contents (below ++ [top]), Provided C n) ↔ VfProvides q T := by
  cases h with
  | key hm =>
    have hkey : Provided C (vfKeyNode q T first) ↔ T.keyColumn ∈ first.vfColumn := by
      constructor
      · intro hp
        exact hp.projection T.keyColumn (List.mem_singleton_self _)
      · intro hk
        refine ⟨fun a ha => ?_, fun ht => absurd rfl ht⟩
        obtain rfl := List.mem_singleton.mp ha
        exact hk
    have hnode : (∀ n ∈ contents ([] ++ [vfKeyNode q T first]), Provided C n) ↔ Provided C (vfKeyNode q T first) :=
      List.forall_mem_singleton
    rw [hnode, hkey]
    constructor
    · intro hk
      refine ⟨fun _ F hF => ?_, fun hlen => by simp [hm] at hlen, fun hlen => by simp [hm] at hlen⟩
      rw [hfirst, Option.some.injEq] at hF
      exact hF ▸ hk
    · exact fun hv => hv.key hm first hfirst
  | one frag hm =>
    have hnode : ∀ n ∈ contents ([] ++ [vfNode q T frag]), Provided C n := by
      intro n hn
      obtain rfl := List.mem_singleton.mp hn
      exact ⟨vfNode_projection q T frag, fun ht => absurd rfl ht⟩
    refine iff_of_true hnode ⟨fun hnil => ?_, fun hlen => by simp [hm] at hlen, fun hlen => by simp [hm] at hlen⟩
    rw [hm] at hnil
    cases hnil
  | several hlen =>
    have hbelow : contents ((vfOperands q T).map fun n => n.under ((sz + (vfOperands q T).length : Nat) : Int)) =
        contents (vfOperands q T) := by
      simp [contents, TreeNode.under]
    rw [contents_append, hbelow] at hC ⊢
    have hops : ∀ k n, (contents (vfOperands q T))[k]? = some n → C[sz + k]? = some n := by
      intro k n hn
      refine hC k n ?_
      rw [List.getElem?_append_left (List.getElem?_eq_some_iff.mp hn).1, hn]
    have htype : ∀ n ∈ vfOperands q T, n.type = .fragment := by
      intro n hn
      obtain ⟨F, -, projection, rfl⟩ := vfOperands_node hn
      rfl
    have hdelivered : ∀ a : String,
        (∃ j ∈ (vfJoinNode q T first (vfOperands q T) (sz + (vfOperands q T).length)).child,
          ∃ m, C[j]? = some m ∧ a ∈ m.output) ↔ ∃ m ∈ vfOperands q T, a ∈ m.output := by
      intro a
      have hiff := delivered_before hops a
      rw [contents_length] at hiff
      refine hiff.trans ?_
      simp [contents, output_under]
    have hleaves : (∀ n ∈ contents (vfOperands q T), Provided C n) ↔
        ∀ F ∈ T.frags.filter (vfMarked q T), ¬ ReadWhole q T F → T.key ∈ F.vfColumn := by
      have hnodes : (∀ n ∈ contents (vfOperands q T), Provided C n) ↔
          ∀ n ∈ vfOperands q T, ∀ a ∈ n.projection, a ∈ n.attr := by
        simp only [contents, List.forall_mem_map]
        refine forall₂_congr fun n hn => ⟨fun hp => hp.projection, fun hp => ⟨hp, fun ht => absurd (htype n hn) ht⟩⟩
      rw [hnodes, vfOperands, List.forall_mem_map]
      refine forall₂_congr fun F _ => ?_
      rw [keepKey_attr, keepKey_kept_iff]
    have hjoin : (∀ n ∈ contents [vfJoinNode q T first (vfOperands q T) (sz + (vfOperands q T).length)], Provided C n) ↔
        ∀ n ∈ vfOperands q T, ∀ a ∈ n.attr, ∃ m ∈ vfOperands q T, a ∈ m.output := by
      simp only [contents, List.forall_mem_map, List.forall_mem_singleton]
      constructor
      · intro hp n hn a ha
        exact (hdelivered a).mp (hp.attr NodeType.noConfusion a (mem_vfJoinNode_attr.mpr ⟨n, hn, ha⟩))
      · intro hall
        refine ⟨vfJoinNode_projection, fun _ a ha => (hdelivered a).mpr ?_⟩
        obtain ⟨n, hn, ha⟩ := mem_vfJoinNode_attr.mp ha
        exact hall n hn a ha
    rw [vfOperands_deliver_iff] at hjoin
    rw [List.forall_mem_append, hleaves, hjoin]
    constructor
    · rintro ⟨hkept, hcolumns⟩
      exact ⟨fun hnil => by simp [hnil] at hlen, fun _ => hkept, fun _ => hcolumns⟩
    · exact fun hv => ⟨hv.kept hlen, hv.columns hlen⟩

end

/-! ## Nodes of the scan -/

section
variable {q : Query} {Tables : List MetadataTable} {s : Scan} {C : List TreeNode} (hC : contents s.tr <+: C)
include hC

theorem VfBlock.provided_iff {T : MetadataTable} {sz : Nat} {first frag : Fragment} {below : List TreeNode}
    {top : TreeNode} (h : VfBlock q T s.tr sz first frag below top) :
    (∀ n ∈ contents (below ++ [top]), Provided C n) ↔ VfProvides q T := by
  refine h.shape.provided_iff h.head fun k n hn => prefix_getElem? hC ?_
  rw [contents_getElem?, Option.map_eq_some_iff] at hn
  obtain ⟨m, hm, rfl⟩ := hn
  rw [contents_getElem?, h.nodes k m hm]
  rfl

/-- The nodes of the scan are as they should be exactly if the vertically fragmented tables are. -/
theorem scanned_provided_iff (h : Scanned q Tables Tables s.tr) :
    (∀ n ∈ contents s.tr, Provided C n) ↔
      ∀ T ∈ Tables, T.name ∈ q.fromTable → T.type = .vf → VfProvides q T := by
  constructor
  · intro hall T hT hfrom htype
    obtain ⟨sz, first, frag, below, top, hb⟩ := h.blocks T hT hfrom htype
    refine (hb.provided_iff hC).mp fun n hn => hall n ?_
    obtain ⟨m, hm, rfl⟩ := List.mem_map.mp hn
    obtain ⟨k, hk⟩ := List.mem_iff_getElem?.mp hm
    exact List.mem_map_of_mem (List.mem_of_getElem? (hb.nodes k m hk))
  · intro hvf n hn
    obtain ⟨m, hm, rfl⟩ := List.mem_map.mp hn
    obtain ⟨i, hi⟩ := List.mem_iff_getElem?.mp hm
    cases h.nodes i m hi with
    | hf _ _ _ _ => exact ⟨hfNode_projection q _ _ _, fun ht => absurd rfl ht⟩
    | vf hT hfrom htype hb hk _ =>
      exact (hb.provided_iff hC).mpr (hvf _ hT hfrom htype) _ (List.mem_map_of_mem (List.mem_of_getElem? hk))

end

theorem scanned_join_attr {q : Query} {Tables : List MetadataTable} {tr : List TreeNode}
    (h : Scanned q Tables Tables tr) {n : TreeNode} (hn : n ∈ tr) (ht : n.type = .join) : n.attr ≠ [] := by
  obtain ⟨i, hi⟩ := List.mem_iff_getElem?.mp hn
  cases h.nodes i n hi with
  | hf _ _ _ _ => cases ht
  | @vf T sz k first frag below top _ hT hfrom htype hb hk hidx =>
    have hmem := List.mem_of_getElem? hk
    obtain ⟨hbelow, -⟩ := hb.shape.types
    obtain hmem | hmem := List.mem_append.mp hmem
    · exact NodeType.noConfusion (ht.symm.trans (hbelow n hmem))
    · obtain rfl := List.mem_singleton.mp hmem
      have hshape := hb.shape
      cases hshape with
      | key _ => cases ht
      | one _ _ => cases ht
      | several hlen =>
        obtain ⟨F, hF⟩ := List.exists_mem_of_length_pos (Nat.lt_of_lt_of_le Nat.zero_lt_two hlen)
        obtain ⟨a, ha, -⟩ := List.any_eq_true.mp (List.mem_filter.mp hF).2
        obtain ⟨projection, hnode⟩ := keepKey_eq T (vfNode q T F)
        have hcol : a ∈ (vfJoinNode q T first (vfOperands q T) (sz + (vfOperands q T).length)).attr :=
          mem_vfJoinNode_attr.mpr ⟨_, List.mem_map_of_mem hF, hnode ▸ ha⟩
        exact List.ne_nil_of_mem hcol

/-! ## Nodes of the join phase -/

theorem mem_getAttr {x y : TreeNode} {a : String} : a ∈ getAttr x y ↔ a ∈ x.output ∨ a ∈ y.output := by
  rw [getAttr, mem_sortUnique, List.mem_append]

theorem getProjection_subset {S attr : List String} {x a : String} (h : a ∈ getProjection S attr x) : a ∈ attr := by
  unfold getProjection at h
  split_ifs at h
  · cases h
  · exact List.mem_of_mem_filter h

theorem joinProjection_subset {S attr : List String} {c : JoinCell} {next : Option JoinCell} {a : String}
    (h : a ∈ joinProjection S attr c next) : a ∈ attr := by
  unfold joinProjection at h
  split_ifs at h
  · exact getProjection_subset (getProjection_subset h)
  · exact getProjection_subset h

section
variable {sc : Scan} {ok : FragName → Prop} {C : List TreeNode} {S : List String} {J : List JoinCell}

theorem OperandFor.provided {rel : String} {nums : List Int} {i : Nat} {n : TreeNode} (hnums : ∀ num, nums ≠ [num])
    (h : OperandFor sc ok C rel nums i) (hn : C[i]? = some n) : Provided C n := by
  cases h with
  | node _ => exact absurd rfl (hnums _)
  | @union _ _ site child attr _ hne hnode hchild hattr =>
    obtain rfl : unionNode site child attr = n := Option.some.inj (hnode.symm.trans hn)
    refine ⟨by simp [unionNode], fun _ a ha => ?_⟩
    have hcne : child ≠ [] := by
      rintro rfl
      exact hne (List.forall₂_nil_left_iff.mp hchild)
    have hlast := List.getLast?_eq_some_getLast hcne
    obtain ⟨m, hm, rfl⟩ := hattr _ hlast
    exact ⟨_, List.getLast_mem hcne, m, hm, ha⟩

theorem ChainFor.provided {plist : Pattern} {k i : Nat} {n : TreeNode} (h : ChainFor sc ok C S J plist (k + 1) i)
    (hn : C[i]? = some n) : Provided C n := by
  cases h with
  | @step _ l r _ _ _ c x y site _ _ _ _ _ hx hy hnode =>
    obtain rfl : joinNode site S c J[k + 1]? l r x y = n := Option.some.inj (hnode.symm.trans hn)
    refine ⟨fun a ha => joinProjection_subset ha, fun _ a ha => ?_⟩
    obtain ha | ha := mem_getAttr.mp ha
    · exact ⟨l, by simp [joinNode], x, hx, ha⟩
    · exact ⟨r, by simp [joinNode], y, hy, ha⟩

end

theorem rootNode_provided_iff {site : Int} {S : List String} {tr C : List TreeNode} (hC : contents tr <+: C) :
    Provided C (rootNode site S tr) ↔ ((rootAttr tr).length ≠ S.length → ∀ a ∈ S, a ∈ rootAttr tr) := by
  constructor
  · intro hp hlen a ha
    refine hp.projection a ?_
    rw [rootNode, if_pos hlen]
    exact ha
  · intro hsel
    refine ⟨fun a ha => ?_, fun _ a ha => ?_⟩
    · rw [rootNode] at ha
      dsimp only at ha
      split_ifs at ha with hlen
      · exact hsel hlen a ha
      · cases ha
    · obtain ⟨i, hi, n, hn, hout⟩ := mem_rootAttr.mp ha
      exact ⟨i, hi, n.under (-1), prefix_getElem? hC (by rw [contents_getElem?, hn]; rfl), hout⟩

/-- **The columns of every node come from its input** exactly if the vertically fragmented tables deliver theirs, no
fragment whose recorded node is a Join node is asked for twice, and several nodes left at the root deliver the selected
columns or as many columns as are selected. -/
theorem columns_provided_iff (Tables : List MetadataTable) (q : Query) (hname : (Tables.map MetadataTable.name).Nodup)
    (hnamed : ∀ T ∈ Tables, ∀ F ∈ T.frags, F.fname.table = T.name) (hpath : ∃ ch, Path ch q.join) (p : JoinPlan)
    (tr : List TreeNode) (t : Tree) (hp : planJoins Tables q = some p) (htr : buildForest p = some tr)
    (ht : buildQueryTree Tables q = some t) :
    (∀ n ∈ t.tr, Provided t.tr n) ↔
      (∀ T ∈ Tables, T.name ∈ p.query.fromTable → T.type = .vf → VfProvides p.query T) ∧
      (∀ x c, TreeNodeCall p x c → c.cpTr x = true → ∀ n, p.scan.tr[p.scan.mpTr x]? = some n → n.type ≠ .join) ∧
      (1 < (parentless tr).length → (remainingColumns Tables p).length ≠ p.query.selectAttr.length →
        ∀ a ∈ p.query.selectAttr, a ∈ remainingColumns Tables p) := by
  have hplan := planJoins_planned hp
  have hscan := scanTables_nodes hplan.scan
  obtain ⟨ch, hpath⟩ := hpath
  simp only [buildQueryTree, hp, htr, Option.bind_eq_bind, Option.bind_some, Option.some.injEq] at ht
  obtain ⟨cp, hg, -⟩ := buildForest_grows hplan.asks_valid htr
  rw [provided_contents, ← ht, contents_unionPhase, List.forall_mem_append]
  generalize hC : contents tr ++ (if 1 < (parentless tr).length then _ else []) = C
  have hpre : contents tr <+: C := ⟨_, hC⟩
  have hroot : (∀ m ∈ if 1 < (parentless tr).length then
        [rootNode (p.processSite.head?.getD 0) p.query.selectAttr tr] else [], Provided C m) ↔
      (1 < (parentless tr).length → (remainingColumns Tables p).length ≠ p.query.selectAttr.length →
        ∀ a ∈ p.query.selectAttr, a ∈ remainingColumns Tables p) := by
    have hperm := rootAttr_perm hplan hname hnamed hpath htr
    split_ifs with h
    · rw [List.forall_mem_singleton, rootNode_provided_iff hpre, hperm.length_eq]
      simp only [hperm.mem_iff]
      exact ⟨fun hs _ => hs, fun hs => hs h⟩
    · exact iff_of_true (by simp) fun h' => absurd h' h
  rw [hroot, ← and_assoc]
  refine and_congr_left' ?_
  rw [← scanned_provided_iff (hg.kept.trans hpre) hscan]
  constructor
  · intro hall
    refine ⟨fun n hn => hall n (hg.kept.subset hn), fun x c hcall hcp n hn hjoin => ?_⟩
    obtain ⟨-, -, hcopy⟩ := hg.calls x c hcall
    have hmem := hcopy hcp (n.under (-1)) (by rw [contents_getElem?, hn]; rfl)
    obtain ⟨a, ha⟩ := List.exists_mem_of_ne_nil _ (scanned_join_attr hscan (List.mem_of_getElem? hn) hjoin)
    obtain ⟨j, hj, -⟩ := (hall _ hmem).attr (fun hf => NodeType.noConfusion (hjoin.symm.trans hf)) a ha
    cases hj
  · rintro ⟨hsc, hfrag⟩ m hm
    obtain ⟨i, hi⟩ := List.mem_iff_getElem?.mp hm
    have hiC := prefix_getElem? hpre hi
    by_cases hlt : i < p.scan.tr.length
    · obtain ⟨n, hn⟩ : ∃ n, (contents p.scan.tr)[i]? = some n :=
        ⟨_, List.getElem?_eq_getElem (by rw [contents_length]; exact hlt)⟩
      obtain rfl : n = m := Option.some.inj ((prefix_getElem? hg.kept hn).symm.trans hi)
      exact hsc n (List.mem_of_getElem? hn)
    · have hi' := (List.getElem?_eq_some_iff.mp hi).1
      rw [contents_length] at hi'
      cases (hg.origin i (Nat.le_of_not_lt hlt) hi').mono hpre fun _ => id with
      | scanned h => exact absurd h hlt
      | @copied x n _ hx _ hn hnode =>
        obtain ⟨c, hcall, hcp⟩ := hx
        obtain rfl : { n with child := [] } = m := Option.some.inj (hnode.symm.trans hiC)
        refine ⟨(hsc n (List.mem_of_getElem? hn)).projection, fun ht => ?_⟩
        rw [contents_getElem?, Option.map_eq_some_iff] at hn
        obtain ⟨n₀, hn₀, rfl⟩ := hn
        obtain hf | hj := scanTables_types hplan.scan n₀ (List.mem_of_getElem? hn₀)
        · exact absurd hf ht
        · exact absurd hj.1 (hfrag x c hcall hcp n₀ hn₀)
      | union _ hnums hop => exact hop.provided hnums hiC
      | join hch _ => exact hch.provided hiC

/-- One vertical fragment of the customers is used, and everything selected reaches the root. -/
theorem bookOrdersCustomer_provided : ∃ t, buildQueryTree getMetadata bookOrdersCustomer = some t ∧
    ∀ n ∈ t.tr, Provided t.tr n := by
  have hrun : ((planJoins getMetadata bookOrdersCustomer).any fun p => (buildForest p).any fun tr =>
      (buildQueryTree getMetadata bookOrdersCustomer).isSome && (p.scan.tr.all fun n => n.type ≠ .join) &&
      (p.query.selectAttr.all fun a => a ∈ remainingColumns getMetadata p) &&
      getMetadata.all fun T => T.type = .hf || (T.frags.filter (vfMarked p.query T)).length = 1) = true := by
    decide +kernel
  simp only [Option.any_eq_true, Bool.and_eq_true, Bool.or_eq_true, List.all_eq_true, decide_eq_true_eq] at hrun
  obtain ⟨p, hp, tr, htr, ⟨⟨hsome, hscan⟩, hsel⟩, hvf⟩ := hrun
  obtain ⟨t, ht⟩ := Option.isSome_iff_exists.mp hsome
  refine ⟨t, ht, ?_⟩
  refine (columns_provided_iff getMetadata bookOrdersCustomer (by decide) (by decide) ⟨_, bookOrdersCustomer_path⟩ p tr t hp
    htr ht).mpr ⟨?_, ?_, ?_⟩
  · intro T hT _ htype
    have hone : (T.frags.filter (vfMarked p.query T)).length = 1 := by
      obtain h | h := hvf T hT
      · rw [htype] at h
        cases h
      · exact h
    refine ⟨fun hnil => ?_, fun hlen => by omega, fun hlen => by omega⟩
    rw [hnil] at hone
    cases hone
  · intro x c _ _ n hn
    exact hscan n (List.mem_of_getElem? hn)
  · exact fun _ _ => hsel

/-- The keys of the customers. -/
def customerIds : Query where
  fromTable := ["Customer"]
  selectAttr := ["Customer.id"]
  allAttr := ["Customer.id"]
  predicate := []
  join := []

/-- The node projects on the unqualified `id`, which is none of its columns. -/
theorem customerIds_not_provided : ∃ t, buildQueryTree getMetadata customerIds = some t ∧
    ¬ ∀ n ∈ t.tr, Provided t.tr n := by
  have hrun : ((buildQueryTree getMetadata customerIds).any fun t =>
      t.tr.any fun n => n.projection.any fun a => a ∉ n.attr) = true := by
    decide +kernel
  simp only [Option.any_eq_true, List.any_eq_true, decide_eq_true_eq] at hrun
  obtain ⟨t, ht, n, hn, a, ha, hout⟩ := hrun
  exact ⟨t, ht, fun hall => hout ((hall n hn).projection a ha)⟩

end EasyDDB.Optimizer
