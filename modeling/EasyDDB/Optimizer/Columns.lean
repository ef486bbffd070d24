import EasyDDB.Lib.Pointwise
import EasyDDB.Optimizer.ScanNodes
import EasyDDB.Optimizer.Single

/-! # The columns nodes deliver

The nodes recorded for the fragments of one table all deliver the same list of columns, so does every Union node over
them, and the Join nodes of a chain deliver a list that depends on their position in the chain only. -/
namespace EasyDDB.Optimizer
set_option autoImplicit false

/-! ## Columns of a table -/

/-- The entries that pass a test; an empty list stands for all entries. -/
def keepSome (p : String → Bool) (l : List String) : List String := if l.filter p = [] then l else l.filter p

/-- What the nodes recorded for a table deliver. -/
def tableColumns (q : Query) (T : MetadataTable) : List String :=
  match T.type with
  | .hf => keepSome (needed q) T.attrs
  | .vf =>
    match T.frags.filter (vfMarked q T) with
    | [] => [T.keyColumn]
    | [frag] => keepSome (fun x => x ∈ q.allAttr ∧ needed q x) frag.vfColumn
    | marked => keepSome (needed q) (sortUnique (marked.reverse.flatMap Fragment.vfColumn))

theorem output_eq_keepSome {n : TreeNode} {p : String → Bool}
    (h : n.projection = n.attr.filter p ∨ (n.projection = [] ∧ n.attr.filter p = n.attr)) :
    n.output = keepSome p n.attr := by
  unfold TreeNode.output keepSome
  obtain h | ⟨h, hall⟩ := h
  · simp only [h]
  · simp only [h, hall, if_true, ite_self]

theorem hfNode_output (q : Query) (T : MetadataTable) (frag : Fragment) (select : List Condition) :
    (hfNode q T frag select).output = keepSome (needed q) T.attrs := by
  refine output_eq_keepSome ?_
  simp only [hfNode]
  split_ifs with hlen
  · exact .inr ⟨rfl, List.Sublist.eq_of_length List.filter_sublist hlen⟩
  · exact .inl rfl

theorem vfNode_output (q : Query) (T : MetadataTable) (frag : Fragment) :
    (vfNode q T frag).output = keepSome (fun x => x ∈ q.allAttr ∧ needed q x) frag.vfColumn := by
  refine output_eq_keepSome ?_
  simp only [vfNode]
  split_ifs with heq
  · exact .inl rfl
  · exact .inr ⟨rfl, (not_not.mp heq).symm⟩

theorem vfJoinNode_output (q : Query) (T : MetadataTable) (first : Fragment) (sz : Nat) :
    (vfJoinNode q T first (vfOperands q T) sz).output =
      keepSome (needed q) (sortUnique ((T.frags.filter (vfMarked q T)).reverse.flatMap Fragment.vfColumn)) := by
  have hattr : (vfJoinNode q T first (vfOperands q T) sz).attr =
      sortUnique ((T.frags.filter (vfMarked q T)).reverse.flatMap Fragment.vfColumn) := by
    simp only [vfJoinNode, vfOperands, ← List.map_reverse, List.flatMap_map]
    refine congrArg sortUnique (List.flatMap_congr fun F _ => ?_)
    obtain ⟨projection, hnode⟩ := keepKey_eq T (vfNode q T F)
    rw [hnode]
    rfl
  rw [← hattr]
  refine output_eq_keepSome ?_
  simp only [vfJoinNode]
  split_ifs with heq
  · exact .inr ⟨rfl, heq⟩
  · exact .inl rfl

theorem VfShape.top_output {q : Query} {T : MetadataTable} {first frag : Fragment} {sz : Nat} {below : List TreeNode}
    {top : TreeNode} (htype : T.type = .vf) (h : VfShape q T first sz frag below top) :
    top.output = tableColumns q T := by
  cases h with
  | key hm => simp [tableColumns, htype, hm, TreeNode.output, vfKeyNode]
  | one frag hm =>
    rw [vfNode_output]
    simp [tableColumns, htype, hm]
  | several hlen =>
    rw [vfJoinNode_output, tableColumns, htype]
    generalize T.frags.filter (vfMarked q T) = marked at hlen ⊢
    cases marked with
    | nil => cases hlen
    | cons F marked =>
      cases marked with
      | nil => simp at hlen
      | cons G marked => rfl

theorem VfShape.top_fname {q : Query} {T : MetadataTable} {first frag : Fragment} {sz : Nat} {below : List TreeNode}
    {top : TreeNode} (h : VfShape q T first sz frag below top) : top.fname = frag.fname := by
  cases h <;> rfl

/-- A scanned node without a parent is the node of a fragment of some table and delivers the table's columns. -/
theorem Scanned.root_columns {q : Query} {Tables : List MetadataTable} {tr : List TreeNode}
    (h : Scanned q Tables Tables tr) {i : Nat} {n : TreeNode} (hn : tr[i]? = some n) (hp : n.parent = -1) :
    ∃ T ∈ Tables, T.name ∈ q.fromTable ∧ (∃ F ∈ T.frags, n.fname = F.fname) ∧ n.output = tableColumns q T := by
  cases h.nodes i n hn with
  | @hf T frag select hT hfrom htype hfrag =>
    refine ⟨T, hT, hfrom, ⟨frag, hfrag, rfl⟩, ?_⟩
    rw [hfNode_output, tableColumns, htype]
  | @vf T sz k first frag below top _ hT hfrom htype hb hk hi =>
    have htop : n = top := by
      obtain hmem | hmem := List.mem_append.mp (List.mem_of_getElem? hk)
      · have hshape := hb.shape
        cases hshape with
        | key _ => cases hmem
        | one _ _ => cases hmem
        | several _ =>
          obtain ⟨m, -, rfl⟩ := List.mem_map.mp hmem
          simp only [TreeNode.under] at hp
          omega
      · exact List.mem_singleton.mp hmem
    subst htop
    exact ⟨T, hT, hfrom, ⟨frag, hb.shape.mem_frags hb.head, hb.shape.top_fname⟩, hb.shape.top_output htype⟩

/-- The columns the catalog has for a table of the query. -/
def columnsOf (q : Query) (Tables : List MetadataTable) (rel : String) : List String :=
  ((findTable Tables rel).map (tableColumns q)).getD []

theorem columnsOf_name {q : Query} {Tables : List MetadataTable} (hname : (Tables.map MetadataTable.name).Nodup)
    {T : MetadataTable} (hT : T ∈ Tables) : columnsOf q Tables T.name = tableColumns q T := by
  rw [columnsOf, findTable_of_mem hname hT]
  rfl

/-- **The node recorded for a kept fragment** carries its name and delivers the columns of its table. -/
theorem Planned.recorded_columns {Tables : List MetadataTable} {q : Query} {p : JoinPlan} (hplan : Planned Tables q p)
    (hname : (Tables.map MetadataTable.name).Nodup)
    (hnamed : ∀ T ∈ Tables, ∀ F ∈ T.frags, F.fname.table = T.name) {x : FragName} (hx : Kept p.scan x) :
    (∃ T ∈ Tables, T.name = x.table ∧ T.name ∈ q.fromTable) ∧
      ∀ n, (contents p.scan.tr)[p.scan.mpTr x]? = some n → n.fname = x ∧ n.output = columnsOf p.query Tables x.table := by
  obtain ⟨t, X, hX, rfl⟩ := hx
  obtain ⟨m, hm, hp, hf⟩ := (scanTables_forest hplan.scan).recorded t X hX
  obtain ⟨T, hT, hfrom, ⟨F, hF, hfF⟩, hout⟩ := (scanTables_nodes hplan.scan).root_columns hm hp
  have htab : X.fname.table = T.name := by rw [← hf, hfF, hnamed T hT F hF]
  refine ⟨⟨T, hT, htab.symm, hplan.query_fields.1 ▸ hfrom⟩, fun n hn => ?_⟩
  obtain rfl : m.under (-1) = n := by
    rw [contents_getElem?, hm] at hn
    exact Option.some.inj hn
  refine ⟨hf, ?_⟩
  rw [output_under, hout, htab, columnsOf_name hname hT]

theorem Planned.recorded_output {Tables : List MetadataTable} {q : Query} {p : JoinPlan} (hplan : Planned Tables q p)
    (hname : (Tables.map MetadataTable.name).Nodup) (hnamed : ∀ T ∈ Tables, ∀ F ∈ T.frags, F.fname.table = T.name) :
    ∀ x n, Kept p.scan x → (contents p.scan.tr)[p.scan.mpTr x]? = some n →
      n.output = columnsOf p.query Tables x.table :=
  fun _ n hx hn => ((hplan.recorded_columns hname hnamed hx).2 n hn).2

/-! ## Columns along a chain -/

/-- What a Join node over two nodes delivers. -/
def joinColumns (S l r : List String) (c : JoinCell) (next : Option JoinCell) : List String :=
  let projection := joinProjection S (sortUnique (l ++ r)) c next
  if projection = [] then sortUnique (l ++ r) else projection

/-- What the node that joins the first `k + 1` tables of a chain delivers. -/
def chainColumns (out : String → List String) (S : List String) (J : List JoinCell) : Nat → List String
  | 0 => ((relation J)[0]?.map out).getD []
  | k + 1 =>
    match J[k]?, (relation J)[k + 1]? with
    | some c, some rel => joinColumns S (chainColumns out S J k) (out rel) c J[k + 1]?
    | _, _ => []

theorem joinNode_output (site : Int) (S : List String) (c : JoinCell) (next : Option JoinCell) (l r : Nat)
    (x y : TreeNode) : (joinNode site S c next l r x y).output = joinColumns S x.output y.output c next := rfl

section
variable {sc : Scan} {ok : FragName → Prop} {C : List TreeNode} {out : String → List String}
  (hout : ∀ x n, ok x → (contents sc.tr)[sc.mpTr x]? = some n → n.output = out x.table)
include hout

theorem NodeFor.columns {x : FragName} {i : Nat} (h : NodeFor sc ok C x i) : ∃ n, C[i]? = some n ∧ n.output = out x.table := by
  obtain ⟨hx, n, hn, ⟨-, hi⟩ | hi⟩ := h
  · exact ⟨n, hi, hout x n hx hn⟩
  · exact ⟨_, hi, hout x n hx hn⟩

theorem OperandFor.columns {rel : String} {nums : List Int} {i : Nat} (h : OperandFor sc ok C rel nums i) :
    ∃ n, C[i]? = some n ∧ n.output = out rel := by
  cases h with
  | node h => exact h.columns hout
  | @union _ _ site child attr _ hne hnode hchild hattr =>
    refine ⟨_, hnode, ?_⟩
    have hcne : child ≠ [] := by
      rintro rfl
      exact hne (List.forall₂_nil_left_iff.mp hchild)
    obtain ⟨m, hm, rfl⟩ := hattr _ (List.getLast?_eq_some_getLast hcne)
    obtain ⟨num, -, hlast⟩ := Pointwise.mem_left hchild (List.getLast_mem hcne)
    obtain ⟨m', hm', hcol⟩ := hlast.columns hout
    obtain rfl : m = m' := Option.some.inj (hm.symm.trans hm')
    exact hcol

theorem ChainFor.columns {S : List String} {J : List JoinCell} {plist : Pattern} {k i : Nat}
    (h : ChainFor sc ok C S J plist k i) : ∃ n, C[i]? = some n ∧ n.output = chainColumns out S J k := by
  induction h with
  | start hrel _ hop =>
    obtain ⟨n, hn, hcol⟩ := hop.columns hout
    refine ⟨n, hn, ?_⟩
    rw [hcol, chainColumns, hrel]
    rfl
  | @step k l r i rel nums c x y site _ hrel _ hr hc hx hy hnode ih =>
    refine ⟨_, hnode, ?_⟩
    obtain ⟨x', hx', hxcol⟩ := ih
    obtain ⟨y', hy', hycol⟩ := hr.columns hout
    obtain rfl : x = x' := Option.some.inj (hx.symm.trans hx')
    obtain rfl : y = y' := Option.some.inj (hy.symm.trans hy')
    rw [joinNode_output, hxcol, hycol]
    simp only [chainColumns, hc, hrel]

theorem ChainFor.node_output {S : List String} {J : List JoinCell} {plist : Pattern} {k i : Nat}
    (h : ChainFor sc ok C S J plist k i) (n : TreeNode) (hn : C[i]? = some n) : n.output = chainColumns out S J k := by
  obtain ⟨m, hm, hcols⟩ := h.columns hout
  obtain rfl : n = m := Option.some.inj (hn.symm.trans hm)
  exact hcols

end

end EasyDDB.Optimizer
