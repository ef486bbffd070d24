import EasyDDB.Lib.Strings
import EasyDDB.Optimizer.Columns

/-! # Projection push-down

Fragment nodes project on the columns that are selected or joined, and every Join node drops the columns of its own
cell. On a path of joins nothing is dropped that is still needed: a cell above joins later tables, and the one column
two neighbouring cells can share is kept for the second. -/
namespace EasyDDB.Optimizer
set_option autoImplicit false

/-! ## Subtrees -/

/-- Node `j` is in the subtree of node `i`. -/
inductive Below (tr : List TreeNode) : Nat → Nat → Prop
  | self (i : Nat) : Below tr i i
  | step {i k j : Nat} {n : TreeNode} (hn : tr[i]? = some n) (hk : k ∈ n.child) (h : Below tr k j) : Below tr i j

/-- A fragment of the table is in the subtree. -/
def TableBelow (tr : List TreeNode) (i : Nat) (T : MetadataTable) : Prop :=
  ∃ j n, Below tr i j ∧ tr[j]? = some n ∧ n.type = .fragment ∧ n.fname.table = T.name

/-- The cell, turned either way, is joined in the subtree. -/
def AppliedBelow (tr : List TreeNode) (i : Nat) (c : JoinCell) : Prop :=
  ∃ j n, Below tr i j ∧ tr[j]? = some n ∧ n.type = .join ∧ n.join.edge = c.edge

theorem Below.closed {tr : List TreeNode} {D : Nat → Prop}
    (hD : ∀ i n, D i → tr[i]? = some n → ∀ k ∈ n.child, D k) {i j : Nat} (h : Below tr i j) (hi : D i) : D j := by
  induction h with
  | self i => exact hi
  | step hn hk _ ih => exact ih (hD _ _ hi hn _ hk)

theorem below_contents {tr : List TreeNode} {i j : Nat} : Below (contents tr) i j ↔ Below tr i j := by
  constructor
  · intro h
    induction h with
    | self i => exact .self i
    | step hn hk _ ih =>
      rw [contents_getElem?, Option.map_eq_some_iff] at hn
      obtain ⟨n, hn, rfl⟩ := hn
      exact .step hn hk ih
  · intro h
    induction h with
    | self i => exact .self i
    | @step i k j n hn hk _ ih => exact .step (n := n.under (-1)) (by rw [contents_getElem?, hn]; rfl) hk ih

/-- What is said of some node below without its parent does not depend on the parents. -/
theorem exists_below_contents {tr : List TreeNode} {i : Nat} {P : TreeNode → Prop} (hP : ∀ n, P (n.under (-1)) ↔ P n) :
    (∃ j n, Below (contents tr) i j ∧ (contents tr)[j]? = some n ∧ P n) ↔
      ∃ j n, Below tr i j ∧ tr[j]? = some n ∧ P n := by
  constructor
  · rintro ⟨j, n, hj, hn, hrest⟩
    rw [contents_getElem?, Option.map_eq_some_iff] at hn
    obtain ⟨n, hn, rfl⟩ := hn
    exact ⟨j, n, below_contents.mp hj, hn, (hP n).mp hrest⟩
  · rintro ⟨j, n, hj, hn, hrest⟩
    refine ⟨j, n.under (-1), below_contents.mpr hj, ?_, (hP n).mpr hrest⟩
    rw [contents_getElem?, hn]
    rfl

theorem tableBelow_contents {tr : List TreeNode} {i : Nat} {T : MetadataTable} :
    TableBelow (contents tr) i T ↔ TableBelow tr i T :=
  exists_below_contents fun _ => Iff.rfl

theorem appliedBelow_contents {tr : List TreeNode} {i : Nat} {c : JoinCell} :
    AppliedBelow (contents tr) i c ↔ AppliedBelow tr i c :=
  exists_below_contents fun _ => Iff.rfl

section
variable {sc : Scan} {ok : FragName → Prop} {C : List TreeNode}
  (hleaf : ∀ x n, ok x → (contents sc.tr)[sc.mpTr x]? = some n → n.child = [] ∧ n.fname = x)
include hleaf

theorem NodeFor.name_below {x : FragName} {i j : Nat} {n : TreeNode} (h : NodeFor sc ok C x i) (hj : Below C i j)
    (hn : C[j]? = some n) : n.fname = x ∧ ok x := by
  obtain ⟨m, hm, hc, hf⟩ : ∃ m, C[i]? = some m ∧ m.child = [] ∧ m.fname = x := by
    obtain ⟨hx, m, hm, ⟨-, hi⟩ | hi⟩ := h
    · exact ⟨m, hi, hleaf x m hx hm⟩
    · exact ⟨_, hi, rfl, (hleaf x m hx hm).2⟩
  cases hj with
  | self =>
    rw [hm] at hn
    cases hn
    exact ⟨hf, h.1⟩
  | step hi hk _ =>
    rw [hm] at hi
    cases hi
    rw [hc] at hk
    cases hk

theorem OperandFor.table_below {rel : String} {nums : List Int} {i j : Nat} {n : TreeNode}
    (h : OperandFor sc ok C rel nums i) (hj : Below C i j) (hn : C[j]? = some n) (ht : n.type = .fragment) :
    n.fname.table = rel ∧ ok n.fname := by
  cases h with
  | node h =>
    obtain ⟨hf, hx⟩ := h.name_below hleaf hj hn
    rw [hf]
    exact ⟨rfl, hx⟩
  | @union _ _ site child attr _ hne hnode hchild hattr =>
    cases hj with
    | self =>
      rw [hnode] at hn
      cases hn
      cases ht
    | step hi hk hj =>
      rw [hnode] at hi
      cases hi
      obtain ⟨num, -, hx⟩ := Pointwise.mem_left hchild hk
      obtain ⟨hf, hx⟩ := hx.name_below hleaf hj hn
      rw [hf]
      exact ⟨rfl, hx⟩

variable {S : List String} {J : List JoinCell} {plist : Pattern}

theorem ChainFor.table_below {k i j : Nat} {n : TreeNode} (h : ChainFor sc ok C S J plist k i) (hj : Below C i j)
    (hn : C[j]? = some n) (ht : n.type = .fragment) :
    (∃ m ≤ k, (relation J)[m]? = some n.fname.table) ∧ ok n.fname := by
  induction h with
  | start hrel _ hop =>
    obtain ⟨htab, hx⟩ := hop.table_below hleaf hj hn ht
    exact ⟨⟨0, le_rfl, htab ▸ hrel⟩, hx⟩
  | @step k l r i rel nums c x y site _ hrel _ hr hc hx hy hnode ih =>
    cases hj with
    | self =>
      rw [hnode] at hn
      cases hn
      cases ht
    | @step _ child _ _ hi hk hj =>
      rw [hnode] at hi
      cases hi
      have hcases : child = l ∨ child = r := by simpa [joinNode] using hk
      obtain rfl | rfl := hcases
      · obtain ⟨⟨m, hm, hrelm⟩, hx⟩ := ih hj
        exact ⟨⟨m, by omega, hrelm⟩, hx⟩
      · obtain ⟨htab, hx⟩ := hr.table_below hleaf hj hn ht
        exact ⟨⟨k + 1, le_rfl, htab ▸ hrel⟩, hx⟩

end

theorem ChainFor.applied {sc : Scan} {ok : FragName → Prop} {C : List TreeNode} {S : List String} {J : List JoinCell}
    {plist : Pattern} {k i : Nat} (h : ChainFor sc ok C S J plist k i) {m : Nat} {c : JoinCell} (hm : m < k)
    (hc : J[m]? = some c) : AppliedBelow C i c := by
  induction h with
  | start _ _ _ => cases hm
  | @step k l r i rel nums d x y site _ _ _ _ hd _ _ hnode ih =>
    obtain rfl | hlt := Nat.eq_or_lt_of_le (Nat.le_of_lt_succ hm)
    · obtain rfl : c = d := Option.some.inj (hc.symm.trans hd)
      exact ⟨i, _, .self i, hnode, rfl, rfl⟩
    · obtain ⟨j, n, hj, hn, hrest⟩ := ih hlt
      exact ⟨j, n, .step hnode (by simp [joinNode]) hj, hn, hrest⟩

/-! ## What a chain drops -/

theorem qualified_inj {t t' col col' : String} (ht : '.' ∉ t.toList) (ht' : '.' ∉ t'.toList)
    (h : t ++ "." ++ col = t' ++ "." ++ col') : t = t' := by
  rw [← beforeDot_qualified ht col, h, beforeDot_qualified ht']

/-- The next cell of the chain starts from the right column of this one. -/
def Continued (c : JoinCell) (next : Option JoinCell) : Prop := ∃ d ∈ next, c.right = d.left

/-- The Join node of a cell drops its left column if the next cell goes on from the right one, and otherwise both
columns; it drops nothing if it meets a selected column. -/
def Dropped (S : List String) (c : JoinCell) (next : Option JoinCell) (a : String) : Prop :=
  c.left ∉ S ∧ ((Continued c next ∧ a = c.left) ∨ (¬ Continued c next ∧ c.right ∉ S ∧ (a = c.left ∨ a = c.right)))

theorem Dropped.not_mem {S : List String} {c : JoinCell} {next : Option JoinCell} {a : String}
    (h : Dropped S c next a) : a ∉ S := by
  obtain ⟨hl, ⟨-, rfl⟩ | ⟨-, hr, rfl | rfl⟩⟩ := h
  · exact hl
  · exact hl
  · exact hr

theorem Dropped.column {S : List String} {c : JoinCell} {next : Option JoinCell} {a : String}
    (h : Dropped S c next a) : a = c.left ∨ a = c.right := by
  obtain ⟨-, ⟨-, hl⟩ | ⟨-, -, hlr⟩⟩ := h
  · exact .inl hl
  · exact hlr

theorem mem_getProjection {S attr : List String} {x a : String} :
    a ∈ getProjection S attr x ↔ a ∈ attr ∧ x ∉ S ∧ a ≠ x := by
  unfold getProjection
  split_ifs with hS <;> simp [hS]

theorem mem_joinProjection {S attr : List String} {c : JoinCell} {next : Option JoinCell} {a : String} :
    a ∈ joinProjection S attr c next ↔
      a ∈ attr ∧ ¬ Dropped S c next a ∧ c.left ∉ S ∧ (¬ Continued c next → c.right ∉ S) := by
  have hnext : (next.all fun d => c.right ≠ d.left) = true ↔ ¬ Continued c next := by
    cases next <;> simp [Continued]
  unfold joinProjection
  dsimp only
  rw [Dropped]
  by_cases hc : Continued c next
  · rw [if_neg (by rwa [hnext, not_not]), mem_getProjection]
    simp only [hc, true_and, not_true_eq_false, false_and, or_false, false_imp_iff, and_true, not_and]
    exact and_congr_right fun _ => ⟨fun h => ⟨fun _ => h.2, h.1⟩, fun h => ⟨h.2, h.1 h.2⟩⟩
  · rw [if_pos (hnext.mpr hc), mem_getProjection, mem_getProjection]
    simp only [hc, false_and, not_false_eq_true, true_and, false_or, true_imp_iff, not_and, not_or]
    constructor
    · rintro ⟨⟨ha, hl, hal⟩, hr, har⟩
      exact ⟨ha, fun _ _ => ⟨hal, har⟩, hl, hr⟩
    · rintro ⟨ha, hdrop, hl, hr⟩
      exact ⟨⟨ha, hl, (hdrop hl hr).1⟩, hr, (hdrop hl hr).2⟩

theorem mem_joinColumns {S l r : List String} {c : JoinCell} {next : Option JoinCell} {a : String} (h : a ∈ l ∨ a ∈ r)
    (hd : ¬ Dropped S c next a) : a ∈ joinColumns S l r c next := by
  have hattr : a ∈ sortUnique (l ++ r) := mem_sortUnique.mpr (List.mem_append.mpr h)
  unfold joinColumns
  dsimp only
  split_ifs with hnil
  · exact hattr
  · obtain ⟨b, hb⟩ := List.exists_mem_of_ne_nil _ hnil
    exact mem_joinProjection.mpr ⟨hattr, hd, (mem_joinProjection.mp hb).2.2⟩

section
variable {J : List JoinCell} (hchain : Chain J)
include hchain

theorem Chain.relation_getElem? {k : Nat} {c : JoinCell} (hc : J[k]? = some c) :
    (relation J)[k]? = some c.ltab ∧ (relation J)[k + 1]? = some c.rtab := by
  cases J with
  | nil => cases hc
  | cons d ds =>
    have hrel := relation_cons hchain.linked
    refine ⟨?_, by rw [hrel, List.getElem?_cons_succ, List.getElem?_map, hc]; rfl⟩
    have hlt : k < (d :: ds).length := (List.getElem?_eq_some_iff.mp hc).1
    rw [relation, List.getElem?_append_left (by rw [List.length_map]; exact hlt), List.getElem?_map, hc]
    rfl

theorem Chain.relation_inj {i j : Nat} {t : String} (hi : (relation J)[i]? = some t) (hj : (relation J)[j]? = some t) :
    i = j :=
  hchain.distinct.getElem_inj_iff.mp
    ((List.getElem?_eq_some_iff.mp hi).2.trans (List.getElem?_eq_some_iff.mp hj).2.symm)

variable (hdot : ∀ c ∈ J, '.' ∉ c.ltab.toList ∧ '.' ∉ c.rtab.toList)
include hdot

/-- Columns of a later cell are not columns of this one, but for the left column of the next. -/
theorem Chain.later_columns {k m : Nat} {c d : JoinCell} (hc : J[k]? = some c) (hd : J[m]? = some d) (hkm : k < m)
    {a : String} (ha : a = d.left ∨ a = d.right) :
    a ≠ c.left ∧ (a = c.right → J[k + 1]? = some d ∧ c.right = d.left) := by
  obtain ⟨hcl, hcr⟩ := hchain.relation_getElem? hc
  obtain ⟨hdl, hdr⟩ := hchain.relation_getElem? hd
  have hcdot := hdot c (List.mem_of_getElem? hc)
  have hddot := hdot d (List.mem_of_getElem? hd)
  obtain rfl | rfl := ha
  · constructor
    · intro h
      have heq := qualified_inj hddot.1 hcdot.1 h
      have := hchain.relation_inj hdl (heq ▸ hcl)
      omega
    · intro h
      have heq := qualified_inj hddot.1 hcdot.2 h
      have := hchain.relation_inj hdl (heq ▸ hcr)
      obtain rfl : m = k + 1 := by omega
      exact ⟨hd, h.symm⟩
  · constructor
    · intro h
      have heq := qualified_inj hddot.2 hcdot.1 h
      have := hchain.relation_inj hdr (heq ▸ hcl)
      omega
    · intro h
      have heq := qualified_inj hddot.2 hcdot.2 h
      have := hchain.relation_inj hdr (heq ▸ hcr)
      omega

omit hdot in
theorem Chain.not_dropped_kept {S : List String} {out : String → List String} {k m : Nat} (hk : k ≤ J.length)
    {rel a : String} (hm : m ≤ k) (hrel : (relation J)[m]? = some rel) (ha : a ∈ out rel)
    (hd : ∀ j c, m ≤ j + 1 → j < k → J[j]? = some c → ¬ Dropped S c J[j + 1]? a) : a ∈ chainColumns out S J k := by
  induction k with
  | zero =>
    obtain rfl : m = 0 := by omega
    rw [chainColumns, hrel]
    exact ha
  | succ k ih =>
    obtain ⟨c, hc⟩ : ∃ c, J[k]? = some c := ⟨_, List.getElem?_eq_getElem hk⟩
    have hnext := (hchain.relation_getElem? hc).2
    simp only [chainColumns, hc, hnext]
    refine mem_joinColumns ?_ (hd k c hm (by omega) hc)
    obtain rfl | hlt := Nat.eq_or_lt_of_le hm
    · rw [hnext] at hrel
      cases hrel
      exact .inr ha
    · exact .inl (ih (by omega) (by omega) fun j c hj hjk => hd j c hj (by omega))

/-- **Along the chain** the columns of the joined tables that are selected or belong to a later cell are kept. -/
theorem Chain.columns_kept {S : List String} {out : String → List String} {k m : Nat} (hk : k ≤ J.length) {rel a : String}
    (hm : m ≤ k) (hrel : (relation J)[m]? = some rel) (ha : a ∈ out rel)
    (hneed : a ∈ S ∨ ∃ j d, k ≤ j ∧ J[j]? = some d ∧ (a = d.left ∨ a = d.right)) : a ∈ chainColumns out S J k := by
  refine hchain.not_dropped_kept hk hm hrel ha fun i c _ hi hc hdrop => ?_
  obtain hS | ⟨j, d, hj, hd, had⟩ := hneed
  · exact hdrop.not_mem hS
  · obtain ⟨hleft, hright⟩ := hchain.later_columns hdot hc hd (by omega) had
    obtain ⟨-, ⟨-, hl⟩ | ⟨hcont, -, hl | hr⟩⟩ := hdrop
    · exact hleft hl
    · exact hleft hl
    · obtain ⟨hnext, hcd⟩ := hright hr
      exact hcont ⟨d, hnext, hcd⟩

end

/-! ## Every node -/

theorem mem_tableColumns_hf {q : Query} {T : MetadataTable} (htype : T.type = .hf) {a : String} (ha : a ∈ T.attrs)
    (hneed : needed q a = true) : a ∈ tableColumns q T := by
  rw [tableColumns, htype]
  have hmem := List.mem_filter.mpr ⟨ha, hneed⟩
  unfold keepSome
  dsimp only
  rw [if_neg (List.ne_nil_of_mem hmem)]
  exact hmem

theorem needed_iff {q : Query} {a : String} :
    needed q a = true ↔ a ∈ q.selectAttr ∨ ∃ c ∈ q.join, a = c.left ∨ a = c.right := by
  simp [needed, joinAttr]

theorem edge_columns {c d : JoinCell} (h : c.edge = d.edge) {a : String} (ha : a = c.left ∨ a = c.right) :
    a = d.left ∨ a = d.right := by
  obtain rfl | rfl := JoinCell.edge_eq_iff.mp h
  · exact ha
  · exact ha.symm

theorem Scanned.fragment {q : Query} {Tables : List MetadataTable} {tr : List TreeNode} (h : Scanned q Tables Tables tr)
    (hhf : ∀ T ∈ Tables, T.name ∈ q.fromTable → T.type = .hf) {i : Nat} {n : TreeNode} (hn : tr[i]? = some n) :
    n.child = [] ∧ ∃ T ∈ Tables, T.name ∈ q.fromTable ∧ (∃ F ∈ T.frags, n.fname = F.fname) ∧
      n.output = tableColumns q T := by
  cases h.nodes i n hn with
  | @hf T frag select hT hfrom htype hfrag =>
    refine ⟨rfl, T, hT, hfrom, ⟨frag, hfrag, rfl⟩, ?_⟩
    rw [hfNode_output, tableColumns, htype]
  | vf hT hfrom htype _ _ _ =>
    rw [hhf _ hT hfrom] at htype
    cases htype

theorem unionPhase_added {site : Int} {S : List String} {tr : List TreeNode} {i : Nat} {n : TreeNode}
    (hn : (unionPhase site S tr).tr[i]? = some n) (hi : tr.length ≤ i) :
    n.type = .union ∧ (i : Int) = (unionPhase site S tr).root := by
  have hlt := (List.getElem?_eq_some_iff.mp hn).1
  by_cases hlen : 1 < (parentless tr).length
  · rw [unionPhase_length site S hlen] at hlt
    obtain rfl : i = tr.length := by omega
    obtain ⟨u, hu, hut, -⟩ := unionPhase_getElem?_root site S hlen
    obtain rfl : u = n := Option.some.inj (hu.symm.trans hn)
    exact ⟨hut, (unionPhase_root site S hlen).symm⟩
  · rw [unionPhase_of_le site S (not_lt.mp hlen)] at hlt
    exact absurd hlt (not_lt.mpr hi)

section
variable {Tables : List MetadataTable} {q : Query} {p : JoinPlan} (hplan : Planned Tables q p)
  (hname : (Tables.map MetadataTable.name).Nodup) (hnamed : ∀ T ∈ Tables, ∀ F ∈ T.frags, F.fname.table = T.name)
  (hhf : ∀ T ∈ Tables, T.name ∈ q.fromTable → T.type = .hf)
include hplan hname hnamed hhf

theorem Planned.recorded_leaf {x : FragName} {n : TreeNode} (hx : Kept p.scan x)
    (hn : (contents p.scan.tr)[p.scan.mpTr x]? = some n) : n.child = [] ∧ n.fname = x := by
  refine ⟨?_, ((hplan.recorded_columns hname hnamed hx).2 n hn).1⟩
  rw [contents_getElem?, Option.map_eq_some_iff] at hn
  obtain ⟨m, hm, rfl⟩ := hn
  exact ((scanTables_nodes hplan.scan).fragment (hplan.query_fields.1 ▸ hhf) hm).1

theorem Planned.mem_columnsOf {x : FragName} (hx : Kept p.scan x) {T : MetadataTable} (hT : T ∈ Tables)
    (htab : x.table = T.name) {a : String} (ha : a ∈ T.attrs) (hneed : needed p.query a = true) :
    a ∈ columnsOf p.query Tables x.table := by
  obtain ⟨⟨T', hT', htab', hmem⟩, -⟩ := hplan.recorded_columns hname hnamed hx
  obtain rfl : T' = T := List.inj_on_of_nodup_map hname hT' hT (htab'.trans htab)
  rw [htab, columnsOf_name hname hT]
  exact mem_tableColumns_hf (hhf T' hT hmem) ha hneed

theorem Planned.scanned_kept {C : List TreeNode} (hC : contents p.scan.tr <+: C) {i : Nat} {n : TreeNode}
    (hi : i < p.scan.tr.length) (hn : C[i]? = some n) {T : MetadataTable} (hT : T ∈ Tables) (hbelow : TableBelow C i T)
    {a : String} (ha : a ∈ T.attrs) (hneed : needed p.query a = true) : a ∈ n.output := by
  obtain ⟨n₀, hn₀⟩ : ∃ n₀, p.scan.tr[i]? = some n₀ := ⟨_, List.getElem?_eq_getElem hi⟩
  have hat : C[i]? = some (n₀.under (-1)) := prefix_getElem? hC (by rw [contents_getElem?, hn₀]; rfl)
  obtain rfl : n₀.under (-1) = n := Option.some.inj (hat.symm.trans hn)
  have hfrom : ∀ T ∈ Tables, T.name ∈ p.query.fromTable → T.type = .hf := hplan.query_fields.1 ▸ hhf
  obtain ⟨hchild, T', hT', hmem, ⟨F, hF, hfF⟩, hcol⟩ := (scanTables_nodes hplan.scan).fragment hfrom hn₀
  obtain ⟨j, m, hj, hm, -, hmT⟩ := hbelow
  have hself : j = i := by
    cases hj with
    | self => rfl
    | step hi' hk _ =>
      rw [hat] at hi'
      cases hi'
      rw [show (n₀.under (-1)).child = [] from hchild] at hk
      cases hk
  subst hself
  obtain rfl : n₀.under (-1) = m := Option.some.inj (hat.symm.trans hm)
  have htab : T'.name = T.name := (hnamed T' hT' F hF).symm.trans ((congrArg FragName.table hfF).symm.trans hmT)
  obtain rfl : T' = T := List.inj_on_of_nodup_map hname hT' hT htab
  rw [output_under, hcol]
  exact mem_tableColumns_hf (hfrom T' hT hmem) ha hneed

/-- **The nodes of the join phase**: whatever the node is, needed columns of the tables below it are kept. -/
theorem Planned.origin_kept (hchain : Chain p.join)
    (hdot : ∀ c ∈ p.join, '.' ∉ c.ltab.toList ∧ '.' ∉ c.rtab.toList) {C : List TreeNode} {again : FragName → Prop}
    {i : Nat} {n : TreeNode} (horigin : Origin p.scan (Kept p.scan) C p.query.selectAttr p.join again i)
    (hi : ¬ i < p.scan.tr.length) (hn : C[i]? = some n) {T : MetadataTable} (hT : T ∈ Tables) (hbelow : TableBelow C i T)
    {a : String} (ha : a ∈ T.attrs) (hneeded : needed p.query a = true)
    (hneed : a ∈ p.query.selectAttr ∨ ∃ c ∈ p.join, ¬ AppliedBelow C i c ∧ (a = c.left ∨ a = c.right)) : a ∈ n.output := by
  have hleaf := fun x n => hplan.recorded_leaf hname hnamed hhf (x := x) (n := n)
  have hout := hplan.recorded_output hname hnamed
  obtain ⟨j, m, hj, hm, hmt, hmT⟩ := hbelow
  cases horigin with
  | scanned h => exact absurd h hi
  | @copied x n₀ _ _ hx hn₀ hnode =>
    have hfor : NodeFor p.scan (Kept p.scan) C x i := ⟨hx, n₀, hn₀, .inr hnode⟩
    obtain ⟨hf, -⟩ := hfor.name_below hleaf hj hm
    obtain ⟨n', hn', hcol⟩ := hfor.columns hout
    obtain rfl : n = n' := Option.some.inj (hn.symm.trans hn')
    rw [hcol]
    exact hplan.mem_columnsOf hname hnamed hhf hx hT (hf ▸ hmT) ha hneeded
  | union _ _ hop =>
    obtain ⟨htab, hx⟩ := hop.table_below hleaf hj hm hmt
    obtain ⟨n', hn', hcol⟩ := hop.columns hout
    obtain rfl : n = n' := Option.some.inj (hn.symm.trans hn')
    rw [hcol, ← htab]
    exact hplan.mem_columnsOf hname hnamed hhf hx hT hmT ha hneeded
  | @join plist k _ hch _ =>
    obtain ⟨⟨l, hl, hrel⟩, hx⟩ := hch.table_below hleaf hj hm hmt
    obtain ⟨n', hn', hcol⟩ := hch.columns hout
    obtain rfl : n = n' := Option.some.inj (hn.symm.trans hn')
    have hlen : k + 1 ≤ p.join.length := by
      cases hch with
      | step _ _ _ _ hc _ _ _ => exact (List.getElem?_eq_some_iff.mp hc).1
    rw [hcol]
    refine hchain.columns_kept hdot hlen hl hrel (hplan.mem_columnsOf hname hnamed hhf hx hT hmT ha hneeded)
      (hneed.imp_right ?_)
    rintro ⟨c, hc, hnot, hac⟩
    obtain ⟨e, he⟩ := List.mem_iff_getElem?.mp hc
    refine ⟨e, c, ?_, he, hac⟩
    by_contra hlate
    exact hnot (hch.applied (Nat.lt_of_not_le hlate) he)

end

/-- **Projection push-down never drops a needed column.** On a path of joins over horizontally fragmented tables, whose
first cell starts at an end and whose table names contain no dot, every node but the Union node at the root delivers
every column of the tables below it that is selected or belongs to a cell not yet joined. -/
theorem needed_columns_kept (Tables : List MetadataTable) (q : Query) (hname : (Tables.map MetadataTable.name).Nodup)
    (hnamed : ∀ T ∈ Tables, ∀ F ∈ T.frags, F.fname.table = T.name)
    (hhf : ∀ T ∈ Tables, T.name ∈ q.fromTable → T.type = .hf) (ch : List JoinCell) (hpath : Path ch q.join)
    (hend : (relation ch).head? = q.join.head?.map JoinCell.ltab ∨
      (relation ch).getLast? = q.join.head?.map JoinCell.ltab)
    (hdot : ∀ c ∈ q.join, '.' ∉ c.ltab.toList ∧ '.' ∉ c.rtab.toList)
    (p : JoinPlan) (t : Tree) (hp : planJoins Tables q = some p) (ht : buildQueryTree Tables q = some t) :
    ∀ (i : Nat) (n : TreeNode), t.tr[i]? = some n → (n.type = .union → (i : Int) ≠ t.root) →
      ∀ T ∈ Tables, TableBelow t.tr i T →
      ∀ a ∈ T.attrs, (a ∈ p.query.selectAttr ∨ ∃ c ∈ q.join, ¬ AppliedBelow t.tr i c ∧ (a = c.left ∨ a = c.right)) →
        a ∈ n.output := by
  have hplan := planJoins_planned hp
  have hjoin : p.query.join = q.join := hplan.query_fields.2.2
  have hchain : Chain p.join := by
    rw [hplan.join, hjoin]
    exact hpath.chain_sortJoin hend
  have hdot' : ∀ c ∈ p.join, '.' ∉ c.ltab.toList ∧ '.' ∉ c.rtab.toList := by
    intro c hc
    obtain ⟨d, hd, rfl | rfl⟩ := hplan.cell_of_query hc
    · exact hdot c hd
    · exact (hdot d hd).symm
  obtain ⟨tr, htr, ht⟩ := buildQueryTree_forest hp ht
  obtain ⟨cp, hg, -⟩ := buildForest_grows (hplan.asks_kept hnamed hpath) htr
  have hpre : contents tr <+: contents t.tr := by
    rw [← ht, contents_unionPhase]
    exact List.prefix_append _ _
  intro i n hn hroot T hT hbelow a ha hneed
  rw [← tableBelow_contents] at hbelow
  have hiC : (contents t.tr)[i]? = some (n.under (-1)) := by
    rw [contents_getElem?, hn]
    rfl
  have hlt : i < tr.length := by
    by_contra hge
    rw [← ht] at hn
    obtain ⟨hu, hi⟩ := unionPhase_added hn (Nat.le_of_not_lt hge)
    exact hroot hu (ht ▸ hi)
  have hneeded : needed p.query a = true := by
    rw [needed_iff, hjoin]
    exact hneed.imp_right fun ⟨c, hc, _, hac⟩ => ⟨c, hc, hac⟩
  have hneed' : a ∈ p.query.selectAttr ∨
      ∃ c ∈ p.join, ¬ AppliedBelow (contents t.tr) i c ∧ (a = c.left ∨ a = c.right) := by
    refine hneed.imp_right ?_
    rintro ⟨c, hc, hnot, hac⟩
    obtain ⟨d, hd, heq⟩ := List.mem_map.mp (hplan.edges_perm.mem_iff.mpr (List.mem_map_of_mem hc))
    refine ⟨d, hd, fun happ => hnot ?_, edge_columns heq.symm hac⟩
    obtain ⟨j, m, hj, hm, hjt, hje⟩ := appliedBelow_contents.mp happ
    exact ⟨j, m, hj, hm, hjt, hje.trans heq⟩
  rw [← output_under n (-1)]
  by_cases hsc : i < p.scan.tr.length
  · exact hplan.scanned_kept hname hnamed hhf (hg.kept.trans hpre) hsc hiC hT hbelow ha hneeded
  · exact hplan.origin_kept hname hnamed hhf hchain hdot'
      ((hg.origin i (Nat.le_of_not_lt hsc) hlt).mono hpre fun _ => id) hsc hiC hT hbelow ha hneeded hneed'

/-- `select Book.title, Orders.quantity from Book, Orders where Book.id = Orders.book_id`. -/
def bookOrders : Query where
  fromTable := ["Book", "Orders"]
  selectAttr := ["Book.title", "Orders.quantity"]
  allAttr := ["Book.id", "Book.title", "Orders.book_id", "Orders.quantity"]
  predicate := []
  join := [⟨"Book", "id", "Orders", "book_id"⟩]

theorem bookOrders_path : Path bookOrders.join bookOrders.join := ⟨⟨by simp [bookOrders], by decide⟩, .refl _⟩

theorem bookOrders_columns_kept : ∃ p t, planJoins getMetadata bookOrders = some p ∧
    buildQueryTree getMetadata bookOrders = some t ∧ ∀ (i : Nat) (n : TreeNode), t.tr[i]? = some n →
      (n.type = .union → (i : Int) ≠ t.root) → ∀ T ∈ getMetadata, TableBelow t.tr i T → ∀ a ∈ T.attrs,
        (a ∈ p.query.selectAttr ∨ ∃ c ∈ bookOrders.join, ¬ AppliedBelow t.tr i c ∧ (a = c.left ∨ a = c.right)) →
          a ∈ n.output := by
  have hrun : ((planJoins getMetadata bookOrders).any fun _ => (buildQueryTree getMetadata bookOrders).isSome) = true := by
    decide +kernel
  rw [Option.any_eq_true] at hrun
  obtain ⟨p, hp, hsome⟩ := hrun
  obtain ⟨t, ht⟩ := Option.isSome_iff_exists.mp hsome
  exact ⟨p, t, hp, ht, needed_columns_kept getMetadata bookOrders (by decide) (by decide) (by decide) bookOrders.join
    bookOrders_path (.inl rfl) (by decide) p t hp ht⟩

/-- A table `A.b` with a column `c` and a table `A` with a column `b.c`. -/
def dottedCatalog : List MetadataTable :=
  [⟨"A.b", .hf, "c", [hfFragment "A.b" 1 10 [condLt "A.b" "c" 100]], ["A.b.c"]⟩,
    ⟨"A", .hf, "k", [hfFragment "A" 1 10 [condLt "A" "k" 100]], ["A.k", "A.b.c", "A.v"]⟩,
    ⟨"X", .hf, "e", [hfFragment "X" 1 10 [condLt "X" "e" 100]], ["X.e"]⟩]

def dottedJoin : Query where
  fromTable := ["A.b", "A", "X"]
  selectAttr := ["A.v"]
  allAttr := ["A.b.c", "A.k", "A.v", "X.e"]
  predicate := []
  join := [⟨"A.b", "c", "A", "k"⟩, ⟨"A", "b.c", "X", "e"⟩]

/-- The two columns have one qualified name: the Join node of the first cell drops the column of the second. -/
theorem dottedJoin_drops_column : (dottedCatalog.map MetadataTable.name).Nodup ∧
    (∀ T ∈ dottedCatalog, T.type = .hf ∧ ∀ F ∈ T.frags, F.fname.table = T.name) ∧
    Path dottedJoin.join dottedJoin.join ∧ (relation dottedJoin.join).head? = dottedJoin.join.head?.map JoinCell.ltab ∧
    ∃ t, buildQueryTree dottedCatalog dottedJoin = some t ∧ ∃ (i : Nat) (n : TreeNode), t.tr[i]? = some n ∧
      n.type = .join ∧ ∃ T ∈ dottedCatalog, TableBelow t.tr i T ∧ ∃ a ∈ T.attrs, ∃ c ∈ dottedJoin.join,
        ¬ AppliedBelow t.tr i c ∧ a = c.left ∧ a ∉ n.output := by
  refine ⟨by decide, by decide, ⟨⟨by simp [dottedJoin], by decide⟩, .refl _⟩, rfl, ?_⟩
  have hrun : ((buildQueryTree dottedCatalog dottedJoin).any fun t =>
      (t.tr[3]?).any (fun n => n.type = .join && 1 ∈ n.child && "A.b.c" ∉ n.output) &&
      (t.tr[1]?).any (fun m => m.type = .fragment && m.fname.table = "A") &&
      ([0, 1, 3] : List Nat).all fun i => (t.tr[i]?).all fun m => (m.child.all fun k => k ∈ [0, 1, 3]) &&
        m.join ≠ ⟨"A", "b.c", "X", "e"⟩ && m.join ≠ ⟨"X", "e", "A", "b.c"⟩) = true := by
    decide +kernel
  simp only [Option.any_eq_true, Bool.and_eq_true, List.all_eq_true, Option.all_eq_true, decide_eq_true_eq] at hrun
  obtain ⟨t, ht, ⟨⟨n, hn, ⟨hjoin, hchild⟩, hout⟩, m, hm, hmt, hmtab⟩, hclosed⟩ := hrun
  refine ⟨t, ht, 3, n, hn, hjoin, _, List.mem_cons_of_mem _ (List.mem_cons_self ..),
    ⟨1, m, .step hn hchild (.self 1), hm, hmt, hmtab⟩, "A.b.c", by decide, ⟨"A", "b.c", "X", "e"⟩, by decide, ?_, by decide,
    hout⟩
  rintro ⟨j, n', hj, hn', -, hedge⟩
  have hD : j ∈ [0, 1, 3] := hj.closed (D := fun i => i ∈ [0, 1, 3])
    (fun i m hi hm k hk => (hclosed i hi m hm).1.1 k hk) (by decide)
  obtain ⟨⟨-, hne⟩, hne'⟩ := hclosed j hD n' hn'
  obtain h | h := JoinCell.edge_eq_iff.mp hedge
  · exact hne h
  · exact hne' h

end EasyDDB.Optimizer
