import EasyDDB.Optimizer.NodeReuse
import EasyDDB.Optimizer.RowMeaning

/-! # The rows of the nodes

However the tables are fragmented, the node recorded for a fragment delivers rows in the columns of its table. Where no
Join node is handed out twice, the top of a pattern delivers the joins of these rows. -/
namespace EasyDDB.Optimizer
open Arena
open scoped List
set_option autoImplicit false

/-! ## Rows within columns -/

/-- The row has values in the columns `cols` only. -/
def Within (cols : List String) (r : Row) : Prop := ∀ a, r a ≠ none → a ∈ cols

theorem within_project (cols : List String) (r : Row) : Within cols (Row.project cols r) := by
  intro a ha
  by_contra hnot
  exact ha (if_neg hnot)

theorem Within.project_eq {cols : List String} {r : Row} (h : Within cols r) : Row.project cols r = r := by
  funext a
  by_cases ha : a ∈ cols
  · exact if_pos ha
  · rw [Row.project, if_neg ha]
    exact (not_not.mp (mt (h a) ha)).symm

theorem Within.mono {cols cols' : List String} {r : Row} (h : Within cols r) (hsub : ∀ a ∈ cols, a ∈ cols') :
    Within cols' r :=
  fun a ha => hsub a (h a ha)

/-- A Fragment or Join node delivers rows in its columns. -/
theorem evalNode_within {db : Placement} {C : List TreeNode} {i : Nat} {n : TreeNode} (hn : C[i]? = some n)
    (ht : n.type ≠ .union) (fuel : Nat) : ∀ r ∈ evalNode (rowSemantics db) C fuel i, Within n.output r := by
  intro r hr
  cases fuel with
  | zero => cases hr
  | succ fuel =>
    cases htype : n.type with
    | fragment =>
      rw [evalNode_fragment _ fuel hn htype] at hr
      obtain ⟨r', -, rfl⟩ := List.mem_map.mp hr
      exact within_project _ _
    | union => exact absurd htype ht
    | join =>
      rw [evalNode_join _ fuel hn htype] at hr
      obtain ⟨r', -, rfl⟩ := List.mem_map.mp hr
      exact within_project _ _

section
variable {c : JoinCell} {cols : List String}

theorem joinRows_eq_nil_left {ls : List Row} (hl : ∀ r ∈ ls, Within cols r) (h : c.left ∉ cols) (rs : List Row) :
    joinRows c ls rs = [] := by
  refine List.flatMap_eq_nil_iff.mpr fun l hmem => List.map_eq_nil_iff.mpr (List.filter_eq_nil_iff.mpr fun r _ hsame => ?_)
  obtain ⟨k, hk, -⟩ := sameValue_iff.mp hsame
  exact h (hl l hmem _ (by rw [hk]; exact Option.some_ne_none k))

theorem joinRows_eq_nil_right {rs : List Row} (hr : ∀ r ∈ rs, Within cols r) (h : c.right ∉ cols) (ls : List Row) :
    joinRows c ls rs = [] := by
  refine List.flatMap_eq_nil_iff.mpr fun l _ => List.map_eq_nil_iff.mpr (List.filter_eq_nil_iff.mpr fun r hmem hsame => ?_)
  obtain ⟨k, -, hk⟩ := sameValue_iff.mp hsame
  exact h (hr r hmem _ (by rw [hk]; exact Option.some_ne_none k))

end

/-! ## Enough fuel -/

/-- In a forest, as many levels as there are nodes give the value of a node. -/
theorem evalNode_stable {α : Type} {sem : Semantics α} {tr : List TreeNode} (h : Forested tr) {i fuel : Nat}
    (hi : i < tr.length) (hfuel : tr.length ≤ fuel) : evalNode sem tr fuel i = evalNode sem tr tr.length i := by
  have heval : ∀ fuel, evalNode sem tr fuel = bottomUp (evalLevel sem tr) [] fuel := by
    intro fuel
    induction fuel with
    | zero => rfl
    | succ fuel ih =>
      funext i
      rw [bottomUp, ← ih]
      rfl
  have hlocal : ∀ i < tr.length, ∀ g g' : Nat → List α, (∀ c, Up TreeNode.parent tr c i → g c = g' c) →
      evalLevel sem tr i g = evalLevel sem tr i g' := by
    intro i _ g g' hg
    cases hn : tr[i]? with
    | none => simp only [evalLevel, hn]
    | some n =>
      have hmap : n.child.map g = n.child.map g' := List.map_congr_left fun c hc => hg c (h.child i n hn c hc)
      simp only [evalLevel, hn, hmap]
  rw [heval, heval]
  have hle : (below TreeNode.parent tr i).card ≤ tr.length := card_below_le i
  exact bottomUp_stable (fun i _ => h.acyclic i) hlocal hi (hle.trans hfuel) hle

/-! ## Nodes of the scan -/

/-- The rows that a node of the scan delivers. -/
def nodeRows (db : Placement) (s : Scan) (i : Nat) : List Row := evalNode (rowSemantics db) s.tr 2 i

/-- The rows that the recorded node of a fragment delivers, with the name of the table. -/
def fragmentRows (db : Placement) (s : Scan) (x : FragName) : List (String × Row) :=
  (nodeRows db s (s.mpTr x)).map fun r => (x.table, r)

theorem fragmentRows_tagged (db : Placement) (s : Scan) : TaggedRows (fragmentRows db s) := by
  intro x b hb
  obtain ⟨r, -, rfl⟩ := List.mem_map.mp hb
  rfl

/-- The Join nodes of the scan are over Fragment nodes. -/
theorem Scanned.join_child {q : Query} {Tables : List MetadataTable} {tr : List TreeNode}
    (h : Scanned q Tables Tables tr) {i : Nat} {n : TreeNode} (hn : tr[i]? = some n) (ht : n.type = .join) :
    ∀ j ∈ n.child, ∃ m, tr[j]? = some m ∧ m.type = .fragment := by
  cases h.nodes i n hn with
  | hf => cases ht
  | @vf T sz k first frag below top n hT hfrom htype hblock hk hi =>
    have hfrag := hblock.shape.types.1
    obtain hmem | ⟨-, rfl⟩ := getElem?_concat_cases hk
    · exact absurd ht (by rw [hfrag n (List.mem_of_getElem? hmem)]; decide)
    · have hnodes := hblock.nodes
      cases hblock.shape with
      | key => cases ht
      | one => cases ht
      | several =>
        intro j hj
        obtain ⟨d, hd, rfl⟩ := List.mem_map.mp hj
        rw [List.mem_range] at hd
        have hat := hnodes ((vfOperands q T).length - (d + 1)) _ (List.getElem?_append_left (by simp; omega) |>.trans
          (List.getElem?_eq_getElem (by simp; omega)))
        rw [← Nat.add_sub_assoc (by omega)] at hat
        exact ⟨_, hat, hfrag _ (List.getElem_mem _)⟩

section
variable {db : Placement} {q : Query} {Tables : List MetadataTable} {s : Scan} (h : Scanned q Tables Tables s.tr)
  (htypes : ScanTypes s.tr) {C : List TreeNode} (hC : contents s.tr <+: C)
include h htypes hC

/-- A node of the scan keeps its value while the vector grows. -/
theorem evalNode_scanned {i : Nat} (hi : i < s.tr.length) {fuel : Nat} (hfuel : 2 ≤ fuel) :
    evalNode (rowSemantics db) C fuel i = nodeRows db s i := by
  have hn := List.getElem?_eq_getElem hi
  have hat : ∀ {j : Nat} {m : TreeNode}, s.tr[j]? = some m → (contents s.tr)[j]? = some (m.under (-1)) ∧ C[j]? = some (m.under (-1)) := by
    intro j m hm
    have hcont : (contents s.tr)[j]? = some (m.under (-1)) := by rw [contents_getElem?, hm, Option.map_some]
    exact ⟨hcont, prefix_getElem? hC hcont⟩
  obtain ⟨fuel, rfl⟩ : ∃ k, fuel = k + 2 := ⟨fuel - 2, by omega⟩
  rw [nodeRows, ← evalNode_contents (rowSemantics_ignoresLinks db) s.tr]
  obtain ht | ⟨ht, -⟩ := htypes _ (List.getElem_mem hi)
  · rw [evalNode_fragment _ _ (hat hn).2 ht, evalNode_fragment _ _ (hat hn).1 ht]
  · rw [evalNode_join _ _ (hat hn).2 ht, evalNode_join _ _ (hat hn).1 ht]
    refine congrArg _ (List.map_congr_left fun j hj => ?_)
    obtain ⟨m, hm, hmt⟩ := h.join_child hn ht j hj
    rw [evalNode_fragment _ _ (hat hm).2 hmt, evalNode_fragment _ _ (hat hm).1 hmt]

end

/-! ## The nodes of the join phase -/

section
variable {db : Placement} {sc : Scan} {ok : FragName → Prop} {C : List TreeNode} {out : String → List String}
  (hrec : ∀ x, ok x → ∀ fuel, 2 ≤ fuel → evalNode (rowSemantics db) C fuel (sc.mpTr x) = nodeRows db sc (sc.mpTr x))
  (htypes : ScanTypes sc.tr) (htwo : ∀ m ∈ C, m.type = .join → 2 ≤ m.child.length)
include hrec htypes htwo

/-- A node that stands for a fragment delivers the rows of the recorded node: only Fragment nodes have copies. -/
theorem NodeFor.rows {x : FragName} {i : Nat} (h : NodeFor sc ok C x i) {fuel : Nat} (hfuel : 2 ≤ fuel) :
    evalNode (rowSemantics db) C fuel i = nodeRows db sc (sc.mpTr x) := by
  obtain ⟨hx, n, hn, ⟨rfl, -⟩ | hcopy⟩ := h
  · exact hrec x hx fuel hfuel
  · obtain ⟨fuel, rfl⟩ : ∃ k, fuel = k + 1 := ⟨fuel - 1, by omega⟩
    obtain ⟨m, hm, rfl⟩ := List.mem_map.mp (List.mem_of_getElem? hn)
    have ht : m.type = .fragment := by
      obtain ht | ⟨ht, -⟩ := htypes m hm
      · exact ht
      · exact absurd (htwo _ (List.mem_of_getElem? hcopy) ht) (by simp)
    rw [evalNode_fragment _ fuel hcopy ht, nodeRows, ← evalNode_contents (rowSemantics_ignoresLinks db),
      evalNode_fragment _ 1 hn ht]
    exact (rowSemantics_ignoresLinks db).leaf (m.under (-1)) (-1) []

theorem OperandFor.rows {rel : String} {nums : List Int} {i : Nat} (h : OperandFor sc ok C rel nums i) {fuel : Nat}
    (hfuel : 3 ≤ fuel) :
    evalNode (rowSemantics db) C fuel i = nums.flatMap fun num => nodeRows db sc (sc.mpTr ⟨rel, num⟩) := by
  cases h with
  | @node num i h => rw [h.rows hrec htypes htwo (by omega), List.flatMap_singleton]
  | @union nums i site child attr hnums hne hnode hchild hattr =>
    obtain ⟨fuel, rfl⟩ : ∃ k, fuel = k + 1 := ⟨fuel - 1, by omega⟩
    rw [evalNode_union _ fuel hnode rfl]
    show (child.map _).flatten = _
    clear hnode hne hnums hattr
    induction hchild with
    | nil => rfl
    | cons h _ ih =>
      rw [List.map_cons, List.flatten_cons, List.flatMap_cons, ih, h.rows hrec htypes htwo (by omega)]

end

theorem OperandFor.ok_of_mem {sc : Scan} {ok : FragName → Prop} {C : List TreeNode} {rel : String} {nums : List Int}
    {i : Nat} (h : OperandFor sc ok C rel nums i) : ∀ num ∈ nums, ok ⟨rel, num⟩ := by
  cases h with
  | node h =>
    intro num hnum
    rw [List.mem_singleton.mp hnum]
    exact h.1
  | union _ _ _ hchild _ =>
    intro num hnum
    obtain ⟨j, -, hj⟩ := Pointwise.mem_right hchild hnum
    exact hj.1

/-- Rows in columns of their table, each as a combination of its own. -/
theorem Delivers.of_rows {rel : String} {cols : List String} {rows : List Row} (hdot : '.' ∉ rel.toList)
    (hcols : ∀ a ∈ cols, ∃ col, a = rel ++ "." ++ col) (hrows : ∀ r ∈ rows, Within cols r) :
    Delivers [rel] cols (rows.map fun r => [(rel, r)]) rows where
  rows_eq := by
    rw [List.map_map]
    refine (List.map_id rows).symm.trans (List.map_congr_left fun r hr => ?_)
    rw [Function.comp_apply, Comb.row_singleton, (hrows r hr).project_eq, id]
  keys := by
    intro comb hcomb
    obtain ⟨r, hr, rfl⟩ := List.mem_map.mp hcomb
    refine ⟨rfl, fun b hb => ?_⟩
    obtain rfl := List.mem_singleton.mp hb
    exact ⟨hdot, fun a ha => hcols a (hrows r hr a ha)⟩
  columns := fun a ha => ⟨rel, List.mem_singleton_self _, hdot, hcols a ha⟩

theorem ChainFor.relation_pos {sc : Scan} {ok : FragName → Prop} {C : List TreeNode} {S : List String}
    {J : List JoinCell} {plist : Pattern} {k i : Nat} (h : ChainFor sc ok C S J plist k i) : 0 < (relation J).length := by
  cases h with
  | start hrel => exact (List.getElem?_eq_some_iff.mp hrel).1
  | step _ hrel => exact Nat.zero_lt_of_lt (List.getElem?_eq_some_iff.mp hrel).1

theorem chainJoin_eq_foldl (cs : List JoinCell) (v : List Comb) (vs : List (List Comb)) :
    chainJoin cs v vs = (cs.zip vs).foldl (fun v cr => joinCombs cr.1 v cr.2) v := by
  induction cs generalizing v vs with
  | nil => rfl
  | cons c cs ih =>
    cases vs with
    | nil => rfl
    | cons r rs => exact ih (joinCombs c v r) rs

section
variable {db : Placement} {sc : Scan} {ok : FragName → Prop} {C : List TreeNode} {out : String → List String}
  (hrec : ∀ x, ok x → ∀ fuel, 2 ≤ fuel → evalNode (rowSemantics db) C fuel (sc.mpTr x) = nodeRows db sc (sc.mpTr x))
  (htypes : ScanTypes sc.tr) (htwo : ∀ m ∈ C, m.type = .join → 2 ≤ m.child.length)
  (hvalid : ∀ x, ok x → sc.mpTr x < sc.tr.length)
  (hout : ∀ x n, ok x → (contents sc.tr)[sc.mpTr x]? = some n → n.output = out x.table)
include htypes hvalid hout

/-- The recorded nodes deliver rows in the columns of their tables. -/
theorem nodeRows_within {x : FragName} (hx : ok x) : ∀ r ∈ nodeRows db sc (sc.mpTr x), Within (out x.table) r := by
  have hlt := hvalid x hx
  have hn : (contents sc.tr)[sc.mpTr x]? = some (sc.tr[sc.mpTr x].under (-1)) := by
    rw [contents_getElem?, List.getElem?_eq_getElem hlt, Option.map_some]
  rw [nodeRows, ← evalNode_contents (rowSemantics_ignoresLinks db), ← hout x _ hx hn]
  exact evalNode_within hn (htypes.plain sc.tr[sc.mpTr x] (List.getElem_mem hlt)) 2

theorem fragmentRows_within {x : FragName} (hx : ok x) : ∀ b ∈ fragmentRows db sc x, Within (out b.1) b.2 := by
  intro b hb
  obtain ⟨r, hr, rfl⟩ := List.mem_map.mp hb
  exact nodeRows_within htypes hvalid hout hx r hr

include hrec htwo

theorem OperandFor.within {rel : String} {nums : List Int} {i : Nat} (h : OperandFor sc ok C rel nums i) {fuel : Nat}
    (hfuel : 3 ≤ fuel) : ∀ r ∈ evalNode (rowSemantics db) C fuel i, Within (out rel) r := by
  rw [h.rows hrec htypes htwo hfuel]
  intro r hr
  obtain ⟨num, hnum, hr⟩ := List.mem_flatMap.mp hr
  exact nodeRows_within htypes hvalid hout (h.ok_of_mem num hnum) r hr

theorem OperandFor.delivers {rel : String} {nums : List Int} {i : Nat} (h : OperandFor sc ok C rel nums i)
    (hdot : '.' ∉ rel.toList) (hcols : ∀ a ∈ out rel, ∃ col, a = rel ++ "." ++ col) {fuel : Nat} (hfuel : 3 ≤ fuel) :
    Delivers [rel] (out rel) (nums.flatMap fun num => (fragmentRows db sc ⟨rel, num⟩).map fun b => [b])
      (evalNode (rowSemantics db) C fuel i) := by
  have hcombs : (nums.flatMap fun num => (fragmentRows db sc ⟨rel, num⟩).map fun b => [b]) =
      (evalNode (rowSemantics db) C fuel i).map fun r => [(rel, r)] := by
    rw [h.rows hrec htypes htwo hfuel, List.map_flatMap]
    refine List.flatMap_congr fun num _ => ?_
    rw [fragmentRows, List.map_map]
    rfl
  rw [hcombs]
  exact .of_rows hdot hcols (h.within hrec htypes htwo hvalid hout hfuel)

variable {S : List String} {J : List JoinCell} (hchain : Chain J) {plist : Pattern}
include hchain

/-- **A node of the chain of a pattern** delivers the join of the operands below it. -/
theorem ChainFor.delivers (hdot : ∀ c ∈ J, '.' ∉ c.ltab.toList ∧ '.' ∉ c.rtab.toList)
    (hcell : ∀ c ∈ J, c.left ∈ out c.ltab ∧ c.right ∈ out c.rtab)
    (hown : ∀ rel ∈ relation J, '.' ∉ rel.toList ∧ ∀ a ∈ out rel, ∃ col, a = rel ++ "." ++ col) {v : List Comb}
    {vs : List (List Comb)}
    (hvals : operandValues (fun x => (fragmentRows db sc x).map fun b => [b]) (relation J) plist = v :: vs) {k i : Nat}
    (h : ChainFor sc ok C S J plist k i) {fuel : Nat} (hfuel : k + 3 ≤ fuel) :
    Delivers ((relation J).take (k + 1)) (chainColumns out S J k)
      (((J.zip vs).take k).foldl (fun v cr => joinCombs cr.1 v cr.2) v) (evalNode (rowSemantics db) C fuel i) := by
  have hval : ∀ {m : Nat} {rel : String} {nums : List Int}, (relation J)[m]? = some rel → plist[m]? = some nums →
      (v :: vs)[m]? = some (nums.flatMap fun num => (fragmentRows db sc ⟨rel, num⟩).map fun b => [b]) := by
    intro m rel nums hrel hnums
    rw [← hvals, operandValues, List.getElem?_zipWith_eq_some]
    exact ⟨rel, nums, hrel, hnums, rfl⟩
  have hoper : ∀ {rel : String} {nums : List Int} {i fuel : Nat}, rel ∈ relation J → OperandFor sc ok C rel nums i →
      3 ≤ fuel → Delivers [rel] (out rel) (nums.flatMap fun num => (fragmentRows db sc ⟨rel, num⟩).map fun b => [b])
        (evalNode (rowSemantics db) C fuel i) := fun hrel hop hf =>
    hop.delivers hrec htypes htwo hvalid hout (hown _ hrel).1 (hown _ hrel).2 hf
  induction h generalizing fuel with
  | @start rel nums i hrel hnums hop =>
    have hv := hval hrel hnums
    rw [List.getElem?_cons_zero, Option.some.injEq] at hv
    have htake : (relation J).take 1 = [rel] := by
      rw [List.take_one, List.head?_eq_getElem?, hrel]
      rfl
    rw [htake, chainColumns, hrel, List.take_zero, List.foldl_nil, hv]
    exact hoper (List.mem_of_getElem? hrel) hop (by omega)
  | @step k l r i rel nums c x y site hl hrel hnums hr hc hx hy hnode ih =>
    have hcols := (ChainFor.step hl hrel hnums hr hc hx hy hnode).node_output hout _ hnode
    have hv := hval hrel hnums
    rw [List.getElem?_cons_succ] at hv
    obtain rfl : rel = c.rtab := Option.some.inj (hrel.symm.trans (hchain.relation_getElem? hc).2)
    obtain ⟨fuel, rfl⟩ : ∃ f, fuel = f + 1 := ⟨fuel - 1, by omega⟩
    have hcr : (J.zip vs)[k]? = some (c, nums.flatMap fun num => (fragmentRows db sc ⟨c.rtab, num⟩).map fun b => [b]) :=
      List.getElem?_zip_eq_some.mpr ⟨hc, hv⟩
    rw [List.take_add_one (l := J.zip vs), hcr, Option.toList_some, List.foldl_append, evalNode_join _ fuel hnode rfl]
    have hjoin := (@ih fuel (by omega)).chain_step hchain hdot hcell hc
      (hoper (List.mem_of_getElem? hrel) hr (show 3 ≤ fuel by omega))
    rw [← hcols] at hjoin ⊢
    exact hjoin

/-- The top of a pattern delivers the value of the pattern. -/
theorem ChainFor.top_delivers (hdot : ∀ c ∈ J, '.' ∉ c.ltab.toList ∧ '.' ∉ c.rtab.toList)
    (hcell : ∀ c ∈ J, c.left ∈ out c.ltab ∧ c.right ∈ out c.rtab)
    (hown : ∀ rel ∈ relation J, '.' ∉ rel.toList ∧ ∀ a ∈ out rel, ∃ col, a = rel ++ "." ++ col) {i : Nat}
    (h : ChainFor sc ok C S J plist J.length i) (hfull : Pattern.Full (relation J).length plist) {fuel : Nat}
    (hfuel : J.length + 3 ≤ fuel) :
    Delivers (relation J) (chainColumns out S J J.length)
      (patternValue (fun x => (fragmentRows db sc x).map fun b => [b]) J plist) (evalNode (rowSemantics db) C fuel i) := by
  have hJ : J ≠ [] := by
    rintro rfl
    exact absurd h.relation_pos (lt_irrefl 0)
  have hrel := length_relation hJ
  have hlen : (operandValues (fun x => (fragmentRows db sc x).map fun b => [b]) (relation J) plist).length =
      J.length + 1 := by
    rw [operandValues, List.length_zipWith, hfull.1, Nat.min_self, hrel]
  obtain ⟨v, vs, hvals⟩ := List.exists_cons_of_length_eq_add_one hlen
  rw [hvals, List.length_cons, Nat.add_right_cancel_iff] at hlen
  have hdel := h.delivers hrec htypes htwo hvalid hout hchain hdot hcell hown hvals hfuel
  rw [List.take_of_length_le hrel.le,
    List.take_of_length_le (by rw [List.length_zip, hlen, Nat.min_self] : (J.zip vs).length ≤ J.length),
    ← chainJoin_eq_foldl] at hdel
  rw [patternValue, hvals]
  exact hdel

/-- A table whose nodes deliver none of its columns by name joins with nothing. -/
theorem ChainFor.rows_nil {rel₀ : String} (hkey : ∀ col, rel₀ ++ "." ++ col ∉ out rel₀) {k i : Nat}
    (h : ChainFor sc ok C S J plist k i) (hk : 1 ≤ k) (hrel₀ : rel₀ ∈ (relation J).take (k + 1)) {fuel : Nat}
    (hfuel : k + 3 ≤ fuel) : evalNode (rowSemantics db) C fuel i = [] := by
  induction h generalizing fuel with
  | start => omega
  | @step k l r i rel nums c x y site hl hrel hnums hr hc hx hy hnode ih =>
    obtain ⟨hltab, hrtab⟩ := hchain.relation_getElem? hc
    obtain rfl : rel = c.rtab := Option.some.inj (hrel.symm.trans hrtab)
    obtain ⟨fuel, rfl⟩ : ∃ f, fuel = f + 1 := ⟨fuel - 1, by omega⟩
    rw [evalNode_join _ fuel hnode rfl]
    refine List.map_eq_nil_iff.mpr ?_
    show joinRows c _ _ = []
    rw [List.take_add_one, hrel, Option.toList_some, List.mem_append, List.mem_singleton] at hrel₀
    obtain hmem | rfl := hrel₀
    · cases hl with
      | @start rel' nums' _ hrel' _ hop =>
        obtain rfl : rel' = c.ltab := Option.some.inj (hrel'.symm.trans hltab)
        obtain rfl : rel₀ = c.ltab := by
          rw [List.take_one, List.head?_eq_getElem?, hltab] at hmem
          exact List.mem_singleton.mp hmem
        exact joinRows_eq_nil_left (hop.within hrec htypes htwo hvalid hout (by omega)) (hkey _) _
      | step => rw [ih (by omega) hmem (by omega), joinRows, List.flatMap_nil]
    · exact joinRows_eq_nil_right (hr.within hrec htypes htwo hvalid hout (by omega)) (hkey _) _

end

/-! ## Combinations of join lists -/

theorem mem_relation_cell {J : List JoinCell} {rel : String} (h : rel ∈ relation J) :
    ∃ c ∈ J, c.ltab = rel ∨ c.rtab = rel := by
  obtain h | h := List.mem_append.mp h
  · obtain ⟨c, hc, rfl⟩ := List.mem_map.mp h
    exact ⟨c, hc, .inl rfl⟩
  · rw [Option.mem_toList, Option.map_eq_some_iff] at h
    obtain ⟨c, hc, rfl⟩ := h
    exact ⟨c, List.mem_of_getLast? hc, .inr rfl⟩

theorem value_eq_none {out : String → List String} {rel₀ : String} (hkey : ∀ col, rel₀ ++ "." ++ col ∉ out rel₀)
    {comb : Comb} (hcomb : ∀ b ∈ comb, Within (out b.1) b.2) (col : String) : Comb.value comb rel₀ col = none := by
  rw [Comb.value, Option.bind_eq_none_iff]
  intro r hr
  obtain ⟨l₁, l₂, rfl, -⟩ := List.lookup_eq_some_iff.mp hr
  by_contra hne
  exact hkey col (hcomb (rel₀, r) (by simp) _ hne)

theorem tupleCombs_nil {J : List JoinCell} {rowsOf : FragName → List (String × Row)} {out : String → List String}
    {rel₀ : String} (hkey : ∀ col, rel₀ ++ "." ++ col ∉ out rel₀) (hrel₀ : rel₀ ∈ relation J) {l : List FragName}
    (hrows : ∀ x ∈ l, ∀ b ∈ rowsOf x, Within (out b.1) b.2) : tupleCombs J rowsOf l = [] := by
  refine List.filter_eq_nil_iff.mpr fun comb hcomb hholds => ?_
  have hwithin : ∀ b ∈ comb, Within (out b.1) b.2 := by
    intro b hb
    obtain ⟨B, hB, hbB⟩ := Pointwise.mem_left (List.mem_sections.mp hcomb) hb
    obtain ⟨x, hx, rfl⟩ := List.mem_map.mp hB
    exact hrows x hx b hbB
  obtain ⟨c, hc, rfl | rfl⟩ := mem_relation_cell hrel₀
  · have hcell : cellHolds comb c = true := List.all_eq_true.mp hholds c hc
    rw [cellHolds, value_eq_none hkey hwithin] at hcell
    cases hcell
  · have hcell : cellHolds comb c = true := List.all_eq_true.mp hholds c hc
    rw [cellHolds, value_eq_none hkey hwithin, sameValue_comm] at hcell
    cases hcell

end EasyDDB.Optimizer
