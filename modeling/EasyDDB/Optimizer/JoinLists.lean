import EasyDDB.Lib.Loops
import EasyDDB.Optimizer.Paths

/-! # Edges and join lists

The edge phase records exactly the pairs of kept fragments that a cell connects, and `get_joinList`
enumerates exactly the walks along them that visit one fragment more than there are cells, each once. -/
namespace EasyDDB.Optimizer
open OrderedMap
set_option autoImplicit false

/-! ## Edges -/

/-- A cell connects two kept fragments. -/
def Linked (pruning : String → List Fragment) (p : JoinCell) (x y : FragName) : Prop :=
  ∃ X ∈ pruning p.ltab, ∃ Y ∈ pruning p.rtab, X.fname = x ∧ Y.fname = y ∧ connects p X Y = some true

/-- The edges recorded so far are those of the relation `R`. -/
def EdgeSet (e : Edges) (R : FragName → FragName → Prop) : Prop :=
  (∀ x, Sorted (e.edge x)) ∧ ∀ x y v, (y, v) ∈ e.edge x ↔ v = 1 ∧ R x y

theorem EdgeSet.congr {e : Edges} {R R' : FragName → FragName → Prop} (h : EdgeSet e R)
    (hR : ∀ x y, R x y ↔ R' x y) : EdgeSet e R' :=
  ⟨h.1, fun x y v => by rw [h.2, hR]⟩

theorem addEdge_edgeSet {p : JoinCell} {e e' : Edges} {xy : Fragment × Fragment} {R : FragName → FragName → Prop}
    (hR : EdgeSet e R) (h : addEdge p e xy = some e') :
    EdgeSet e' fun x y => R x y ∨ (connects p xy.1 xy.2 = some true ∧ xy.1.fname = x ∧ xy.2.fname = y) := by
  simp only [addEdge, Option.bind_eq_bind, Option.bind_eq_some_iff] at h
  obtain ⟨mark, hmark, h⟩ := h
  split_ifs at h with hm
  · cases h
    have hsorted := hR.1 xy.1.fname
    constructor
    · intro x
      dsimp only
      by_cases hx : x = xy.1.fname
      · subst hx
        rw [Function.update_self]
        exact sorted_setKey _ _ hsorted
      · rw [Function.update_of_ne hx]
        exact hR.1 x
    · intro x y v
      rw [hmark, hm]
      dsimp only
      by_cases hx : x = xy.1.fname
      · subst hx
        rw [Function.update_self, mem_setKey hsorted, hR.2, Prod.mk.injEq]
        by_cases hy : y = xy.2.fname
        · simp [hy]
        · simp [hy, Ne.symm hy]
      · rw [Function.update_of_ne hx, hR.2]
        simp [Ne.symm hx]
  · cases h
    refine hR.congr fun x y => ?_
    rw [hmark, Bool.eq_false_iff.mpr hm]
    simp

theorem buildEdges_edgeSet {pruning : String → List Fragment} {J : List JoinCell} {e : Edges}
    (h : buildEdges pruning J = some e) : EdgeSet e fun x y => ∃ p ∈ J, Linked pruning p x y := by
  refine Loops.invariant_seen
    (I := fun pre (c : Edges) => EdgeSet c fun x y => ∃ p ∈ pre, Linked pruning p x y) ?_ ?_ h
  · intro pre p post _ c c' hc hstep
    have hinner := Loops.invariant_seen
      (I := fun seen (d : Edges) => EdgeSet d fun x y => (∃ p ∈ pre, Linked pruning p x y) ∨
        ∃ xy ∈ seen, connects p xy.1 xy.2 = some true ∧ xy.1.fname = x ∧ xy.2.fname = y) ?_ ?_ hstep
    · refine hinner.congr fun x y => ?_
      simp only [List.mem_append, List.mem_singleton, or_and_right, exists_or, exists_eq_left, cellPairs,
        List.mem_flatMap, List.mem_map]
      refine or_congr_right ⟨?_, ?_⟩
      · rintro ⟨_, ⟨X, hX, Y, hY, rfl⟩, hcon, hx, hy⟩
        exact ⟨X, hX, Y, hY, hx, hy, hcon⟩
      · rintro ⟨X, hX, Y, hY, hx, hy, hcon⟩
        exact ⟨(X, Y), ⟨X, hX, Y, hY, rfl⟩, hcon, hx, hy⟩
    · intro seen xy rest _ d d' hd hdstep
      refine (addEdge_edgeSet hd hdstep).congr fun x y => ?_
      simp only [List.mem_append, List.mem_singleton, or_and_right, exists_or, exists_eq_left, or_assoc]
    · simpa using hc
  · exact ⟨fun _ => sorted_nil, fun x y v => by simp⟩

/-! ## Walks along the edges -/

/-- The sequences of `k` fragments that follow edges from `x`. -/
def walks (edge : FragName → List (FragName × Int)) : Nat → FragName → List (List FragName)
  | 0, _ => [[]]
  | k + 1, x => ((edge x).filter fun cur => cur.2 = 1).flatMap fun cur => (walks edge k cur.1).map (cur.1 :: ·)

/-- The body of the loop over `edge[x]`. -/
def followEdge (edge : FragName → List (FragName × Int)) (sz fuel : Nat) (s : List (List FragName) × List FragName)
    (cur : FragName × Int) : List (List FragName) × List FragName :=
  if cur.2 = 1 then
    let s' := getJoinList edge sz fuel cur.1 (s.1, s.2 ++ [cur.1])
    (s'.1, s'.2.dropLast)
  else s

section
variable (edge : FragName → List (FragName × Int)) {sz fuel k : Nat} (x : FragName) (JoinList : List (List FragName))
  {ans : List FragName}

theorem followEdge_enter {cur : FragName × Int} {found : List (List FragName)} (hcur : cur.2 = 1)
    (hcall : getJoinList edge sz fuel cur.1 (JoinList, ans ++ [cur.1]) = (found, ans ++ [cur.1])) :
    followEdge edge sz fuel (JoinList, ans) cur = (found, ans) := by
  simp only [followEdge, if_pos hcur, hcall, List.dropLast_concat]

theorem getJoinList_full (h : ans.length = sz) :
    getJoinList edge sz fuel x (JoinList, ans) = (JoinList ++ [ans], ans) := by
  cases fuel <;> simp [getJoinList, h]

theorem getJoinList_loop (h : ans.length ≠ sz) :
    getJoinList edge sz (fuel + 1) x (JoinList, ans) = (edge x).foldl (followEdge edge sz fuel) (JoinList, ans) := by
  rw [getJoinList, if_neg h]
  rfl

theorem getJoinList_eq (hk : ans.length + k = sz) (hfuel : k ≤ fuel) :
    getJoinList edge sz fuel x (JoinList, ans) = (JoinList ++ (walks edge k x).map (ans ++ ·), ans) := by
  induction k generalizing fuel x JoinList ans with
  | zero =>
    rw [getJoinList_full edge x JoinList hk]
    simp [walks]
  | succ k ih =>
    obtain ⟨fuel, rfl⟩ : ∃ f, fuel = f + 1 := ⟨fuel - 1, by omega⟩
    have hlen : ans.length ≠ sz := by omega
    have hloop : ∀ (l : List (FragName × Int)) (JL : List (List FragName)),
        l.foldl (followEdge edge sz fuel) (JL, ans) =
          (JL ++ ((l.filter fun cur => cur.2 = 1).flatMap fun cur => (walks edge k cur.1).map (cur.1 :: ·)).map
            (ans ++ ·), ans) := by
      intro l
      induction l with
      | nil => simp
      | cons cur l ihl =>
        intro JL
        rw [List.foldl_cons]
        by_cases hcur : cur.2 = 1
        · have hlen' : (ans ++ [cur.1]).length + k = sz := by
            simp only [List.length_append, List.length_singleton]
            omega
          have hk' : k ≤ fuel := by omega
          rw [followEdge_enter edge JL hcur (ih cur.1 JL hlen' hk'), ihl, List.filter_cons_of_pos (by simpa using hcur)]
          simp [List.map_map, Function.comp_def]
        · rw [followEdge, if_neg hcur, ihl, List.filter_cons_of_neg (by simpa using hcur)]
    rw [getJoinList_loop edge x JoinList hlen]
    exact hloop (edge x) JoinList

end

theorem joinLists_cons (pruning : String → List Fragment) (edge : FragName → List (FragName × Int)) (c : JoinCell)
    (cs : List JoinCell) :
    joinLists pruning edge (c :: cs) =
      (pruning c.ltab).flatMap fun x => (walks edge (c :: cs).length x.fname).map (x.fname :: ·) := by
  have hloop : ∀ (l : List Fragment) (JL : List (List FragName)),
      l.foldl (fun JoinList x =>
          (getJoinList edge ((c :: cs).length + 1) ((c :: cs).length + 1) x.fname (JoinList, [x.fname])).1) JL =
        JL ++ l.flatMap fun x => (walks edge (c :: cs).length x.fname).map (x.fname :: ·) := by
    intro l
    induction l with
    | nil => simp
    | cons x l ih =>
      intro JL
      have hlen : [x.fname].length + (c :: cs).length = (c :: cs).length + 1 := Nat.add_comm ..
      rw [List.foldl_cons, getJoinList_eq edge x.fname JL hlen (by omega), ih]
      simp
  exact (hloop _ []).trans (List.nil_append _)

theorem mem_walks {edge : FragName → List (FragName × Int)} {k : Nat} {x : FragName} {l : List FragName} :
    l ∈ walks edge k x ↔ l.length = k ∧ (x :: l).IsChain fun a b => (b, 1) ∈ edge a := by
  induction k generalizing x l with
  | zero =>
    simp only [walks, List.mem_singleton, List.length_eq_zero_iff]
    exact ⟨fun h => ⟨h, h ▸ List.isChain_singleton _⟩, And.left⟩
  | succ k ih =>
    simp only [walks, List.mem_flatMap, List.mem_filter, decide_eq_true_eq, List.mem_map, ih]
    constructor
    · rintro ⟨⟨y, v⟩, ⟨hy, rfl⟩, l, ⟨hlen, hch⟩, rfl⟩
      exact ⟨by simp [hlen], List.isChain_cons_cons.mpr ⟨hy, hch⟩⟩
    · rintro ⟨hlen, hch⟩
      cases l with
      | nil => cases hlen
      | cons y l =>
        obtain ⟨hy, hch⟩ := List.isChain_cons_cons.mp hch
        exact ⟨(y, 1), ⟨hy, rfl⟩, l, ⟨by simpa using hlen, hch⟩, rfl⟩

theorem walks_nodup {edge : FragName → List (FragName × Int)} (h : ∀ x, Sorted (edge x)) (k : Nat) (x : FragName) :
    (walks edge k x).Nodup := by
  induction k generalizing x with
  | zero => exact List.nodup_singleton _
  | succ k ih =>
    refine List.nodup_flatMap.mpr ⟨fun cur _ => (ih cur.1).map (List.cons_injective), ?_⟩
    have hkeys := (h x).keys_nodup
    rw [List.Nodup, List.pairwise_map] at hkeys
    refine (hkeys.filter _).imp fun {a b} hab => ?_
    simp only [Function.onFun, List.disjoint_left, List.mem_map]
    rintro _ ⟨l, -, rfl⟩ ⟨l', -, heq⟩
    exact hab (List.cons.inj heq).1.symm

/-! ## The call comes to its end -/

mutual
/-- A call of `get_joinList` that ends, without a bound on its depth: it leaves `s'` of `JoinList` and `ans`. -/
inductive GetJoinListRuns (edge : FragName → List (FragName × Int)) (sz : Nat) :
    FragName → List (List FragName) × List FragName → List (List FragName) × List FragName → Prop
  | full {x : FragName} {JoinList : List (List FragName)} {ans : List FragName} (h : ans.length = sz) :
      GetJoinListRuns edge sz x (JoinList, ans) (JoinList ++ [ans], ans)
  | loop {x : FragName} {s s' : List (List FragName) × List FragName} (h : s.2.length ≠ sz)
      (hloop : GetJoinListLoops edge sz (edge x) s s') : GetJoinListRuns edge sz x s s'

/-- The loop of a call over the entries that are left of `edge[x]`. -/
inductive GetJoinListLoops (edge : FragName → List (FragName × Int)) (sz : Nat) :
    List (FragName × Int) → List (List FragName) × List FragName → List (List FragName) × List FragName → Prop
  | done {s : List (List FragName) × List FragName} : GetJoinListLoops edge sz [] s s
  | skip {cur : FragName × Int} {rest : List (FragName × Int)} {s s' : List (List FragName) × List FragName}
      (h : cur.2 ≠ 1) (hloop : GetJoinListLoops edge sz rest s s') : GetJoinListLoops edge sz (cur :: rest) s s'
  | enter {cur : FragName × Int} {rest : List (FragName × Int)} {s s' s'' : List (List FragName) × List FragName}
      (h : cur.2 = 1) (hcall : GetJoinListRuns edge sz cur.1 (s.1, s.2 ++ [cur.1]) s')
      (hloop : GetJoinListLoops edge sz rest (s'.1, s'.2.dropLast) s'') : GetJoinListLoops edge sz (cur :: rest) s s''
end

/-- The remaining length bounds the depth of the calls, also along a cycle of edges. -/
theorem getJoinList_runs (edge : FragName → List (FragName × Int)) {sz fuel k : Nat} (x : FragName)
    (JoinList : List (List FragName)) {ans : List FragName} (hk : ans.length + k = sz) (hfuel : k ≤ fuel) :
    GetJoinListRuns edge sz x (JoinList, ans) (getJoinList edge sz fuel x (JoinList, ans)) := by
  induction k generalizing fuel x JoinList ans with
  | zero =>
    rw [getJoinList_full edge x JoinList hk]
    exact .full hk
  | succ k ih =>
    obtain ⟨fuel, rfl⟩ : ∃ f, fuel = f + 1 := ⟨fuel - 1, by omega⟩
    have hlen : ans.length ≠ sz := by omega
    have hloop : ∀ (l : List (FragName × Int)) (JL : List (List FragName)),
        GetJoinListLoops edge sz l (JL, ans) (l.foldl (followEdge edge sz fuel) (JL, ans)) := by
      intro l
      induction l with
      | nil => exact fun JL => .done
      | cons cur l ihl =>
        intro JL
        rw [List.foldl_cons]
        by_cases hcur : cur.2 = 1
        · have hlen' : (ans ++ [cur.1]).length + k = sz := by
            simp only [List.length_append, List.length_singleton]
            omega
          have hk' : k ≤ fuel := by omega
          have hcall := getJoinList_eq edge cur.1 JL hlen' hk'
          have hruns := ih cur.1 JL hlen' hk'
          rw [hcall] at hruns
          refine .enter hcur hruns ?_
          rw [followEdge_enter edge JL hcur hcall, List.dropLast_concat]
          exact ihl _
        · rw [followEdge, if_neg hcur]
          exact .skip hcur (ihl JL)
    rw [getJoinList_loop edge x JoinList hlen]
    exact .loop hlen (hloop (edge x) JoinList)

/-- **`get_joinList` enumerates the paths**: a call that starts with `ans = [x]` ends, leaves `ans` as it was and
appends each sequence of `sz` fragments that starts with `x` and follows edges of value 1, once. -/
theorem getJoinList_paths {edge : FragName → List (FragName × Int)} (hedge : ∀ x, Sorted (edge x)) (x : FragName)
    (JoinList : List (List FragName)) {sz : Nat} (hsz : 1 ≤ sz) :
    ∃ found, GetJoinListRuns edge sz x (JoinList, [x]) (JoinList ++ found, [x]) ∧
      (∀ fuel, sz ≤ fuel → getJoinList edge sz fuel x (JoinList, [x]) = (JoinList ++ found, [x])) ∧ found.Nodup ∧
      ∀ l, l ∈ found ↔ l.length = sz ∧ l.head? = some x ∧ l.IsChain fun a b => (b, 1) ∈ edge a := by
  have hk : [x].length + (sz - 1) = sz := by
    rw [List.length_singleton]
    omega
  have heq : ∀ fuel, sz ≤ fuel →
      getJoinList edge sz fuel x (JoinList, [x]) = (JoinList ++ (walks edge (sz - 1) x).map (x :: ·), [x]) :=
    fun fuel hfuel => getJoinList_eq edge x JoinList hk (by omega)
  refine ⟨(walks edge (sz - 1) x).map (x :: ·), ?_, heq, ?_, fun l => ?_⟩
  · rw [← heq sz le_rfl]
    exact getJoinList_runs edge x JoinList hk (by omega)
  · exact (walks_nodup hedge _ _).map List.cons_injective
  · simp only [List.mem_map, mem_walks]
    constructor
    · rintro ⟨l, ⟨hlen, hch⟩, rfl⟩
      refine ⟨?_, rfl, hch⟩
      rw [List.length_cons]
      omega
    · rintro ⟨hlen, hhead, hch⟩
      cases l with
      | nil => cases hhead
      | cons y l =>
        obtain rfl : y = x := Option.some.inj hhead
        rw [List.length_cons] at hlen
        exact ⟨l, ⟨by omega, hch⟩, rfl⟩

/-- Two fragments with edges in both directions. -/
def backAndForth (x : FragName) : List (FragName × Int) :=
  if x = ⟨"A", 1⟩ then [(⟨"B", 1⟩, 1)] else [(⟨"A", 1⟩, 1)]

theorem backAndForth_paths :
    ∃ found, GetJoinListRuns backAndForth 3 ⟨"A", 1⟩ ([], [⟨"A", 1⟩]) (found, [⟨"A", 1⟩]) ∧
      [⟨"A", 1⟩, ⟨"B", 1⟩, ⟨"A", 1⟩] ∈ found := by
  have hsorted : ∀ x, Sorted (backAndForth x) := by
    intro x
    unfold backAndForth
    split_ifs <;> exact List.pairwise_singleton _ _
  obtain ⟨found, hruns, -, -, hmem⟩ := getJoinList_paths hsorted ⟨"A", 1⟩ [] (show 1 ≤ 3 by decide)
  exact ⟨found, hruns, (hmem _).mpr (by decide)⟩

/-! ## Join lists -/

theorem mem_joinLists {pruning : String → List Fragment} {c : JoinCell} {cs : List JoinCell} {e : Edges}
    (he : buildEdges pruning (c :: cs) = some e) {l : List FragName} :
    l ∈ joinLists pruning e.edge (c :: cs) ↔ l.length = (c :: cs).length + 1 ∧
      (∃ X ∈ pruning c.ltab, l.head? = some X.fname) ∧
        l.IsChain fun a b => ∃ p ∈ c :: cs, Linked pruning p a b := by
  have hedge : ∀ a b, (b, 1) ∈ e.edge a ↔ ∃ p ∈ c :: cs, Linked pruning p a b := by
    intro a b
    rw [(buildEdges_edgeSet he).2]
    simp
  rw [joinLists_cons, List.mem_flatMap]
  simp only [List.mem_map, mem_walks, hedge]
  constructor
  · rintro ⟨X, hX, l, ⟨hlen, hch⟩, rfl⟩
    exact ⟨by rw [List.length_cons, hlen], ⟨X, hX, rfl⟩, hch⟩
  · rintro ⟨hlen, ⟨X, hX, hhead⟩, hch⟩
    cases l with
    | nil => cases hhead
    | cons x l =>
      cases hhead
      exact ⟨X, hX, l, ⟨by simpa using hlen, hch⟩, rfl⟩

theorem joinLists_nodup {pruning : String → List Fragment} {J : List JoinCell} {e : Edges}
    (he : buildEdges pruning J = some e) (hnd : ∀ t, ((pruning t).map Fragment.fname).Nodup) :
    (joinLists pruning e.edge J).Nodup := by
  cases J with
  | nil => exact List.nodup_nil
  | cons c cs =>
    rw [joinLists_cons]
    refine List.nodup_flatMap.mpr ⟨fun X _ => (walks_nodup (buildEdges_edgeSet he).1 _ _).map List.cons_injective, ?_⟩
    have hkeys := hnd c.ltab
    rw [List.Nodup, List.pairwise_map] at hkeys
    refine hkeys.imp fun {a b} hab => ?_
    simp only [Function.onFun, List.disjoint_left, List.mem_map]
    rintro _ ⟨l, -, rfl⟩ ⟨l', -, heq⟩
    exact hab (List.cons.inj heq).1.symm

/-- The kept fragments of a table carry its name. -/
def NamedAfter (pruning : String → List Fragment) : Prop := ∀ t, ∀ X ∈ pruning t, X.fname.table = t

section
variable {pruning : String → List Fragment} {J : List JoinCell}

theorem Linked.tables (hnamed : NamedAfter pruning) {p : JoinCell} {x y : FragName} (h : Linked pruning p x y) :
    p.ltab = x.table ∧ p.rtab = y.table := by
  obtain ⟨X, hX, Y, hY, rfl, rfl, -⟩ := h
  exact ⟨(hnamed _ X hX).symm, (hnamed _ Y hY).symm⟩

theorem walk_of_links (hnamed : NamedAfter pruning) {l : List FragName}
    (h : l.IsChain fun a b => ∃ p ∈ J, Linked pruning p a b) : Walk J (l.map FragName.table) := by
  unfold Walk
  rw [List.isChain_map]
  refine h.imp fun a b hab => ?_
  obtain ⟨p, hp, hlink⟩ := hab
  exact ⟨p, hp, hlink.tables hnamed⟩

theorem links_of_chain (hnamed : NamedAfter pruning) {c : JoinCell} {cs : List JoinCell} (hchain : Chain (c :: cs))
    {l : List FragName} (hlen : l.length = (c :: cs).length + 1) (hhead : ∃ x, l.head? = some x ∧ x.table = c.ltab)
    (h : l.IsChain fun a b => ∃ p ∈ c :: cs, Linked pruning p a b) :
    l.map FragName.table = relation (c :: cs) := by
  rw [relation_cons hchain.linked]
  obtain ⟨x, hx, htab⟩ := hhead
  cases l with
  | nil => cases hx
  | cons x' l =>
    obtain rfl : x' = x := Option.some.inj hx
    have hgen : ∀ (ds : List JoinCell) (x : FragName) (l : List FragName), ds <:+ c :: cs →
        l.length = ds.length → (∀ d ∈ ds.head?, x.table = d.ltab) →
        (x :: l).IsChain (fun a b => ∃ p ∈ c :: cs, Linked pruning p a b) →
        l.map FragName.table = ds.map JoinCell.rtab := by
      intro ds
      induction ds with
      | nil =>
        intro x l _ hl _ _
        rw [List.length_eq_zero_iff.mp hl]
        rfl
      | cons d ds ih =>
        intro x l hsuf hl hx hch
        cases l with
        | nil => cases hl
        | cons y l =>
          obtain ⟨⟨p, hp, hlink⟩, hch'⟩ := List.isChain_cons_cons.mp hch
          obtain ⟨hpl, hpr⟩ := hlink.tables hnamed
          have hdmem : d ∈ c :: cs := hsuf.subset (List.mem_cons_self ..)
          have hpd : p = d := by
            refine (hchain.pos_rtab hdmem).2.2 p hp ?_
            rw [hpl, hx d rfl]
          subst hpd
          have hsuf' : ds <:+ c :: cs := (List.suffix_cons p ds).trans hsuf
          rw [List.map_cons, List.map_cons, hpr]
          congr 1
          refine ih y l hsuf' (by simpa using hl) ?_ hch'
          intro d' hd'
          cases ds with
          | nil => cases hd'
          | cons d'' ds =>
            cases hd'
            have hlinked := hchain.linked.suffix hsuf
            rw [← hpr]
            exact (List.isChain_cons_cons.mp hlinked).1
    rw [List.map_cons, htab]
    congr 1
    refine hgen (c :: cs) x' l List.suffix_rfl (by simpa using hlen) ?_ h
    rintro _ ⟨⟩
    exact htab

/-- **When a join graph that is a path has a join list at all**, the sorted cells are a chain and every
join list has one kept fragment of each table, in the order of `relation`. -/
theorem joinLists_of_path (hnamed : NamedAfter pruning) {ch Join : List JoinCell} (hpath : Path ch Join) {e : Edges}
    (he : buildEdges pruning (sortJoin Join) = some e) {l : List FragName}
    (hl : l ∈ joinLists pruning e.edge (sortJoin Join)) :
    Chain (sortJoin Join) ∧ l.map FragName.table = relation (sortJoin Join) := by
  have hsorted : Path ch (sortJoin Join) := ⟨hpath.toChain, hpath.edges.trans (edges_sortJoin Join).symm⟩
  have hhead := head?_sortJoin Join
  cases hJ : sortJoin Join with
  | nil =>
    rw [hJ] at hl
    cases hl
  | cons c cs =>
    rw [hJ] at hsorted he hl hhead
    obtain ⟨hlen, ⟨X, hX, hx⟩, hch⟩ := (mem_joinLists he).mp hl
    have hxtab : X.fname.table = c.ltab := hnamed _ X hX
    have hchain : Chain (c :: cs) := by
      cases l with
      | nil => cases hx
      | cons x l =>
        have hw := walk_of_links hnamed hch
        obtain ⟨ch', -, hpath', hstart⟩ := hsorted.exists_start (by simpa using hlen) (List.cons_ne_nil c cs) hw
        have hjoin : Path ch' Join := ⟨hpath'.toChain, hpath'.edges.trans (hJ ▸ edges_sortJoin Join)⟩
        have heq := sortJoin_eq_of_path hjoin (by
          rw [hstart, ← hhead, Option.some.inj hx]
          exact congrArg some hxtab)
        rw [hJ] at heq
        exact heq ▸ hjoin.toChain
    exact ⟨hchain, links_of_chain hnamed hchain hlen ⟨_, hx, hxtab⟩ hch⟩

end

end EasyDDB.Optimizer
