import EasyDDB.Optimizer.JoinOrder
import Mathlib.Data.Sym.Sym2

/-! # Join graphs that are paths

`sortJoin` extends the chain of joins to the right only. On a join graph that is a simple path it puts
the cells in path order when the first cell starts at an end of the path; a walk along the sorted cells
that is as long as the path exists in that case only. -/
namespace EasyDDB.Optimizer
set_option autoImplicit false

/-! ## Cells as undirected edges -/

/-- A cell up to the exchange of its two sides. -/
def JoinCell.edge (c : JoinCell) : Sym2 (String × String) := s((c.ltab, c.lcol), (c.rtab, c.rcol))

theorem JoinCell.edge_eq_iff {c d : JoinCell} : c.edge = d.edge ↔ c = d ∨ c = d.swap := by
  obtain ⟨a, b, a', b'⟩ := c
  obtain ⟨e, f, e', f'⟩ := d
  simp only [edge, swap, Sym2.eq_iff, Prod.mk.injEq, JoinCell.mk.injEq, and_assoc]

theorem JoinCell.edge_swap (c : JoinCell) : c.swap.edge = c.edge := edge_eq_iff.mpr (.inr rfl)

theorem JoinCell.exists_of_edges {J J' : List JoinCell} (h : (J.map edge).Perm (J'.map edge)) {c : JoinCell} (hc : c ∈ J) :
    ∃ d ∈ J', c = d ∨ c = d.swap := by
  obtain ⟨d, hd, heq⟩ := List.mem_map.mp (h.mem_iff.mp (List.mem_map_of_mem hc))
  exact ⟨d, hd, edge_eq_iff.mp heq.symm⟩

/-- The cells follow one another and no table is visited twice. -/
structure Chain (ch : List JoinCell) : Prop where
  linked : ch.IsChain fun c d => c.rtab = d.ltab
  distinct : (relation ch).Nodup

/-- The join list is the simple path `ch`, its cells in any order and turned either way. -/
structure Path (ch Join : List JoinCell) : Prop extends Chain ch where
  edges : (ch.map JoinCell.edge).Perm (Join.map JoinCell.edge)

theorem relation_cons {c : JoinCell} {cs : List JoinCell} (h : (c :: cs).IsChain fun c d => c.rtab = d.ltab) :
    relation (c :: cs) = c.ltab :: (c :: cs).map JoinCell.rtab := by
  induction cs generalizing c with
  | nil => rfl
  | cons d ds ih =>
    rw [List.isChain_cons_cons] at h
    have hstep : relation (c :: d :: ds) = c.ltab :: relation (d :: ds) := by
      simp [relation, List.getLast?_cons_cons]
    rw [hstep, ih h.2, List.map_cons (a := c), h.1]

theorem length_relation {ch : List JoinCell} (h : ch ≠ []) : (relation ch).length = ch.length + 1 := by
  obtain ⟨c, cs, rfl⟩ := List.exists_cons_of_ne_nil h
  simp [relation, List.getLast?_cons]

theorem Chain.tail {c : JoinCell} {cs : List JoinCell} (h : Chain (c :: cs)) : Chain cs := by
  cases cs with
  | nil => exact ⟨List.isChain_nil, List.nodup_nil⟩
  | cons d ds =>
    have hl := h.linked
    have hd := h.distinct
    rw [relation_cons hl] at hd
    rw [List.isChain_cons_cons] at hl
    refine ⟨hl.2, ?_⟩
    rw [relation_cons hl.2, ← hl.1]
    exact (List.nodup_cons.mp hd).2

theorem Chain.ltab_notMem {c : JoinCell} {cs : List JoinCell} (h : Chain (c :: cs)) :
    c.ltab ≠ c.rtab ∧ ∀ d ∈ cs, c.ltab ≠ d.ltab ∧ c.ltab ≠ d.rtab := by
  have hd := h.distinct
  rw [relation_cons h.linked, List.nodup_cons, List.map_cons, List.mem_cons, not_or] at hd
  refine ⟨hd.1.1, fun d hdm => ⟨?_, fun e => hd.1.2 (e ▸ List.mem_map_of_mem hdm)⟩⟩
  have hl := h.linked
  have hmem : d.ltab ∈ (c :: cs).map JoinCell.rtab := by
    obtain ⟨pre, post, rfl⟩ := List.append_of_mem hdm
    cases hpre : pre.getLast? with
    | none =>
      rw [List.getLast?_eq_none_iff] at hpre
      subst hpre
      rw [List.nil_append, List.isChain_cons_cons] at hl
      simp [hl.1]
    | some e =>
      have hlink : e.rtab = d.ltab := by
        rw [← List.cons_append, List.isChain_append] at hl
        refine hl.2.2 e ?_ d rfl
        rw [List.getLast?_cons, hpre]
        rfl
      rw [← hlink]
      exact List.mem_map_of_mem (List.mem_cons_of_mem c (List.mem_append_left _ (List.mem_of_getLast? hpre)))
  rintro e
  rw [← e, List.map_cons, List.mem_cons] at hmem
  exact hmem.elim hd.1.1 hd.1.2

/-! ## `sortJoin` -/

theorem touches_iff {tab : String} {c : JoinCell} : touches tab c = true ↔ tab = c.ltab ∨ tab = c.rtab := by
  simp [touches]

theorem touches_congr {tab : String} {c d : JoinCell} (h : c.edge = d.edge) : touches tab c = touches tab d := by
  obtain rfl | rfl := JoinCell.edge_eq_iff.mp h
  · rfl
  · rw [Bool.eq_iff_iff, touches_iff, touches_iff, JoinCell.swap]
    exact or_comm

theorem edge_orient (tab : String) (c : JoinCell) : (orient tab c).edge = c.edge := by
  unfold orient
  split_ifs
  · rfl
  · exact c.edge_swap

theorem exchange_some {tab : String} {c d : JoinCell} {cs ds : List JoinCell}
    (h : exchange tab c cs = some (d, ds)) : touches tab d = true ∧ (d :: ds).Perm (c :: cs) := by
  induction cs generalizing ds with
  | nil => cases h
  | cons e es ih =>
    unfold exchange at h
    split_ifs at h with ht
    · cases h
      exact ⟨ht, .swap ..⟩
    · obtain ⟨⟨d', ds'⟩, h', heq⟩ := Option.map_eq_some_iff.mp h
      cases heq
      obtain ⟨ht', hp⟩ := ih h'
      exact ⟨ht', (List.Perm.swap ..).trans ((hp.cons e).trans (.swap ..))⟩

theorem exchange_none {tab : String} {c : JoinCell} {cs : List JoinCell} (h : exchange tab c cs = none) :
    ∀ d ∈ cs, touches tab d = false := by
  induction cs with
  | nil => simp
  | cons e es ih =>
    unfold exchange at h
    split_ifs at h with ht
    intro d hd
    obtain rfl | hd := List.mem_cons.mp hd
    · exact Bool.eq_false_iff.mpr ht
    · exact ih (Option.map_eq_none_iff.mp h) d hd

/-- One pass of the inner loop: a cell that touches the table comes to the front, turned; without such
a cell nothing changes. -/
theorem pullNext_spec (tab : String) (cs : List JoinCell) :
    (pullNext tab cs = cs ∧ ∀ d ∈ cs, touches tab d = false) ∨
      ∃ d ds, pullNext tab cs = orient tab d :: ds ∧ touches tab d = true ∧ (d :: ds).Perm cs := by
  cases cs with
  | nil => exact .inl ⟨rfl, by simp⟩
  | cons c cs =>
    by_cases ht : touches tab c = true
    · exact .inr ⟨c, cs, by simp [pullNext, ht], ht, .refl _⟩
    · cases he : exchange tab c cs with
      | none =>
        refine .inl ⟨by simp [pullNext, ht, he], fun d hd => ?_⟩
        obtain rfl | hd := List.mem_cons.mp hd
        · exact Bool.eq_false_iff.mpr ht
        · exact exchange_none he d hd
      | some p => exact .inr ⟨p.1, p.2, by simp [pullNext, ht, he], exchange_some he⟩

theorem edges_pullNext (tab : String) (cs : List JoinCell) :
    ((pullNext tab cs).map JoinCell.edge).Perm (cs.map JoinCell.edge) := by
  obtain ⟨h, -⟩ | ⟨d, ds, h, -, hp⟩ := pullNext_spec tab cs
  · rw [h]
  · rw [h, List.map_cons, edge_orient, ← List.map_cons]
    exact hp.map _

theorem edges_sortJoinFrom (n : Nat) (c : JoinCell) (cs : List JoinCell) :
    ((sortJoinFrom n c cs).map JoinCell.edge).Perm (cs.map JoinCell.edge) := by
  induction n generalizing c cs with
  | zero => exact .refl _
  | succ n ih =>
    have hp := edges_pullNext c.rtab cs
    unfold sortJoinFrom
    cases hpull : pullNext c.rtab cs with
    | nil => rwa [hpull] at hp
    | cons d ds =>
      rw [hpull] at hp
      exact ((ih d ds).cons d.edge).trans hp

/-- `sortJoin` reorders and turns the cells. -/
theorem edges_sortJoin (Join : List JoinCell) :
    ((sortJoin Join).map JoinCell.edge).Perm (Join.map JoinCell.edge) := by
  cases Join with
  | nil => exact .refl _
  | cons c cs => exact (edges_sortJoinFrom cs.length c cs).cons c.edge

theorem head?_sortJoin (Join : List JoinCell) : (sortJoin Join).head? = Join.head? := by
  cases Join <;> rfl

theorem sortJoinFrom_eq {c : JoinCell} {ds cs : List JoinCell} (h : Chain (c :: ds))
    (hp : (ds.map JoinCell.edge).Perm (cs.map JoinCell.edge)) : sortJoinFrom cs.length c cs = ds := by
  induction ds generalizing c cs with
  | nil =>
    obtain rfl : cs = [] := List.map_eq_nil_iff.mp hp.symm.eq_nil
    rfl
  | cons d ds ih =>
    have hlink : c.rtab = d.ltab := (List.isChain_cons_cons.mp h.linked).1
    obtain ⟨hne, hlater⟩ := h.tail.ltab_notMem
    have hlen : cs.length = ds.length + 1 := by simpa using hp.length_eq.symm
    have honly : ∀ e ∈ cs, touches c.rtab e = true → e.edge = d.edge := by
      intro e he ht
      have hmem : e.edge ∈ (d :: ds).map JoinCell.edge := hp.mem_iff.mpr (List.mem_map_of_mem he)
      obtain heq | hmem := List.mem_cons.mp hmem
      · exact heq
      · obtain ⟨e', he', heq⟩ := List.mem_map.mp hmem
        rw [touches_congr heq.symm, hlink, touches_iff] at ht
        exact absurd ht (not_or.mpr (hlater e' he'))
    have hfound : ∃ e ∈ cs, touches c.rtab e = true := by
      have hmem : d.edge ∈ cs.map JoinCell.edge := hp.mem_iff.mp (List.mem_cons_self ..)
      obtain ⟨e, he, heq⟩ := List.mem_map.mp hmem
      exact ⟨e, he, by rw [touches_congr heq, hlink, touches_iff]; exact .inl rfl⟩
    obtain ⟨-, hnone⟩ | ⟨e, es, hpull, ht, hpe⟩ := pullNext_spec c.rtab cs
    · obtain ⟨e, he, ht⟩ := hfound
      rw [hnone e he] at ht
      cases ht
    · have hed := honly e (hpe.subset (List.mem_cons_self ..)) ht
      have horient : orient c.rtab e = d := by
        obtain rfl | rfl := JoinCell.edge_eq_iff.mp hed
        · exact if_pos hlink
        · exact if_neg fun h => hne (hlink.symm.trans h)
      have hrest : (ds.map JoinCell.edge).Perm (es.map JoinCell.edge) := by
        have hall := hp.trans (hpe.map JoinCell.edge).symm
        rw [List.map_cons, List.map_cons, hed] at hall
        exact hall.cons_inv
      have hes : es.length = ds.length := by simpa using hrest.length_eq.symm
      rw [hlen, sortJoinFrom, hpull, horient]
      dsimp only
      rw [← hes, ih h.tail hrest]

/-- **`sortJoin` puts a path in order** when its first cell starts at the start of the path. -/
theorem sortJoin_eq_of_path {ch Join : List JoinCell} (h : Path ch Join)
    (hstart : ch.head?.map JoinCell.ltab = Join.head?.map JoinCell.ltab) : sortJoin Join = ch := by
  cases ch with
  | nil =>
    obtain rfl : Join = [] := List.map_eq_nil_iff.mp h.edges.symm.eq_nil
    rfl
  | cons d ds =>
    cases Join with
    | nil => cases hstart
    | cons c cs =>
      have htab : d.ltab = c.ltab := Option.some.inj hstart
      obtain ⟨hne, hlater⟩ := h.toChain.ltab_notMem
      have hmem : c.edge ∈ (d :: ds).map JoinCell.edge := h.edges.mem_iff.mpr (List.mem_cons_self ..)
      have hcd : c = d := by
        obtain ⟨e, he, heq⟩ := List.mem_map.mp hmem
        have htouch : touches d.ltab e = true := by
          rw [touches_congr heq, touches_iff]
          exact .inl htab
        obtain rfl | he := List.mem_cons.mp he
        · obtain rfl | rfl := JoinCell.edge_eq_iff.mp heq.symm
          · rfl
          · exact absurd htab hne
        · exact absurd (touches_iff.mp htouch) (not_or.mpr (hlater e he))
      subst hcd
      have hrest := h.edges
      rw [List.map_cons, List.map_cons] at hrest
      exact congrArg (c :: ·) (sortJoinFrom_eq h.toChain hrest.cons_inv)

/-! ## Walks along the cells -/

/-- The tables of a walk that follows the cells from left to right. -/
def Walk (J : List JoinCell) (ts : List String) : Prop :=
  ts.IsChain fun a b => ∃ c ∈ J, c.ltab = a ∧ c.rtab = b

theorem Chain.walk {ch : List JoinCell} (h : Chain ch) : Walk ch (relation ch) := by
  induction ch with
  | nil => exact .nil
  | cons c cs ih =>
    have hrest : Walk (c :: cs) (relation cs) := by
      refine (ih h.tail).imp fun a b hab => ?_
      obtain ⟨d, hd, hab⟩ := hab
      exact ⟨d, List.mem_cons_of_mem c hd, hab⟩
    rw [relation_cons h.linked]
    cases cs with
    | nil => exact .cons_cons ⟨c, List.mem_cons_self, rfl, rfl⟩ (.singleton _)
    | cons d ds =>
      obtain ⟨hcd, hlinked⟩ := List.isChain_cons_cons.mp h.linked
      rw [relation_cons hlinked, ← hcd] at hrest
      exact .cons_cons ⟨c, List.mem_cons_self, rfl, rfl⟩ hrest

/-- The position of a table on a path. -/
def pos (ch : List JoinCell) (a : String) : Nat := (relation ch).idxOf a

section
variable {ch : List JoinCell} (h : Chain ch)
include h

theorem Chain.pos_rtab {c : JoinCell} (hc : c ∈ ch) :
    pos ch c.rtab = pos ch c.ltab + 1 ∧ pos ch c.rtab ≤ ch.length ∧
      ∀ d ∈ ch, pos ch d.ltab = pos ch c.ltab → d = c := by
  obtain ⟨k, hk, rfl⟩ := List.getElem_of_mem hc
  have hcons : ch ≠ [] := List.ne_nil_of_mem hc
  have hrel : ∀ j (hj : j < ch.length), (relation ch)[j]? = some ch[j].ltab ∧ (relation ch)[j + 1]? = some ch[j].rtab := by
    intro j hj
    obtain ⟨d, ds, rfl⟩ := List.exists_cons_of_ne_nil hcons
    constructor
    · rw [relation, List.getElem?_append_left (by simpa using hj), List.getElem?_map, List.getElem?_eq_getElem hj]
      rfl
    · rw [relation_cons h.linked, List.getElem?_cons_succ, List.getElem?_map, List.getElem?_eq_getElem hj]
      rfl
  have hpos : ∀ j a, (relation ch)[j]? = some a → pos ch a = j := by
    intro j a ha
    obtain ⟨hj, rfl⟩ := List.getElem?_eq_some_iff.mp ha
    exact h.distinct.idxOf_getElem j hj
  have hl := hpos _ _ (hrel k hk).1
  have hr := hpos _ _ (hrel k hk).2
  refine ⟨by rw [hl, hr], by omega, ?_⟩
  intro d hd hdc
  obtain ⟨j, hj, rfl⟩ := List.getElem_of_mem hd
  rw [hpos _ _ (hrel j hj).1, hl] at hdc
  subst hdc
  rfl

theorem Chain.edges_nodup : (ch.map JoinCell.edge).Nodup := by
  refine List.Nodup.map_on ?_ ?_
  · intro c hc d hd hcd
    obtain rfl | rfl := JoinCell.edge_eq_iff.mp hcd
    · rfl
    · have h1 := (h.pos_rtab hc).1
      have h2 := (h.pos_rtab hd).1
      simp only [JoinCell.swap] at h1
      omega
  · cases ch with
    | nil => exact List.nodup_nil
    | cons c cs =>
      have hd := h.distinct
      rw [relation, List.nodup_append] at hd
      exact hd.1.of_map

end

section
variable {ch J : List JoinCell} (h : Path ch J)
include h

theorem Path.pos_step {c : JoinCell} (hc : c ∈ J) :
    (pos ch c.rtab = pos ch c.ltab + 1 ∨ pos ch c.ltab = pos ch c.rtab + 1) ∧
      pos ch c.ltab ≤ ch.length ∧ pos ch c.rtab ≤ ch.length := by
  have hmem : c.edge ∈ ch.map JoinCell.edge := h.edges.mem_iff.mpr (List.mem_map_of_mem hc)
  obtain ⟨d, hd, heq⟩ := List.mem_map.mp hmem
  obtain ⟨hstep, hle, -⟩ := h.pos_rtab hd
  obtain rfl | rfl := JoinCell.edge_eq_iff.mp heq.symm
  · exact ⟨.inl hstep, by omega, hle⟩
  · exact ⟨.inr hstep, hle, by simp only [JoinCell.swap]; omega⟩

theorem Path.no_return {c d : JoinCell} (hc : c ∈ J) (hd : d ∈ J) (hl : pos ch c.ltab = pos ch d.rtab)
    (hr : pos ch c.rtab = pos ch d.ltab) : False := by
  have hedge : ∀ e ∈ J, ∃ e' ∈ ch, e'.edge = e.edge ∧ min (pos ch e.ltab) (pos ch e.rtab) = pos ch e'.ltab := by
    intro e he
    have hmem : e.edge ∈ ch.map JoinCell.edge := h.edges.mem_iff.mpr (List.mem_map_of_mem he)
    obtain ⟨e', he', heq⟩ := List.mem_map.mp hmem
    have hstep := (h.pos_rtab he').1
    refine ⟨e', he', heq, ?_⟩
    obtain rfl | rfl := JoinCell.edge_eq_iff.mp heq.symm
    · omega
    · simp only [JoinCell.swap]
      omega
  obtain ⟨c', hc', hcc, hcmin⟩ := hedge c hc
  obtain ⟨d', hd', hdd, hdmin⟩ := hedge d hd
  have hsame : c' = d' := (h.pos_rtab hd').2.2 c' hc' (by omega)
  have hnd : (J.map JoinCell.edge).Nodup := h.edges.nodup_iff.mp h.edges_nodup
  have hcd : c = d := List.inj_on_of_nodup_map hnd hc hd (by rw [← hcc, ← hdd, hsame])
  have hstep := (h.pos_step hc).1
  subst hcd
  omega

theorem Path.walk_up {a b : String} {ts : List String} (hw : Walk J (a :: b :: ts)) (hup : pos ch b = pos ch a + 1) :
    pos ch a + (ts.length + 1) ≤ ch.length := by
  induction ts generalizing a b with
  | nil =>
    obtain ⟨⟨c, hc, rfl, rfl⟩, -⟩ := List.isChain_cons_cons.mp hw
    have := (h.pos_step hc).2.2
    simp only [List.length_nil]
    omega
  | cons t ts ih =>
    obtain ⟨⟨c, hc, rfl, rfl⟩, hw'⟩ := List.isChain_cons_cons.mp hw
    obtain ⟨⟨d, hd, hl, rfl⟩, -⟩ := List.isChain_cons_cons.mp hw'
    have hnext := (h.pos_step hd).1
    rw [hl] at hnext
    have hback : pos ch c.rtab ≠ pos ch d.rtab + 1 := by
      intro hb
      exact h.no_return hc hd (by omega) (by rw [hl])
    have := ih hw' (hnext.resolve_right hback)
    simp only [List.length_cons]
    omega

theorem Path.walk_down {a b : String} {ts : List String} (hw : Walk J (a :: b :: ts))
    (hdown : pos ch a = pos ch b + 1) : ts.length + 1 ≤ pos ch a := by
  induction ts generalizing a b with
  | nil =>
    simp only [List.length_nil]
    omega
  | cons t ts ih =>
    obtain ⟨⟨c, hc, rfl, rfl⟩, hw'⟩ := List.isChain_cons_cons.mp hw
    obtain ⟨⟨d, hd, hl, rfl⟩, -⟩ := List.isChain_cons_cons.mp hw'
    have hnext := (h.pos_step hd).1
    rw [hl] at hnext
    have hback : pos ch d.rtab ≠ pos ch c.rtab + 1 := by
      intro hb
      exact h.no_return hc hd (by omega) (by rw [hl])
    have := ih hw' (hnext.resolve_left hback)
    simp only [List.length_cons]
    omega

end

/-! ## Reading a path from its other end -/

/-- The cells in the opposite order, each with its sides exchanged. -/
def turned (ch : List JoinCell) : List JoinCell := (ch.map JoinCell.swap).reverse

theorem mem_turned {ch : List JoinCell} {c : JoinCell} : c ∈ turned ch ↔ c.swap ∈ ch := by
  rw [turned, List.mem_reverse, List.mem_map]
  exact ⟨fun ⟨_, hd, hdc⟩ => hdc ▸ hd, fun hc => ⟨_, hc, rfl⟩⟩

theorem edges_turned (ch : List JoinCell) : ((turned ch).map JoinCell.edge).Perm (ch.map JoinCell.edge) := by
  rw [turned, List.map_reverse, List.map_map]
  refine (List.reverse_perm _).trans (.of_eq (List.map_congr_left fun c _ => ?_))
  exact c.edge_swap

theorem relation_turned {ch : List JoinCell} (h : ch.IsChain fun c d => c.rtab = d.ltab) :
    relation (turned ch) = (relation ch).reverse := by
  cases ch with
  | nil => rfl
  | cons c cs =>
    rw [relation_cons h, relation, turned, List.getLast?_reverse, List.map_reverse, List.map_map]
    simp [JoinCell.swap, Function.comp_def]

theorem Chain.turn {ch : List JoinCell} (h : Chain ch) : Chain (turned ch) where
  linked := by
    rw [turned, List.isChain_reverse, List.isChain_map]
    exact h.linked.imp fun _ _ hab => hab.symm
  distinct := by
    rw [relation_turned h.linked]
    exact List.nodup_reverse.mpr h.distinct

theorem Path.turn {ch J : List JoinCell} (h : Path ch J) : Path (turned ch) J :=
  ⟨h.toChain.turn, (edges_turned ch).trans h.edges⟩

/-- **A walk along the cells that visits as many tables as the path has starts at an end of the
path.** -/
theorem Path.exists_start {ch J : List JoinCell} (h : Path ch J) {a : String} {ts : List String}
    (hlen : ts.length = J.length) (hne : J ≠ []) (hw : Walk J (a :: ts)) :
    ∃ ch', (ch' = ch ∨ ch' = turned ch) ∧ Path ch' J ∧ ch'.head?.map JoinCell.ltab = some a := by
  have hch : ch.length = J.length := by simpa using h.edges.length_eq
  have hchne : ch ≠ [] := by
    rintro rfl
    exact hne (List.length_eq_zero_iff.mp hch.symm)
  cases ts with
  | nil => exact absurd (List.length_eq_zero_iff.mp hlen.symm) hne
  | cons b ts =>
    obtain ⟨⟨c, hc, rfl, rfl⟩, -⟩ := List.isChain_cons_cons.mp hw
    have hget : ∀ k, pos ch c.ltab = k → k < (relation ch).length → (relation ch)[k]? = some c.ltab := by
      rintro k rfl hk
      rw [List.getElem?_eq_getElem hk]
      exact congrArg some (List.getElem_idxOf hk)
    have hrlen := length_relation hchne
    simp only [List.length_cons] at hlen
    obtain ⟨hup | hdown, hle, -⟩ := h.pos_step hc
    · have hzero : pos ch c.ltab = 0 := by
        have := h.walk_up hw hup
        omega
      have h0 := hget 0 hzero (by omega)
      refine ⟨ch, .inl rfl, h, ?_⟩
      obtain ⟨d, ds, rfl⟩ := List.exists_cons_of_ne_nil hchne
      rwa [relation_cons h.linked] at h0
    · have hlast : pos ch c.ltab = ch.length := by
        have := h.walk_down hw hdown
        omega
      have hn := hget ch.length hlast (by omega)
      refine ⟨_, .inr rfl, h.turn, ?_⟩
      have hhead : ((relation ch).reverse).head? = some c.ltab := by
        rw [List.head?_reverse, List.getLast?_eq_getElem?, hrlen]
        exact hn
      rw [← relation_turned h.linked] at hhead
      have hrne : turned ch ≠ [] := by simpa [turned] using hchne
      obtain ⟨d, ds, hd⟩ := List.exists_cons_of_ne_nil hrne
      rw [hd] at hhead ⊢
      exact hhead

/-- A path has two readings only. -/
theorem Path.eq_or_turned {ch ch' : List JoinCell} (h : Path ch ch') (h' : Chain ch') : ch' = ch ∨ ch' = turned ch := by
  cases ch' with
  | nil =>
    have hlen : ch.length = 0 := by simpa using h.edges.length_eq
    exact .inl (List.length_eq_zero_iff.mp hlen).symm
  | cons c cs =>
    have hw : Walk (c :: cs) (c.ltab :: (c :: cs).map JoinCell.rtab) := by
      rw [← relation_cons h'.linked]
      exact h'.walk
    obtain ⟨ch'', hor, hpath, hstart⟩ := h.exists_start (List.length_map _) (List.cons_ne_nil c cs) hw
    have hsame : c :: cs = ch'' := by
      rw [← sortJoin_eq_of_path (⟨h', .refl _⟩ : Path (c :: cs) (c :: cs)) rfl, sortJoin_eq_of_path hpath hstart]
    rwa [hsame]

/-! ## Chaining a path -/

theorem Path.chain_sortJoin {ch Join : List JoinCell} (h : Path ch Join)
    (hend : (relation ch).head? = Join.head?.map JoinCell.ltab ∨
      (relation ch).getLast? = Join.head?.map JoinCell.ltab) : Chain (sortJoin Join) := by
  have hhead : ∀ {cs : List JoinCell}, Chain cs → cs.head?.map JoinCell.ltab = (relation cs).head? := by
    intro cs hcs
    cases cs with
    | nil => rfl
    | cons c cs =>
      rw [relation_cons hcs.linked]
      rfl
  obtain hfirst | hlast := hend
  · rw [sortJoin_eq_of_path h ((hhead h.toChain).trans hfirst)]
    exact h.toChain
  · have hr := h.turn
    have hstart : (turned ch).head?.map JoinCell.ltab = Join.head?.map JoinCell.ltab := by
      rw [hhead hr.toChain, relation_turned h.linked, List.head?_reverse, hlast]
    rw [sortJoin_eq_of_path hr hstart]
    exact hr.toChain

/-- **`sortJoin` keeps the join conditions and chains a path.** Every join list keeps its column
equalities, and a simple path whose first cell has its left table at an end of the path comes out with
each cell's right table the left table of the next. -/
theorem sortJoin_chains (Join : List JoinCell) :
    ((sortJoin Join).map JoinCell.edge).Perm (Join.map JoinCell.edge) ∧
      ∀ ch, Path ch Join →
        (relation ch).head? = Join.head?.map JoinCell.ltab ∨ (relation ch).getLast? = Join.head?.map JoinCell.ltab →
        ∀ i c d, (sortJoin Join)[i]? = some c → (sortJoin Join)[i + 1]? = some d → c.rtab = d.ltab := by
  refine ⟨edges_sortJoin Join, ?_⟩
  intro ch hpath hend i c d hc hd
  obtain ⟨hi, rfl⟩ := List.getElem?_eq_some_iff.mp hd
  obtain ⟨-, rfl⟩ := List.getElem?_eq_some_iff.mp hc
  exact (hpath.chain_sortJoin hend).linked.getElem i hi

/-- A path over four tables, given from its last table on with the middle cell last. -/
def publisherToCustomer : List JoinCell :=
  [⟨"Customer", "id", "Orders", "customer_id"⟩, ⟨"Publisher", "id", "Book", "publisher_id"⟩,
    ⟨"Book", "id", "Orders", "book_id"⟩]

theorem sortJoin_chains_publisher :
    sortJoin publisherToCustomer = [⟨"Customer", "id", "Orders", "customer_id"⟩,
        ⟨"Orders", "book_id", "Book", "id"⟩, ⟨"Book", "publisher_id", "Publisher", "id"⟩] ∧
      ∀ i c d, (sortJoin publisherToCustomer)[i]? = some c → (sortJoin publisherToCustomer)[i + 1]? = some d →
        c.rtab = d.ltab := by
  refine ⟨by decide, (sortJoin_chains publisherToCustomer).2 [⟨"Publisher", "id", "Book", "publisher_id"⟩,
    ⟨"Book", "id", "Orders", "book_id"⟩, ⟨"Orders", "customer_id", "Customer", "id"⟩] ⟨⟨?_, ?_⟩, ?_⟩
    (.inr (by decide))⟩
  · simp
  · decide
  · decide

end EasyDDB.Optimizer
