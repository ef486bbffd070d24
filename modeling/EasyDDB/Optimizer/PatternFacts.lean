import EasyDDB.Lib.Bags
import EasyDDB.Lib.Loops
import EasyDDB.Optimizer.Pattern
import Mathlib.Data.List.Perm.Basic
import Mathlib.Data.List.Sections
import Mathlib.Algebra.Order.Ring.Nat

/-! # What `get_pattern` keeps

The sections of a pattern are the number sequences it stands for. Merging patterns that differ in one
position never loses or repeats a sequence: the test ignores that position, so it is an equivalence,
and a pattern that is absorbed once is out of reach for every other pattern that stays. -/
namespace EasyDDB.Optimizer
set_option autoImplicit false

/-! ## Sections -/

theorem sections_modify_append (p : Pattern) {i : Nat} (hi : i < p.length) (a : List Int) :
    (p.modify i fun l => l ++ a).sections.Perm (p.sections ++ (p.modify i fun _ => a).sections) := by
  induction p generalizing i with
  | nil => simp at hi
  | cons l p ih =>
    cases i with
    | zero =>
      simp only [List.modify_zero_cons, List.sections, List.map_append]
      exact (List.flatMap_append_perm ..).symm
    | succ i =>
      simp only [List.modify_succ_cons, List.sections]
      rw [← List.flatMap_append]
      exact (ih (by simpa using hi)).flatMap_right _

theorem sections_singletons (s : List Int) : List.sections (s.map fun z => [z]) = [s] := by
  induction s with
  | nil => rfl
  | cons z s ih => simp [List.sections, ih]

/-! ## `check_pattern` -/

theorem checkPattern_iff {a b : Pattern} {pos sz : Nat} :
    checkPattern a b pos sz = true ↔ ∀ j < sz, j ≠ pos → a[j]? = b[j]? := by
  simp only [checkPattern, List.all_eq_true, List.mem_range, decide_eq_true_eq]
  exact forall₂_congr fun j _ => ⟨fun h hne => h.resolve_left hne, fun h => or_iff_not_imp_left.mpr h⟩

theorem checkPattern_symm {a b : Pattern} {pos sz : Nat} (h : checkPattern a b pos sz = true) :
    checkPattern b a pos sz = true :=
  checkPattern_iff.mpr fun j hj hne => (checkPattern_iff.mp h j hj hne).symm

theorem checkPattern_trans {a b c : Pattern} {pos sz : Nat} (h : checkPattern a b pos sz = true)
    (h' : checkPattern b c pos sz = true) : checkPattern a c pos sz = true :=
  checkPattern_iff.mpr fun j hj hne => (checkPattern_iff.mp h j hj hne).trans (checkPattern_iff.mp h' j hj hne)

theorem checkPattern_modify (p : Pattern) (f : List Int → List Int) (i sz : Nat) :
    checkPattern p (p.modify i f) i sz = true := by
  refine checkPattern_iff.mpr fun j _ hne => ?_
  simp [hne.symm]

theorem modify_of_checkPattern {p q : Pattern} {i sz : Nat} (hp : p.length = sz) (hq : q.length = sz)
    (h : checkPattern p q i sz = true) : (p.modify i fun _ => (q[i]?).getD []) = q := by
  refine List.ext_getElem? fun j => ?_
  rw [List.getElem?_modify, Option.map_eq_map]
  by_cases hj : j < sz
  · by_cases hji : i = j
    · subst hji
      rw [List.getElem?_eq_getElem (hq.symm ▸ hj), List.getElem?_eq_getElem (hp.symm ▸ hj)]
      simp
    · rw [checkPattern_iff.mp h j hj (Ne.symm hji)]
      simp [hji]
  · have hnone : p[j]? = none ∧ q[j]? = none := ⟨List.getElem?_eq_none (by omega), List.getElem?_eq_none (by omega)⟩
    rw [hnone.1, hnone.2, Option.map_none]

/-! ## One round -/

/-- The patterns that carry no mark. -/
def unmarked (l : List (Bool × Pattern)) : List Pattern := (l.filter fun mp => !mp.1).map Prod.snd

/-- A pattern for `sz` tables with at least one fragment of each. -/
def Pattern.Full (sz : Nat) (p : Pattern) : Prop := p.length = sz ∧ ∀ e ∈ p, e ≠ []

theorem Pattern.Full.modify_append {sz : Nat} {p : Pattern} (h : Pattern.Full sz p) (i : Nat) (a : List Int) :
    Pattern.Full sz (p.modify i fun l => l ++ a) := by
  refine ⟨(List.length_modify ..).trans h.1, fun e he => ?_⟩
  obtain ⟨j, hj⟩ := List.mem_iff_getElem?.mp he
  rw [List.getElem?_modify, Option.map_eq_map, Option.map_eq_some_iff] at hj
  obtain ⟨e', he', rfl⟩ := hj
  have hne := h.2 e' (List.mem_of_getElem? he')
  by_cases hij : i = j <;> simp [hij, hne]

/-- What the loop over `k` does when no marked pattern is within reach of `p`. -/
structure Absorbed (i sz : Nat) (p : Pattern) (l : List (Bool × Pattern)) (r : Pattern × List (Bool × Pattern)) :
    Prop where
  full : Pattern.Full sz r.1 ∧ ∀ mq ∈ r.2, Pattern.Full sz mq.2
  length : r.2.length = l.length
  sections : (r.1.sections ++ (unmarked r.2).flatMap List.sections).Perm
    (p.sections ++ (unmarked l).flatMap List.sections)
  marked : ∀ q, (true, q) ∈ r.2 → (true, q) ∈ l ∨ checkPattern p q i sz = true
  kept : ∀ q, (false, q) ∈ r.2 → (false, q) ∈ l ∧ checkPattern p q i sz = false

section
variable {i sz : Nat} {p q : Pattern} {l : List (Bool × Pattern)} {r : Pattern × List (Bool × Pattern)}

theorem unmarked_false (q : Pattern) (l : List (Bool × Pattern)) : unmarked ((false, q) :: l) = q :: unmarked l := rfl

theorem full_cons {m : Bool} (hq : Pattern.Full sz q) (hl : ∀ mq ∈ l, Pattern.Full sz mq.2) :
    ∀ mq ∈ (m, q) :: l, Pattern.Full sz mq.2 := by
  intro mq hmq
  obtain rfl | hmq := List.mem_cons.mp hmq
  · exact hq
  · exact hl mq hmq

theorem checkPattern_absorb (p : Pattern) (a : List Int) (i sz : Nat) (q' : Pattern) :
    checkPattern (p.modify i fun l => l ++ a) q' i sz = checkPattern p q' i sz := by
  have hsame := checkPattern_modify p (fun l => l ++ a) i sz
  exact Bool.eq_iff_iff.mpr ⟨checkPattern_trans hsame, checkPattern_trans (checkPattern_symm hsame)⟩

theorem Absorbed.take (hi : i < sz) (hp : Pattern.Full sz p) (hq : Pattern.Full sz q)
    (hpq : checkPattern p q i sz = true) (h : Absorbed i sz (p.modify i fun l => l ++ (q[i]?).getD []) l r) :
    Absorbed i sz p ((false, q) :: l) (r.1, (true, q) :: r.2) := by
  refine ⟨⟨h.full.1, full_cons hq h.full.2⟩, by simp [h.length], ?_, ?_, ?_⟩
  · have hsec := sections_modify_append p (hp.1.symm ▸ hi) ((q[i]?).getD [])
    rw [modify_of_checkPattern hp.1 hq.1 hpq] at hsec
    rw [unmarked_false, List.flatMap_cons, ← List.append_assoc]
    exact h.sections.trans (hsec.append_right _)
  · intro q' hq'
    obtain heq | hq' := List.mem_cons.mp hq'
    · cases heq
      exact .inr hpq
    · exact (h.marked q' hq').imp (List.mem_cons_of_mem _) fun hc => checkPattern_absorb p _ i sz q' ▸ hc
  · intro q' hq'
    obtain heq | hq' := List.mem_cons.mp hq'
    · cases heq
    · obtain ⟨hmem, hc⟩ := h.kept q' hq'
      exact ⟨List.mem_cons_of_mem _ hmem, checkPattern_absorb p _ i sz q' ▸ hc⟩

theorem Absorbed.leave {m : Bool} (hq : Pattern.Full sz q) (hpq : checkPattern p q i sz = false)
    (h : Absorbed i sz p l r) : Absorbed i sz p ((m, q) :: l) (r.1, (m, q) :: r.2) := by
  refine ⟨⟨h.full.1, full_cons hq h.full.2⟩, by simp [h.length], ?_, ?_, ?_⟩
  · cases m with
    | true => exact h.sections
    | false =>
      rw [unmarked_false, unmarked_false, List.flatMap_cons, List.flatMap_cons]
      refine List.perm_append_comm_assoc .. |>.trans (.trans ?_ (List.perm_append_comm_assoc ..))
      exact h.sections.append_left _
  · intro q' hq'
    obtain heq | hq' := List.mem_cons.mp hq'
    · exact .inl (heq ▸ List.mem_cons_self ..)
    · exact (h.marked q' hq').imp_left (List.mem_cons_of_mem _)
  · intro q' hq'
    obtain heq | hq' := List.mem_cons.mp hq'
    · cases heq
      exact ⟨List.mem_cons_self .., hpq⟩
    · obtain ⟨hmem, hc⟩ := h.kept q' hq'
      exact ⟨List.mem_cons_of_mem _ hmem, hc⟩

end

theorem absorb_spec {i sz : Nat} (hi : i < sz) {p : Pattern} {l : List (Bool × Pattern)} (hp : Pattern.Full sz p)
    (hl : ∀ mq ∈ l, Pattern.Full sz mq.2) (hm : ∀ q, (true, q) ∈ l → checkPattern p q i sz = false) :
    Absorbed i sz p l (absorb i sz p l) := by
  induction l generalizing p with
  | nil => exact ⟨⟨hp, by simp [absorb]⟩, rfl, .refl _, by simp [absorb], by simp [absorb]⟩
  | cons mq l ih =>
    obtain ⟨m, q⟩ := mq
    have hq : Pattern.Full sz q := hl (m, q) (List.mem_cons_self ..)
    have hl' : ∀ mq ∈ l, Pattern.Full sz mq.2 := fun mq h => hl mq (List.mem_cons_of_mem _ h)
    by_cases hpq : checkPattern p q i sz = true
    · obtain rfl : m = false := by
        cases m with
        | false => rfl
        | true => rw [hm q (List.mem_cons_self ..)] at hpq; cases hpq
      have h := ih (hp.modify_append i ((q[i]?).getD [])) hl' fun q' hq' => by
        rw [checkPattern_absorb]
        exact hm q' (List.mem_cons_of_mem _ hq')
      have heq : absorb i sz p ((false, q) :: l) =
          ((absorb i sz (p.modify i fun l => l ++ (q[i]?).getD []) l).1,
            (true, q) :: (absorb i sz (p.modify i fun l => l ++ (q[i]?).getD []) l).2) := by
        simp [absorb, hpq]
      rw [heq]
      exact h.take hi hp hq hpq
    · have heq : absorb i sz p ((m, q) :: l) = ((absorb i sz p l).1, (m, q) :: (absorb i sz p l).2) := by
        simp [absorb, hpq]
      rw [heq]
      exact (ih hp hl' fun q' hq' => hm q' (List.mem_cons_of_mem _ hq')).leave hq (Bool.eq_false_iff.mpr hpq)

/-- No pattern without a mark could absorb a marked one. -/
def Apart (i sz : Nat) (l : List (Bool × Pattern)) : Prop :=
  ∀ p q, (false, p) ∈ l → (true, q) ∈ l → checkPattern p q i sz = false

theorem mergeFrom_spec {i sz : Nat} (hi : i < sz) {n : Nat} {l : List (Bool × Pattern)} (hn : l.length ≤ n)
    (hl : ∀ mq ∈ l, Pattern.Full sz mq.2) (hap : Apart i sz l) :
    ((unmarked (mergeFrom i sz n l)).flatMap List.sections).Perm ((unmarked l).flatMap List.sections) ∧
      (∀ mq ∈ mergeFrom i sz n l, Pattern.Full sz mq.2) ∧ (mergeFrom i sz n l).length = l.length := by
  induction n generalizing l with
  | zero =>
    obtain rfl : l = [] := List.length_eq_zero_iff.mp (by omega)
    exact ⟨.refl _, hl, rfl⟩
  | succ n ih =>
    match l with
    | [] => exact ⟨.refl _, hl, rfl⟩
    | (true, p) :: rest =>
      have hlen : rest.length ≤ n := by simpa using hn
      obtain ⟨hsec, hfull, hlen'⟩ := ih hlen (fun mq h => hl mq (List.mem_cons_of_mem _ h))
        fun p' q hp' hq => hap p' q (List.mem_cons_of_mem _ hp') (List.mem_cons_of_mem _ hq)
      refine ⟨hsec, fun mq hmq => ?_, by simp [mergeFrom, hlen']⟩
      obtain rfl | hmq := List.mem_cons.mp hmq
      · exact hl _ (List.mem_cons_self ..)
      · exact hfull mq hmq
    | (false, p) :: rest =>
      have h := absorb_spec hi (hl (false, p) (List.mem_cons_self ..)) (fun mq h => hl mq (List.mem_cons_of_mem _ h))
        fun q hq => hap p q (List.mem_cons_self ..) (List.mem_cons_of_mem _ hq)
      have hlen : (absorb i sz p rest).2.length ≤ n := by
        rw [h.length]
        simpa using hn
      have hap' : Apart i sz (absorb i sz p rest).2 := by
        intro p' q hp' hq
        obtain ⟨hmem, hpp'⟩ := h.kept p' hp'
        obtain hq | hpq := h.marked q hq
        · exact hap p' q (List.mem_cons_of_mem _ hmem) (List.mem_cons_of_mem _ hq)
        · by_contra hc
          rw [Bool.not_eq_false] at hc
          rw [checkPattern_trans hpq (checkPattern_symm hc)] at hpp'
          cases hpp'
      obtain ⟨hsec, hfull, hlen'⟩ := ih hlen h.full.2 hap'
      have heq : mergeFrom i sz (n + 1) ((false, p) :: rest) =
          (false, (absorb i sz p rest).1) :: mergeFrom i sz n (absorb i sz p rest).2 := by
        simp [mergeFrom]
      have hun : ∀ q l, unmarked ((false, q) :: l) = q :: unmarked l := fun _ _ => rfl
      rw [heq]
      refine ⟨?_, fun mq hmq => ?_, by simp [hlen', h.length]⟩
      · rw [hun, hun, List.flatMap_cons, List.flatMap_cons]
        exact (hsec.append_left _).trans h.sections
      · obtain rfl | hmq := List.mem_cons.mp hmq
        · exact h.full.1
        · exact hfull mq hmq

theorem patternRound_spec {i sz : Nat} (hi : i < sz) {pattern : List Pattern} (h300 : pattern.length ≤ 300)
    (hfull : ∀ p ∈ pattern, Pattern.Full sz p) :
    ∃ pattern', patternRound sz pattern i = some pattern' ∧
      (pattern'.flatMap List.sections).Perm (pattern.flatMap List.sections) ∧
      (∀ p ∈ pattern', Pattern.Full sz p) ∧ pattern'.length ≤ pattern.length := by
  have hun : unmarked (pattern.map fun p => (false, p)) = pattern := by
    induction pattern with
    | nil => rfl
    | cons p pattern ih =>
      exact congrArg (p :: ·) (ih (by simp at h300; omega) fun q hq => hfull q (List.mem_cons_of_mem _ hq))
  obtain ⟨hsec, hf, hlen⟩ := mergeFrom_spec (n := pattern.length) hi (l := pattern.map fun p => (false, p)) (by simp)
    (by simpa using hfull) (by intro p q _ hq; simp at hq)
  refine ⟨unmarked (mergeFrom i sz pattern.length (pattern.map fun p => (false, p))), if_pos h300, ?_, ?_, ?_⟩
  · rwa [hun] at hsec
  · intro p hp
    obtain ⟨mp, hmp, rfl⟩ := List.mem_map.mp hp
    exact hf mp (List.mem_of_mem_filter hmp)
  · rw [unmarked, List.length_map]
    refine (List.length_filter_le ..).trans ?_
    rw [hlen, List.length_map]

/-- More than 300 join lists leave the array of marks in the first round. -/
theorem getPattern_length {JL : List (List FragName)} {sz : Nat} {res : List Pattern}
    (h : getPattern JL (sz + 1) = some res) : JL.length ≤ 300 := by
  rw [getPattern, List.range_succ, List.reverse_append, List.reverse_singleton, List.singleton_append,
    List.foldlM_cons, Option.bind_eq_bind, Option.bind_eq_some_iff] at h
  obtain ⟨c, hc, -⟩ := h
  unfold patternRound at hc
  split_ifs at hc with hle
  simpa using hle

/-- **`get_pattern` covers every join list exactly once.** -/
theorem getPattern_exact {joinList : List (List FragName)} {sz : Nat} (hlen : ∀ x ∈ joinList, x.length = sz)
    (h300 : joinList.length ≤ 300) :
    ∃ res, getPattern joinList sz = some res ∧
      (res.flatMap List.sections).Perm (joinList.map fun x => x.map FragName.num) ∧ ∀ p ∈ res, Pattern.Full sz p := by
  have hstart : joinList.map (fun x => (x.take sz).map fun f => [f.num]) =
      joinList.map fun x => (x.map FragName.num).map fun z => [z] := by
    refine List.map_congr_left fun x hx => ?_
    rw [List.take_of_length_le (hlen x hx).le, List.map_map]
    rfl
  let I := fun (c : List Pattern) => (c.flatMap List.sections).Perm (joinList.map fun x => x.map FragName.num) ∧
    (∀ p ∈ c, Pattern.Full sz p) ∧ c.length ≤ 300
  have hround : ∀ i ∈ (List.range sz).reverse, ∀ c, I c → ∃ c', patternRound sz c i = some c' ∧ I c' := by
    intro i hi c hc
    have hi' : i < sz := by simpa using hi
    obtain ⟨c', hstep, hsec, hfull, hle⟩ := patternRound_spec hi' hc.2.2 hc.2.1
    exact ⟨c', hstep, hsec.trans hc.1, hfull, hle.trans hc.2.2⟩
  have hinit : I (joinList.map fun x => (x.take sz).map fun f => [f.num]) := by
    rw [hstart]
    refine ⟨.of_eq ?_, ?_, by simpa using h300⟩
    · rw [List.flatMap_map]
      simp only [sections_singletons]
      rw [← List.map_eq_flatMap]
    · intro p hp
      obtain ⟨x, hx, rfl⟩ := List.mem_map.mp hp
      refine ⟨by simpa using hlen x hx, fun e he => ?_⟩
      obtain ⟨z, -, rfl⟩ := List.mem_map.mp he
      exact List.cons_ne_nil _ _
  obtain ⟨res, hres, hsec, hfull, -⟩ := Loops.progress hround hinit
  exact ⟨res, hres, hsec, hfull⟩

/-- **Pattern merging is exact**: over all patterns each number sequence is covered as often as it
occurs among the join lists. -/
theorem getPattern_covers (joinList : List (List FragName)) (sz : Nat) (hlen : ∀ x ∈ joinList, x.length = sz)
    (h300 : joinList.length ≤ 300) :
    ∃ res, getPattern joinList sz = some res ∧ (∀ p ∈ res, p.length = sz) ∧
      ∀ nums : List Int, (res.map fun p => p.sections.count nums).sum =
        (joinList.map fun x => x.map FragName.num).count nums := by
  obtain ⟨res, hres, hperm, hfull⟩ := getPattern_exact hlen h300
  refine ⟨res, hres, fun p hp => (hfull p hp).1, ?_⟩
  intro nums
  rw [← hperm.count_eq, List.count_flatMap]
  rfl

/-- Three fragment sequences, one of them twice. -/
def bookOrderLists : List (List FragName) :=
  [[⟨"Book", 1⟩, ⟨"Orders", 1⟩], [⟨"Book", 1⟩, ⟨"Orders", 2⟩], [⟨"Book", 3⟩, ⟨"Orders", 2⟩],
    [⟨"Book", 1⟩, ⟨"Orders", 2⟩]]

theorem getPattern_covers_bookOrders :
    getPattern bookOrderLists 2 = some [[[1], [1, 2, 2]], [[3], [2]]] ∧
      ∃ res, getPattern bookOrderLists 2 = some res ∧ (∀ p ∈ res, p.length = 2) ∧
        ∀ nums : List Int, (res.map fun p => p.sections.count nums).sum =
          (bookOrderLists.map fun x => x.map FragName.num).count nums :=
  ⟨by decide, getPattern_covers bookOrderLists 2 (by decide) (by decide)⟩

end EasyDDB.Optimizer
