import EasyDDB.Execution.Solo

/-! # Two scans of one site

A scan sees a node as unfinished until its rows have been stored, so two scans of a site that start while a node
of the site is ready both execute it.  From states in which all scans are still to start, such a race can be
arranged as soon as one site has a scan to spare: when a node has two children, and when a site has a node but
no leaf. -/
namespace EasyDDB.Execution
open Pool (Leads)
set_option autoImplicit false

/-- Some run executes a node twice. -/
def Twice (selectSql : SelectSql) (plan : AugmentedPlan) (s : Pool.State Store Proc Event) : Prop :=
  ∃ t, Leads (procStep selectSql) s t ∧ ∃ i < plan.length, 2 ≤ executions plan t.log i

/-- The scans still to start, as a state of the pool. -/
def pendingState (st : Store) (pend : List String) (log : List Event) : Pool.State Store Proc Event :=
  ⟨st, pend.map .scanStart, log⟩

/-- Every ready node has a scan of its site still to start. -/
structure Calm (plan : AugmentedPlan) (st : Store) (pend : List String) : Prop where
  holds : st.Holds plan
  flags : ∀ i < plan.length, st.flag i = 0 ∨ st.flag i = 1
  served : ∀ site i, Ready plan st site i → site ∈ pend

/-- One scan of `site` has executed the nodes `todo` it found ready. -/
structure Advanced (plan : AugmentedPlan) (st st' : Store) (site : String) (todo : List Nat) : Prop where
  holds : st'.Holds plan
  ready : ∀ i, i ∈ todo ↔ Ready plan st site i
  flag : ∀ j, st'.flag j = if j ∈ todo then 1 else st.flag j

/-- The nodes still to be executed. -/
def unflagged (plan : AugmentedPlan) (st : Store) : Finset Nat := (Finset.range plan.length).filter (st.flag · ≠ 1)

section
variable {selectSql : SelectSql} {plan : AugmentedPlan} {root : Nat} {st st' : Store} {pend : List String}
  {site : String} {todo : List Nat} {log : List Event} {s t : Pool.State Store Proc Event}

theorem Twice.of_leads (hleads : Leads (procStep selectSql) s t) (h : Twice selectSql plan t) :
    Twice selectSql plan s := by
  obtain ⟨u, hu, htwice⟩ := h
  exact ⟨u, hleads.trans hu, htwice⟩

theorem Ready.lt {i : Nat} (h : Ready plan st site i) : i < plan.length := by
  obtain ⟨node, hnode, -⟩ := h.1.node
  exact (List.getElem?_eq_some_iff.1 hnode).1

/-! ## Two scans of a site with a ready node -/

theorem twice_of_ready {i : Nat} (htree : PlanTree plan root) (hst : st.Holds plan) (hready : Ready plan st site i)
    (hcount : 2 ≤ pend.count site) : Twice selectSql plan (pendingState st pend log) := by
  have hfirst : pend.Perm (site :: pend.erase site) :=
    List.perm_cons_erase (List.count_pos_iff.1 (by omega))
  have hsecond : (pend.erase site).Perm (site :: (pend.erase site).erase site) := by
    refine List.perm_cons_erase (List.count_pos_iff.1 ?_)
    rw [List.count_erase_self]
    omega
  let rest : List Proc := ((pend.erase site).erase site).map .scanStart
  let copy := st.savedPlan
  have hi : i ∈ toExecute site copy := (mem_toExecute_savedPlan hst).2 hready
  have hlt : ∀ j ∈ toExecute site copy, j < plan.length := fun j hj => ((mem_toExecute_savedPlan hst).1 hj).lt
  have hread : Leads (procStep selectSql) (pendingState st pend log)
      ⟨st, .execute site copy (toExecute site copy) :: .execute site copy (toExecute site copy) :: rest, log⟩ := by
    have hperm := (hfirst.trans (hsecond.cons site)).map Proc.scanStart
    refine (Leads.swap hperm).trans ((leads_read selectSql st site _ log).trans ?_)
    exact (Leads.swap (List.Perm.swap ..)).trans (leads_read selectSql st site _ log)
  obtain ⟨st₁, ev₁, hleads₁, hst₁, -, hexec₁⟩ :=
    leads_todo selectSql htree hst hst.sameKeys site (toExecute site copy) hlt
      (.execute site copy (toExecute site copy) :: rest) log
  obtain ⟨st₂, ev₂, hleads₂, -, -, hexec₂⟩ :=
    leads_todo selectSql htree hst₁ hst.sameKeys site (toExecute site copy) hlt
      (((toExecute site copy).filterMap (targetSite plan)).map .scanStart ++ rest) (log ++ ev₁)
  refine ⟨_, hread.trans (hleads₁.trans ((Leads.swap List.perm_middle).trans hleads₂)), i, hready.lt, ?_⟩
  have hpos := List.count_pos_iff.2 hi
  rw [executions_append, executions_append, hexec₁ i hready.lt, hexec₂ i hready.lt]
  omega

/-! ## One scan of a site with a ready node -/

theorem exists_ready (htree : PlanTree plan root) (hflags : ∀ i < plan.length, st.flag i = 0 ∨ st.flag i = 1)
    (hne : ∃ i < plan.length, st.flag i ≠ 1) : ∃ site i, Ready plan st site i := by
  obtain ⟨i, hi, hzero, hlowest⟩ := htree.exists_lowest (U := fun i => st.flag i ≠ 1) hne
  exact ⟨_, i, ⟨⟨plan[i], List.getElem?_eq_getElem hi, rfl⟩, fun c hc => not_not.1 (hlowest c hc)⟩,
    (hflags i hi).resolve_right hzero⟩

theorem Advanced.flag_eq_zero (h : Advanced plan st st' site todo) {j : Nat} :
    st'.flag j = 0 ↔ j ∉ todo ∧ st.flag j = 0 := by
  rw [h.flag]
  by_cases hj : j ∈ todo
  · simp [hj]
  · simp [hj]

/-- A node is ready after the scan because it was ready before on another site, or because the scan has executed
one of its children. -/
theorem Advanced.ready_cases (h : Advanced plan st st' site todo) {site' : String} {i : Nat}
    (hready : Ready plan st' site' i) : (site' ≠ site ∧ Ready plan st site' i) ∨
      ∃ c ∈ todo, IsChild plan c i ∧ targetSite plan c = some site' := by
  obtain ⟨hnot, hzero⟩ := h.flag_eq_zero.1 hready.2
  by_cases hchildren : ∀ c, IsChild plan c i → st.flag c = 1
  · have hbefore : Ready plan st site' i := ⟨⟨hready.1.node, hchildren⟩, hzero⟩
    exact .inl ⟨fun heq => hnot ((h.ready i).2 (heq ▸ hbefore)), hbefore⟩
  · push Not at hchildren
    obtain ⟨c, hc, hne⟩ := hchildren
    have hmem : c ∈ todo := by
      by_contra hmem
      have hone := hready.1.children c hc
      rw [h.flag, if_neg hmem] at hone
      exact hne hone
    obtain ⟨node, hnode, hsite⟩ := hready.1.node
    exact .inr ⟨c, hmem, hc, hsite ▸ targetSite_of_isChild hc hnode⟩

theorem Advanced.card_lt (h : Advanced plan st st' site todo) {i : Nat} (hi : Ready plan st site i) :
    (unflagged plan st').card < (unflagged plan st).card := by
  refine Finset.card_lt_card ⟨fun j hj => ?_, fun hsub => ?_⟩
  · simp only [unflagged, Finset.mem_filter, h.flag] at hj ⊢
    refine ⟨hj.1, fun hone => hj.2 ?_⟩
    split
    · rfl
    · exact hone
  · have hmem : i ∈ unflagged plan st' :=
      hsub (Finset.mem_filter.2 ⟨Finset.mem_range.2 hi.lt, by rw [hi.2]; decide⟩)
    have := (Finset.mem_filter.1 hmem).2
    rw [h.flag, if_pos ((h.ready i).2 hi)] at this
    exact this rfl

/-- A calm state leads to a calm state in which a scan has executed the ready nodes of its site. -/
theorem Calm.advance {i : Nat} (selectSql : SelectSql) (htree : PlanTree plan root) (hcalm : Calm plan st pend)
    (hready : Ready plan st site i) (log : List Event) :
    ∃ (todo : List Nat) (st' : Store) (log' : List Event),
      Leads (procStep selectSql) (pendingState st pend log)
        (pendingState st' (todo.filterMap (targetSite plan) ++ pend.erase site) log') ∧
      Advanced plan st st' site todo ∧ Calm plan st' (todo.filterMap (targetSite plan) ++ pend.erase site) := by
  have hmem := hcalm.served site i hready
  obtain ⟨todo, st', events, hleads, hst', htodo, hflag⟩ :=
    leads_scan selectSql htree hcalm.holds site ((pend.erase site).map .scanStart) log
  have hadv : Advanced plan st st' site todo := ⟨hst', htodo, hflag⟩
  refine ⟨todo, st', log ++ events, ?_, hadv, hst', fun j hj => ?_, fun site' j hj => ?_⟩
  · rw [pendingState, pendingState, List.map_append]
    exact (Leads.swap ((List.perm_cons_erase hmem).map Proc.scanStart)).trans hleads
  · rw [hflag]
    split
    · exact .inr rfl
    · exact hcalm.flags j hj
  · rcases hadv.ready_cases hj with ⟨hne, hbefore⟩ | ⟨c, hc, -, htarget⟩
    · exact List.mem_append_right _ ((List.mem_erase_of_ne hne).2 (hcalm.served site' j hbefore))
    · exact List.mem_append_left _ (List.mem_filterMap.2 ⟨c, hc, htarget⟩)

/-! ## A scan to spare -/

/-- A site with a scan still to start and a node still to execute, but no ready node. -/
structure Spare (plan : AugmentedPlan) (st : Store) (pend : List String) (site : String) : Prop where
  pending : site ∈ pend
  node : ∃ i node, plan[i]? = some node ∧ node.executeSite = site ∧ st.flag i = 0
  notReady : ∀ i, ¬ Ready plan st site i

theorem twice_of_spare (htree : PlanTree plan root) (hcalm : Calm plan st pend) (hspare : Spare plan st pend site) :
    Twice selectSql plan (pendingState st pend log) := by
  induction hk : (unflagged plan st).card using Nat.strong_induction_on generalizing st pend log with
  | h k ih =>
    obtain ⟨i, node, hi, hsite, hzero⟩ := hspare.node
    obtain ⟨site', x, hready⟩ := exists_ready htree hcalm.flags
      ⟨i, (List.getElem?_eq_some_iff.1 hi).1, by rw [hzero]; decide⟩
    have hne : site ≠ site' := fun heq => hspare.notReady x (heq ▸ hready)
    obtain ⟨todo, st', log', hleads, hadv, hcalm'⟩ := hcalm.advance selectSql htree hready log
    have hpend : site ∈ pend.erase site' := (List.mem_erase_of_ne hne).2 hspare.pending
    refine Twice.of_leads hleads ?_
    by_cases hnew : ∃ y, Ready plan st' site y
    · obtain ⟨y, hy⟩ := hnew
      rcases hadv.ready_cases hy with ⟨-, hbefore⟩ | ⟨c, hc, -, htarget⟩
      · exact absurd hbefore (hspare.notReady y)
      · have hfork := List.count_pos_iff.2 (List.mem_filterMap.2 ⟨c, hc, htarget⟩)
        have hold := List.count_pos_iff.2 hpend
        exact twice_of_ready htree hadv.holds hy (by rw [List.count_append]; omega)
    · push Not at hnew
      have hnot : i ∉ todo := fun hmem => by
        obtain ⟨node', hnode', hsite'⟩ := ((hadv.ready i).1 hmem).1.node
        rw [hi, Option.some.injEq] at hnode'
        exact hne (hsite.symm.trans (hnode' ▸ hsite'))
      exact ih _ (hk ▸ hadv.card_lt hready) hcalm' ⟨List.mem_append_right _ hpend,
        ⟨i, node, hi, hsite, hadv.flag_eq_zero.2 ⟨hnot, hzero⟩⟩, hnew⟩ rfl

theorem twice_of_count {i : Nat} {node : AugPlanNode} (htree : PlanTree plan root) (hcalm : Calm plan st pend)
    (hi : plan[i]? = some node) (hsite : node.executeSite = site) (hzero : st.flag i = 0)
    (hcount : 2 ≤ pend.count site) : Twice selectSql plan (pendingState st pend log) := by
  by_cases hready : ∃ j, Ready plan st site j
  · obtain ⟨j, hj⟩ := hready
    exact twice_of_ready htree hcalm.holds hj hcount
  · push Not at hready
    exact twice_of_spare htree hcalm ⟨List.count_pos_iff.1 (by omega), ⟨i, node, hi, hsite, hzero⟩, hready⟩

/-! ## Two children -/

theorem two_le_count_filterMap {f : Nat → Option String} {l : List Nat} {a b : Nat} (hab : a ≠ b) (ha : a ∈ l)
    (hb : b ∈ l) (hfa : f a = some site) (hfb : f b = some site) : 2 ≤ (l.filterMap f).count site := by
  have hperm : l.Perm (a :: b :: (l.erase a).erase b) :=
    (List.perm_cons_erase ha).trans
      ((List.perm_cons_erase ((List.mem_erase_of_ne (Ne.symm hab)).2 hb)).cons a)
  rw [(hperm.filterMap f).count_eq, List.filterMap_cons_some hfa, List.filterMap_cons_some hfb, List.count_cons_self,
    List.count_cons_self]
  omega

theorem twice_of_two_children {m a b : Nat} {node : AugPlanNode} (htree : PlanTree plan root)
    (hcalm : Calm plan st pend) (hm : plan[m]? = some node) (hab : a ≠ b) (ha : IsChild plan a m)
    (hb : IsChild plan b m) (hza : st.flag a = 0) (hzb : st.flag b = 0) (hzm : st.flag m = 0) :
    Twice selectSql plan (pendingState st pend log) := by
  induction hk : (unflagged plan st).card using Nat.strong_induction_on generalizing st pend log with
  | h k ih =>
    obtain ⟨site', x, hready⟩ := exists_ready htree hcalm.flags ⟨a, ha.lt, by rw [hza]; decide⟩
    obtain ⟨todo, st', log', hleads, hadv, hcalm'⟩ := hcalm.advance selectSql htree hready log
    refine Twice.of_leads hleads ?_
    have hma : m ∉ todo := fun hmem => by
      have hone := ((hadv.ready m).1 hmem).1.children a ha
      rw [hza] at hone
      cases hone
    have hzm' : st'.flag m = 0 := hadv.flag_eq_zero.2 ⟨hma, hzm⟩
    have hone : ∀ c d, c ≠ d → IsChild plan c m → IsChild plan d m → st.flag d = 0 → c ∈ todo →
        Twice selectSql plan (pendingState st' (todo.filterMap (targetSite plan) ++ pend.erase site') log') := by
      intro c d hcd hc hd hzd hmem
      have hctarget := targetSite_of_isChild hc hm
      have hfork := List.mem_filterMap.2 ⟨c, hmem, hctarget⟩
      by_cases hdm : d ∈ todo
      · refine twice_of_count htree hcalm' hm rfl hzm' ?_
        have := two_le_count_filterMap hcd hmem hdm hctarget (targetSite_of_isChild hd hm)
        rw [List.count_append]
        omega
      · by_cases hnew : ∃ y, Ready plan st' node.executeSite y
        · obtain ⟨y, hy⟩ := hnew
          refine twice_of_ready htree hadv.holds hy ?_
          rw [List.count_append]
          rcases hadv.ready_cases hy with ⟨hne, hbefore⟩ | ⟨e, he, hey, hetarget⟩
          · have h1 := List.count_pos_iff.2 hfork
            have h2 := List.count_pos_iff.2 ((List.mem_erase_of_ne hne).2 (hcalm.served _ y hbefore))
            omega
          · have hce : c ≠ e := by
              rintro rfl
              obtain rfl := hc.unique hey
              have hdone := hy.1.children d hd
              rw [hadv.flag, if_neg hdm, hzd] at hdone
              cases hdone
            have := two_le_count_filterMap hce hmem he hctarget hetarget
            omega
        · push Not at hnew
          exact twice_of_spare htree hcalm' ⟨List.mem_append_left _ hfork, ⟨m, node, hm, rfl, hzm'⟩, hnew⟩
    by_cases hat : a ∈ todo
    · exact hone a b hab ha hb hzb hat
    · by_cases hbt : b ∈ todo
      · exact hone b a (Ne.symm hab) hb ha hza hbt
      · exact ih _ (hk ▸ hadv.card_lt hready) hcalm' (hadv.flag_eq_zero.2 ⟨hat, hza⟩)
          (hadv.flag_eq_zero.2 ⟨hbt, hzb⟩) hzm' rfl

end

end EasyDDB.Execution
