import EasyDDB.Optimizer.JoinLists
import EasyDDB.Optimizer.PatternFacts
import EasyDDB.Optimizer.Phases
import Mathlib.Data.Set.Card

/-! # The marks of `get_pattern`

Each round of `get_pattern` marks the patterns it has merged into others in a `bool[300]` with one entry for each
pattern. Here the indices that are read and written are listed, and the number of patterns is traced back to the
fragments: the first round has one pattern for each join list of the site. -/
namespace EasyDDB.Optimizer
set_option autoImplicit false

/-! ## Accesses -/

/-- The indices written by the loop over `k`, which stands at index `k` with the patterns from there on. -/
def absorbWrites (i sz : Nat) : Pattern → Nat → List (Bool × Pattern) → List Nat
  | _, _, [] => []
  | p, k, (_, q) :: rest =>
    if checkPattern p q i sz then k :: absorbWrites i sz (p.modify i fun l => l ++ (q[i]?).getD []) (k + 1) rest
    else absorbWrites i sz p (k + 1) rest

/-- The indices read and written by the loop over `j`, which stands at index `j`. -/
def mergeAccesses (i sz : Nat) : Nat → Nat → List (Bool × Pattern) → List Nat
  | _, _, [] => []
  | 0, _, _ => []
  | n + 1, j, (m, p) :: rest =>
    j :: if m then mergeAccesses i sz n (j + 1) rest
      else absorbWrites i sz p (j + 1) rest ++ mergeAccesses i sz n (j + 1) (absorb i sz p rest).2

/-- The indices of one round; the last loop reads the mark of every pattern. -/
def roundAccesses (sz : Nat) (pattern : List Pattern) (i : Nat) : List Nat :=
  mergeAccesses i sz pattern.length 0 (pattern.map fun p => (false, p)) ++ List.range pattern.length

/-- The call accesses `mark[idx]` in one of the rounds that are left. -/
inductive MarkAccess (sz : Nat) : List Pattern → List Nat → Nat → Prop
  | here {pattern : List Pattern} {i idx : Nat} {rounds : List Nat} (h : idx ∈ roundAccesses sz pattern i) :
      MarkAccess sz pattern (i :: rounds) idx
  | later {pattern pattern' : List Pattern} {i idx : Nat} {rounds : List Nat}
      (h : patternRound sz pattern i = some pattern') (hlater : MarkAccess sz pattern' rounds idx) :
      MarkAccess sz pattern (i :: rounds) idx

/-- A call of `get_pattern` stays within its marks. -/
def MarksInBounds (joinList : List (List FragName)) (sz : Nat) : Prop :=
  ∀ idx, MarkAccess sz (joinList.map fun x => (x.take sz).map fun f => [f.num]) (List.range sz).reverse idx → idx < 300

section
variable {i sz : Nat}

theorem absorbWrites_lt {p : Pattern} {k : Nat} {l : List (Bool × Pattern)} :
    ∀ idx ∈ absorbWrites i sz p k l, idx < k + l.length := by
  induction l generalizing p k with
  | nil => simp [absorbWrites]
  | cons mq rest ih =>
    intro idx hidx
    rw [List.length_cons]
    unfold absorbWrites at hidx
    split_ifs at hidx
    · obtain rfl | hidx := List.mem_cons.mp hidx
      · omega
      · have := ih idx hidx
        omega
    · have := ih idx hidx
      omega

theorem length_absorb (p : Pattern) (l : List (Bool × Pattern)) : (absorb i sz p l).2.length = l.length := by
  induction l generalizing p with
  | nil => rfl
  | cons mq rest ih =>
    unfold absorb
    split_ifs <;> simp [ih]

theorem mergeAccesses_lt {n j : Nat} {l : List (Bool × Pattern)} :
    ∀ idx ∈ mergeAccesses i sz n j l, idx < j + l.length := by
  induction n generalizing j l with
  | zero => cases l <;> simp [mergeAccesses]
  | succ n ih =>
    cases l with
    | nil => simp [mergeAccesses]
    | cons mp rest =>
      intro idx hidx
      rw [List.length_cons]
      obtain rfl | hidx := List.mem_cons.mp hidx
      · omega
      · split_ifs at hidx
        · have := ih idx hidx
          omega
        · obtain hidx | hidx := List.mem_append.mp hidx
          · have := absorbWrites_lt idx hidx
            omega
          · have := ih idx hidx
            rw [length_absorb] at this
            omega

theorem length_mergeFrom {n : Nat} {l : List (Bool × Pattern)} : (mergeFrom i sz n l).length = l.length := by
  induction n generalizing l with
  | zero => cases l <;> rfl
  | succ n ih =>
    cases l with
    | nil => rfl
    | cons mp rest =>
      unfold mergeFrom
      split_ifs <;> simp [ih, length_absorb]

/-- A round accesses the marks of its patterns, all of them and no others. -/
theorem mem_roundAccesses {pattern : List Pattern} {idx : Nat} :
    idx ∈ roundAccesses sz pattern i ↔ idx < pattern.length := by
  constructor
  · intro hidx
    obtain hidx | hidx := List.mem_append.mp hidx
    · simpa using mergeAccesses_lt idx hidx
    · exact List.mem_range.mp hidx
  · exact fun hlt => List.mem_append_right _ (List.mem_range.mpr hlt)

theorem length_of_patternRound {pattern pattern' : List Pattern} (h : patternRound sz pattern i = some pattern') :
    pattern'.length ≤ pattern.length := by
  unfold patternRound at h
  split_ifs at h
  cases h
  rw [List.length_map]
  refine (List.length_filter_le ..).trans ?_
  rw [length_mergeFrom, List.length_map]

/-- No round has more patterns than the first. -/
theorem MarkAccess.lt {pattern : List Pattern} {rounds : List Nat} {idx : Nat} (h : MarkAccess sz pattern rounds idx) :
    idx < pattern.length := by
  induction h with
  | here hidx => exact mem_roundAccesses.mp hidx
  | later hround _ ih => exact ih.trans_le (length_of_patternRound hround)

theorem marksInBounds_of_length {joinList : List (List FragName)} :
    MarksInBounds joinList (sz + 1) ↔ joinList.length ≤ 300 := by
  constructor
  · intro hbound
    by_contra hlong
    refine absurd (hbound 300 ?_) (lt_irrefl _)
    rw [List.range_succ, List.reverse_append, List.reverse_singleton, List.singleton_append]
    refine .here (mem_roundAccesses.mpr ?_)
    rw [List.length_map]
    omega
  · intro hshort idx haccess
    have hlt := haccess.lt
    rw [List.length_map] at hlt
    omega

end

/-! ## Calls -/

/-- A sequence of kept fragments, one for each position of the chain, with neighbours that a cell connects. -/
def FragmentPath (p : JoinPlan) (l : List FragName) : Prop :=
  l.length = p.join.length + 1 ∧ (∃ c ∈ p.join.head?, ∃ X ∈ p.scan.pruning c.ltab, l.head? = some X.fname) ∧
    l.IsChain fun a b => ∃ c ∈ p.join, Linked p.scan.pruning c a b

theorem Planned.mem_joinList {Tables : List MetadataTable} {q : Query} {p : JoinPlan} (hplan : Planned Tables q p)
    {l : List FragName} : l ∈ p.joinList ↔ FragmentPath p l := by
  have hedges := hplan.edges
  rw [hplan.joinList, FragmentPath]
  cases hJ : p.join with
  | nil => simp [joinLists]
  | cons c cs =>
    rw [hJ] at hedges
    rw [mem_joinLists hedges]
    simp

theorem Planned.joinList_nodup {Tables : List MetadataTable} {q : Query} {p : JoinPlan} (hplan : Planned Tables q p)
    (hnd : ∀ t, ((p.scan.pruning t).map Fragment.fname).Nodup) : p.joinList.Nodup := by
  rw [hplan.joinList]
  exact joinLists_nodup hplan.edges hnd

/-- The paths of fragments that are put on a site. -/
def pathsAt (p : JoinPlan) (site : Int) : Set (List FragName) :=
  {l | FragmentPath p l ∧ joinSite (sortSites p.scan.siteNums) p.processSite l = site}

theorem Planned.length_joinSite {Tables : List MetadataTable} {q : Query} {p : JoinPlan} (hplan : Planned Tables q p)
    (hnd : ∀ t, ((p.scan.pruning t).map Fragment.fname).Nodup) (site : Int) :
    (p.joinSite site).length = (pathsAt p site).ncard := by
  have hset : pathsAt p site = (p.joinSite site).toFinset := by
    ext l
    simp [pathsAt, hplan.joinSite, hplan.mem_joinList]
  have hnodup : (p.joinSite site).Nodup := by
    rw [hplan.joinSite]
    exact (hplan.joinList_nodup hnd).filter _
  rw [hset, Set.ncard_coe_finset, List.toFinset_card_of_nodup hnodup]

/-- **Every call of `get_pattern` stays within the marks exactly if** no site has more than 300 join lists. These are
the paths of connected fragments that are put on the site, each one once if the fragments have different names. -/
theorem marks_in_bounds_iff (Tables : List MetadataTable) (q : Query) (p : JoinPlan)
    (hp : planJoins Tables q = some p) :
    ((∀ site ∈ ([1, 2, 3, 4] : List Int), p.joinSite site ≠ [] →
        MarksInBounds (p.joinSite site) (p.join.length + 1)) ↔
      ∀ site ∈ ([1, 2, 3, 4] : List Int), (p.joinSite site).length ≤ 300) ∧
    ((∀ t, ((p.scan.pruning t).map Fragment.fname).Nodup) →
      ∀ site, (p.joinSite site).length = (pathsAt p site).ncard) := by
  refine ⟨forall₂_congr fun site _ => ?_, (planJoins_planned hp).length_joinSite⟩
  constructor
  · intro hcall
    by_cases hnil : p.joinSite site = []
    · rw [hnil]
      exact Nat.zero_le _
    · exact marksInBounds_of_length.mp (hcall hnil)
  · exact fun hshort _ => marksInBounds_of_length.mpr hshort

/-- A table with a fragment for each place, the first one larger than the others. -/
def partitioned (name : String) (places : List String) : MetadataTable where
  name := name
  type := .hf
  keyColumn := "id"
  frags := places.zipIdx.map fun e =>
    hfFragment name (e.2 + 1) (if e.2 = 0 then 200 else 100) [condEqStr name "place" e.1]
  attrs := [name ++ ".id", name ++ ".next", name ++ ".place"]

def fiveTables : List MetadataTable :=
  partitioned "A" ["n", "e", "s", "w"] :: ["B", "C", "D", "E"].map fun name => partitioned name ["n", "e", "s"]

/-- `select A.id from A, B, C, D, E where A.next = B.id and B.next = C.id and C.next = D.id and D.next = E.id` -/
def longPath : Query where
  fromTable := ["A", "B", "C", "D", "E"]
  selectAttr := ["A.id"]
  allAttr := ["A.id", "A.next", "B.id", "B.next", "C.id", "C.next", "D.id", "D.next", "E.id"]
  predicate := []
  join := [⟨"A", "next", "B", "id"⟩, ⟨"B", "next", "C", "id"⟩, ⟨"C", "next", "D", "id"⟩, ⟨"D", "next", "E", "id"⟩]

/-- Sixteen fragments on four sites make 324 join lists, all of them for site 1. -/
theorem longPath_out_of_bounds : Path longPath.join longPath.join ∧
    (∀ T ∈ fiveTables, ∀ F ∈ T.frags, F.fname.table = T.name ∧ 1 ≤ F.site ∧ F.site ≤ 4 ∧ 0 ≤ F.size) ∧
    ∃ p, planJoins fiveTables longPath = some p ∧ MarkAccess (p.join.length + 1)
      ((p.joinSite 1).map fun x => (x.take (p.join.length + 1)).map fun f => [f.num])
      (List.range (p.join.length + 1)).reverse 300 := by
  have hrun : ((planJoins fiveTables longPath).any fun p => (p.joinSite 1).length = 324) = true := by decide +kernel
  simp only [Option.any_eq_true, decide_eq_true_eq] at hrun
  obtain ⟨p, hp, hlen⟩ := hrun
  refine ⟨⟨⟨by simp [longPath], by decide⟩, .refl _⟩, by decide, p, hp, ?_⟩
  rw [List.range_succ, List.reverse_append, List.reverse_singleton, List.singleton_append]
  refine .here (mem_roundAccesses.mpr ?_)
  rw [List.length_map, hlen]
  decide

/-- `select A.id from A, B where A.next = B.id` -/
def shortPath : Query where
  fromTable := ["A", "B"]
  selectAttr := ["A.id"]
  allAttr := ["A.id", "A.next", "B.id"]
  predicate := []
  join := [⟨"A", "next", "B", "id"⟩]

theorem shortPath_in_bounds : ∃ p, planJoins fiveTables shortPath = some p ∧ (p.joinSite 1).length = 12 ∧
    ∀ site ∈ ([1, 2, 3, 4] : List Int), p.joinSite site ≠ [] →
      MarksInBounds (p.joinSite site) (p.join.length + 1) := by
  have hrun : ((planJoins fiveTables shortPath).any fun p => (p.joinSite 1).length = 12 &&
      ([1, 2, 3, 4] : List Int).all fun site => (p.joinSite site).length ≤ 300) = true := by decide +kernel
  simp only [Option.any_eq_true, Bool.and_eq_true, List.all_eq_true, decide_eq_true_eq] at hrun
  obtain ⟨p, hp, htwelve, hshort⟩ := hrun
  exact ⟨p, hp, htwelve, (marks_in_bounds_iff fiveTables shortPath p hp).1.mpr hshort⟩

end EasyDDB.Optimizer
