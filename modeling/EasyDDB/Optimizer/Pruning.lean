import EasyDDB.Optimizer.Residual
import EasyDDB.Optimizer.Scan

/-! # Which fragments are pruned

A horizontal fragment is dropped when `check_condition` returns an empty list although the query has
predicates. That happens on a contradiction, and also when no predicate is about the table: the
caller cannot tell the two apart. -/
namespace EasyDDB.Optimizer
open Condition
set_option autoImplicit false

/-! ## The selection of a fragment in closed form -/

theorem fragSelect_spec {table : String} {H P : List Condition} (hH : OwnConditions table H) (hset : CheckSet H P) :
    fragSelect H P =
      some (if P ≠ [] ∧ (contradicts H P = true ∨ ∀ x ∈ P, x.table ≠ table) then none
        else if coverCount H P = H.length then some [] else some (P.flatMap (residualOf H))) := by
  unfold fragSelect
  rw [checkCondition_spec hset]
  by_cases hcon : contradicts H P = true
  · have hP : P ≠ [] := by
      rintro rfl
      simp [contradicts] at hcon
    simp [hcon, hP]
  · simp only [hcon, Bool.false_eq_true, if_false, false_or, Option.bind_eq_bind, Option.bind_some]
    have hnil := residual_eq_nil_iff hH hset
    by_cases h : P ≠ [] ∧ ∀ x ∈ P, x.table ≠ table
    · rw [if_pos h, if_pos ⟨hnil.mpr h.2, h.1⟩]
    · rw [if_neg h, if_neg (fun h' => h ⟨h'.2, hnil.mp h'.1⟩)]
      split_ifs <;> rfl

/-- The `continue` after `check_condition` is taken for a fragment. -/
def dropped (q : Query) (frag : Fragment) : Prop :=
  fragSelect frag.hfCondition (extendPredicate q).predicate = some none

instance (q : Query) (frag : Fragment) : Decidable (dropped q frag) := by
  unfold dropped
  infer_instance

theorem dropped_iff {q : Query} {table : String} {frag : Fragment} (hH : OwnConditions table frag.hfCondition)
    (hset : CheckSet frag.hfCondition (extendPredicate q).predicate) :
    dropped q frag ↔ (extendPredicate q).predicate ≠ [] ∧
      (contradicts frag.hfCondition (extendPredicate q).predicate = true ∨
        ∀ x ∈ (extendPredicate q).predicate, x.table ≠ table) := by
  unfold dropped
  rw [fragSelect_spec hH hset]
  split_ifs with h h' <;> simp [h]

/-! ## Transferred predicates -/

theorem transferred_plain {p c : Condition} {x : JoinCell} (hp : p.Plain) (h : transferred p x = some c) : c.Plain := by
  unfold transferred at h
  simp only [Option.ite_none_left_eq_some] at h
  obtain ⟨-, h⟩ := h
  generalize beforeDot (x.find p.table p.attr) = table, afterDot (x.find p.table p.attr) = attr at h
  obtain ⟨ht, ho, hv⟩ | ⟨ht, ho⟩ := hp
  · rw [if_pos ht, Option.some.injEq] at h
    subst h
    exact .inl ⟨ht, ho, hv⟩
  · rw [if_neg (by rw [ht]; decide), Option.some.injEq] at h
    subst h
    exact .inr ⟨ht, ho⟩

theorem extendPredicate_plain {q : Query} (h : ∀ p ∈ q.predicate, p.Plain) :
    ∀ p ∈ (extendPredicate q).predicate, p.Plain := by
  intro c hc
  obtain hc | hc := List.mem_append.mp hc
  · exact h c hc
  · obtain ⟨p, hp, hc⟩ := List.mem_flatMap.mp hc
    obtain ⟨x, -, hx⟩ := List.mem_filterMap.mp hc
    exact transferred_plain (h p hp) hx

/-! ## When pruning is sound -/

/-- The interval of a condition ends beyond the `±INF` that stand for infinity. -/
def beyond (c : Condition) : Bool :=
  match c.getSection with
  | some (a, b) => INF < a ∨ b < -INF
  | none => false

/-- `check_condition` misreads a predicate `x` and a fragment condition `y` on its column: it takes
every string condition for an equality, and `±INF` for the ends of every interval. -/
def misread (x y : Condition) : Bool :=
  if x.type = .string then y.opt ≠ .eq ∧ y.sval ≠ x.sval else beyond x ∨ beyond y

theorem section_bounds {x : Condition} {a b : Int} (hx : x.Plain) (ht : x.type ≠ .string)
    (hs : x.getSection = some (a, b)) : -INF ≤ a ∧ b ≤ INF := by
  obtain ⟨-, hopt, hlo, hhi⟩ | ⟨h, -⟩ := hx
  · unfold getSection at hs
    cases ho : x.opt <;> simp only [ho, reduceCtorEq, Option.some.injEq, Prod.mk.injEq,
      Option.ite_none_right_eq_some] at hs <;> simp only [INF] at * <;> omega
  · exact absurd h ht

theorem section_ends {c : Condition} {a b v : Int} (hs : c.getSection = some (a, b))
    (hv : c.opt.holds v c.ival = true) : (a ≤ v ∨ a = -INF) ∧ (v ≤ b ∨ b = INF) := by
  unfold getSection at hs
  cases ho : c.opt <;> simp only [ho, reduceCtorEq, Option.some.injEq, Prod.mk.injEq,
    Option.ite_none_right_eq_some] at hs <;> simp only [ho, Opt.holds, decide_eq_true_eq] at hv <;> omega

theorem clashes_iff_misread {x y : Condition} {r : Row} (hc : x.sameColumn y = true) (hx : x.Plain)
    (hset : PairSet x y) (hrx : x.satisfied r = true) (hry : y.satisfied r = true) :
    clashes x y = true ↔ misread x y = true := by
  have hcol := column_eq_of_sameColumn hc
  obtain ⟨v, htx, hv, hhx⟩ | ⟨s, htx, hs, hhx⟩ := satisfied_cases hrx
  · have htx' : x.type ≠ .string := by rw [htx]; decide
    obtain ⟨h1, h2⟩ := hset.resolve_left htx'
    obtain ⟨⟨a1, b1⟩, hs1⟩ := Option.isSome_iff_exists.mp h1
    obtain ⟨⟨a2, b2⟩, hs2⟩ := Option.isSome_iff_exists.mp h2
    have hhy := ((satisfied_iff_int (hcol ▸ hv)).mp hry).2
    have hb := section_bounds hx htx' hs1
    obtain ⟨ha1, hb1⟩ := section_ends hs1 hhx
    obtain ⟨ha2, hb2⟩ := section_ends hs2 hhy
    simp only [clashes, misread, beyond, htx', if_false, hs1, hs2, decide_eq_true_eq, Bool.decide_or, Bool.or_eq_true]
    rw [min_lt_iff, lt_max_iff, lt_max_iff]
    simp only [INF] at *
    omega
  · have hsy : r y.column = some (.str s) := hcol ▸ hs
    have hhy := ((satisfied_iff_str hsy).mp hry).2
    simp only [hx.opt_eq htx, Opt.holds, decide_eq_true_eq] at hhx
    simp only [clashes, misread, htx, if_true, decide_eq_true_eq, ← hhx]
    constructor
    · intro h
      refine ⟨?_, Ne.symm h⟩
      intro hoy
      simp only [hoy, Opt.holds, decide_eq_true_eq] at hhy
      exact h hhy
    · intro h
      exact Ne.symm h.2

/-- No dropped fragment stores a row that satisfies the predicates about its table. -/
def PruningSound (Tables : List MetadataTable) (q : Query) (db : Placement) : Prop :=
  ∀ T ∈ Tables, T.name ∈ q.fromTable → T.type = .hf → ∀ F ∈ T.frags, dropped q F → ∀ r ∈ db F.fname,
    ∃ x ∈ (extendPredicate q).predicate, x.table = T.name ∧ ¬ x.satisfied r = true

/-- The fragments of the FROM tables carry conditions on their own table, and `check_condition` reads
no unset value of them. -/
def PruningDefined (Tables : List MetadataTable) (q : Query) : Prop :=
  ∀ T ∈ Tables, T.name ∈ q.fromTable → T.type = .hf → ∀ F ∈ T.frags,
    OwnConditions T.name F.hfCondition ∧ CheckSet F.hfCondition (extendPredicate q).predicate

/-- The stored rows satisfy the conditions of their fragment. -/
def RowsPlaced (Tables : List MetadataTable) (q : Query) (db : Placement) : Prop :=
  ∀ T ∈ Tables, T.name ∈ q.fromTable → T.type = .hf → ∀ F ∈ T.frags, ∀ r ∈ db F.fname,
    satisfiesAll F.hfCondition r = true

/-- **Pruning is sound exactly when** every stored row that satisfies the predicates about its table
belongs to a table some predicate is about (or there is no predicate), and no condition of its
fragment is misread. -/
theorem pruningSound_iff (Tables : List MetadataTable) (q : Query) (db : Placement)
    (hdef : PruningDefined Tables q) (hP : ∀ p ∈ q.predicate, p.Plain) (hdb : RowsPlaced Tables q db) :
    PruningSound Tables q db ↔
      ∀ T ∈ Tables, T.name ∈ q.fromTable → T.type = .hf → ∀ F ∈ T.frags, ∀ r ∈ db F.fname,
        (∀ x ∈ (extendPredicate q).predicate, x.table = T.name → x.satisfied r = true) →
          (q.predicate = [] ∨ ∃ x ∈ (extendPredicate q).predicate, x.table = T.name) ∧
          ∀ x ∈ (extendPredicate q).predicate, ∀ y ∈ F.hfCondition, x.sameColumn y = true →
            misread x y = false := by
  have hplain := extendPredicate_plain hP
  have hnil : (extendPredicate q).predicate = [] ↔ q.predicate = [] := by
    simp only [extendPredicate, List.append_eq_nil_iff, and_iff_left_iff_imp]
    intro h
    simp [h, addPred]
  unfold PruningSound
  refine forall₂_congr fun T hT => forall₂_congr fun hfrom hhf => forall₂_congr fun F hF => ?_
  obtain ⟨hown, hset⟩ := hdef T hT hfrom hhf F hF
  have hrows := hdb T hT hfrom hhf F hF
  rw [dropped_iff hown hset, forall_comm]
  refine forall_congr' fun r => ?_
  rw [forall_comm]
  refine forall_congr' fun hr => ?_
  have hry := (satisfiesAll_iff _ _).mp (hrows r hr)
  have hcon : (∀ x ∈ (extendPredicate q).predicate, x.table = T.name → x.satisfied r = true) →
      (contradicts F.hfCondition (extendPredicate q).predicate = true ↔
        ∃ x ∈ (extendPredicate q).predicate, ∃ y ∈ F.hfCondition, x.sameColumn y = true ∧ misread x y = true) := by
    intro hsat
    rw [contradicts_iff]
    refine exists_congr fun x => and_congr_right fun hx => exists_congr fun y => and_congr_right fun hy =>
      and_congr_right fun hc => ?_
    have ht : x.table = T.name := (sameColumn_iff.mp hc).1.trans (hown.table_eq y hy)
    exact clashes_iff_misread hc (hplain x hx) (hset.2 x hx y hy hc) (hsat x hx ht) (hry y hy)
  constructor
  · intro h hsat
    have hno : ¬ ((extendPredicate q).predicate ≠ [] ∧
        (contradicts F.hfCondition (extendPredicate q).predicate = true ∨
          ∀ x ∈ (extendPredicate q).predicate, x.table ≠ T.name)) := by
      intro hd
      obtain ⟨x, hx, ht, hnot⟩ := h hd
      exact hnot (hsat x hx ht)
    rw [hcon hsat, ne_eq, hnil] at hno
    grind
  · intro h hd
    by_contra hnone
    have hsat : ∀ x ∈ (extendPredicate q).predicate, x.table = T.name → x.satisfied r = true := by
      intro x hx ht
      by_contra hnot
      exact hnone ⟨x, hx, ht, hnot⟩
    obtain ⟨hsome, hmis⟩ := h hsat
    rw [hcon hsat, ne_eq, hnil] at hd
    grind

/-- `select Book.title from Book, Publisher where Book.id < 300000 and Book.publisher_id = Publisher.id` -/
def bookPublisher : Query where
  fromTable := ["Book", "Publisher"]
  selectAttr := ["Book.title"]
  allAttr := ["Book.id", "Book.publisher_id", "Book.title", "Publisher.id"]
  predicate := [condLt "Book" "id" 300000]
  join := [⟨"Book", "publisher_id", "Publisher", "id"⟩]

/-- One publisher with one book. -/
def onePublisher : Placement := fun f =>
  if f = ⟨"Publisher", 1⟩ then
    [Row.ofList [("Publisher.id", .int 101000), ("Publisher.name", .str "P"), ("Publisher.nation", .str "PRC")]]
  else if f = ⟨"Book", 1⟩ then
    [Row.ofList [("Book.id", .int 200001), ("Book.title", .str "B"), ("Book.authors", .str "A"),
      ("Book.publisher_id", .int 101000), ("Book.copies", .int 3)]]
  else []

instance (table : String) (H : List Condition) : Decidable (OwnConditions table H) :=
  decidable_of_iff (H ≠ [] ∧ ∀ y ∈ H, y.table = table) ⟨fun h => ⟨h.1, h.2⟩, fun h => ⟨h.1, h.2⟩⟩

instance (x y : Condition) : Decidable (PairSet x y) := inferInstanceAs (Decidable (_ ∨ _))
instance (H P : List Condition) : Decidable (CheckSet H P) := inferInstanceAs (Decidable (_ ∧ _))

instance (Tables : List MetadataTable) (q : Query) : Decidable (PruningDefined Tables q) :=
  inferInstanceAs (Decidable (∀ T ∈ Tables, _))

instance (Tables : List MetadataTable) (q : Query) (db : Placement) : Decidable (RowsPlaced Tables q db) :=
  inferInstanceAs (Decidable (∀ T ∈ Tables, _))

instance (Tables : List MetadataTable) (q : Query) (db : Placement) : Decidable (PruningSound Tables q db) :=
  inferInstanceAs (Decidable (∀ T ∈ Tables, _))

/-- No predicate is about `Publisher`, so all its fragments are dropped, with the row that joins. -/
theorem bookPublisher_pruning_unsound :
    PruningDefined getMetadata bookPublisher ∧ (∀ p ∈ bookPublisher.predicate, p.Plain) ∧
      RowsPlaced getMetadata bookPublisher onePublisher ∧
      ¬ PruningSound getMetadata bookPublisher onePublisher := by
  decide

/-- With a predicate about `Publisher` too, the fragment of the row is kept. -/
theorem bookPublisher_pruning_sound :
    PruningSound getMetadata
      { bookPublisher with predicate := [condLt "Book" "id" 300000, condEqStr "Publisher" "nation" "PRC"] }
      onePublisher :=
  (pruningSound_iff _ _ _ (by decide) (by decide) (by decide)).mpr (by decide)

end EasyDDB.Optimizer
