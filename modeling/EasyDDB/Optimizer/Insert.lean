import EasyDDB.Catalog.Parse
import EasyDDB.Lib.Loops
import EasyDDB.Lib.Pointwise
import EasyDDB.Optimizer.Residual
import Mathlib.Data.List.MinMax

/-! # INSERT statements

`InsertProcess` prints the given row as texts `table.column=value`, reads them back as conditions and compares
these with the conditions of every horizontal fragment.  For a vertically fragmented table `createInsertSql`
writes one statement per fragment. -/
namespace EasyDDB.Optimizer
open Condition Strings
set_option autoImplicit false

/-- The literals of the grammar. -/
inductive Literal where
  | str (name : String)
  | int (ival : Int)
  | bool (val : Bool)
  | float (text : String)
  | null
  | date (text : String)
  | interval (text : String)
  | parameter
deriving DecidableEq, Repr

/-- An INSERT statement with a list of columns. -/
structure InsertStatement where
  tableName : String
  columns : List String
  values : List Literal
deriving DecidableEq, Repr

/-- What the loop over `Statement->values` pushes for a literal. The parser makes TRUE and FALSE integer literals;
of the other kinds nothing is pushed. -/
def Literal.pushed? : Literal → Option (List Char)
  | .str name => some name.toList
  | .int ival => some (toText ival)
  | .bool val => some (toText (if val then 1 else 0))
  | .float _ => none
  | .null => none
  | .date _ => none
  | .interval _ => none
  | .parameter => none

namespace InsertStatement
variable (st : InsertStatement)

/-- The vector `values` of `InsertProcess`. -/
def texts : List (List Char) := st.values.filterMap Literal.pushed?

/-- `Condition(tableName + "." + columns[i] + "=" + values[i])` -/
def condition (overflow : List Char → Int) (col : String) (value : List Char) : Condition :=
  Condition.ofText overflow (assignment st.tableName.toList col.toList value)

/-- Entry `i` of `pred`. The result is `none` where `values[i]` is read behind the end. -/
def readEntry (overflow : List Char → Int) (i : Nat) : Option Condition := do
  let col ← st.columns[i]?
  let value ← st.texts[i]?
  some (st.condition overflow col value)

/-- The vector `pred` -/
def pred (overflow : List Char → Int) : Option (List Condition) :=
  (List.range st.columns.length).mapM (st.readEntry overflow)

end InsertStatement

/-- The body of the loop of `createInsertSql` on `col` and `val`. For a name that is not found `index` is the size of
`columns`, behind its end. -/
def pushColumn (columns : List String) (values : List (List Char)) (out : List Char × List Char) (x : String) :
    Option (List Char × List Char) := do
  let index := columns.idxOf x
  let column ← columns[index]?
  let value ← values[index]?
  some (out.1 ++ column.toList ++ [','], out.2 ++ value ++ [','])

/-- `createInsertSql` -/
def createInsertSql (vfColumn columns : List String) (values : List (List Char)) : Option (List Char) := do
  let out ← vfColumn.foldlM (pushColumn columns values) (['('], ['('])
  let col := out.1.dropLast ++ [')']
  let val := out.2.dropLast ++ [')']
  some (col ++ " values".toList ++ val ++ [';'])

/-- The loop over the fragments of a horizontally fragmented table. -/
def insertHf (pred : List Condition) (query : List Char) (frags : List Fragment) :
    Option (List (Int × List Char)) :=
  frags.foldlM (fun siteQuery frag => do
    let out ← checkCondition frag.hfCondition pred
    if out.1 = [] then some siteQuery else some (siteQuery ++ [(frag.site, query)])) []

/-- The loop over the fragments of a vertically fragmented table. -/
def insertVf (st : InsertStatement) (frags : List Fragment) : Option (List (Int × List Char)) :=
  frags.foldlM (fun siteQuery frag => do
    let sql ← createInsertSql frag.vfColumn st.columns st.texts
    some (siteQuery ++ [(frag.site, "insert into ".toList ++ st.tableName.toList ++ sql)])) []

/-- `InsertProcess`: the vector `siteQuery`. -/
def insertProcess (overflow : List Char → Int) (Tables : List MetadataTable) (st : InsertStatement)
    (query : List Char) : Option (List (Int × List Char)) := do
  let res ← findTable Tables st.tableName
  let pred ← st.pred overflow
  match res.type with
  | .hf => insertHf pred query res.frags
  | .vf => insertVf st res.frags

theorem findTable_name {Tables : List MetadataTable} {name : String} {T : MetadataTable}
    (h : findTable Tables name = some T) : T.name = name := by
  simpa using List.find?_some h

/-! ## The inserted row -/

/-- The value of an integer or string literal. -/
def Literal.value? : Literal → Option Value
  | .str name => some (.str name)
  | .int ival => some (.int ival)
  | _ => none

/-- The row has the given value in every listed column. -/
def InsertStatement.Gives (st : InsertStatement) (r : Row) : Prop :=
  ∀ (i : Nat) (col : String) (lit : Literal), st.columns[i]? = some col → st.values[i]? = some lit →
    r (st.tableName ++ "." ++ col) = lit.value?

/-- A literal that a condition on its column can be compared with. -/
def Literal.Fits (lit : Literal) (y : Condition) : Prop :=
  match lit with
  | .int v => y.type = .int ∧ 0 ≤ v ∧ v ≤ INF
  | .str s => y.type = .string ∧ (∃ c ∈ s.toList, c.isDigit = false) ∧ ∀ c ∈ s.toList, c ∉ ['<', '>', '=']
  | _ => False

/-- A row of integers and strings for the horizontally fragmented table `T`, with values for all columns that the
conditions of the fragments are about. -/
structure RowInsert (T : MetadataTable) (st : InsertStatement) : Prop where
  literals : ∀ lit ∈ st.values, lit.value?.isSome
  length_eq : st.values.length = st.columns.length
  conditions : ∀ F ∈ T.frags, FragConditions T.name F.hfCondition
  listed : ∀ F ∈ T.frags, ∀ y ∈ F.hfCondition, y.attr ∈ st.columns
  fits : ∀ F ∈ T.frags, ∀ y ∈ F.hfCondition, ∀ (i : Nat) (lit : Literal), st.columns[i]? = some y.attr →
    st.values[i]? = some lit →
    lit.Fits y

/-- The names around which the reader of conditions finds the `=` behind the column and the dot before it. -/
structure InsertStatement.PlainNames (st : InsertStatement) : Prop where
  table : PlainTable st.tableName.toList
  columns : ∀ col ∈ st.columns, PlainColumn col.toList

section
variable {overflow : List Char → Int} {Tables : List MetadataTable} {T : MetadataTable} {st : InsertStatement}
  {r : Row} {F : Fragment} {y : Condition}

theorem pushed?_isSome {lit : Literal} (h : lit.value?.isSome) : lit.pushed?.isSome := by
  cases lit <;> first | rfl | cases h

theorem readEntry_eq_some_iff (h : RowInsert T st) {i : Nat} {x : Condition} :
    st.readEntry overflow i = some x ↔
      ∃ col lit value, st.columns[i]? = some col ∧ st.values[i]? = some lit ∧ lit.pushed? = some value ∧
        x = st.condition overflow col value := by
  have htexts : st.texts[i]? = st.values[i]?.bind Literal.pushed? :=
    Pointwise.getElem?_filterMap (fun lit hlit => pushed?_isSome (h.literals lit hlit)) i
  simp only [InsertStatement.readEntry, htexts, Option.bind_eq_bind, Option.bind_eq_some_iff, Option.some.injEq]
  constructor
  · rintro ⟨col, hcol, value, ⟨lit, hlit, hvalue⟩, rfl⟩
    exact ⟨col, lit, value, hcol, hlit, hvalue, rfl⟩
  · rintro ⟨col, lit, value, hcol, hlit, hvalue, rfl⟩
    exact ⟨col, hcol, value, ⟨lit, hlit, hvalue⟩, rfl⟩

theorem readEntry_isSome (h : RowInsert T st) {i : Nat} (hi : i < st.columns.length) :
    (st.readEntry overflow i).isSome := by
  have hi' : i < st.values.length := h.length_eq ▸ hi
  obtain ⟨value, hvalue⟩ := Option.isSome_iff_exists.1 (pushed?_isSome (h.literals _ (List.getElem_mem hi')))
  rw [Option.isSome_iff_exists]
  exact ⟨_, (readEntry_eq_some_iff h).2
    ⟨_, _, value, List.getElem?_eq_getElem hi, List.getElem?_eq_getElem hi', hvalue, rfl⟩⟩

theorem pred_eq_some (h : RowInsert T st) (overflow : List Char → Int) :
    ∃ pred, st.pred overflow = some pred ∧
      ∀ x, x ∈ pred ↔ ∃ i < st.columns.length, st.readEntry overflow i = some x := by
  obtain ⟨pred, hpred, hmem⟩ := Pointwise.mapM_defined (l := List.range st.columns.length)
    (f := st.readEntry overflow) fun i hi => readEntry_isSome h (List.mem_range.1 hi)
  refine ⟨pred, hpred, fun x => ?_⟩
  rw [hmem]
  simp only [List.mem_range]

/-! ## One column and one condition -/

theorem notMem_signs_of_isDigit {c : Char} (h : c.isDigit = true) : c ∉ ['<', '>', '='] := by
  intro hsign
  simp only [List.mem_cons, List.not_mem_nil, or_false] at hsign
  obtain rfl | rfl | rfl := hsign <;> exact absurd h (by decide)

theorem condition_of_fits (hnames : st.PlainNames) {col : String} (hcol : col ∈ st.columns) {lit : Literal}
    {value : List Char} (hfits : lit.Fits y) (hvalue : lit.pushed? = some value) :
    st.condition overflow col value = Condition.assigned overflow st.tableName.toList col.toList value := by
  apply ofText_assignment hnames.table (hnames.columns col hcol)
  cases lit with
  | int v =>
    obtain ⟨-, hv, -⟩ := hfits
    cases hvalue
    rw [toText, if_neg (not_lt.2 hv)]
    exact fun c hc => notMem_signs_of_isDigit (isDigit_of_mem_numeral hc)
  | str s =>
    cases hvalue
    exact hfits.2.2
  | _ => exact absurd hfits id

/-- The point `v` and the interval of a condition are apart exactly when `v` does not satisfy the condition. -/
theorem clashes_point_iff {x : Condition} {v : Int} (hx : x.type = .int ∧ x.opt = .eq ∧ x.ival = v)
    (hv : InRange v) (hy : y.Plain) (hyt : y.type = .int) (hr : r y.column = some (.int v)) :
    PairSet x y ∧ (clashes x y = true ↔ y.satisfied r = false) := by
  obtain ⟨hxt, hxo, rfl⟩ := hx
  have hsx : x.getSection = some (x.ival, x.ival) := by rw [getSection, hxo]
  obtain ⟨⟨a, b⟩, hsy⟩ := Option.isSome_iff_exists.1 hy.getSection_isSome
  refine ⟨.inr ⟨by rw [hsx]; rfl, hy.getSection_isSome⟩, ?_⟩
  rw [← Bool.not_eq_true, satisfied_iff_int hr, getSection_holds_iff hsy hv]
  simp only [clashes, hxt, hsx, hsy, reduceCtorEq, if_false, decide_eq_true_eq, hyt, true_and]
  omega

theorem clashes_text_iff {x : Condition} {s : String} (hx : x.type = .string ∧ x.sval = s) (hy : y.Plain)
    (hyt : y.type = .string) (hr : r y.column = some (.str s)) :
    PairSet x y ∧ (clashes x y = true ↔ y.satisfied r = false) := by
  obtain ⟨hxt, rfl⟩ := hx
  refine ⟨.inl hxt, ?_⟩
  rw [← Bool.not_eq_true, satisfied_iff_str hr, hy.opt_eq hyt]
  simp [clashes, hxt, hyt, Opt.holds]

theorem assigned_clashes_iff {col : String} {lit : Literal} {value : List Char} (hy : y.Plain)
    (hfits : lit.Fits y) (hvalue : lit.pushed? = some value) (hr : r y.column = lit.value?) (table : List Char) :
    PairSet (Condition.assigned overflow table col.toList value) y ∧
      (clashes (Condition.assigned overflow table col.toList value) y = true ↔ y.satisfied r = false) := by
  cases lit with
  | int v =>
    obtain ⟨hyt, hv, hINF⟩ := hfits
    cases hvalue
    have hnum : toText v = numeral v.natAbs := by rw [toText, if_neg (not_lt.2 hv)]
    have hread : ddbstr2int overflow (toText v) = v := by
      rw [hnum, ddbstr2int_numeral (by simp only [INF, intMax] at *; omega)]
      omega
    have hne : ¬ v = -1 := by omega
    apply clashes_point_iff _ ⟨by simp only [INF] at *; omega, hINF⟩ hy hyt hr
    exact ⟨by simp only [assigned, hread, if_neg hne], rfl, hread⟩
  | str s =>
    obtain ⟨hyt, hdigit, -⟩ := hfits
    cases hvalue
    have hread : ddbstr2int overflow s.toList = -1 := ddbstr2int_nondigit hdigit
    apply clashes_text_iff _ hy hyt hr
    simp only [assigned, hread, if_true, String.ofList_toList, and_self]
  | _ => exact absurd hfits id

theorem attr_of_sameColumn (hnames : st.PlainNames) {col : String} (hcol : col ∈ st.columns) {value : List Char}
    (hattr : y.attr ∈ st.columns) (hsame : (st.condition overflow col value).sameColumn y = true) : y.attr = col := by
  have hplain := hnames.columns y.attr hattr
  have hxy := (sameColumn_iff.1 hsame).2
  have hread : (st.condition overflow col value).attr = String.ofList col.toList ∨
      '=' ∈ (st.condition overflow col value).attr.toList :=
    (ofText_column hnames.table (hnames.columns col hcol) value).2
  rw [hxy, String.ofList_toList] at hread
  exact hread.resolve_right fun hsign => hplain.1 '=' hsign (by decide)

/-! ## One fragment -/

section Fragment
variable (h : RowInsert T st) (hname : T.name = st.tableName) (hnames : st.PlainNames) (hr : st.Gives r)
  (hF : F ∈ T.frags)
include h hname hnames hr hF

theorem readEntry_clashes_iff {i : Nat} {x : Condition} (hy : y ∈ F.hfCondition)
    (hi : st.columns[i]? = some y.attr) (hx : st.readEntry overflow i = some x) :
    x.sameColumn y = true ∧ PairSet x y ∧ (clashes x y = true ↔ y.satisfied r = false) := by
  obtain ⟨col, lit, value, hcol, hlit, hvalue, rfl⟩ := (readEntry_eq_some_iff h).1 hx
  obtain rfl : y.attr = col := Option.some.inj (hi.symm.trans hcol)
  have htable : y.table = st.tableName := ((h.conditions F hF).table_eq y hy).trans hname
  have hfits := h.fits F hF y hy i lit hcol hlit
  have hvalue' : r y.column = lit.value? := by
    rw [column, htable]
    exact hr i y.attr lit hcol hlit
  rw [condition_of_fits hnames (List.mem_of_getElem? hcol) hfits hvalue]
  refine ⟨?_, assigned_clashes_iff ((h.conditions F hF).plain y hy) hfits hvalue hvalue' _⟩
  rw [sameColumn_iff, htable]
  exact ⟨String.ofList_toList, String.ofList_toList⟩

theorem sameColumn_clashes_iff {i : Nat} {x : Condition} (hy : y ∈ F.hfCondition)
    (hx : st.readEntry overflow i = some x) (hsame : x.sameColumn y = true) :
    PairSet x y ∧ (clashes x y = true ↔ y.satisfied r = false) := by
  obtain ⟨col, lit, value, hcol, -, -, rfl⟩ := (readEntry_eq_some_iff h).1 hx
  have hattr := attr_of_sameColumn hnames (List.mem_of_getElem? hcol) (h.listed F hF y hy) hsame
  exact (readEntry_clashes_iff h hname hnames hr hF hy (hattr ▸ hcol) hx).2

/-- A fragment is left out exactly when the row violates one of its conditions. -/
theorem checkCondition_pred {pred : List Condition}
    (hpred : ∀ x, x ∈ pred ↔ ∃ i < st.columns.length, st.readEntry overflow i = some x) :
    ∃ out, checkCondition F.hfCondition pred = some out ∧
      (out.1 = [] ↔ satisfiesAll F.hfCondition r = false) := by
  have hown := (h.conditions F hF).toOwnConditions
  have hpartner : ∀ y ∈ F.hfCondition, ∃ x ∈ pred, x.sameColumn y = true ∧
      (clashes x y = true ↔ y.satisfied r = false) := by
    intro y hy
    obtain ⟨i, hi, hcol⟩ := List.getElem_of_mem (h.listed F hF y hy)
    obtain ⟨x, hx⟩ := Option.isSome_iff_exists.1 (readEntry_isSome h hi)
    have hpair := readEntry_clashes_iff h hname hnames hr hF hy (List.getElem?_eq_some_iff.2 ⟨hi, hcol⟩) hx
    exact ⟨x, (hpred x).2 ⟨i, hi, hx⟩, hpair.1, hpair.2.2⟩
  have hset : CheckSet F.hfCondition pred := by
    refine ⟨.inr hown.ne_nil, fun x hx y hy hsame => ?_⟩
    obtain ⟨i, -, hx⟩ := (hpred x).1 hx
    exact (sameColumn_clashes_iff h hname hnames hr hF hy hx hsame).1
  have hcontra : contradicts F.hfCondition pred = true ↔ satisfiesAll F.hfCondition r = false := by
    rw [contradicts_iff]
    simp only [satisfiesAll, List.all_eq_false, Bool.not_eq_true]
    constructor
    · rintro ⟨x, hx, y, hy, hsame, hclash⟩
      obtain ⟨i, -, hx⟩ := (hpred x).1 hx
      exact ⟨y, hy, (sameColumn_clashes_iff h hname hnames hr hF hy hx hsame).2.1 hclash⟩
    · rintro ⟨y, hy, hviolated⟩
      obtain ⟨x, hx, hsame, hclash⟩ := hpartner y hy
      exact ⟨x, hx, y, hy, hsame, hclash.2 hviolated⟩
  have hother : ¬ ∀ x ∈ pred, x.table ≠ T.name := by
    obtain ⟨y, hy⟩ := List.exists_mem_of_ne_nil _ hown.ne_nil
    obtain ⟨x, hx, hsame, -⟩ := hpartner y hy
    exact fun hother => hother x hx ((sameColumn_iff.1 hsame).1.trans (hown.table_eq y hy))
  obtain ⟨out, hout, hnil⟩ := checkCondition_empty_iff hown hset
  exact ⟨out, hout, hnil.trans ((or_iff_left hother).trans hcontra)⟩

end Fragment

/-! ## The horizontal fragments -/

theorem insertHf_eq {pred : List Condition} {frags : List Fragment} {keep : Fragment → Bool} (query : List Char)
    (hcheck : ∀ F ∈ frags, ∃ out, checkCondition F.hfCondition pred = some out ∧ (out.1 = [] ↔ keep F = false)) :
    insertHf pred query frags = some ((frags.filter keep).map fun F => (F.site, query)) :=
  collect_checked hcheck

/-- An INSERT is sent to exactly the fragments all of whose conditions the row satisfies, in their order. -/
theorem insert_routed (hT : findTable Tables st.tableName = some T) (hhf : T.type = .hf) (h : RowInsert T st)
    (hnames : st.PlainNames) (hr : st.Gives r) (overflow : List Char → Int) (query : List Char) :
    insertProcess overflow Tables st query =
        some ((T.frags.filter fun F => satisfiesAll F.hfCondition r).map fun F => (F.site, query)) ∧
      (T.frags.countP (fun F => satisfiesAll F.hfCondition r) = 1 →
        ∃ F ∈ T.frags, satisfiesAll F.hfCondition r = true ∧
          insertProcess overflow Tables st query = some [(F.site, query)]) := by
  have hrouted : insertProcess overflow Tables st query =
      some ((T.frags.filter fun F => satisfiesAll F.hfCondition r).map fun F => (F.site, query)) := by
    obtain ⟨pred, hpred, hmem⟩ := pred_eq_some h overflow
    have hname := findTable_name hT
    simp only [insertProcess, hT, hpred, hhf, Option.bind_eq_bind, Option.bind_some]
    exact insertHf_eq query fun F hF => checkCondition_pred h hname hnames hr hF hmem
  refine ⟨hrouted, fun hone => ?_⟩
  rw [List.countP_eq_length_filter, List.length_eq_one_iff] at hone
  obtain ⟨F, hF⟩ := hone
  have hmem : F ∈ T.frags.filter fun F => satisfiesAll F.hfCondition r := by
    rw [hF]
    exact List.mem_singleton_self F
  obtain ⟨hmem, hsat⟩ := List.mem_filter.1 hmem
  exact ⟨F, hmem, hsat, by rw [hrouted, hF]; rfl⟩

/-- The book 206000 with one further column. -/
def bookInsert (col text : String) : InsertStatement := ⟨"Book", [col, "id"], [.str text, .int 206000]⟩

def bookInsertRow (col text : String) : Row :=
  Row.ofList [("Book" ++ "." ++ col, .str text), ("Book" ++ "." ++ "id", .int 206000)]

section Book
variable {col text : String} (hid : col ≠ "id")
include hid

theorem bookInsert_gives : (bookInsert col text).Gives (bookInsertRow col text) := by
  intro i c lit hcol hlit
  match i with
  | 0 =>
    cases hcol
    cases hlit
    exact List.lookup_cons_self
  | 1 =>
    cases hcol
    cases hlit
    have hne : ("Book" ++ "." ++ "id" == "Book" ++ "." ++ col) = false :=
      beq_eq_false_iff_ne.2 fun heq => hid (String.append_right_inj _ |>.1 heq).symm
    simp only [bookInsert, bookInsertRow, Row.ofList, List.lookup_cons, hne, Literal.value?]
    rfl
  | i + 2 => cases hcol

theorem bookInsert_rowInsert (hT : T.name = book.name ∧ T.frags = book.frags) :
    RowInsert T (bookInsert col text) where
  literals := by
    intro lit hlit
    simp only [bookInsert, List.mem_cons, List.not_mem_nil, or_false] at hlit
    obtain rfl | rfl := hlit <;> rfl
  length_eq := rfl
  conditions := by
    have hbook : ∀ F ∈ book.frags, F.hfCondition ≠ [] ∧ ∀ y ∈ F.hfCondition, y.table = book.name ∧ y.Plain := by
      decide
    intro F hF
    obtain ⟨hne, hall⟩ := hbook F (hT.2 ▸ hF)
    exact ⟨⟨hne, fun y hy => (hall y hy).1.trans hT.1.symm⟩, fun y hy => (hall y hy).2⟩
  listed := by
    have hbook : ∀ F ∈ book.frags, ∀ y ∈ F.hfCondition, y.attr = "id" := by decide
    intro F hF y hy
    rw [hbook F (hT.2 ▸ hF) y hy]
    exact List.mem_cons_of_mem _ (List.mem_singleton_self _)
  fits := by
    have hbook : ∀ F ∈ book.frags, ∀ y ∈ F.hfCondition, y.attr = "id" ∧ y.type = .int := by decide
    intro F hF y hy i lit hcol hlit
    obtain ⟨hattr, htype⟩ := hbook F (hT.2 ▸ hF) y hy
    rw [hattr] at hcol
    match i with
    | 0 => exact absurd (Option.some.inj hcol) hid
    | 1 =>
      cases hlit
      exact ⟨htype, by decide, by decide⟩
    | i + 2 => cases hcol

end Book

/-- A title with a comparison sign does not disturb the routing. -/
theorem bookInsert_routed :
    insertProcess (fun _ => 0) getMetadata (bookInsert "title" "C>B") [] = some [(2, [])] := by
  have hid : "title" ≠ "id" := by decide
  have hfind : findTable getMetadata (bookInsert "title" "C>B").tableName = some book := rfl
  have hnames : (bookInsert "title" "C>B").PlainNames := ⟨by decide, by decide⟩
  rw [(insert_routed hfind rfl (bookInsert_rowInsert hid ⟨rfl, rfl⟩) hnames (bookInsert_gives hid) _ []).1]
  decide

/-- The table Book with a column whose name contains a comparison sign. -/
def labelledBook : MetadataTable := { book with attrs := book.attrs ++ ["Book.id>label"] }

/-- From `Book.id>label=C` the reader takes a string condition on `id`, and the row is sent nowhere. -/
theorem quoted_name_not_routed :
    RowInsert labelledBook (bookInsert "id>label" "C") ∧
      (bookInsert "id>label" "C").Gives (bookInsertRow "id>label" "C") ∧
      (labelledBook.frags.filter fun F => satisfiesAll F.hfCondition (bookInsertRow "id>label" "C")).length = 1 ∧
      ∀ overflow query, insertProcess overflow [labelledBook] (bookInsert "id>label" "C") query = some [] :=
  ⟨bookInsert_rowInsert (by decide) ⟨rfl, rfl⟩, bookInsert_gives (by decide), by decide, fun _ _ => rfl⟩

/-! ## The vertical fragments -/

/-- A row for the vertically fragmented table `T`: all its columns are listed in some order, with literals of any
kind. -/
structure FullInsert (T : MetadataTable) (st : InsertStatement) : Prop where
  columns : (st.columns.map fun c => T.name ++ "." ++ c).Perm T.attrs
  length_eq : st.values.length = st.columns.length
  key_mem : T.key ∈ T.attrs
  key_stored : ∀ F ∈ T.frags, T.key ∈ F.vfColumn
  covered : ∀ a, a ∈ T.attrs ↔ ∃ F ∈ T.frags, a ∈ F.vfColumn

/-- The statement `sql` gives the columns of the fragment the values of the row; `denotes` says which texts of
a statement stand for the value of a literal.  The columns may be written with or without the name of the table. -/
def FragmentInsert (denotes : List Char → Literal → Prop) (T : MetadataTable) (st : InsertStatement) (F : Fragment)
    (sql : List Char) : Prop :=
  ∃ cols vals : List (List Char),
    sql = "insert into ".toList ++ T.name.toList ++ ['('] ++ [','].intercalate cols ++ ") values(".toList ++
      [','].intercalate vals ++ ");".toList ∧
    List.Forall₂ (fun a col => col = a.toList ∨ a.toList = T.name.toList ++ '.' :: col) F.vfColumn cols ∧
    List.Forall₂ (fun a val => ∃ (i : Nat) (c : String) (lit : Literal), st.columns[i]? = some c ∧
      st.values[i]? = some lit ∧ a = T.name ++ "." ++ c ∧ denotes val lit) F.vfColumn vals

/-- A name that is not listed is read behind the end of `columns`. -/
theorem createInsertSql_none {vfColumn columns : List String} {x : String} (hx : x ∈ vfColumn) (hnot : x ∉ columns)
    (values : List (List Char)) : createInsertSql vfColumn columns values = none := by
  have hstep : ∀ out, pushColumn columns values out x = none := by
    intro out
    have hindex : columns[columns.idxOf x]? = none := by
      rw [List.idxOf_eq_length hnot]
      exact List.getElem?_eq_none (Nat.le_refl _)
    simp only [pushColumn, hindex, Option.bind_eq_bind, Option.bind_none]
  rw [createInsertSql, Loops.stuck hx hstep]
  rfl

theorem foldlM_pushColumn {columns l : List String} {values : List (List Char)} {given : String → List Char}
    (hlisted : ∀ x ∈ l, x ∈ columns) (hgiven : ∀ x ∈ l, values[columns.idxOf x]? = some (given x))
    (out : List Char × List Char) :
    l.foldlM (pushColumn columns values) out =
      some (out.1 ++ (l.map String.toList).flatMap (· ++ [',']), out.2 ++ (l.map given).flatMap (· ++ [','])) := by
  induction l generalizing out with
  | nil => simp
  | cons x l ih =>
    have hx : x ∈ x :: l := List.mem_cons_self ..
    have hstep : pushColumn columns values out x = some (out.1 ++ x.toList ++ [','], out.2 ++ given x ++ [',']) := by
      simp only [pushColumn, List.getElem?_idxOf (hlisted x hx), hgiven x hx, Option.bind_eq_bind, Option.bind_some]
    rw [List.foldlM_cons, hstep, Option.bind_eq_bind, Option.bind_some,
      ih (fun z hz => hlisted z (List.mem_cons_of_mem x hz)) fun z hz => hgiven z (List.mem_cons_of_mem x hz)]
    simp

/-- For names that are listed the values stand in the order of the names, in the form in which they were pushed: the
text of a string is written without quotes. -/
theorem createInsertSql_listed {vfColumn columns : List String} {values : List (List Char)}
    {given : String → List Char} (hne : vfColumn ≠ []) (hlisted : ∀ x ∈ vfColumn, x ∈ columns)
    (hgiven : ∀ x ∈ vfColumn, values[columns.idxOf x]? = some (given x)) :
    createInsertSql vfColumn columns values =
      some (['('] ++ [','].intercalate (vfColumn.map String.toList) ++ ") values(".toList ++
        [','].intercalate (vfColumn.map given) ++ ");".toList) := by
  have hlist : ∀ {f : String → List Char}, (['('] ++ (vfColumn.map f).flatMap (· ++ [','])).dropLast =
      ['('] ++ [','].intercalate (vfColumn.map f) := by
    intro f
    have hmap : vfColumn.map f ≠ [] := fun hnil => hne (List.map_eq_nil_iff.1 hnil)
    have hflat : (vfColumn.map f).flatMap (· ++ [',']) ≠ [] := by
      obtain ⟨x, l, hxl⟩ := List.exists_cons_of_ne_nil hmap
      simp [hxl]
    rw [List.dropLast_append_of_ne_nil hflat, dropLast_flatMap hmap]
  rw [createInsertSql, foldlM_pushColumn hlisted hgiven, Option.bind_eq_bind, Option.bind_some, hlist, hlist]
  simp

example : createInsertSql ["id", "name"] ["id", "rank", "name"] ["7".toList, "2".toList, "Li".toList] =
    some "(id,name) values(7,Li);".toList := by decide

theorem insertVf_none {frags : List Fragment} {x : String} (hF : F ∈ frags) (hx : x ∈ F.vfColumn)
    (hnot : x ∉ st.columns) : insertVf st frags = none :=
  Loops.stuck hF (fun siteQuery => by rw [createInsertSql_none hx hnot]; rfl) []

/-- Some qualified column is no unqualified one: the longest column behind the name of the table is longer than all. -/
theorem exists_unlisted (h : FullInsert T st) : ∃ F ∈ T.frags, ∃ x ∈ F.vfColumn, x ∉ st.columns := by
  have hne : st.columns ≠ [] := by
    intro hnil
    have hkey := h.columns.mem_iff.2 h.key_mem
    rw [hnil] at hkey
    cases hkey
  obtain ⟨c, hc⟩ := Option.ne_none_iff_exists'.1 fun hnone =>
    hne (List.argmax_eq_none.1 (show st.columns.argmax String.length = none from hnone))
  have hcol : c ∈ st.columns := List.argmax_mem hc
  have hattr : T.name ++ "." ++ c ∈ T.attrs := h.columns.mem_iff.1 (List.mem_map_of_mem hcol)
  obtain ⟨F, hF, hx⟩ := (h.covered _).1 hattr
  refine ⟨F, hF, _, hx, fun hlisted => ?_⟩
  have hlength : (T.name ++ "." ++ c).length ≤ c.length := List.le_of_mem_argmax hlisted hc
  have hdot : ".".length = 1 := rfl
  rw [String.length_append, String.length_append, hdot] at hlength
  omega

/-- Whatever the literals, no INSERT into a vertically fragmented table is split: the columns of a fragment carry the
name of the table, those of the statement do not, and `createInsertSql` reads behind the end of `columns`. -/
theorem vf_insert_never (hT : findTable Tables st.tableName = some T) (hvf : T.type = .vf) (h : FullInsert T st)
    (denotes : List Char → Literal → Prop) (overflow : List Char → Int) (query : List Char) :
    insertProcess overflow Tables st query = none ∧
      ¬ ∃ out, insertProcess overflow Tables st query = some out ∧
        List.Forall₂ (fun F entry => entry.1 = F.site ∧ FragmentInsert denotes T st F entry.2) T.frags out := by
  have hnone : insertProcess overflow Tables st query = none := by
    obtain ⟨F, hF, x, hx, hnot⟩ := exists_unlisted h
    simp only [insertProcess, hT, hvf, Option.bind_eq_bind, Option.bind_some, insertVf_none hF hx hnot]
    cases st.pred overflow <;> rfl
  refine ⟨hnone, ?_⟩
  rintro ⟨out, hout, -⟩
  rw [hnone] at hout
  cases hout

/-- A customer with all columns. -/
def customerInsert : InsertStatement := ⟨"Customer", ["id", "rank", "name"], [.int 300001, .int 2, .str "Li"]⟩

theorem customerInsert_full : FullInsert customer customerInsert where
  columns := by decide
  length_eq := rfl
  key_mem := by decide
  key_stored := by decide
  covered := by
    intro a
    simp [customer, vfFragment]
    tauto

theorem customerInsert_undefined :
    FullInsert customer customerInsert ∧
      ∀ overflow query, insertProcess overflow getMetadata customerInsert query = none :=
  ⟨customerInsert_full, fun _ _ => rfl⟩

theorem customerInsert_not_split :
    ¬ ∃ out, insertProcess (fun _ => 0) getMetadata customerInsert [] = some out ∧
      List.Forall₂ (fun F entry => entry.1 = F.site ∧
        FragmentInsert (fun text lit => lit.pushed? = some text) customer customerInsert F entry.2)
        customer.frags out := by
  have hfind : findTable getMetadata customerInsert.tableName = some customer := rfl
  exact (vf_insert_never hfind rfl customerInsert_full _ _ _).2

end

end EasyDDB.Optimizer
