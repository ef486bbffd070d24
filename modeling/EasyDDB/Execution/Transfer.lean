import EasyDDB.Execution.Process
import EasyDDB.Lib.SqlText
import EasyDDB.Lib.Strings
import Mathlib.Data.List.TakeWhile

/-! # Rows on their way between two sites

The text `select_sql` makes of a result set, the message of `data_push` and its reading by `data_receive`.  Cells
are byte strings, written as texts; what the receiving database makes of the values is `SqlText.readValues`. -/
namespace EasyDDB.Execution
open Strings SqlText
set_option autoImplicit false

/-- The bytes of a `char *` up to the first zero. -/
def cString (cell : Text) : Text := cell.takeWhile (· ≠ '\x00')

/-- The text of a row in `select_sql`: `temp` without its last character, and `"),"`. -/
def selectRow (row : List Text) : Text :=
  let temp := row.foldl (fun temp cell => temp ++ '\x27' :: (cString cell ++ ['\x27', ','])) ['(']
  temp.dropLast ++ [')', ',']

/-- `select_sql` on a result set; `pop_back` on an empty string is undefined. -/
def selectRows (rows : List (List Text)) : Option Text :=
  let queryRes := rows.foldl (fun queryRes row => queryRes ++ selectRow row) []
  if queryRes = [] then none else some queryRes.dropLast

/-- `datamsg` of `data_push` -/
def dataMsg (nodeId : Nat) (text : Text) : Text := numeral nodeId ++ ',' :: text

/-- The node and the data that `data_receive` finds in a message. -/
def dataReceive (msg : Text) : Option (Int × Text) :=
  let parts := (cut [','] msg).getD (msg, msg)
  (stoi parts.1).map fun nodeId => (nodeId, parts.2)

/-! ## The text of a result set -/

theorem flatMap_cells {row : List Text} (h : row ≠ []) :
    (row.flatMap fun cell => '\x27' :: (cString cell ++ ['\x27', ','])).dropLast ++ [')'] =
      cellsText (row.map cString) := by
  induction row with
  | nil => exact absurd rfl h
  | cons cell row ih =>
    cases row with
    | nil =>
      have htext : '\x27' :: (cString cell ++ ['\x27', ',']) = ('\x27' :: (cString cell ++ ['\x27'])) ++ [','] := by simp
      rw [List.flatMap_cons, List.flatMap_nil, List.append_nil, htext, List.dropLast_concat]
      simp [cellsText]
    | cons next row =>
      have ih := ih (List.cons_ne_nil next row)
      have hne : (next :: row).flatMap (fun cell => '\x27' :: (cString cell ++ ['\x27', ','])) ≠ [] := by simp
      rw [List.flatMap_cons, List.dropLast_append_of_ne_nil hne, List.append_assoc, ih]
      simp [cellsText]

theorem selectRow_eq {row : List Text} (h : row ≠ []) : selectRow row = '(' :: (cellsText (row.map cString) ++ [',']) := by
  have hne : row.flatMap (fun cell => '\x27' :: (cString cell ++ ['\x27', ','])) ≠ [] := by
    obtain ⟨cell, row, rfl⟩ := List.exists_cons_of_ne_nil h
    simp
  rw [selectRow, List.foldl_append_eq_append, ← List.flatMap_def, List.dropLast_append_of_ne_nil hne, ← flatMap_cells h]
  simp

theorem flatMap_rows {rows : List (List Text)} (hne : rows ≠ []) (h : ∀ row ∈ rows, row ≠ []) :
    rows.flatMap selectRow = rowsText (rows.map (List.map cString)) ++ [','] := by
  induction rows with
  | nil => exact absurd rfl hne
  | cons row rows ih =>
    rw [List.flatMap_cons, selectRow_eq (h row (List.mem_cons_self ..))]
    cases rows with
    | nil => simp [rowsText]
    | cons next rows =>
      rw [ih (List.cons_ne_nil next rows) fun r hr => h r (List.mem_cons_of_mem row hr)]
      simp [rowsText]

/-- A result set without rows has no text. -/
theorem selectRows_eq {rows : List (List Text)} (h : ∀ row ∈ rows, row ≠ []) :
    selectRows rows = if rows = [] then none else some (rowsText (rows.map (List.map cString))) := by
  by_cases hne : rows = []
  · subst hne
    rfl
  · rw [selectRows, List.foldl_append_eq_append, ← List.flatMap_def, List.nil_append, flatMap_rows hne h, if_neg hne]
    simp

theorem dataReceive_dataMsg (nodeId : Nat) (text : Text) :
    dataReceive (dataMsg nodeId text) = if IsInt nodeId then some ((nodeId : Int), text) else none := by
  have hcomma : ',' ∉ numeral nodeId := fun hmem => absurd (isDigit_of_mem_numeral hmem) (by decide)
  have hstoi : stoi (numeral nodeId) = if IsInt nodeId then some (nodeId : Int) else none := by
    have := stoi_toText nodeId
    rwa [toText, if_neg (by omega), Int.natAbs_natCast] at this
  simp only [dataReceive, dataMsg, cut_singleton hcomma, Option.getD_some, hstoi]
  split <;> rfl

/-! ## What is lost -/

theorem cString_length (cell : Text) :
    (cString cell).length ≤ cell.length ∧ ((cString cell).length = cell.length → '\x00' ∉ cell) := by
  refine ⟨(List.takeWhile_prefix _).length_le, fun heq hmem => ?_⟩
  have hall : cString cell = cell := (List.takeWhile_prefix _).eq_of_length heq
  have := List.takeWhile_eq_self_iff.1 hall '\x00' hmem
  simp at this

theorem cString_of_notMem {cell : Text} (h : '\x00' ∉ cell) : cString cell = cell :=
  List.takeWhile_eq_self_iff.2 fun c hc => by
    have : c ≠ '\x00' := fun heq => h (heq ▸ hc)
    simpa using this

theorem cellsSize_cString (row : List Text) :
    cellsSize (row.map cString) ≤ cellsSize row ∧
      (cellsSize (row.map cString) = cellsSize row → ∀ cell ∈ row, '\x00' ∉ cell) := by
  induction row with
  | nil => simp
  | cons cell row ih =>
    obtain ⟨hle, heq⟩ := cString_length cell
    rw [List.map_cons, cellsSize_cons, cellsSize_cons]
    exact ⟨by omega, fun h => List.forall_mem_cons.2 ⟨heq (by omega), ih.2 (by omega)⟩⟩

theorem rowsSize_cString (rows : List (List Text)) :
    rowsSize (rows.map (List.map cString)) ≤ rowsSize rows ∧
      (rowsSize (rows.map (List.map cString)) = rowsSize rows → ∀ row ∈ rows, ∀ cell ∈ row, '\x00' ∉ cell) := by
  induction rows with
  | nil => simp
  | cons row rows ih =>
    obtain ⟨hle, heq⟩ := cellsSize_cString row
    rw [List.map_cons, rowsSize_cons, rowsSize_cons]
    exact ⟨by omega, fun h => List.forall_mem_cons.2 ⟨heq (by omega), ih.2 (by omega)⟩⟩

/-- A cell that is not changed on the way: no zero byte, no quote, and behind each backslash a `%` or a `_`. -/
def Survives (cell : Text) : Prop := verbatim cell = true ∧ '\x00' ∉ cell

instance (cell : Text) : Decidable (Survives cell) := inferInstanceAs (Decidable (_ ∧ _))

theorem readValues_sent_iff {rows : List (List Text)} (hne : rows ≠ []) (h : ∀ row ∈ rows, row ≠ []) :
    readValues (rowsText (rows.map (List.map cString))) = some rows ↔ ∀ row ∈ rows, ∀ cell ∈ row, Survives cell := by
  constructor
  · intro hread
    have hlength : (rowsText (rows.map (List.map cString))).length + 1 = rowsSize (rows.map (List.map cString)) :=
      rowsText_length (by simpa using hne) (by simpa using h)
    obtain ⟨hcost, hverbatim⟩ := readRows_cost hread
    obtain ⟨hsize, hnul⟩ := rowsSize_cString rows
    exact fun row hrow cell hcell =>
      ⟨hverbatim (by omega) row hrow cell hcell, hnul (by omega) row hrow cell hcell⟩
  · intro hall
    have hsame : rows.map (List.map cString) = rows := by
      refine (List.map_congr_left fun row hrow => ?_).trans (List.map_id rows)
      exact (List.map_congr_left fun cell hcell => cString_of_notMem (hall row hrow cell hcell).2).trans (List.map_id row)
    rw [hsame]
    exact readValues_rowsText hne h fun row hrow cell hcell => (hall row hrow cell hcell).1

/-- A result set arrives as it was exactly where it has a row and every cell survives, with the number of a node, which is
an `int`. -/
theorem rows_survive_iff (nodeId : Nat) {rows : List (List Text)} (h : ∀ row ∈ rows, row ≠ []) :
    (∃ text data, selectRows rows = some text ∧ dataReceive (dataMsg nodeId text) = some ((nodeId : Int), data) ∧
      readValues data = some rows) ↔ (rows ≠ [] ∧ ∀ row ∈ rows, ∀ cell ∈ row, Survives cell) ∧ IsInt nodeId := by
  rw [selectRows_eq h]
  constructor
  · rintro ⟨text, data, htext, hdata, hread⟩
    split_ifs at htext with hne
    cases htext
    rw [dataReceive_dataMsg] at hdata
    split_ifs at hdata with hint
    cases hdata
    exact ⟨⟨hne, (readValues_sent_iff hne h).1 hread⟩, hint⟩
  · rintro ⟨⟨hne, hall⟩, hint⟩
    exact ⟨_, _, if_neg hne, (dataReceive_dataMsg ..).trans (if_pos hint), (readValues_sent_iff hne h).2 hall⟩

/-- A name with a backslash and a percent sign arrives. -/
theorem percent_survives : ∃ text data, selectRows [["7".toList, "50\\%".toList]] = some text ∧
    dataReceive (dataMsg 3 text) = some (3, data) ∧ readValues data = some [["7".toList, "50\\%".toList]] :=
  (rows_survive_iff 3 (by decide)).2 (by decide)

/-- An apostrophe ends the literal: the text sent is no list of values. -/
theorem apostrophe_lost : ∃ text, selectRows [["O'Neil".toList]] = some text ∧
    dataReceive (dataMsg 3 text) = some (3, text) ∧ readValues text = none := by
  refine ⟨"('O'Neil')".toList, by decide, by decide +kernel, by decide⟩

end EasyDDB.Execution
