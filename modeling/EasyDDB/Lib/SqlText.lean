import Mathlib.Algebra.Order.Ring.Nat
import Mathlib.Data.List.Basic

/-! # Lists of rows of string literals

The reading of `('a','b'),('c','d')` by the rules for string literals: a doubled quote stands for one, and a
backslash for an escape.  Each step of the reader uses up at least the length of what it denotes, so a text that is
as short as its rows allow has been read word for word. -/
namespace EasyDDB.SqlText
set_option autoImplicit false

abbrev Text := List Char

/-! ## Reading -/

/-- What a backslash and a character stand for; `\%` and `\_` stay as they are. -/
def unescape (c : Char) : Text :=
  if c = '0' then ['\x00'] else if c = 'b' then ['\x08'] else if c = 'n' then ['\n'] else if c = 'r' then ['\r']
  else if c = 't' then ['\t'] else if c = 'Z' then ['\x1a'] else if c = '%' ∨ c = '_' then ['\\', c] else [c]

/-- The literal up to its closing quote, and the text behind it. -/
def readLiteral : Text → Option (Text × Text)
  | [] => none
  | [c] => if c = '\x27' then some ([], []) else none
  | c :: d :: t =>
    if c = '\x27' then
      if d = '\x27' then (readLiteral t).map fun r => ('\x27' :: r.1, r.2) else some ([], d :: t)
    else if c = '\\' then (readLiteral t).map fun r => (unescape d ++ r.1, r.2)
    else (readLiteral (d :: t)).map fun r => (c :: r.1, r.2)

/-- The literals of a row up to its closing bracket. -/
def readCells : Nat → Text → Option (List Text × Text)
  | fuel + 1, '\x27' :: t => do
    let (cell, t) ← readLiteral t
    match t with
    | ',' :: t => (readCells fuel t).map fun r => (cell :: r.1, r.2)
    | ')' :: t => some ([cell], t)
    | _ => none
  | _, _ => none

def readRows : Nat → Text → Option (List (List Text))
  | fuel + 1, '(' :: t => do
    let (row, t) ← readCells fuel t
    match t with
    | [] => some [row]
    | ',' :: t => (readRows fuel t).map fun rows => row :: rows
    | _ => none
  | _, _ => none

/-- The rows a whole text denotes. -/
def readValues (t : Text) : Option (List (List Text)) := readRows t.length t

/-! ## Writing without escapes -/

def cellsText : List Text → Text
  | [] => []
  | [cell] => '\x27' :: (cell ++ ['\x27', ')'])
  | cell :: next :: row => '\x27' :: (cell ++ '\x27' :: ',' :: cellsText (next :: row))

def rowsText : List (List Text) → Text
  | [] => []
  | [row] => '(' :: cellsText row
  | row :: next :: rows => '(' :: (cellsText row ++ ',' :: rowsText (next :: rows))

/-- A text that denotes itself: no quote, and behind each backslash a `%` or a `_`. -/
def verbatim : Text → Bool
  | [] => true
  | [c] => c != '\x27' && c != '\\'
  | c :: d :: t =>
    if c = '\x27' then false
    else if c = '\\' then (d == '%' || d == '_') && verbatim t
    else verbatim (d :: t)

/-- The number of characters a row and a list of rows need, with a separator behind each row. -/
def cellsSize (row : List Text) : Nat := (row.map fun cell => cell.length + 3).sum

def rowsSize (rows : List (List Text)) : Nat := (rows.map fun row => cellsSize row + 2).sum

theorem cellsSize_cons (cell : Text) (row : List Text) : cellsSize (cell :: row) = cell.length + 3 + cellsSize row := by
  simp [cellsSize]

theorem rowsSize_cons (row : List Text) (rows : List (List Text)) :
    rowsSize (row :: rows) = cellsSize row + 2 + rowsSize rows := by
  simp [rowsSize]

theorem cellsText_length {row : List Text} (h : row ≠ []) : (cellsText row).length = cellsSize row := by
  induction row using cellsText.induct with
  | case1 => exact absurd rfl h
  | case2 cell => simp [cellsText, cellsSize]
  | case3 cell next row ih =>
    have ih := ih (List.cons_ne_nil next row)
    rw [cellsSize_cons, ← ih]
    simp only [cellsText, List.length_cons, List.length_append]
    omega

theorem rowsText_length {rows : List (List Text)} (hne : rows ≠ []) (h : ∀ row ∈ rows, row ≠ []) :
    (rowsText rows).length + 1 = rowsSize rows := by
  induction rows using rowsText.induct with
  | case1 => exact absurd rfl hne
  | case2 row =>
    have hrow := cellsText_length (h row (List.mem_singleton_self row))
    simp only [rowsText, List.length_cons, rowsSize, List.map_cons, List.map_nil, List.sum_cons, List.sum_nil]
    omega
  | case3 row next rows ih =>
    have hrow := cellsText_length (h row (List.mem_cons_self ..))
    have ih := ih (List.cons_ne_nil next rows) fun r hr => h r (List.mem_cons_of_mem row hr)
    rw [rowsSize_cons, ← ih, ← hrow]
    simp only [rowsText, List.length_cons, List.length_append]
    omega

/-! ## One literal -/

theorem verbatim_cons {c : Char} (hquote : c ≠ '\x27') (hback : c ≠ '\\') (t : Text) :
    verbatim (c :: t) = verbatim t := by
  cases t with
  | nil => simp [verbatim, hquote, hback]
  | cons d t => rw [verbatim, if_neg hquote, if_neg hback]

theorem readLiteral_cons {c : Char} (hquote : c ≠ '\x27') (hback : c ≠ '\\') (t : Text) :
    readLiteral (c :: t) = (readLiteral t).map fun r => (c :: r.1, r.2) := by
  cases t with
  | nil => simp [readLiteral, hquote]
  | cons d t => rw [readLiteral, if_neg hquote, if_neg hback]

theorem unescape_kept {c : Char} (h : c = '%' ∨ c = '_') : unescape c = ['\\', c] := by
  obtain rfl | rfl := h <;> rfl

theorem unescape_length {c : Char} (h : ¬ (c = '%' ∨ c = '_')) : (unescape c).length = 1 := by
  unfold unescape
  split_ifs <;> rfl

theorem readLiteral_verbatim {cell : Text} (h : verbatim cell = true) {e : Char} (he : e ≠ '\x27') (t : Text) :
    readLiteral (cell ++ '\x27' :: e :: t) = some (cell, e :: t) := by
  have hclose : readLiteral ('\x27' :: e :: t) = some ([], e :: t) := by rw [readLiteral, if_pos rfl, if_neg he]
  induction cell using verbatim.induct with
  | case1 => exact hclose
  | case2 c =>
    simp only [verbatim, Bool.and_eq_true, bne_iff_ne] at h
    rw [List.singleton_append, readLiteral_cons h.1 h.2, hclose, Option.map_some]
  | case3 d rest => simp [verbatim] at h
  | case4 d rest _ ih =>
    simp only [verbatim, Char.reduceEq, if_false, if_true, Bool.and_eq_true, Bool.or_eq_true, beq_iff_eq] at h
    rw [List.cons_append, List.cons_append, readLiteral, if_neg (by decide), if_pos rfl, ih h.2, unescape_kept h.1,
      Option.map_some]
    rfl
  | case5 c d rest hquote hback ih =>
    rw [verbatim_cons hquote hback] at h
    rw [List.cons_append, readLiteral_cons hquote hback, ih h, Option.map_some]

/-- A literal uses up its closing quote and at least as many characters as it denotes, and more than those unless
it is read word for word. -/
theorem readLiteral_cost {t rest s : Text} (h : readLiteral t = some (s, rest)) :
    s.length + 1 + rest.length ≤ t.length ∧ (s.length + 1 + rest.length = t.length → verbatim s = true) := by
  induction t using readLiteral.induct generalizing s with
  | case1 => cases h
  | case2 =>
    rw [readLiteral, if_pos rfl] at h
    cases h
    exact ⟨Nat.le_refl _, fun _ => rfl⟩
  | case3 c hc =>
    rw [readLiteral, if_neg hc] at h
    cases h
  | case4 t ih =>
    rw [readLiteral, if_pos rfl, if_pos rfl] at h
    obtain ⟨⟨s', rest'⟩, hr, heq⟩ := Option.map_eq_some_iff.1 h
    cases heq
    have hcost := (ih hr).1
    dsimp only at hcost ⊢
    simp only [List.length_cons]
    omega
  | case5 d t hd =>
    rw [readLiteral, if_pos rfl, if_neg hd] at h
    cases h
    exact ⟨by simp only [List.length_cons, List.length_nil]; omega, fun _ => rfl⟩
  | case6 d t _ ih =>
    rw [readLiteral, if_neg (by decide), if_pos rfl] at h
    obtain ⟨⟨s', rest'⟩, hr, heq⟩ := Option.map_eq_some_iff.1 h
    cases heq
    obtain ⟨hcost, hverbatim⟩ := ih hr
    dsimp only at hcost hverbatim ⊢
    by_cases hd : d = '%' ∨ d = '_'
    · have hkept : verbatim ('\\' :: d :: s') = verbatim s' := by
        obtain rfl | rfl := hd <;> simp [verbatim]
      rw [unescape_kept hd]
      simp only [List.length_cons, List.cons_append, List.nil_append, hkept]
      exact ⟨by omega, fun heq => hverbatim (by omega)⟩
    · have hone := unescape_length hd
      simp only [List.length_cons, List.length_append]
      exact ⟨by omega, fun heq => absurd heq (by omega)⟩
  | case7 c d t hquote hback ih =>
    rw [readLiteral_cons hquote hback] at h
    obtain ⟨⟨s', rest'⟩, hr, heq⟩ := Option.map_eq_some_iff.1 h
    cases heq
    obtain ⟨hcost, hverbatim⟩ := ih hr
    dsimp only at hcost hverbatim ⊢
    rw [List.length_cons] at hcost hverbatim
    simp only [List.length_cons, verbatim_cons hquote hback]
    exact ⟨by omega, fun heq => hverbatim (by omega)⟩

/-! ## Rows -/

theorem readCells_verbatim {row : List Text} (hne : row ≠ []) (h : ∀ cell ∈ row, verbatim cell = true) {fuel : Nat}
    (hfuel : row.length ≤ fuel) (t : Text) : readCells fuel (cellsText row ++ t) = some (row, t) := by
  induction row using cellsText.induct generalizing fuel with
  | case1 => exact absurd rfl hne
  | case2 cell =>
    obtain ⟨fuel, rfl⟩ : ∃ n, fuel = n + 1 := ⟨fuel - 1, by rw [List.length_singleton] at hfuel; omega⟩
    have hread := readLiteral_verbatim (h cell (List.mem_singleton_self cell)) (show ')' ≠ '\x27' by decide) t
    simp only [cellsText, List.cons_append, List.append_assoc, List.nil_append, readCells, hread,
      Option.bind_eq_bind, Option.bind_some]
  | case3 cell next row ih =>
    rw [List.length_cons] at hfuel
    obtain ⟨fuel, rfl⟩ : ∃ n, fuel = n + 1 := ⟨fuel - 1, by omega⟩
    have ih := ih (List.cons_ne_nil next row) (fun c hc => h c (List.mem_cons_of_mem cell hc))
      (show (next :: row).length ≤ fuel by omega)
    have hread := readLiteral_verbatim (h cell (List.mem_cons_self ..)) (show ',' ≠ '\x27' by decide)
      (cellsText (next :: row) ++ t)
    simp only [cellsText, List.cons_append, List.append_assoc, readCells, hread, Option.bind_eq_bind,
      Option.bind_some, ih, Option.map_some]

theorem readRows_verbatim {rows : List (List Text)} (hne : rows ≠ []) (hrows : ∀ row ∈ rows, row ≠ [])
    (h : ∀ row ∈ rows, ∀ cell ∈ row, verbatim cell = true) {fuel : Nat} (hfuel : rowsSize rows ≤ fuel + 1) :
    readRows fuel (rowsText rows) = some rows := by
  have hlength : ∀ row : List Text, row.length ≤ cellsSize row := by
    intro row
    induction row with
    | nil => exact Nat.zero_le _
    | cons cell row ih =>
      rw [cellsSize_cons, List.length_cons]
      omega
  induction rows using rowsText.induct generalizing fuel with
  | case1 => exact absurd rfl hne
  | case2 row =>
    have hlength := hlength row
    rw [rowsSize_cons] at hfuel
    obtain ⟨fuel, rfl⟩ : ∃ n, fuel = n + 1 := ⟨fuel - 1, by omega⟩
    have hmem := List.mem_singleton_self row
    have hread := readCells_verbatim (hrows row hmem) (h row hmem) (show row.length ≤ fuel by omega) []
    rw [List.append_nil] at hread
    simp only [rowsText, readRows, hread, Option.bind_eq_bind, Option.bind_some]
  | case3 row next rows ih =>
    have hlength := hlength row
    rw [rowsSize_cons] at hfuel
    obtain ⟨fuel, rfl⟩ : ∃ n, fuel = n + 1 := ⟨fuel - 1, by omega⟩
    have hmem : row ∈ row :: next :: rows := List.mem_cons_self ..
    have ih := ih (List.cons_ne_nil next rows) (fun r hr => hrows r (List.mem_cons_of_mem row hr))
      (fun r hr => h r (List.mem_cons_of_mem row hr)) (show rowsSize (next :: rows) ≤ fuel + 1 by omega)
    have hread := readCells_verbatim (hrows row hmem) (h row hmem) (show row.length ≤ fuel by omega)
      (',' :: rowsText (next :: rows))
    simp only [rowsText, readRows, hread, Option.bind_eq_bind, Option.bind_some, ih, Option.map_some]

theorem readValues_rowsText {rows : List (List Text)} (hne : rows ≠ []) (hrows : ∀ row ∈ rows, row ≠ [])
    (h : ∀ row ∈ rows, ∀ cell ∈ row, verbatim cell = true) : readValues (rowsText rows) = some rows :=
  readRows_verbatim hne hrows h (Nat.le_of_eq (rowsText_length hne hrows).symm)

theorem readCells_cases {fuel : Nat} {t rest : Text} {row : List Text} (h : readCells fuel t = some (row, rest)) :
    ∃ n t' cell behind, fuel = n + 1 ∧ t = '\x27' :: t' ∧ readLiteral t' = some (cell, behind) ∧
      ((behind = ')' :: rest ∧ row = [cell]) ∨
        ∃ t'' row', behind = ',' :: t'' ∧ readCells n t'' = some (row', rest) ∧ row = cell :: row') := by
  rw [readCells.eq_def] at h
  split at h
  · rename_i n t'
    simp only [Option.bind_eq_bind, Option.bind_eq_some_iff] at h
    obtain ⟨⟨cell, behind⟩, hread, h⟩ := h
    refine ⟨n, t', cell, behind, rfl, rfl, hread, ?_⟩
    dsimp only at h
    split at h
    · rename_i t''
      obtain ⟨⟨row', rest'⟩, hcells, heq⟩ := Option.map_eq_some_iff.1 h
      cases heq
      exact .inr ⟨t'', row', rfl, hcells, rfl⟩
    · cases h
      exact .inl ⟨rfl, rfl⟩
    · cases h
  · cases h

theorem readCells_cost {fuel : Nat} {t rest : Text} {row : List Text} (h : readCells fuel t = some (row, rest)) :
    cellsSize row + rest.length ≤ t.length ∧
      (cellsSize row + rest.length = t.length → ∀ cell ∈ row, verbatim cell = true) := by
  induction fuel generalizing t row with
  | zero => cases h
  | succ fuel ih =>
    obtain ⟨n, t', cell, behind, hn, rfl, hread, hrow⟩ := readCells_cases h
    cases hn
    obtain ⟨hcost, hverbatim⟩ := readLiteral_cost hread
    obtain ⟨rfl, rfl⟩ | ⟨t'', row', rfl, hcells, rfl⟩ := hrow
    · rw [List.length_cons] at hcost hverbatim
      rw [cellsSize_cons, List.length_cons]
      simp only [cellsSize, List.map_nil, List.sum_nil, List.mem_singleton, forall_eq]
      exact ⟨by omega, fun heq => hverbatim (by omega)⟩
    · obtain ⟨hrest, hrest'⟩ := ih hcells
      rw [List.length_cons] at hcost hverbatim
      rw [cellsSize_cons, List.length_cons]
      exact ⟨by omega, fun heq => List.forall_mem_cons.2 ⟨hverbatim (by omega), hrest' (by omega)⟩⟩

theorem readRows_cases {fuel : Nat} {t : Text} {rows : List (List Text)} (h : readRows fuel t = some rows) :
    ∃ n t' row behind, fuel = n + 1 ∧ t = '(' :: t' ∧ readCells n t' = some (row, behind) ∧
      ((behind = [] ∧ rows = [row]) ∨
        ∃ t'' rows', behind = ',' :: t'' ∧ readRows n t'' = some rows' ∧ rows = row :: rows') := by
  rw [readRows.eq_def] at h
  split at h
  · rename_i n t'
    simp only [Option.bind_eq_bind, Option.bind_eq_some_iff] at h
    obtain ⟨⟨row, behind⟩, hread, h⟩ := h
    refine ⟨n, t', row, behind, rfl, rfl, hread, ?_⟩
    dsimp only at h
    split at h
    · cases h
      exact .inl ⟨rfl, rfl⟩
    · rename_i t''
      obtain ⟨rows', hrows, heq⟩ := Option.map_eq_some_iff.1 h
      exact .inr ⟨t'', rows', rfl, hrows, heq.symm⟩
    · cases h
  · cases h

/-- No text is shorter than the rows it denotes, and one that is as short denotes texts that denote themselves. -/
theorem readRows_cost {fuel : Nat} {t : Text} {rows : List (List Text)} (h : readRows fuel t = some rows) :
    rowsSize rows ≤ t.length + 1 ∧
      (rowsSize rows = t.length + 1 → ∀ row ∈ rows, ∀ cell ∈ row, verbatim cell = true) := by
  induction fuel generalizing t rows with
  | zero => cases h
  | succ fuel ih =>
    obtain ⟨n, t', row, behind, hn, rfl, hread, hrows⟩ := readRows_cases h
    cases hn
    obtain ⟨hcost, hverbatim⟩ := readCells_cost hread
    obtain ⟨rfl, rfl⟩ | ⟨t'', rows', rfl, hrest, rfl⟩ := hrows
    · rw [List.length_nil] at hcost hverbatim
      rw [rowsSize_cons, List.length_cons]
      simp only [rowsSize, List.map_nil, List.sum_nil, List.mem_singleton, forall_eq]
      exact ⟨by omega, fun heq => hverbatim (by omega)⟩
    · obtain ⟨hcost', hverbatim'⟩ := ih hrest
      rw [List.length_cons] at hcost hverbatim
      rw [rowsSize_cons, List.length_cons]
      exact ⟨by omega, fun heq => List.forall_mem_cons.2 ⟨hverbatim (by omega), hverbatim' (by omega)⟩⟩

end EasyDDB.SqlText
