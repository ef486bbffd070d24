import EasyDDB.Catalog.Metadata

/-! # Reading a condition from text

`ddbstr2int` and the constructor `Condition(string)`.  The constructor looks for six tokens one after the other;
each one that occurs anywhere in the text overwrites the fields.

What an `int` holds after an overflow is left open: `overflow` gives it for a text of digits. -/
namespace EasyDDB
open Strings
set_option autoImplicit false

section
variable (overflow : List Char → Int)

/-- `ddbstr2int`: `-1` for a text with a character that is no digit, `0` for the empty text. `ans * 10 + str` may pass
`intMax` before `48` is taken off; in two's complement the difference is the value again. -/
def ddbstr2int (num : List Char) : Int :=
  if num.all Char.isDigit then
    let ans := Nat.ofDigitChars 10 num 0
    if (ans : Int) ≤ intMax then ans else overflow num
  else -1

/-- The tokens in the order in which the constructor looks for them. -/
def opts : List (Opt × List Char) :=
  [(.eq, ['=']), (.gt, ['>']), (.lt, ['<']), (.ge, ['>', '=']), (.le, ['<', '=']), (.ne, ['!', '='])]

/-- `cur.substr(0, cur.find("."))` and `cur.substr(cur.find(".") + 1)`; without a dot both are `cur`. -/
def splitColumn (cur : List Char) : List Char × List Char := (cut ['.'] cur).getD (cur, cur)

/-- One round of the constructor's loop. -/
def Condition.readOpt (cond : List Char) (c : Condition) (opti : Opt × List Char) : Condition :=
  match cut opti.2 cond with
  | none => c
  | some (cur, rest) =>
    let ival := ddbstr2int overflow rest
    { table := String.ofList (splitColumn cur).1
      attr := String.ofList (splitColumn cur).2
      opt := opti.1
      ival := ival
      type := if ival = -1 then .string else .int
      sval := if ival = -1 then String.ofList rest else c.sval }

/-- `Condition(string)` -/
def Condition.ofText (cond : List Char) : Condition :=
  opts.foldl (Condition.readOpt overflow cond) ⟨"", "", .unset, .unset, 0, ""⟩

end

section
variable {overflow : List Char → Int}

/-- A condition of `getMetadata` as it is read from its text. -/
example : Condition.ofText overflow "Book.id>=205000".toList = condGe "Book" "id" 205000 := by rfl

theorem ddbstr2int_numeral {n : Nat} (h : (n : Int) ≤ intMax) : ddbstr2int overflow (numeral n) = n := by
  have hdigits : (numeral n).all Char.isDigit = true := List.all_eq_true.2 fun c hc => isDigit_of_mem_numeral hc
  simp only [ddbstr2int, hdigits, if_true, ofDigitChars_numeral, h]

theorem ddbstr2int_nondigit {t : List Char} (h : ∃ c ∈ t, c.isDigit = false) : ddbstr2int overflow t = -1 := by
  obtain ⟨c, hc, hdigit⟩ := h
  have hall : t.all Char.isDigit = false := List.all_eq_false.2 ⟨c, hc, by rw [hdigit]; exact Bool.false_ne_true⟩
  simp only [ddbstr2int, hall, Bool.false_eq_true, if_false]

/-! ## The text of a comparison -/

theorem splitColumn_qualified {table : List Char} (hdot : '.' ∉ table) (rest : List Char) :
    splitColumn (table ++ '.' :: rest) = (table, rest) := by
  rw [splitColumn, cut_singleton hdot, Option.getD_some]

/-- The token of an operator. -/
def Opt.token : Opt → List Char
  | .eq => ['=']
  | .gt => ['>']
  | .lt => ['<']
  | .ge => ['>', '=']
  | .le => ['<', '=']
  | .ne => ['!', '=']
  | .unset => []

/-- The condition that is read from a comparison. The text a longer token leaves in `sval` is that of the shorter token
found before it. -/
def Condition.compared (overflow : List Char → Int) (name : List Char) (opt : Opt) (value : List Char) : Condition where
  table := String.ofList (splitColumn name).1
  attr := String.ofList (splitColumn name).2
  opt := opt
  ival := ddbstr2int overflow value
  type := if ddbstr2int overflow value = -1 then .string else .int
  sval := if ddbstr2int overflow value = -1 then String.ofList value
    else if opt = .ge ∨ opt = .le then String.ofList ('=' :: value) else ""

theorem cut_opts_eq_none {t : List Char} (h : Avoids ['<', '>', '='] t) : ∀ opti ∈ opts, cut opti.2 t = none := by
  have hsign : (opts.all fun opti => opti.2.any fun c => ['<', '>', '='].contains c) = true := by decide
  intro opti hopti
  obtain ⟨c, hc, hsign⟩ := List.any_eq_true.1 (List.all_eq_true.1 hsign opti hopti)
  exact cut_eq_none_iff.2 fun hin => h c (hin.subset hc) (List.contains_iff_mem.1 hsign)

theorem ofText_no_sign {t : List Char} (h : Avoids ['<', '>', '='] t) :
    Condition.ofText overflow t = ⟨"", "", .unset, .unset, 0, ""⟩ := by
  have hcut := cut_opts_eq_none h
  simp only [opts, List.forall_mem_cons] at hcut
  simp only [Condition.ofText, opts, List.foldl_cons, List.foldl_nil, Condition.readOpt, hcut]

/-- A comparison is read as it was written if no sign occurs in the name and in the value. -/
theorem ofText_comparison {name value : List Char} {opt : Opt} (hopt : opt ≠ .unset)
    (hname : Avoids ['<', '>', '=', '!'] name) (hvalue : Avoids ['<', '>', '='] value) :
    Condition.ofText overflow (name ++ (opt.token ++ value)) = Condition.compared overflow name opt value := by
  have hcut := cut_opts_eq_none hvalue
  simp only [opts, List.forall_mem_cons] at hcut
  have hbehind : ∀ (d : Char) (token : List Char), d ∈ ['<', '>', '=', '!'] → ∀ s, cut (d :: token) (name ++ s) =
      (cut (d :: token) s).map fun parts => (name ++ parts.1, parts.2) := by
    intro d token hd s
    refine cut_append_left (List.cons_ne_nil d token) ?_ s
    rintro c hc heq
    cases heq
    exact hname d hc hd
  have hequal : ddbstr2int overflow ('=' :: value) = -1 := ddbstr2int_nondigit ⟨'=', List.mem_cons_self .., rfl⟩
  have hprefix : ¬ ['='] <+: value := fun hp => cut_eq_none_iff.1 hcut.1 hp.isInfix
  cases opt with
  | unset => exact absurd rfl hopt
  | ne =>
    by_cases hread : ddbstr2int overflow value = -1 <;>
      simp [Condition.ofText, opts, Condition.readOpt, Opt.token, hbehind, cut, hcut, hread, Condition.compared]
  | eq | lt | le | gt | ge =>
    simp [Condition.ofText, opts, Condition.readOpt, Opt.token, hbehind, cut, hcut, hequal, hprefix, Condition.compared]

/-- **A printed condition is read back**: its table, its column (which may have dots) and its operator, with a number
below `2 ^ 31` as an `int` and any other text with a character that is no digit as a `string`. -/
theorem ofText_printed {table attr value : List Char} {opt : Opt} (hopt : opt ≠ .unset)
    (htable : Avoids ['.', '<', '>', '=', '!'] table) (hattr : Avoids ['<', '>', '=', '!'] attr)
    (hvalue : Avoids ['<', '>', '='] value) :
    let c := Condition.ofText overflow (table ++ '.' :: attr ++ (opt.token ++ value))
    c.table = String.ofList table ∧ c.attr = String.ofList attr ∧ c.opt = opt ∧
      (value.all Char.isDigit = true → Nat.ofDigitChars 10 value 0 < 2 ^ 31 →
        c.type = .int ∧ c.ival = Nat.ofDigitChars 10 value 0) ∧
      ((∃ d ∈ value, d.isDigit = false) → c.type = .string ∧ c.sval = String.ofList value) := by
  intro c
  have hsigns : Avoids ['<', '>', '=', '!'] (table ++ '.' :: attr) := by
    refine (htable.fewer (List.sublist_cons_self ..)).append ?_
    intro d hd
    obtain rfl | hd := List.mem_cons.1 hd
    · decide
    · exact hattr d hd
  have hc : c = Condition.compared overflow (table ++ '.' :: attr) opt value :=
    ofText_comparison hopt hsigns hvalue
  have hsplit : splitColumn (table ++ '.' :: attr) = (table, attr) :=
    splitColumn_qualified (fun h => htable _ h (by decide)) attr
  rw [hc]
  refine ⟨by simp [Condition.compared, hsplit], by simp [Condition.compared, hsplit], rfl, ?_, ?_⟩
  · intro hdigits hsmall
    have hread : ddbstr2int overflow value = Nat.ofDigitChars 10 value 0 := by
      simp only [ddbstr2int, hdigits, if_true, intMax]
      omega
    have hne : ddbstr2int overflow value ≠ -1 := by omega
    exact ⟨if_neg hne, hread⟩
  · intro hdigit
    have hread : ddbstr2int overflow value = -1 := ddbstr2int_nondigit hdigit
    exact ⟨if_pos hread, if_pos hread⟩

theorem differentTitle_read_back :
    let c := Condition.ofText (fun _ => 0) "Book.title!=C++ 17".toList
    c.table = "Book" ∧ c.attr = "title" ∧ c.opt = .ne ∧ c.type = .string ∧ c.sval = "C++ 17" := by
  have hread := @ofText_printed (fun _ => 0) "Book".toList "title".toList "C++ 17".toList .ne (by decide) (by decide)
    (by decide) (by decide)
  have hstring := hread.2.2.2.2 ⟨'C', by decide, by decide⟩
  exact ⟨hread.1, hread.2.1, hread.2.2.1, hstring⟩

/-! ## The text of an assignment -/

/-- `table.col=value` -/
def assignment (table col value : List Char) : List Char := table ++ '.' :: col ++ '=' :: value

/-- A name of a table in which no token begins and no dot occurs. A `!` does no harm: a dot follows the name. -/
def PlainTable (name : List Char) : Prop := Avoids ['.', '<', '>', '='] name

/-- A name of a column in which no token begins, also not with the `=` behind the name. -/
def PlainColumn (name : List Char) : Prop := Avoids ['<', '>', '='] name ∧ name.getLast? ≠ some '!'

instance (name : List Char) : Decidable (PlainTable name) := inferInstanceAs (Decidable (Avoids _ _))
instance (name : List Char) : Decidable (PlainColumn name) := inferInstanceAs (Decidable (_ ∧ _))

variable {table col value : List Char}

theorem PlainTable.dot (h : PlainTable table) : '.' ∉ table := fun hmem => h _ hmem (by decide)

theorem avoids_qualified (ht : PlainTable table) (hc : PlainColumn col) : Avoids ['<', '>', '='] (table ++ '.' :: col) := by
  refine (ht.fewer (List.sublist_cons_self ..)).append fun d hd => ?_
  obtain rfl | hd := List.mem_cons.1 hd
  · decide
  · exact hc.1 d hd

theorem getLast?_qualified (hc : PlainColumn col) : (table ++ '.' :: col).getLast? ≠ some '!' := by
  rw [List.getLast?_append_of_ne_nil _ (List.cons_ne_nil _ _)]
  cases col with
  | nil => decide
  | cons d col =>
    rw [List.getLast?_cons_cons]
    exact hc.2

/-- Before the first `=` of a text no `!=` is found if that `=` has no `!` before it. -/
theorem cut_different {name : List Char} (hname : '=' ∉ name) (hlast : name.getLast? ≠ some '!') (value : List Char) :
    cut ['!', '='] (name ++ '=' :: value) =
      (cut ['!', '='] value).map fun parts => (name ++ '=' :: parts.1, parts.2) := by
  induction name with
  | nil => simp [cut]
  | cons d name ih =>
    have hrest : '=' ∉ name ∧ name.getLast? ≠ some '!' := by
      refine ⟨fun h => hname (List.mem_cons_of_mem d h), ?_⟩
      cases name with
      | nil => decide
      | cons e name => rwa [List.getLast?_cons_cons] at hlast
    have hhere : ¬ ['!', '='] <+: d :: (name ++ '=' :: value) := by
      intro h
      obtain ⟨rfl, h⟩ := List.cons_prefix_cons.1 h
      cases name with
      | nil => exact hlast rfl
      | cons e name =>
        have he : '=' = e := by simpa using h
        exact hrest.1 (he ▸ List.mem_cons_self)
    rw [List.cons_append, cut, if_neg hhere, ih hrest.1 hrest.2, Option.map_map]
    rfl

/-- A token that does not begin with `=` is found behind the qualified name and the `=` that follows it. -/
theorem cut_assignment (ht : PlainTable table) (hc : PlainColumn col) {opti : Opt × List Char}
    (hopti : opti ∈ opts.tail) (value : List Char) :
    cut opti.2 (assignment table col value) =
      (cut opti.2 value).map fun parts => (table ++ '.' :: (col ++ '=' :: parts.1), parts.2) := by
  have hsigns := avoids_qualified ht hc
  have hsign : ∀ (d : Char) (token : List Char), d ∈ ['<', '>'] → cut (d :: token) (assignment table col value) =
      (cut (d :: token) value).map fun parts => (table ++ '.' :: (col ++ '=' :: parts.1), parts.2) := by
    intro d token hd
    have hd' : d ∈ ['<', '>', '='] ∧ d ≠ '=' := by
      simp only [List.mem_cons, List.not_mem_nil, or_false] at hd
      obtain rfl | rfl := hd <;> decide
    have hpre : ∀ x ∈ table ++ '.' :: col ++ ['='], (d :: token).head? ≠ some x := by
      rintro x hx heq
      cases heq
      obtain hx | hx := List.mem_append.1 hx
      · exact hsigns d hx hd'.1
      · exact hd'.2 (List.mem_singleton.1 hx)
    have htext : assignment table col value = (table ++ '.' :: col ++ ['=']) ++ value := by simp [assignment]
    rw [htext, cut_append_left (List.cons_ne_nil d token) hpre]
    simp
  simp only [opts, List.tail_cons, List.mem_cons, List.not_mem_nil, or_false] at hopti
  obtain rfl | rfl | rfl | rfl | rfl := hopti
  · exact hsign '>' [] (by decide)
  · exact hsign '<' [] (by decide)
  · exact hsign '>' ['='] (by decide)
  · exact hsign '<' ['='] (by decide)
  · have hequal : '=' ∉ table ++ '.' :: col := fun h => hsigns _ h (by decide)
    rw [assignment, cut_different hequal (getLast?_qualified hc)]
    simp

/-- A later token changes nothing where the value does not have it, and otherwise puts the `=` into the name of the
column. -/
theorem readOpt_later (ht : PlainTable table) (hc : PlainColumn col) {opti : Opt × List Char}
    (hopti : opti ∈ opts.tail) (value : List Char) (c : Condition) :
    c.readOpt overflow (assignment table col value) opti =
      match cut opti.2 value with
      | none => c
      | some (before, rest) =>
        { table := String.ofList table
          attr := String.ofList (col ++ '=' :: before)
          opt := opti.1
          ival := ddbstr2int overflow rest
          type := if ddbstr2int overflow rest = -1 then .string else .int
          sval := if ddbstr2int overflow rest = -1 then String.ofList rest else c.sval } := by
  have hcut := cut_assignment ht hc hopti value
  cases hvalue : cut opti.2 value with
  | none =>
    rw [hvalue] at hcut
    simp only [Condition.readOpt, hcut, Option.map_none]
  | some parts =>
    rw [hvalue] at hcut
    simp only [Condition.readOpt, hcut, Option.map_some, splitColumn_qualified ht.dot]

/-- The assignment of a value to a column, as the first token reads it. -/
def Condition.assigned (overflow : List Char → Int) (table col value : List Char) : Condition where
  table := String.ofList table
  attr := String.ofList col
  opt := .eq
  ival := ddbstr2int overflow value
  type := if ddbstr2int overflow value = -1 then .string else .int
  sval := if ddbstr2int overflow value = -1 then String.ofList value else ""

theorem ofText_eq_foldl (ht : PlainTable table) (hc : PlainColumn col) (value : List Char) :
    Condition.ofText overflow (assignment table col value) =
      opts.tail.foldl (Condition.readOpt overflow (assignment table col value))
        (Condition.assigned overflow table col value) := by
  have hcut : cut ['='] (assignment table col value) = some (table ++ '.' :: col, value) :=
    cut_singleton fun h => avoids_qualified ht hc _ h (by decide)
  rw [Condition.ofText, opts, List.foldl_cons, List.tail_cons]
  congr 1
  simp only [Condition.readOpt, hcut, splitColumn_qualified ht.dot, Condition.assigned]

/-- Whatever the value, the condition is about the assigned column or about one with `=` in its name. -/
theorem ofText_column (ht : PlainTable table) (hc : PlainColumn col) (value : List Char) :
    (Condition.ofText overflow (assignment table col value)).table = String.ofList table ∧
      ((Condition.ofText overflow (assignment table col value)).attr = String.ofList col ∨
        '=' ∈ (Condition.ofText overflow (assignment table col value)).attr.toList) := by
  let Named (c : Condition) : Prop :=
    c.table = String.ofList table ∧ (c.attr = String.ofList col ∨ '=' ∈ c.attr.toList)
  have hloop : ∀ l ⊆ opts.tail, ∀ c, Named c →
      Named (l.foldl (Condition.readOpt overflow (assignment table col value)) c) := by
    intro l
    induction l with
    | nil => exact fun _ c h => h
    | cons opti l ih =>
      intro hl c hnamed
      refine ih (List.subset_of_cons_subset hl) _ ?_
      rw [readOpt_later ht hc (hl (List.mem_cons_self ..))]
      cases cut opti.2 value with
      | none => exact hnamed
      | some parts => exact ⟨rfl, .inr (by simp)⟩
  rw [ofText_eq_foldl ht hc]
  exact hloop opts.tail (List.Subset.refl _) _ ⟨rfl, .inl rfl⟩

/-- A value in which no comparison sign occurs is read as it was written. -/
theorem ofText_assignment (ht : PlainTable table) (hc : PlainColumn col) (hv : Avoids ['<', '>', '='] value) :
    Condition.ofText overflow (assignment table col value) = Condition.assigned overflow table col value := by
  have hround : ∀ c, ∀ opti ∈ opts.tail, Condition.readOpt overflow (assignment table col value) c opti = c := by
    intro c opti hopti
    rw [readOpt_later ht hc hopti, cut_opts_eq_none hv opti (List.mem_of_mem_tail hopti)]
  rw [ofText_eq_foldl ht hc, List.foldl_ext _ (fun c _ => c) _ hround, List.foldl_fixed]

end

end EasyDDB
