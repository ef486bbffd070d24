import EasyDDB.Catalog.Parse
import EasyDDB.Optimizer.Pruning
import EasyDDB.Optimizer.StrSplit

/-! # DELETE statements

`DeleteProcess` takes the table and the WHERE clause from the text of the statement by searching for `from` and
`where`, drops the blanks and the quotation marks, splits the rest at every `and` and reads the pieces as conditions.
A horizontal fragment gets the statement if `check_condition` leaves something for it. -/
namespace EasyDDB.Optimizer
open Condition Strings
set_option autoImplicit false

/-- The words at which the text of a statement is taken apart. -/
def fromWord : List Char := ['f', 'r', 'o', 'm']
def whereWord : List Char := ['w', 'h', 'e', 'r', 'e']
def andWord : List Char := ['a', 'n', 'd']

/-- `s.substr(s.find(pat) + pat.size() + 1)`: what is behind `pat` and one more character. If `pat` is not found,
`npos` plus the number added is the size of `pat`. The result is `none` where `substr` throws. -/
def substrBehind (pat s : List Char) : Option (List Char) :=
  match cut pat s with
  | some (_, rest) => if rest = [] then none else some rest.tail
  | none => if pat.length ≤ s.length then some (s.drop pat.length) else none

/-- The two loops that erase the blanks and the quotation marks of the clause. -/
def eraseMarks (whereClause : List Char) : List Char := (whereClause.filter (· ≠ ' ')).filter (· ≠ '\x27')

/-- The vector `Predicate` -/
def deletePredicate (overflow : List Char → Int) (whereClause : List Char) : List Condition :=
  (strSplit (eraseMarks whereClause) andWord).map (Condition.ofText overflow)

structure DeleteSql where
  query : List Char
  sites : List Int
deriving DecidableEq, Repr

/-- The loop over the fragments of a horizontally fragmented table. -/
def deleteHf (Predicate : List Condition) (frags : List Fragment) : Option (List Int) :=
  frags.foldlM (fun sites frag => do
    let out ← checkCondition frag.hfCondition Predicate
    if out.1 = [] then some sites else some (sites ++ [frag.site])) []

/-- `DeleteProcess`. The result is `none` for an empty text, where `substr` throws, where no table is found and where
`check_condition` reads an unset value. -/
def deleteProcess (overflow : List Char → Int) (Tables : List MetadataTable) (query : List Char) : Option DeleteSql :=
  if query = [] then none
  else do
    let query := query.dropLast
    let temp ← substrBehind fromWord query
    let tableName := beforeFirst [' '] temp
    let whereClause ← substrBehind whereWord temp
    let Predicate := deletePredicate overflow whereClause
    let res ← findTable Tables (String.ofList tableName)
    match res.type with
    | .hf =>
      let sites ← deleteHf Predicate res.frags
      some ⟨query, sites⟩
    | .vf => some ⟨query, res.frags.map Fragment.site⟩

/-! ## The text of a statement -/

/-- A name that is written without quotation marks. -/
structure Identifier (name : List Char) : Prop where
  ne_nil : name ≠ []
  chars : Avoids [' ', '\x27', '.', '<', '>', '=', '!'] name

/-- A comparison `T.attr op constant`, with the number of blanks before and behind the operator. -/
structure Comparison where
  attr : String
  opt : Opt
  const : Value
  left : Nat
  right : Nat
deriving DecidableEq, Repr

namespace Comparison
variable (c : Comparison) (table : String)

/-- The constant as it is written, a string between quotation marks. -/
def constText : List Char :=
  match c.const with
  | .int v => toText v
  | .str s => '\x27' :: (s.toList ++ ['\x27'])

/-- The qualified column. -/
def name : List Char := table.toList ++ '.' :: c.attr.toList

def text : List Char :=
  c.name table ++ (List.replicate c.left ' ' ++ (c.opt.token ++ (List.replicate c.right ' ' ++ c.constText)))

/-- The condition the comparison stands for. -/
def condition : Condition where
  table := table
  attr := c.attr
  opt := c.opt
  type := match c.const with | .int _ => .int | .str _ => .string
  ival := match c.const with | .int v => v | .str _ => -1
  sval := match c.const with | .int _ => "" | .str s => s

/-- `=,<,<=,>,>=` with an integer from 0 to `INF`, `=` with a string in which no sign and no quotation mark occurs. -/
structure WellFormed : Prop where
  attr : Identifier c.attr.toList
  const : match c.const with
    | .int v => c.opt ∈ [Opt.eq, .lt, .le, .gt, .ge] ∧ 0 ≤ v ∧ v ≤ INF
    | .str s => c.opt = .eq ∧ Avoids ['<', '>', '=', '\x27'] s.toList

/-- What is left of the constant without blanks and quotation marks. -/
def value : List Char := eraseMarks c.constText

/-- The text from which the comparison is read: of the name what is behind its last `and`, of the constant what is before
its first `and`. In front of the name stands `skipped`. -/
def readText (skipped : List Char) : List Char :=
  behindLast andWord (skipped ++ c.name table) ++ (c.opt.token ++ beforeFirst andWord c.value)

/-- The condition that is read from it. -/
def read (overflow : List Char → Int) (skipped : List Char) : Condition :=
  Condition.compared overflow (behindLast andWord (skipped ++ c.name table)) c.opt
    (beforeFirst andWord c.value)

end Comparison

/-- The text `c1 and c2 ... and cn` -/
def clauseText (table : String) (cs : List Comparison) : List Char :=
  (' ' :: (andWord ++ [' '])).intercalate (cs.map (Comparison.text · table))

/-- The text `delete from T where c1 and c2 ... and cn;` -/
def deleteText (table : String) (cs : List Comparison) : List Char :=
  "delete ".toList ++ fromWord ++
    ' ' :: (table.toList ++ ' ' :: (whereWord ++ ' ' :: clauseText table cs)) ++ [';']

/-- What the clause begins with if `where` occurs in the name of the table. -/
def skippedName (table : String) : List Char :=
  match cut whereWord table.toList with
  | none => []
  | some (_, rest) => rest.tail ++ whereWord

/-- The conditions that are read from the comparisons. -/
def readConditions (overflow : List Char → Int) (table : String) : List Comparison → List Condition
  | [] => []
  | c :: cs => c.read table overflow (skippedName table) :: cs.map fun d => d.read table overflow []

/-! ## The clause -/

section
variable {table : String} {cs : List Comparison} {c : Comparison}

theorem eraseMarks_append (s t : List Char) : eraseMarks (s ++ t) = eraseMarks s ++ eraseMarks t := by
  simp only [eraseMarks, List.filter_append]

theorem eraseMarks_eq_self {s : List Char} (h : Avoids [' ', '\x27'] s) : eraseMarks s = s := by
  have hd : ∀ d ∈ s, d ≠ ' ' ∧ d ≠ '\x27' := fun d hd => by simpa using h d hd
  unfold eraseMarks
  rw [List.filter_eq_self.mpr fun d hs => decide_eq_true (hd d hs).1]
  exact List.filter_eq_self.mpr fun d hs => decide_eq_true (hd d hs).2

theorem eraseMarks_blanks (n : Nat) : eraseMarks (List.replicate n ' ') = [] := by
  simp [eraseMarks]

theorem Identifier.erase {name : List Char} (h : Identifier name) : eraseMarks name = name :=
  eraseMarks_eq_self (h.chars.fewer (by decide))

/-- The clause of the comparisons without blanks and quotation marks. -/
def erasedText (table : String) (c : Comparison) : List Char := c.name table ++ (c.opt.token ++ c.value)

theorem eraseMarks_text (ht : Identifier table.toList) (hc : Identifier c.attr.toList) :
    eraseMarks (c.text table) = erasedText table c := by
  have htoken : eraseMarks c.opt.token = c.opt.token := by cases c.opt <;> decide
  have hname : eraseMarks (c.name table) = c.name table := by
    rw [Comparison.name, ← List.singleton_append, eraseMarks_append, eraseMarks_append, ht.erase, hc.erase]
    rfl
  simp only [Comparison.text, eraseMarks_append, eraseMarks_blanks, hname, htoken, List.nil_append, erasedText,
    Comparison.value]

theorem eraseMarks_clause (ht : Identifier table.toList) (hcs : ∀ c ∈ cs, Identifier c.attr.toList) :
    eraseMarks (clauseText table cs) = andWord.intercalate (cs.map (erasedText table)) := by
  unfold clauseText
  induction cs with
  | nil => rfl
  | cons c cs ih =>
    have hc := eraseMarks_text ht (hcs c (List.mem_cons_self ..))
    have hrest := ih fun d hd => hcs d (List.mem_cons_of_mem c hd)
    cases cs with
    | nil => simpa using hc
    | cons d cs =>
      simp only [List.map_cons, List.intercalate_cons_cons] at hrest ⊢
      rw [eraseMarks_append, eraseMarks_append, hc, hrest]
      rfl

/-- The clause that is split: where the name of the table has `where`, the rest of the name comes first. -/
theorem substrBehind_where (ht : Identifier table.toList) (clause : List Char) :
    ∃ w, substrBehind whereWord (table.toList ++ ' ' :: (whereWord ++ ' ' :: clause)) = some w ∧
      eraseMarks w = skippedName table ++ eraseMarks clause := by
  have hwhere : whereWord ≠ [] := by decide
  cases hcut : cut whereWord table.toList with
  | none =>
    have hfirst : cut whereWord (whereWord ++ ' ' :: clause) = some ([], ' ' :: clause) := by
      rw [← List.nil_append (whereWord ++ _), ← List.append_assoc]
      exact cut_append_pattern (by decide) (by decide) _
    have h := cut_append_cons (cut_eq_none_iff.mp hcut) (by decide : ' ' ∉ whereWord) hwhere
      (whereWord ++ ' ' :: clause)
    rw [hfirst, Option.map_some] at h
    refine ⟨clause, ?_, ?_⟩
    · simp only [substrBehind, h, List.tail_cons, reduceCtorEq, if_false]
    · simp only [skippedName, hcut, List.nil_append]
  | some parts =>
    obtain ⟨before, rest⟩ := parts
    have h := cut_append_right hcut (' ' :: (whereWord ++ ' ' :: clause))
    have hclause : eraseMarks (whereWord ++ ' ' :: clause) = whereWord ++ eraseMarks clause := by
      rw [eraseMarks_append]
      rfl
    refine ⟨(rest ++ ' ' :: (whereWord ++ ' ' :: clause)).tail, ?_, ?_⟩
    · rw [substrBehind, h]
      exact if_neg (by simp)
    · rw [skippedName, hcut, List.append_assoc, ← hclause]
      cases rest with
      | nil => rfl
      | cons d rest =>
        have hrest : Avoids [' ', '\x27'] rest := by
          refine (ht.chars.fewer (by decide)).subset fun e he => ?_
          rw [cut_eq_append hcut]
          exact List.mem_append_right _ (List.mem_cons_of_mem d he)
        rw [List.cons_append, List.tail_cons, List.tail_cons, eraseMarks_append, eraseMarks_eq_self hrest]
        rfl

/-! ## The signs of the clause -/

theorem Comparison.WellFormed.opt_ne (h : c.WellFormed) : c.opt ≠ .unset := by
  have hconst := h.const
  intro hopt
  cases hc : c.const with
  | int v =>
    rw [hc, hopt] at hconst
    exact absurd hconst.1 (by decide)
  | str s =>
    rw [hc, hopt] at hconst
    exact absurd hconst.1 (by decide)

theorem Comparison.value_int {v : Int} (hc : c.const = .int v) (hv : 0 ≤ v) : c.value = numeral v.toNat := by
  have htext : c.constText = numeral v.toNat := by
    have habs : v.natAbs = v.toNat := by omega
    rw [constText, hc]
    simp only [toText, if_neg (not_lt.mpr hv), habs]
  rw [value, htext]
  refine eraseMarks_eq_self fun d hd hbad => ?_
  have hdigit := isDigit_of_mem_numeral hd
  simp only [List.mem_cons, List.not_mem_nil, or_false] at hbad
  obtain rfl | rfl := hbad <;> exact absurd hdigit (by decide)

theorem Comparison.value_str {t : String} (hc : c.const = .str t) : c.value = eraseMarks t.toList := by
  rw [value, constText, hc]
  simp only
  rw [← List.singleton_append, eraseMarks_append, eraseMarks_append]
  have hquote : eraseMarks ['\x27'] = [] := by decide
  rw [hquote, List.nil_append, List.append_nil]

theorem Comparison.WellFormed.value_signs (h : c.WellFormed) : Avoids ['<', '>', '='] c.value := by
  have hconst := h.const
  cases hc : c.const with
  | int v =>
    rw [hc] at hconst
    rw [Comparison.value_int hc hconst.2.1]
    intro d hd hbad
    have hdigit := isDigit_of_mem_numeral hd
    simp only [List.mem_cons, List.not_mem_nil, or_false] at hbad
    obtain rfl | rfl | rfl := hbad <;> exact absurd hdigit (by decide)
  | str t =>
    rw [hc] at hconst
    rw [Comparison.value_str hc]
    refine (hconst.2.fewer (by decide)).subset fun d hd => ?_
    exact List.mem_of_mem_filter (List.mem_of_mem_filter hd)

theorem Identifier.signs {name : List Char} (h : Identifier name) : Avoids ['<', '>', '=', '!'] name :=
  h.chars.fewer (by decide)

theorem Comparison.name_signs (ht : Identifier table.toList) (hc : Identifier c.attr.toList) :
    Avoids ['<', '>', '=', '!'] (c.name table) := by
  have hdot : Avoids ['<', '>', '=', '!'] ['.'] := by decide
  exact ht.signs.append (hdot.append hc.signs)

theorem skippedName_signs (ht : Identifier table.toList) : Avoids ['<', '>', '=', '!'] (skippedName table) := by
  unfold skippedName
  cases hcut : cut whereWord table.toList with
  | none => exact .nil
  | some parts =>
    refine (ht.signs.subset fun d hd => ?_).append (by decide)
    rw [cut_eq_append hcut]
    exact List.mem_append_right _ (List.mem_of_mem_tail hd)

/-! ## The pieces of the clause -/

/-- The texts from which the comparisons are read. -/
def readTexts (table : String) (skipped : List Char) : List Comparison → List (List Char)
  | [] => []
  | c :: cs => c.readText table skipped :: cs.map fun d => d.readText table []

theorem mem_readTexts {skipped t : List Char} (h : t ∈ readTexts table skipped cs) :
    ∃ c ∈ cs, ∃ before, t = c.readText table before := by
  cases cs with
  | nil => exact absurd h List.not_mem_nil
  | cons c cs =>
    obtain rfl | h := List.mem_cons.mp h
    · exact ⟨c, List.mem_cons_self .., skipped, rfl⟩
    · obtain ⟨d, hd, rfl⟩ := List.mem_map.mp h
      exact ⟨d, List.mem_cons_of_mem c hd, [], rfl⟩

theorem token_ne_nil {opt : Opt} (hopt : opt ≠ .unset) : opt.token ≠ [] := by
  revert hopt
  cases opt <;> decide

theorem pieces_comparison (table : String) (hopt : c.opt ≠ .unset) (skipped : List Char) :
    ∃ ps qs, Pieces andWord (skipped ++ erasedText table c) (ps ++ c.readText table skipped :: qs) ∧
      (∀ p ∈ ps, p ⊆ skipped ++ c.name table) ∧ ∀ q ∈ qs, q ⊆ c.value := by
  have hand : andWord ≠ [] := by decide
  obtain ⟨l, hl⟩ := Pieces.exists_pieces hand (skipped ++ c.name table)
  obtain ⟨ps, p, rfl⟩ := (List.eq_nil_or_concat' l).resolve_left hl.ne_nil
  obtain ⟨l', hl'⟩ := Pieces.exists_pieces hand c.value
  obtain ⟨q, qs, rfl⟩ := List.exists_cons_of_ne_nil hl'.ne_nil
  have hletters : Avoids andWord c.opt.token := by cases c.opt <;> decide
  refine ⟨ps, qs, ?_, fun p hp => hl.subset p (List.mem_append_left _ hp),
    fun q hq => hl'.subset q (List.mem_cons_of_mem _ hq)⟩
  have hpieces := hl.append_list hl' (token_ne_nil hopt) hletters hand
  rw [hl.last_eq hand (by decide), hl'.head_eq] at hpieces
  rw [erasedText, ← List.append_assoc]
  exact hpieces

/-- The pieces of the clause are the texts from which the comparisons are read, and texts without a sign. -/
theorem pieces_clause (ht : Identifier table.toList) (hne : cs ≠ []) (hcs : ∀ c ∈ cs, c.WellFormed)
    {skipped : List Char} (hskip : Avoids ['<', '>', '=', '!'] skipped) :
    ∃ ps, Pieces andWord (skipped ++ andWord.intercalate (cs.map (erasedText table))) ps ∧
      (∀ p ∈ ps, p ∈ readTexts table skipped cs ∨ Avoids ['<', '>', '='] p) ∧
      ∀ t ∈ readTexts table skipped cs, t ∈ ps := by
  induction cs generalizing skipped with
  | nil => exact absurd rfl hne
  | cons c cs ih =>
    have hc := hcs c (List.mem_cons_self ..)
    obtain ⟨ps, qs, hpieces, hps, hqs⟩ := pieces_comparison table hc.opt_ne skipped
    have hname : Avoids ['<', '>', '='] (skipped ++ c.name table) :=
      (hskip.append (Comparison.name_signs ht hc.attr)).fewer (by decide)
    have hfree : ∀ p ∈ ps ++ c.readText table skipped :: qs,
        p = c.readText table skipped ∨ Avoids ['<', '>', '='] p := by
      intro p hp
      obtain hp | hp := List.mem_append.mp hp
      · exact .inr (hname.subset (hps p hp))
      · obtain rfl | hp := List.mem_cons.mp hp
        · exact .inl rfl
        · exact .inr (hc.value_signs.subset (hqs p hp))
    cases cs with
    | nil =>
      refine ⟨_, by simpa using hpieces, fun p hp => ?_, ?_⟩
      · simpa [readTexts] using hfree p hp
      · simp [readTexts]
    | cons d cs =>
      obtain ⟨rs, hrest, hrs, hmem⟩ := ih (List.cons_ne_nil d cs) (fun e he => hcs e (List.mem_cons_of_mem c he)) .nil
      have htail : readTexts table skipped (c :: d :: cs) = c.readText table skipped :: readTexts table [] (d :: cs) := rfl
      rw [htail]
      refine ⟨(ps ++ c.readText table skipped :: qs) ++ rs, ?_, ?_, ?_⟩
      · have hjoin := hpieces.append_pattern hrest (by decide) (by decide)
        simpa only [List.map_cons, List.intercalate_cons_cons, List.append_assoc, List.nil_append] using hjoin
      · intro p hp
        obtain hp | hp := List.mem_append.mp hp
        · exact (hfree p hp).imp_left fun heq => List.mem_cons.mpr (.inl heq)
        · exact (hrs p hp).imp_left (List.mem_cons_of_mem _)
      · intro t ht
        obtain rfl | ht := List.mem_cons.mp ht
        · simp
        · exact List.mem_append_right _ (hmem t ht)

/-! ## The conditions that are read -/

variable {overflow : List Char → Int}

theorem ofText_readText (ht : Identifier table.toList) (hc : c.WellFormed) {skipped : List Char}
    (hskip : Avoids ['<', '>', '=', '!'] skipped) :
    Condition.ofText overflow (c.readText table skipped) = c.read table overflow skipped :=
  ofText_comparison hc.opt_ne ((hskip.append (Comparison.name_signs ht hc.attr)).subset (behindLast_subset _ _))
    (hc.value_signs.subset (beforeFirst_subset _ _))

theorem ofText_readTexts (ht : Identifier table.toList) (hcs : ∀ c ∈ cs, c.WellFormed) :
    (readTexts table (skippedName table) cs).map (Condition.ofText overflow) = readConditions overflow table cs := by
  cases cs with
  | nil => rfl
  | cons c cs =>
    have hrest : (cs.map fun d => d.readText table []).map (Condition.ofText overflow) =
        cs.map fun d => d.read table overflow [] := by
      rw [List.map_map]
      refine List.map_congr_left fun d hd => ?_
      rw [Function.comp_apply, ofText_readText ht (hcs d (List.mem_cons_of_mem c hd)) .nil]
    rw [readTexts, readConditions, List.map_cons, hrest,
      ofText_readText ht (hcs c (List.mem_cons_self ..)) (skippedName_signs ht)]

/-- From the pieces with an operator the comparisons are read, from the others nothing. -/
theorem mem_deletePredicate (ht : Identifier table.toList) (hne : cs ≠ []) (hcs : ∀ c ∈ cs, c.WellFormed) {w : List Char}
    (hw : eraseMarks w = skippedName table ++ andWord.intercalate (cs.map (erasedText table))) :
    (∀ x ∈ deletePredicate overflow w, x ∈ readConditions overflow table cs ∨ x.table = "") ∧
      ∀ x ∈ readConditions overflow table cs, x ∈ deletePredicate overflow w := by
  obtain ⟨ps, hps, hread, hmem⟩ := pieces_clause ht hne hcs (skippedName_signs ht)
  obtain ⟨hsub, hsup⟩ := mem_strSplit (by decide) (hw ▸ hps)
  rw [← ofText_readTexts ht hcs, deletePredicate]
  constructor
  · intro x hx
    obtain ⟨t, ht, rfl⟩ := List.mem_map.mp hx
    obtain ht | hsign := hread t (hsub t ht)
    · exact .inl (List.mem_map_of_mem ht)
    · rw [ofText_no_sign hsign]
      exact .inr rfl
  · intro x hx
    obtain ⟨t, ht, rfl⟩ := List.mem_map.mp hx
    refine List.mem_map_of_mem (hsup t (hmem t ht) ?_)
    obtain ⟨c, hc, before, rfl⟩ := mem_readTexts ht
    simp [Comparison.readText, token_ne_nil (hcs c hc).opt_ne]

theorem mem_readConditions {x : Condition} (h : x ∈ readConditions overflow table cs) :
    ∃ c ∈ cs, ∃ skipped, (skipped = [] ∨ skipped = skippedName table) ∧ x = c.read table overflow skipped := by
  cases cs with
  | nil => exact absurd h List.not_mem_nil
  | cons c cs =>
    obtain rfl | h := List.mem_cons.mp h
    · exact ⟨c, List.mem_cons_self .., _, .inr rfl, rfl⟩
    · obtain ⟨d, hd, rfl⟩ := List.mem_map.mp h
      exact ⟨d, List.mem_cons_of_mem c hd, [], .inl rfl, rfl⟩

/-- No `and` is found in a numeral. -/
theorem Comparison.beforeFirst_value_int {v : Int} (hc : c.const = .int v) (hv : 0 ≤ v) :
    beforeFirst andWord c.value = numeral v.toNat := by
  rw [Comparison.value_int hc hv]
  refine beforeFirst_of_none fun hin => ?_
  have hdigit := isDigit_of_mem_numeral (hin.subset (by decide : 'a' ∈ andWord))
  exact absurd hdigit (by decide)

theorem Comparison.read_int {v : Int} (hc : c.const = .int v) (h : c.WellFormed) (skipped : List Char) :
    (c.read table overflow skipped).type = .int ∧ (c.read table overflow skipped).ival = v := by
  have hconst := h.const
  rw [hc] at hconst
  obtain ⟨-, hlo, hhi⟩ := hconst
  have hnum : ddbstr2int overflow (numeral v.toNat) = v := by
    rw [ddbstr2int_numeral (by simp only [INF, intMax] at *; omega)]
    omega
  simp only [Comparison.read, compared, Comparison.beforeFirst_value_int hc hlo, hnum, and_true]
  exact if_neg (by omega)

/-- The interval of a condition that is read has its bounds: only an integer constant is compared by `<` or `>`. -/
theorem Comparison.read_getSection_isSome (h : c.WellFormed) (skipped : List Char) :
    (c.read table overflow skipped).getSection.isSome := by
  have hconst := h.const
  have hopt : (c.read table overflow skipped).opt = c.opt := rfl
  cases hc : c.const with
  | str s =>
    rw [hc] at hconst
    simp [getSection, hopt, hconst.1]
  | int v =>
    rw [hc] at hconst
    have hplain : (c.read table overflow skipped).Plain := by
      obtain ⟨htype, hival⟩ := Comparison.read_int hc h skipped
      refine .inl ⟨htype, hconst.1, ?_⟩
      rw [hival]
      exact ⟨by simp only [INF]; omega, hconst.2.2⟩
    exact hplain.getSection_isSome

end

/-! ## The fragments that get the statement -/

/-- A DELETE on the horizontally fragmented table `T`, whose fragments store rows that satisfy their conditions. What is
read from the clause is compared with no condition that has no interval, except as a string. -/
structure DeleteInput (overflow : List Char → Int) (Tables : List MetadataTable) (T : MetadataTable)
    (cs : List Comparison) (db : Placement) : Prop where
  found : findTable Tables T.name = some T
  hf : T.type = .hf
  name : Identifier T.name.toList
  ne : cs ≠ []
  comparisons : ∀ c ∈ cs, c.WellFormed
  table_eq : ∀ F ∈ T.frags, ∀ y ∈ F.hfCondition, y.table = T.name
  compared : ∀ F ∈ T.frags, ∀ x ∈ readConditions overflow T.name cs, ∀ y ∈ F.hfCondition, x.sameColumn y = true →
    PairSet x y
  placed : ∀ F ∈ T.frags, ∀ r ∈ db F.fname, satisfiesAll F.hfCondition r = true

/-- Some condition of `xs` is about the table, and none contradicts a condition of the fragment. -/
def Survives (table : String) (xs : List Condition) (F : Fragment) : Prop :=
  (∃ x ∈ xs, x.table = table) ∧ ∀ x ∈ xs, ∀ y ∈ F.hfCondition, x.sameColumn y = true → clashes x y = false

instance (table : String) (xs : List Condition) (F : Fragment) : Decidable (Survives table xs F) :=
  inferInstanceAs (Decidable (_ ∧ _))

/-- Fragment `F` stores a row that satisfies all comparisons. -/
def HoldsMatch (T : MetadataTable) (cs : List Comparison) (db : Placement) (F : Fragment) : Prop :=
  ∃ r ∈ db F.fname, satisfiesAll (cs.map (Comparison.condition · T.name)) r = true

/-- The statement gets to the site of every fragment that stores a row to be deleted. -/
def DeleteReaches (overflow : List Char → Int) (Tables : List MetadataTable) (T : MetadataTable) (cs : List Comparison)
    (db : Placement) : Prop :=
  ∃ ans, deleteProcess overflow Tables (deleteText T.name cs) = some ans ∧
    ∀ F ∈ T.frags, HoldsMatch T cs db F → F.site ∈ ans.sites

section
variable {overflow : List Char → Int} {Tables : List MetadataTable} {T : MetadataTable} {cs : List Comparison}
  {db : Placement} (h : DeleteInput overflow Tables T cs db)
include h

theorem DeleteInput.keep_iff {w : List Char}
    (hw : eraseMarks w = skippedName T.name ++ andWord.intercalate (cs.map (erasedText T.name)))
    {F : Fragment} (hF : F ∈ T.frags) (hne : F.hfCondition ≠ []) :
    ∃ out, checkCondition F.hfCondition (deletePredicate overflow w) = some out ∧
      (out.1 = [] ↔ decide (Survives T.name (readConditions overflow T.name cs) F) = false) := by
  obtain ⟨hsub, hsup⟩ := mem_deletePredicate h.name h.ne h.comparisons hw
  have hown : OwnConditions T.name F.hfCondition := ⟨hne, h.table_eq F hF⟩
  have hempty : T.name ≠ "" := by
    intro hname
    exact h.name.ne_nil (by rw [hname]; rfl)
  have hread : ∀ x ∈ deletePredicate overflow w, x.table = T.name → x ∈ readConditions overflow T.name cs := by
    intro x hx htable
    exact (hsub x hx).resolve_right fun hnone => hempty (htable.symm.trans hnone)
  have hset : CheckSet F.hfCondition (deletePredicate overflow w) := by
    refine ⟨.inr hown.ne_nil, fun x hx y hy hsame => h.compared F hF x (hread x hx ?_) y hy hsame⟩
    exact (sameColumn_iff.mp hsame).1.trans (hown.table_eq y hy)
  obtain ⟨out, hout, hnil⟩ := checkCondition_empty_iff hown hset
  refine ⟨out, hout, ?_⟩
  rw [hnil, decide_eq_false_iff_not, contradicts_iff]
  constructor
  · rintro (⟨x, hx, y, hy, hsame, hclash⟩ | hother) ⟨⟨x', hx', htable⟩, hno⟩
    · have hx' := hread x hx ((sameColumn_iff.mp hsame).1.trans (hown.table_eq y hy))
      rw [hno x hx' y hy hsame] at hclash
      cases hclash
    · exact hother x' (hsup x' hx') htable
  · intro hnot
    by_contra hno
    obtain ⟨hcon, hother⟩ := not_or.mp hno
    refine hnot ⟨?_, fun x hx y hy hsame => ?_⟩
    · obtain ⟨x, hx, htable⟩ : ∃ x ∈ deletePredicate overflow w, x.table = T.name := by simpa using hother
      exact ⟨x, hread x hx htable, htable⟩
    · rw [← Bool.not_eq_true]
      exact fun hclash => hcon ⟨x, hsup x hx, y, hy, hsame, hclash⟩

theorem DeleteInput.deleteProcess_eq :
    ∃ w, eraseMarks w = skippedName T.name ++ andWord.intercalate (cs.map (erasedText T.name)) ∧
      deleteProcess overflow Tables (deleteText T.name cs) =
        (deleteHf (deletePredicate overflow w) T.frags).map (DeleteSql.mk (deleteText T.name cs).dropLast) := by
  obtain ⟨temp, htemp⟩ : ∃ temp, T.name.toList ++ ' ' :: (whereWord ++ ' ' :: clauseText T.name cs) = temp := ⟨_, rfl⟩
  obtain ⟨query, hquery⟩ : ∃ query, "delete ".toList ++ fromWord ++ ' ' :: temp = query := ⟨_, rfl⟩
  have htext : deleteText T.name cs = query ++ [';'] := by
    rw [← hquery, ← htemp]
    rfl
  have hfrom : substrBehind fromWord query = some temp := by
    have hcut : cut fromWord query = some ("delete ".toList, ' ' :: temp) := by
      rw [← hquery]
      exact cut_append_pattern (by decide) (by decide) (' ' :: temp)
    rw [substrBehind, hcut]
    rfl
  have hname : beforeFirst [' '] temp = T.name.toList := by
    have hblank : ' ' ∉ T.name.toList := fun hb => h.name.chars ' ' hb (List.mem_cons_self ..)
    rw [← htemp, beforeFirst, cut_singleton hblank]
    rfl
  obtain ⟨w, hw, herase⟩ := substrBehind_where h.name (clauseText T.name cs)
  rw [htemp] at hw
  rw [eraseMarks_clause h.name fun c hc => (h.comparisons c hc).attr] at herase
  refine ⟨w, herase, ?_⟩
  rw [deleteProcess, htext, if_neg (by simp), List.dropLast_concat]
  simp only [hfrom, hname, hw, String.ofList_toList, Option.bind_eq_bind, Option.bind_some, h.found, h.hf,
    Option.map_eq_bind, Function.comp_def]

/-- For a fragment without conditions `hf_condition[0]` is read behind the end. -/
theorem DeleteInput.undefined_of_nil {F : Fragment} (hF : F ∈ T.frags)
    (hnil : F.hfCondition = []) : deleteProcess overflow Tables (deleteText T.name cs) = none := by
  obtain ⟨w, hw, hrun⟩ := h.deleteProcess_eq
  have hsup : ∀ x ∈ readConditions overflow T.name cs, x ∈ deletePredicate overflow w :=
    (mem_deletePredicate h.name h.ne h.comparisons hw).2
  have hcheck : checkCondition [] (deletePredicate overflow w) = none := by
    obtain ⟨c, cs', hcs⟩ := List.exists_cons_of_ne_nil h.ne
    rw [hcs] at hsup
    obtain ⟨x, xs, hx⟩ := List.exists_cons_of_ne_nil (List.ne_nil_of_mem (hsup _ (List.mem_cons_self ..)))
    rw [hx]
    rfl
  have hloop : deleteHf (deletePredicate overflow w) T.frags = none := by
    refine Loops.stuck hF (fun sites => ?_) []
    rw [hnil, hcheck]
    rfl
  rw [hrun, hloop, Option.map_none]

/-- Exactly the fragments that share their site with a kept one are reached. -/
theorem DeleteInput.reaches_iff :
    DeleteReaches overflow Tables T cs db ↔ (∀ F ∈ T.frags, F.hfCondition ≠ []) ∧ ∀ F ∈ T.frags, HoldsMatch T cs db F →
      ∃ G ∈ T.frags, G.site = F.site ∧ Survives T.name (readConditions overflow T.name cs) G := by
  by_cases hne : ∀ F ∈ T.frags, F.hfCondition ≠ []
  · obtain ⟨w, hw, hrun⟩ := h.deleteProcess_eq
    have hsites : deleteHf (deletePredicate overflow w) T.frags = some _ :=
      collect_checked fun F hF => h.keep_iff hw hF (hne F hF)
    unfold DeleteReaches
    rw [hrun, hsites, Option.map_some, and_iff_right hne]
    simp only [Option.some.injEq, exists_eq_left', List.mem_map, List.mem_filter, decide_eq_true_eq]
    refine forall₂_congr fun F hF => imp_congr_right fun _ => exists_congr fun G => ?_
    rw [and_comm (a := G.site = F.site), and_assoc]
  · refine iff_of_false ?_ fun hcond => hne hcond.1
    rintro ⟨ans, hans, -⟩
    apply hne
    intro F hF hnil
    rw [h.undefined_of_nil hF hnil] at hans
    cases hans

end

/-! ## Texts that are read as they were written -/

/-- `where` does not occur in the name of the table, `and` in no name and no string; the strings have no blank and some
character that is no digit; every fragment has conditions, and no comparison is misread with one on its column. -/
structure PlainDelete (T : MetadataTable) (cs : List Comparison) : Prop where
  conditions : ∀ F ∈ T.frags, F.hfCondition ≠ []
  table : ¬ whereWord <:+: T.name.toList
  names : ∀ c ∈ cs, ¬ andWord <:+: c.name T.name
  strings : ∀ c ∈ cs, ∀ s, c.const = .str s →
    (∃ d ∈ s.toList, d.isDigit = false) ∧ ' ' ∉ s.toList ∧ ¬ andWord <:+: s.toList
  intervals : ∀ c ∈ cs, ∀ F ∈ T.frags, ∀ y ∈ F.hfCondition, (c.condition T.name).sameColumn y = true →
    misread (c.condition T.name) y = false

theorem clashes_congr {x x' : Condition} (ht : x.type = x'.type) (ho : x.opt = x'.opt) (hi : x.ival = x'.ival)
    (hs : x.type = .string → x.sval = x'.sval) (y : Condition) :
    clashes x y = clashes x' y ∧ (PairSet x y ↔ PairSet x' y) := by
  have hsec : x.getSection = x'.getSection := by rw [getSection, getSection, ho, hi]
  refine ⟨?_, by rw [PairSet, PairSet, ht, hsec]⟩
  unfold clashes
  by_cases hstr : x.type = .string
  · rw [if_pos hstr, if_pos (ht ▸ hstr), hs hstr]
  · rw [if_neg hstr, if_neg (ht ▸ hstr), hsec]

theorem Identifier.dot {name : List Char} (h : Identifier name) : '.' ∉ name :=
  fun hdot => h.chars _ hdot (by decide)

theorem Comparison.WellFormed.condition_plain {c : Comparison} (h : c.WellFormed) (table : String) :
    (c.condition table).Plain := by
  have hconst := h.const
  cases hc : c.const with
  | int v =>
    rw [hc] at hconst
    refine .inl ⟨by simp [Comparison.condition, hc], hconst.1, ?_⟩
    simp only [Comparison.condition, hc, InRange, INF] at hconst ⊢
    omega
  | str s =>
    rw [hc] at hconst
    exact .inr ⟨by simp [Comparison.condition, hc], hconst.1⟩

section
variable {overflow : List Char → Int} {T : MetadataTable} {cs : List Comparison} {c : Comparison}
  (h : PlainDelete T cs) (hc : c ∈ cs)
include h hc

theorem PlainDelete.read_column (hT : Identifier T.name.toList) : (c.read T.name overflow []).table = T.name ∧
    (c.read T.name overflow []).attr = c.attr := by
  have hname : behindLast andWord ([] ++ c.name T.name) = T.name.toList ++ '.' :: c.attr.toList := by
    rw [List.nil_append]
    exact behindLast_of_none (h.names c hc)
  simp only [Comparison.read, compared, hname, splitColumn_qualified hT.dot, String.ofList_toList, and_self]

theorem PlainDelete.read_clashes (hwf : c.WellFormed) (y : Condition) :
    clashes (c.read T.name overflow []) y = clashes (c.condition T.name) y ∧
      (PairSet (c.read T.name overflow []) y ↔ PairSet (c.condition T.name) y) := by
  have hopt : (c.read T.name overflow []).opt = (c.condition T.name).opt := rfl
  cases hconst : c.const with
  | int v =>
    obtain ⟨htype, hival⟩ : (c.read T.name overflow []).type = .int ∧ (c.read T.name overflow []).ival = v :=
      Comparison.read_int hconst hwf []
    refine clashes_congr ?_ hopt ?_ ?_ y
    · rw [htype, Comparison.condition, hconst]
    · rw [hival, Comparison.condition, hconst]
    · intro hstr
      rw [htype] at hstr
      cases hstr
  | str s =>
    obtain ⟨hdigit, hblank, hand⟩ := h.strings c hc s hconst
    have hquote := hwf.const
    rw [hconst] at hquote
    have hvalue : beforeFirst andWord c.value = s.toList := by
      have herase : eraseMarks s.toList = s.toList := by
        refine eraseMarks_eq_self fun d hd hbad => ?_
        simp only [List.mem_cons, List.not_mem_nil, or_false] at hbad
        obtain rfl | rfl := hbad
        · exact hblank hd
        · exact hquote.2 _ hd (by decide)
      rw [Comparison.value_str hconst, herase]
      exact beforeFirst_of_none hand
    have hread : ddbstr2int overflow s.toList = -1 := ddbstr2int_nondigit hdigit
    refine clashes_congr ?_ hopt ?_ ?_ y <;>
      simp [Comparison.read, compared, hvalue, hread, Comparison.condition, hconst]

end

theorem PlainDelete.survives {overflow : List Char → Int} {Tables : List MetadataTable} {T : MetadataTable}
    {cs : List Comparison} {db : Placement} (h : DeleteInput overflow Tables T cs db) (hplain : PlainDelete T cs)
    {F : Fragment} (hF : F ∈ T.frags) (hmatch : HoldsMatch T cs db F) : Survives T.name (readConditions overflow T.name cs) F := by
  have hskip : skippedName T.name = [] := by rw [skippedName, cut_eq_none_iff.mpr hplain.table]
  constructor
  · obtain ⟨c, cs, rfl⟩ := List.exists_cons_of_ne_nil h.ne
    refine ⟨_, List.mem_cons_self .., ?_⟩
    rw [hskip]
    exact (hplain.read_column (List.mem_cons_self ..) h.name).1
  · intro x hread y hy hsame
    obtain ⟨c, hc, skipped, hskipped, rfl⟩ := mem_readConditions hread
    rw [hskip, or_self] at hskipped
    subst hskipped
    obtain ⟨htable, hattr⟩ : (c.read T.name overflow []).table = T.name ∧ (c.read T.name overflow []).attr = c.attr :=
      hplain.read_column hc h.name
    have hsame' : (c.condition T.name).sameColumn y = true := by
      rw [sameColumn_iff] at hsame ⊢
      rw [htable, hattr] at hsame
      exact hsame
    obtain ⟨r, hr, hsat⟩ := hmatch
    have hrx := (satisfiesAll_iff _ _).mp hsat _ (List.mem_map_of_mem hc)
    have hry := (satisfiesAll_iff _ _).mp (h.placed F hF r hr) y hy
    have hx := (h.comparisons c hc).condition_plain T.name
    obtain ⟨hclashes, hpair⟩ := hplain.read_clashes hc (h.comparisons c hc) y
    have hset := hpair.mp (h.compared F hF _ hread y hy hsame)
    rw [hclashes, ← Bool.not_eq_true,
      clashes_iff_misread hsame' hx hset hrx hry, Bool.not_eq_true]
    exact hplain.intervals c hc F hF y hy hsame'

/-- **A DELETE gets to the fragments with a matching row exactly when** every fragment has conditions and each of those
with a matching row shares its site with one that the conditions read from the text keep. This is so for every text that
is read as it was written. -/
theorem delete_reaches_iff (overflow : List Char → Int) (Tables : List MetadataTable) (T : MetadataTable)
    (cs : List Comparison) (db : Placement) (h : DeleteInput overflow Tables T cs db) :
    (DeleteReaches overflow Tables T cs db ↔ (∀ F ∈ T.frags, F.hfCondition ≠ []) ∧
      ∀ F ∈ T.frags, HoldsMatch T cs db F →
        ∃ G ∈ T.frags, G.site = F.site ∧ Survives T.name (readConditions overflow T.name cs) G) ∧
    (PlainDelete T cs → DeleteReaches overflow Tables T cs db) := by
  refine ⟨h.reaches_iff, fun hplain => h.reaches_iff.mpr ⟨hplain.conditions, ?_⟩⟩
  intro F hF hmatch
  exact ⟨F, hF, rfl, hplain.survives h hF hmatch⟩

/-- `Book.id < 205000` -/
def lowIds : Comparison := ⟨"id", .lt, .int 205000, 1, 1⟩

/-- `Book.title='B'` -/
def titledB : Comparison := ⟨"title", .eq, .str "B", 0, 0⟩

/-- The book of the first fragment is reached. -/
theorem lowIds_reached :
    deleteText book.name [lowIds, titledB] = "delete from Book where Book.id < 205000 and Book.title='B';".toList ∧
      (∃ F ∈ book.frags, HoldsMatch book [lowIds, titledB] onePublisher F) ∧
      DeleteReaches (fun _ => 0) getMetadata book [lowIds, titledB] onePublisher := by
  have hmatch : ∃ F ∈ book.frags, ∃ r ∈ onePublisher F.fname,
      satisfiesAll ([lowIds, titledB].map (Comparison.condition · book.name)) r = true := by decide
  have hlow : lowIds.WellFormed := ⟨⟨by decide, by decide⟩, by decide, by decide, by decide⟩
  have htitle : titledB.WellFormed := ⟨⟨by decide, by decide⟩, by decide, by decide⟩
  have hinput : DeleteInput (fun _ => 0) getMetadata book [lowIds, titledB] onePublisher :=
    ⟨rfl, rfl, ⟨by decide, by decide⟩, by decide, by simpa using ⟨hlow, htitle⟩, by decide, by decide, by decide⟩
  have hplain : PlainDelete book [lowIds, titledB] := by
    refine ⟨by decide, by decide, by decide, ?_, by decide⟩
    rintro c hc s hs
    simp only [List.mem_cons, List.not_mem_nil, or_false] at hc
    obtain rfl | rfl := hc
    · cases hs
    · cases hs
      exact ⟨⟨'B', by decide, by decide⟩, by decide, by decide⟩
  exact ⟨by decide, hmatch, (delete_reaches_iff _ _ _ _ _ hinput).2 hplain⟩

/-- Cities by nation. -/
def city : MetadataTable where
  name := "City"
  type := .hf
  keyColumn := "id"
  attrs := ["City.id", "City.nation"]
  frags :=
    [hfFragment "City" 1 1 [condEqStr "City" "nation" "Poland"], hfFragment "City" 2 1 [condEqStr "City" "nation" "Spain"]]

/-- `City.nation='Poland'` -/
def inPoland : Comparison := ⟨"nation", .eq, .str "Poland", 0, 0⟩

/-- One city in the fragment for Poland. -/
def oneCity : Placement := fun f =>
  if f = ⟨"City", 1⟩ then [Row.ofList [("City.id", .int 1), ("City.nation", .str "Poland")]] else []

/-- The clause is split within the string, the condition read from it is `City.nation=Pol`, and the fragment with the
row is passed over. -/
theorem inPoland_not_reached :
    deleteText city.name [inPoland] = "delete from City where City.nation='Poland';".toList ∧
      (∀ overflow, DeleteInput overflow [city] city [inPoland] oneCity) ∧
      (∃ F ∈ city.frags, HoldsMatch city [inPoland] oneCity F) ∧
      ∀ overflow, (∃ ans, deleteProcess overflow [city] (deleteText city.name [inPoland]) = some ans ∧ ans.sites = []) ∧
        ¬ DeleteReaches overflow [city] city [inPoland] oneCity := by
  have hmatch : ∃ F ∈ city.frags, ∃ r ∈ oneCity F.fname,
      satisfiesAll ([inPoland].map (Comparison.condition · city.name)) r = true := by decide
  have hwf : inPoland.WellFormed := ⟨⟨by decide, by decide⟩, by decide, by decide⟩
  have hinput : ∀ overflow, DeleteInput overflow [city] city [inPoland] oneCity := by
    refine fun overflow => ⟨rfl, rfl, ⟨by decide, by decide⟩, by decide, by simpa using hwf, by decide, ?_, by decide⟩
    intro F _ x hx y _ _
    rw [List.mem_singleton.mp hx]
    exact .inl rfl
  refine ⟨by decide, hinput, hmatch, fun overflow => ?_⟩
  have hrun : ∃ ans, deleteProcess overflow [city] (deleteText city.name [inPoland]) = some ans ∧ ans.sites = [] :=
    ⟨_, rfl, rfl⟩
  refine ⟨hrun, ?_⟩
  rintro ⟨ans, hans, hall⟩
  obtain ⟨ans', hans', hsites⟩ := hrun
  obtain ⟨F, hF, hholds⟩ := hmatch
  have hmem := hall F hF hholds
  rw [Option.some.inj (hans.symm.trans hans'), hsites] at hmem
  exact absurd hmem List.not_mem_nil

end EasyDDB.Optimizer
