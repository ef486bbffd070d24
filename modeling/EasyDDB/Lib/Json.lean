import Mathlib.Data.List.Basic

/-! # JSON texts

Values made of `null`, strings, arrays and objects, a compact printer, and a reader that skips white space before
each token and stops behind the value.  In strings the quote and the backslash are escaped.  Of several members
with one name the last one counts. -/
namespace EasyDDB
set_option autoImplicit false

mutual
inductive Json where
  | null
  | str (s : List Char)
  | arr (items : Items)
  | obj (members : Members)

inductive Items where
  | nil
  | cons (v : Json) (rest : Items)

inductive Members where
  | nil
  | cons (name : List Char) (v : Json) (rest : Members)
end

namespace Json

def Members.get? (name : List Char) : Members → Option Json
  | .nil => none
  | .cons n v rest => (Members.get? name rest).or (if n = name then some v else none)

/-- The member of an object, `null` where there is none. -/
def get (name : List Char) : Json → Json
  | .obj members => (Members.get? name members).getD .null
  | _ => .null

/-! ## Printing -/

def escape (s : List Char) : List Char :=
  s.flatMap fun c => if c = '"' ∨ c = '\\' then ['\\', c] else [c]

def quoted (s : List Char) : List Char := '"' :: (escape s ++ ['"'])

mutual
def print : Json → List Char
  | .null => "null".toList
  | .str s => quoted s
  | .arr items => '[' :: (printItems items ++ [']'])
  | .obj members => '\x7b' :: (printMembers members ++ ['\x7d'])

def printItems : Items → List Char
  | .nil => []
  | .cons v .nil => print v
  | .cons v (.cons w rest) => print v ++ ',' :: printItems (.cons w rest)

def printMembers : Members → List Char
  | .nil => []
  | .cons name v .nil => quoted name ++ ':' :: print v
  | .cons name v (.cons name' w rest) =>
    quoted name ++ ':' :: (print v ++ ',' :: printMembers (.cons name' w rest))
end

/-- One more member in front adds its own text and at most a comma. -/
theorem length_printMembers_cons (name : List Char) (v : Json) (rest : Members) :
    (printMembers (.cons name v rest)).length ≤
      (quoted name).length + (print v).length + (printMembers rest).length + 2 := by
  cases rest with
  | nil =>
    simp only [printMembers, List.length_append, List.length_cons]
    omega
  | cons name' w rest =>
    simp only [printMembers, List.length_append, List.length_cons]
    omega

theorem mem_printMembers_cons {name : List Char} {v : Json} {rest : Members} {c : Char}
    (h : c ∈ printMembers (.cons name v rest)) :
    c ∈ quoted name ∨ c ∈ print v ∨ c ∈ printMembers rest ∨ c = ':' ∨ c = ',' := by
  cases rest with
  | nil =>
    simp only [printMembers, List.mem_append, List.mem_cons] at h
    tauto
  | cons name' w rest =>
    rw [printMembers, List.mem_append, List.mem_cons, List.mem_append, List.mem_cons] at h
    tauto

/-! ## Reading -/

def skip (t : List Char) : List Char := t.dropWhile fun c => c = ' ' || c = '\n' || c = '\t' || c = '\r'

/-- The string that ends at the next quote. -/
def readString : List Char → Option (List Char × List Char)
  | [] => none
  | '"' :: rest => some ([], rest)
  | '\\' :: c :: rest =>
    if c = '"' ∨ c = '\\' ∨ c = '/' then (readString rest).map fun r => (c :: r.1, r.2) else none
  | c :: rest => (readString rest).map fun r => (c :: r.1, r.2)

mutual
def readValue : Nat → List Char → Option (Json × List Char)
  | 0, _ => none
  | fuel + 1, t =>
    match skip t with
    | 'n' :: 'u' :: 'l' :: 'l' :: rest => some (.null, rest)
    | '"' :: rest => (readString rest).map fun r => (.str r.1, r.2)
    | '[' :: rest =>
      match skip rest with
      | ']' :: rest => some (.arr .nil, rest)
      | rest => (readItems fuel rest).map fun r => (.arr r.1, r.2)
    | '\x7b' :: rest =>
      match skip rest with
      | '\x7d' :: rest => some (.obj .nil, rest)
      | rest => (readMembers fuel rest).map fun r => (.obj r.1, r.2)
    | _ => none

/-- The items up to the closing bracket. -/
def readItems : Nat → List Char → Option (Items × List Char)
  | 0, _ => none
  | fuel + 1, t => do
    let (v, t) ← readValue fuel t
    match skip t with
    | ',' :: t => (readItems fuel t).map fun r => (.cons v r.1, r.2)
    | ']' :: t => some (.cons v .nil, t)
    | _ => none

/-- The members up to the closing brace. -/
def readMembers : Nat → List Char → Option (Members × List Char)
  | 0, _ => none
  | fuel + 1, t =>
    match skip t with
    | '"' :: t => do
      let (name, t) ← readString t
      match skip t with
      | ':' :: t =>
        let (v, t) ← readValue fuel t
        match skip t with
        | ',' :: t => (readMembers fuel t).map fun r => (.cons name v r.1, r.2)
        | '\x7d' :: t => some (.cons name v .nil, t)
        | _ => none
      | _ => none
    | _ => none
end

/-- The value a text begins with; what follows it is not looked at. -/
def parse (t : List Char) : Option Json := (readValue (2 * t.length) t).map Prod.fst

/-! ## Reading what was printed -/

theorem readString_escape (s rest : List Char) : readString (escape s ++ '"' :: rest) = some (s, rest) := by
  induction s with
  | nil => simp [escape, readString]
  | cons c s ih =>
    have hstep : escape (c :: s) = (if c = '"' ∨ c = '\\' then ['\\', c] else [c]) ++ escape s := rfl
    rw [hstep]
    split_ifs with hc
    · have hok : c = '"' ∨ c = '\\' ∨ c = '/' := by tauto
      simp only [List.cons_append, List.nil_append, readString, hok, if_true, ih, Option.map_some]
    · obtain ⟨hquote, hback⟩ := not_or.1 hc
      simp only [List.cons_append, List.nil_append]
      rw [readString.eq_def]
      split <;> simp_all

theorem skip_cons {c : Char} (h : c ∉ [' ', '\n', '\t', '\r']) (t : List Char) : skip (c :: t) = c :: t := by
  simp only [List.mem_cons, List.not_mem_nil, or_false, not_or] at h
  simp [skip, h]

theorem skip_quote (t : List Char) : skip ('"' :: t) = '"' :: t := skip_cons (by decide) t

theorem skip_comma (t : List Char) : skip (',' :: t) = ',' :: t := skip_cons (by decide) t

theorem skip_colon (t : List Char) : skip (':' :: t) = ':' :: t := skip_cons (by decide) t

theorem readValue_space (fuel : Nat) (t : List Char) : readValue fuel (' ' :: t) = readValue fuel t := by
  cases fuel with
  | zero => rfl
  | succ fuel => rw [readValue, readValue]; rfl

theorem readMembers_space (fuel : Nat) (t : List Char) : readMembers fuel (' ' :: t) = readMembers fuel t := by
  cases fuel with
  | zero => rfl
  | succ fuel => rw [readMembers, readMembers]; rfl

theorem escape_plain {s : List Char} (h : ∀ c ∈ s, c ≠ '"' ∧ c ≠ '\\') : escape s = s := by
  have hone : ∀ c ∈ s, (if c = '"' ∨ c = '\\' then ['\\', c] else [c]) = [c] := by
    intro c hc
    rw [if_neg (not_or.2 (h c hc))]
  rw [escape, List.flatMap_congr hone, List.flatMap_singleton']

/-- A printed value begins with one of four characters, none of them white space or a closing bracket. -/
theorem print_head (v : Json) : ∃ c t, print v = c :: t ∧ c ∈ ['n', '"', '[', '\x7b'] := by
  cases v with
  | null => exact ⟨'n', "ull".toList, by rw [print]; rfl, by decide⟩
  | str s => exact ⟨_, _, by rw [print, quoted], by decide⟩
  | arr items => exact ⟨_, _, by rw [print], by decide⟩
  | obj members => exact ⟨_, _, by rw [print], by decide⟩

theorem head_cases {c : Char} (h : c ∈ ['n', '"', '[', '\x7b']) : c ∉ [' ', '\n', '\t', '\r'] ∧ c ≠ ']' := by
  simp only [List.mem_cons, List.not_mem_nil, or_false] at h
  obtain rfl | rfl | rfl | rfl := h <;> decide

theorem readValue_arr {fuel : Nat} {c : Char} {t : List Char} (hc : c ∈ ['n', '"', '[', '\x7b']) :
    readValue (fuel + 1) ('[' :: c :: t) = (readItems fuel (c :: t)).map fun r => (.arr r.1, r.2) := by
  obtain ⟨hspace, hclose⟩ := head_cases hc
  rw [readValue, skip_cons (by decide)]
  simp only [skip_cons hspace]
  split
  · rename_i heq
    cases heq
    exact absurd rfl hclose
  · rfl

theorem readValue_obj {fuel : Nat} {t : List Char} :
    readValue (fuel + 1) ('\x7b' :: '"' :: t) = (readMembers fuel ('"' :: t)).map fun r => (.obj r.1, r.2) := by
  rw [readValue, skip_cons (by decide)]
  simp only [skip_quote]
  rfl

/-- The three readers give back what was printed, on fuel that the length of the text bounds. -/
def ReadsValues (fuel : Nat) : Prop :=
  ∀ v rest, 2 * (print v).length ≤ fuel → readValue fuel (print v ++ rest) = some (v, rest)

def ReadsItems (fuel : Nat) : Prop :=
  ∀ v items rest, 2 * (printItems (.cons v items)).length < fuel →
    readItems fuel (printItems (.cons v items) ++ ']' :: rest) = some (.cons v items, rest)

def ReadsMembers (fuel : Nat) : Prop :=
  ∀ name v members rest, 2 * (printMembers (.cons name v members)).length < fuel →
    readMembers fuel (printMembers (.cons name v members) ++ '\x7d' :: rest) = some (.cons name v members, rest)

theorem printItems_head (v : Json) (items : Items) :
    ∃ c t, printItems (.cons v items) = c :: t ∧ c ∈ ['n', '"', '[', '\x7b'] := by
  obtain ⟨c, t, ht, hc⟩ := print_head v
  cases items with
  | nil => exact ⟨c, t, by rw [printItems, ht], hc⟩
  | cons w items => exact ⟨c, _, by rw [printItems, ht, List.cons_append], hc⟩

theorem printMembers_head (name : List Char) (v : Json) (members : Members) :
    ∃ t, printMembers (.cons name v members) = '"' :: t := by
  cases members with
  | nil => exact ⟨_, by rw [printMembers, quoted, List.cons_append]⟩
  | cons name' w members => exact ⟨_, by rw [printMembers, quoted, List.cons_append]⟩

theorem readsValues_succ {fuel : Nat} (hitems : ReadsItems fuel) (hmembers : ReadsMembers fuel) :
    ReadsValues (fuel + 1) := by
  intro v rest h
  cases v with
  | null => rw [readValue, print]; rfl
  | str s =>
    simp only [print, quoted, List.cons_append, List.append_assoc, List.nil_append]
    rw [readValue, skip_cons (by decide)]
    simp only [readString_escape, Option.map_some]
  | arr items =>
    cases items with
    | nil => rw [readValue, print]; rfl
    | cons v items =>
      rw [print, List.length_cons, List.length_append] at h
      have hread := hitems v items rest (by omega)
      obtain ⟨c, t, ht, hc⟩ := printItems_head v items
      rw [ht] at hread
      rw [print, ht, List.cons_append, List.append_assoc, List.cons_append, readValue_arr hc,
        ← List.cons_append, List.singleton_append, hread, Option.map_some]
  | obj members =>
    cases members with
    | nil => rw [readValue, print]; rfl
    | cons name v members =>
      rw [print, List.length_cons, List.length_append] at h
      have hread := hmembers name v members rest (by omega)
      obtain ⟨t, ht⟩ := printMembers_head name v members
      rw [ht] at hread
      rw [print, ht, List.cons_append, List.append_assoc, List.cons_append, readValue_obj, ← List.cons_append,
        List.singleton_append, hread, Option.map_some]

theorem readsItems_succ {fuel : Nat} (hvalues : ReadsValues fuel) (hitems : ReadsItems fuel) :
    ReadsItems (fuel + 1) := by
  intro v items rest h
  cases items with
  | nil =>
    rw [printItems] at h ⊢
    rw [readItems, hvalues v _ (by omega)]
    rfl
  | cons w items =>
    rw [printItems, List.length_append, List.length_cons] at h
    have hread := hitems w items rest (by omega)
    rw [printItems, List.append_assoc, readItems, hvalues v _ (by omega)]
    simp only [Option.bind_eq_bind, Option.bind_some, List.cons_append,
      skip_comma, hread, Option.map_some]

theorem readMembers_quoted {fuel : Nat} (name t : List Char) :
    readMembers (fuel + 1) (quoted name ++ ':' :: t) =
      (readValue fuel t).bind fun r =>
        match skip r.2 with
        | ',' :: t => (readMembers fuel t).map fun m => (.cons name r.1 m.1, m.2)
        | '\x7d' :: t => some (.cons name r.1 .nil, t)
        | _ => none := by
  rw [readMembers]
  simp only [quoted, List.cons_append, List.append_assoc, List.nil_append,
    skip_quote, readString_escape, Option.bind_eq_bind,
    Option.bind_some, skip_colon]

theorem readsMembers_succ {fuel : Nat} (hvalues : ReadsValues fuel) (hmembers : ReadsMembers fuel) :
    ReadsMembers (fuel + 1) := by
  intro name v members rest h
  cases members with
  | nil =>
    rw [printMembers, List.length_append, List.length_cons] at h
    rw [printMembers, List.append_assoc, List.cons_append, readMembers_quoted, hvalues v _ (by omega)]
    rfl
  | cons name' w members =>
    rw [printMembers, List.length_append, List.length_cons, List.length_append, List.length_cons] at h
    have hread := hmembers name' w members rest (by omega)
    rw [printMembers, List.append_assoc, List.cons_append, List.append_assoc, readMembers_quoted,
      hvalues v _ (by omega)]
    simp only [Option.bind_some, List.cons_append, skip_comma,
      hread, Option.map_some]

theorem reads_printed (fuel : Nat) : ReadsValues fuel ∧ ReadsItems fuel ∧ ReadsMembers fuel := by
  induction fuel with
  | zero =>
    refine ⟨fun v rest h => ?_, fun v items rest h => absurd h (by omega), fun name v ms rest h => absurd h (by omega)⟩
    obtain ⟨c, t, ht, -⟩ := print_head v
    rw [ht, List.length_cons] at h
    omega
  | succ fuel ih =>
    obtain ⟨hvalues, hitems, hmembers⟩ := ih
    exact ⟨readsValues_succ hitems hmembers, readsItems_succ hvalues hitems, readsMembers_succ hvalues hmembers⟩

/-- A printed value is read back, whatever follows it. -/
theorem parse_print (v : Json) (rest : List Char) : parse (print v ++ rest) = some v := by
  have hread := (reads_printed (2 * (print v ++ rest).length)).1 v rest (by rw [List.length_append]; omega)
  rw [parse, hread, Option.map_some]

end Json

end EasyDDB
