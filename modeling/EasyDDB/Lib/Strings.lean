import Mathlib.Data.List.Infix
import Mathlib.Data.List.Basic

/-! # Searching, splitting and numerals

Character sequences as the C++ library treats them: the parts before and behind the first occurrence of a pattern
(`find` and `substr`), the pieces between separators (`getline`), and decimal numerals (`to_string`, `stoi`). -/
namespace EasyDDB.Strings
set_option autoImplicit false

/-! ## Texts without certain characters -/

section
variable {α : Type}

/-- No element of `signs` occurs in the text. -/
def Avoids (signs s : List α) : Prop := ∀ c ∈ s, c ∉ signs

instance [DecidableEq α] (signs s : List α) : Decidable (Avoids signs s) := List.decidableBAll _ s

variable {signs signs' s t : List α}

theorem Avoids.nil : Avoids signs ([] : List α) := fun _ h => absurd h List.not_mem_nil

theorem Avoids.append (hs : Avoids signs s) (ht : Avoids signs t) : Avoids signs (s ++ t) := by
  intro c hc
  exact (List.mem_append.1 hc).elim (hs c) (ht c)

theorem Avoids.subset (ht : Avoids signs t) (h : s ⊆ t) : Avoids signs s := fun c hc => ht c (h hc)

theorem Avoids.fewer (h : Avoids signs s) (hsub : signs'.Sublist signs) : Avoids signs' s :=
  fun c hc hmem => h c hc (hsub.subset hmem)

end

/-! ## The first occurrence of a pattern -/

section
variable {α : Type} [DecidableEq α]

/-- The parts before and behind the first occurrence of `pat`, if there is one. -/
def cut (pat : List α) : List α → Option (List α × List α)
  | [] => if pat = [] then some ([], []) else none
  | c :: s =>
    if pat <+: c :: s then some ([], (c :: s).drop pat.length)
    else (cut pat s).map fun parts => (c :: parts.1, parts.2)

theorem cut_eq_none_iff {pat s : List α} : cut pat s = none ↔ ¬ pat <:+: s := by
  induction s with
  | nil => simp [cut]
  | cons c s ih =>
    unfold cut
    by_cases hp : pat <+: c :: s
    · simp [hp, List.infix_cons_iff]
    · rw [if_neg hp, Option.map_eq_none_iff, ih, List.infix_cons_iff]
      simp [hp]

/-- A prefix in which the pattern cannot begin stays in the part before its first occurrence. -/
theorem cut_append_left {pat pre : List α} (hpat : pat ≠ []) (hpre : ∀ c ∈ pre, pat.head? ≠ some c) (s : List α) :
    cut pat (pre ++ s) = (cut pat s).map fun parts => (pre ++ parts.1, parts.2) := by
  induction pre with
  | nil => simp
  | cons c pre ih =>
    obtain ⟨a, pat', rfl⟩ := List.exists_cons_of_ne_nil hpat
    have hne : a ≠ c := fun heq => hpre c (List.mem_cons_self ..) (by rw [heq]; rfl)
    have hp : ¬ a :: pat' <+: c :: (pre ++ s) := fun hp => hne (List.cons_prefix_cons.mp hp).1
    rw [List.cons_append, cut, if_neg hp, ih fun d hd => hpre d (List.mem_cons_of_mem c hd), Option.map_map]
    rfl

theorem cut_singleton {c : α} {before behind : List α} (h : c ∉ before) :
    cut [c] (before ++ c :: behind) = some (before, behind) := by
  have hhere : cut [c] (c :: behind) = some ([], behind) := by simp [cut]
  have hpre : ∀ d ∈ before, [c].head? ≠ some d := by
    rintro d hd heq
    cases heq
    exact h hd
  rw [cut_append_left (by simp) hpre, hhere]
  simp

theorem notMem_of_cut_singleton {c : α} {s before behind : List α} (h : cut [c] s = some (before, behind)) :
    c ∉ before := by
  induction s generalizing before with
  | nil => cases h
  | cons d s ih =>
    unfold cut at h
    split_ifs at h with hp
    · cases h
      exact List.not_mem_nil
    · obtain ⟨parts, hparts, heq⟩ := Option.map_eq_some_iff.1 h
      cases heq
      have hne : c ≠ d := fun heq => hp (List.cons_prefix_cons.2 ⟨heq, List.nil_prefix⟩)
      exact List.not_mem_cons_of_ne_of_not_mem hne (ih hparts)

/-! ## Pieces between separators -/

/-- The pieces `getline` delivers until the input is used up: an end of input behind a separator gives no piece. -/
def getlines (sep : α) : List α → List (List α)
  | [] => []
  | c :: s =>
    if c = sep then [] :: getlines sep s
    else
      match getlines sep s with
      | [] => [[c]]
      | piece :: pieces => (c :: piece) :: pieces

theorem getlines_of_notMem {sep : α} {piece : List α} (h : sep ∉ piece) (hne : piece ≠ []) :
    getlines sep piece = [piece] := by
  induction piece with
  | nil => exact absurd rfl hne
  | cons c piece ih =>
    rw [List.mem_cons, not_or] at h
    rw [getlines, if_neg (Ne.symm h.1)]
    cases piece with
    | nil => rfl
    | cons d piece => rw [ih h.2 (List.cons_ne_nil d piece)]

theorem getlines_append {sep : α} {piece : List α} (h : sep ∉ piece) (s : List α) :
    getlines sep (piece ++ sep :: s) = piece :: getlines sep s := by
  induction piece with
  | nil => rw [List.nil_append, getlines, if_pos rfl]
  | cons c piece ih =>
    rw [List.mem_cons, not_or] at h
    rw [List.cons_append, getlines, if_neg (Ne.symm h.1), ih h.2]

/-- Joining separator-free pieces and reading them back. -/
theorem getlines_intercalate {sep : α} {pieces : List (List α)} (h : ∀ piece ∈ pieces, sep ∉ piece ∧ piece ≠ []) :
    getlines sep ([sep].intercalate pieces) = pieces := by
  induction pieces with
  | nil => rfl
  | cons piece pieces ih =>
    obtain ⟨hsep, hne⟩ := h piece (List.mem_cons_self ..)
    cases pieces with
    | nil => simpa using getlines_of_notMem hsep hne
    | cons next pieces =>
      have hrest := ih fun p hp => h p (List.mem_cons_of_mem piece hp)
      rw [List.intercalate_cons_cons, List.append_assoc, List.singleton_append, getlines_append hsep, hrest]

/-- Lines that are written one by one are read back. -/
theorem getlines_flatMap {sep : α} {pieces : List (List α)} (h : ∀ piece ∈ pieces, sep ∉ piece) :
    getlines sep (pieces.flatMap fun piece => piece ++ [sep]) = pieces := by
  induction pieces with
  | nil => rfl
  | cons piece pieces ih =>
    obtain ⟨hpiece, hpieces⟩ := List.forall_mem_cons.mp h
    rw [List.flatMap_cons, List.append_assoc, List.singleton_append, getlines_append hpiece, ih hpieces]

omit [DecidableEq α] in
theorem dropLast_flatMap {sep : α} {pieces : List (List α)} (h : pieces ≠ []) :
    (pieces.flatMap fun piece => piece ++ [sep]).dropLast = [sep].intercalate pieces := by
  induction pieces with
  | nil => exact absurd rfl h
  | cons piece pieces ih =>
    cases pieces with
    | nil => simp
    | cons next pieces =>
      have hne : (next :: pieces).flatMap (fun piece => piece ++ [sep]) ≠ [] := by simp
      rw [List.flatMap_cons, List.dropLast_append_of_ne_nil hne, ih (List.cons_ne_nil next pieces),
        List.intercalate_cons_cons]

theorem flatten_getlines {sep : α} {s : List α} (h : sep ∉ s) : (getlines sep s).flatten = s := by
  by_cases hne : s = []
  · subst hne
    rfl
  · rw [getlines_of_notMem h hne, List.flatten_singleton]

end

/-! ## Numerals -/

/-- `to_string` of a number without a sign. -/
def numeral (n : Nat) : List Char := Nat.toDigits 10 n

/-- `to_string` -/
def toText (v : Int) : List Char := if v < 0 then '-' :: numeral v.natAbs else numeral v.natAbs

/-- The number at the beginning of a text. -/
def readDigits (t : List Char) : Option Nat :=
  let digits := t.takeWhile Char.isDigit
  if digits = [] then none else some (Nat.ofDigitChars 10 digits 0)

/-- `isspace` -/
def isSpace (c : Char) : Bool := c = ' ' ∨ (9 ≤ c.toNat ∧ c.toNat ≤ 13)

/-- White space, a sign, digits; what follows is ignored. -/
def readInt (t : List Char) : Option Int :=
  match t.dropWhile isSpace with
  | '-' :: t => (readDigits t).map fun n => -Int.ofNat n
  | '+' :: t => (readDigits t).map Int.ofNat
  | t => (readDigits t).map Int.ofNat

/-- What an `int` can hold. -/
def IsInt (v : Int) : Prop := -2147483648 ≤ v ∧ v ≤ 2147483647

instance (v : Int) : Decidable (IsInt v) := inferInstanceAs (Decidable (_ ∧ _))

/-- `stoi` throws where there is no number, and where the number is out of range. -/
def stoi (t : List Char) : Option Int := (readInt t).filter fun v => IsInt v

/-- `atoi` gives 0 where there is no number; out of range it is not defined, and the number stands for what it gives. -/
def atoi (t : List Char) : Int := (readInt t).getD 0

theorem isDigit_of_mem_numeral {n : Nat} {c : Char} (h : c ∈ numeral n) : c.isDigit = true :=
  Nat.isDigit_of_mem_toDigits (by omega) (by omega) h

theorem numeral_ne_nil (n : Nat) : numeral n ≠ [] := Nat.toDigits_ne_nil

theorem ofDigitChars_numeral (n : Nat) : Nat.ofDigitChars 10 (numeral n) 0 = n :=
  Nat.ofDigitChars_toDigits (by omega) (by omega)

theorem numeral_injective : Function.Injective numeral := by
  intro m n h
  rw [← ofDigitChars_numeral m, h, ofDigitChars_numeral]

theorem takeWhile_numeral (n : Nat) {rest : List Char} (h : ∀ c ∈ rest.head?, c.isDigit = false) :
    (numeral n ++ rest).takeWhile Char.isDigit = numeral n := by
  rw [List.takeWhile_append_of_pos fun c hc => isDigit_of_mem_numeral hc]
  cases rest with
  | nil => simp
  | cons c rest => simp [h c rfl]

theorem readDigits_numeral (n : Nat) {rest : List Char} (h : ∀ c ∈ rest.head?, c.isDigit = false) :
    readDigits (numeral n ++ rest) = some n := by
  rw [readDigits, takeWhile_numeral n h, if_neg (numeral_ne_nil n), ofDigitChars_numeral]

theorem numeral_append_inj {m n : Nat} {s t : List Char} (hs : ∀ c ∈ s.head?, c.isDigit = false)
    (ht : ∀ c ∈ t.head?, c.isDigit = false) (h : numeral m ++ s = numeral n ++ t) : m = n ∧ s = t := by
  have hnum : numeral m = numeral n := by
    rw [← takeWhile_numeral m hs, h, takeWhile_numeral n ht]
  rw [hnum] at h
  exact ⟨numeral_injective hnum, List.append_cancel_left h⟩

theorem readInt_cons_digit {c : Char} {rest : List Char} (h : c.isDigit = true) :
    readInt (c :: rest) = (readDigits (c :: rest)).map Int.ofNat := by
  have hne : ∀ d : Char, d.isDigit = false → c ≠ d := by
    rintro d hd rfl
    rw [h] at hd
    cases hd
  have hspace : isSpace c = false := by
    have hlow : 48 ≤ c.toNat := by
      simp only [Char.isDigit, Bool.and_eq_true, decide_eq_true_eq] at h
      exact UInt32.le_iff_toNat_le.mp h.1
    simp only [isSpace, hne ' ' rfl, false_or, decide_eq_false_iff_not]
    omega
  rw [readInt, List.dropWhile_cons, if_neg (by simp [hspace])]
  split
  · next t heq => exact absurd (List.cons.inj heq).1 (hne '-' rfl)
  · next t heq => exact absurd (List.cons.inj heq).1 (hne '+' rfl)
  · rfl

theorem readInt_toText (v : Int) : readInt (toText v) = some v := by
  have hread : readDigits (numeral v.natAbs) = some v.natAbs := by
    simpa using readDigits_numeral v.natAbs (by simp : ∀ c ∈ ([] : List Char).head?, c.isDigit = false)
  unfold toText
  split_ifs with hv
  · have hneg : -Int.ofNat v.natAbs = v := by
      rw [Int.ofNat_eq_natCast]
      omega
    have hspace : ('-' :: numeral v.natAbs).dropWhile isSpace = '-' :: numeral v.natAbs :=
      List.dropWhile_cons_of_neg (by decide)
    simp only [readInt, hspace, hread, Option.map_some, hneg]
  · obtain ⟨c, rest, hc⟩ := List.exists_cons_of_ne_nil (numeral_ne_nil v.natAbs)
    have hdigit : c.isDigit = true := isDigit_of_mem_numeral (hc ▸ List.mem_cons_self ..)
    have hpos : Int.ofNat v.natAbs = v := by simp only [Int.ofNat_eq_natCast]; omega
    rw [hc] at hread ⊢
    rw [readInt_cons_digit hdigit, hread, Option.map_some, hpos]

theorem atoi_toText (v : Int) : atoi (toText v) = v := by rw [atoi, readInt_toText, Option.getD_some]

/-- What is printed is read back as long as it is an `int`. -/
theorem stoi_toText (v : Int) : stoi (toText v) = if IsInt v then some v else none := by
  rw [stoi, readInt_toText]
  by_cases h : IsInt v <;> simp [Option.filter, h]

end EasyDDB.Strings
