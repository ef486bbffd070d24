import EasyDDB.Lib.Pieces

/-! # Splitting a text

`StrSplit` pushes what lies between the occurrences of a separator, found one behind the other, and what is left behind
the last one unless it is empty. -/
namespace EasyDDB.Optimizer
open Strings
set_option autoImplicit false

/-- The loop of `StrSplit` on what is behind `pos1`. Every round but the last passes an occurrence of `c`, so that the
length of the text bounds their number. -/
def strSplitFrom (c : List Char) : Nat → List Char → List (List Char)
  | 0, s => if s = [] then [] else [s]
  | n + 1, s =>
    match cut c s with
    | some (piece, rest) => piece :: strSplitFrom c n rest
    | none => if s = [] then [] else [s]

/-- `StrSplit` -/
def strSplit (s c : List Char) : List (List Char) := strSplitFrom c s.length s

/-- The loop of `StrSplit` comes to its end: with `rest` behind `pos1` and `v` pushed so far, the call leaves `v'`. -/
inductive StrSplitRuns (c : List Char) : List Char → List (List Char) → List (List Char) → Prop
  | leave {rest : List Char} {v : List (List Char)} (h : cut c rest = none) :
      StrSplitRuns c rest v (if rest = [] then v else v ++ [rest])
  | round {rest piece behind : List Char} {v v' : List (List Char)} (h : cut c rest = some (piece, behind))
      (hrun : StrSplitRuns c behind (v ++ [piece]) v') : StrSplitRuns c rest v v'

variable {c s p : List Char} {ps : List (List Char)}

theorem strSplitFrom_of_pieces {n : Nat} (hc : c ≠ []) (h : Pieces c s (ps ++ [p])) (hn : s.length ≤ n) :
    strSplitFrom c n s = ps ++ if p = [] then [] else [p] := by
  induction ps generalizing s n with
  | nil =>
    obtain ⟨hcut, rfl⟩ := h.of_singleton
    cases n <;> simp [strSplitFrom, hcut]
  | cons p' ps ih =>
    obtain ⟨behind, hcut, hps⟩ := h.of_cons (by simp)
    have hlen := congrArg List.length (cut_eq_append hcut)
    have hpos := List.length_pos_iff.mpr hc
    simp only [List.length_append] at hlen
    obtain _ | n := n
    · omega
    · simp only [strSplitFrom, hcut, List.cons_append]
      rw [ih hps (by omega)]

theorem mem_strSplit (hc : c ≠ []) (h : Pieces c s ps) :
    (∀ t ∈ strSplit s c, t ∈ ps) ∧ ∀ t ∈ ps, t ≠ [] → t ∈ strSplit s c := by
  obtain ⟨qs, q, rfl⟩ := (List.eq_nil_or_concat' ps).resolve_left h.ne_nil
  rw [strSplit, strSplitFrom_of_pieces hc h le_rfl]
  constructor
  · intro t ht
    split_ifs at ht <;> simp_all
  · intro t ht hne
    split_ifs with hq <;> simp_all

theorem strSplitRuns_of_pieces (h : Pieces c s (ps ++ [p])) (v : List (List Char)) :
    StrSplitRuns c s v (v ++ (ps ++ if p = [] then [] else [p])) := by
  induction ps generalizing s v with
  | nil =>
    obtain ⟨hcut, rfl⟩ := h.of_singleton
    have hleave := StrSplitRuns.leave (v := v) hcut
    split_ifs at hleave ⊢ <;> simpa using hleave
  | cons p' ps ih =>
    obtain ⟨behind, hcut, hps⟩ := h.of_cons (by simp)
    refine .round hcut ?_
    simpa using ih hps (v ++ [p'])

/-- **`StrSplit` only removes separators.** The call ends and pushes the pieces between the leftmost occurrences that do
not overlap, without an empty last one; no piece has the separator, and joined with it they give the text back, up to a
separator at its end. -/
theorem strSplit_pieces (s : List Char) (hc : c ≠ []) :
    (∀ v, StrSplitRuns c s v (v ++ strSplit s c)) ∧ (∀ p ∈ strSplit s c, ¬ c <:+: p) ∧
      ∃ ms, Matches c s 0 ms ∧
        strSplit s c =
          (if (between c s 0 ms).getLast? = some [] then (between c s 0 ms).dropLast else between c s 0 ms) ∧
        c.intercalate (strSplit s c) ++
          (if s ≠ [] ∧ ms.getLast?.map (· + c.length) = some s.length then c else []) = s := by
  obtain ⟨l, hl⟩ := Pieces.exists_pieces hc s
  obtain ⟨ps, p, rfl⟩ := (List.eq_nil_or_concat' l).resolve_left hl.ne_nil
  have hstart : Pieces c (s.drop 0) (ps ++ [p]) := hl
  obtain ⟨ms, hms, hbetween⟩ := hstart.exists_matches
  have hsplit : strSplit s c = ps ++ if p = [] then [] else [p] := strSplitFrom_of_pieces hc hl le_rfl
  have hlast := hms.last_nil_iff hc
  rw [hbetween, List.getLast?_concat, Option.some.injEq] at hlast
  refine ⟨fun v => hsplit ▸ strSplitRuns_of_pieces hl v, fun q hq => ?_, ms, hms, ?_, ?_⟩
  · exact hl.not_infix hc q ((mem_strSplit hc hl).1 q hq)
  · rw [hsplit, hbetween, List.dropLast_concat]
    simp only [List.getLast?_concat, Option.some.injEq]
    split_ifs <;> simp
  · have hjoin := hl.intercalate_eq
    by_cases hp : p = []
    · subst hp
      obtain rfl | hps := eq_or_ne ps []
      · have hs : s = [] := by simpa [List.intercalate] using hjoin.symm
        rw [hsplit]
        simp [hs, List.intercalate]
      · rw [intercalate_concat_nil hps] at hjoin
        have hs : s ≠ [] := by
          rintro rfl
          exact hc (List.append_eq_nil_iff.mp hjoin).2
        have hend := (hlast.mp rfl).resolve_left hs
        simpa [hsplit, hs, hend] using hjoin
    · have hend := mt hlast.mpr hp
      rw [not_or] at hend
      simpa [hsplit, hp, hend.2] using hjoin

theorem overlapping_split :
    StrSplitRuns ['a', 'a'] ['x', 'a', 'a', 'a', 'y'] [] [['x'], ['a', 'y']] := by
  have hsplit : strSplit ['x', 'a', 'a', 'a', 'y'] ['a', 'a'] = [['x'], ['a', 'y']] := by decide
  have hc : ['a', 'a'] ≠ [] := by decide
  rw [← hsplit]
  exact (strSplit_pieces ['x', 'a', 'a', 'a', 'y'] hc).1 []

end EasyDDB.Optimizer
