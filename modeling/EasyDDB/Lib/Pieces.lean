import EasyDDB.Lib.Strings
import Mathlib.Data.List.Nodup
import Mathlib.Order.Bounds.Basic

/-! # The pieces of a text between the occurrences of a pattern

The occurrences are found from left to right, each one behind the end of the one before. A text that is put together
has the pieces of its parts, as long as the pattern cannot begin in one part and end in the next: this is so around a
character that the pattern does not have, and around the pattern itself if its first character does not come again. -/
namespace EasyDDB.Strings
set_option autoImplicit false

variable {α : Type} [DecidableEq α] {pat s u v before behind : List α} {c : α}

/-! ## The first occurrence in a concatenation -/

theorem cut_eq_append (h : cut pat s = some (before, behind)) : s = before ++ pat ++ behind := by
  induction s generalizing before with
  | nil =>
    unfold cut at h
    split_ifs at h with hp
    cases h
    simp [hp]
  | cons d s ih =>
    unfold cut at h
    split_ifs at h with hp
    · cases h
      obtain ⟨rest, hrest⟩ := hp
      rw [← hrest, List.drop_left, List.nil_append]
    · obtain ⟨parts, hparts, heq⟩ := Option.map_eq_some_iff.1 h
      cases heq
      rw [ih hparts, List.cons_append, List.cons_append]

/-- The first occurrence stays the first one when the text goes on. -/
theorem cut_append_right (h : cut pat u = some (before, behind)) (v : List α) :
    cut pat (u ++ v) = some (before, behind ++ v) := by
  induction u generalizing before with
  | nil =>
    unfold cut at h
    split_ifs at h with hp
    cases h
    subst hp
    cases v <;> simp [cut]
  | cons d u ih =>
    have heq := cut_eq_append h
    unfold cut at h
    split_ifs at h with hp
    · cases h
      obtain ⟨rest, hrest⟩ := hp
      rw [List.cons_append, cut, if_pos ⟨rest ++ v, by rw [← List.append_assoc, hrest, List.cons_append]⟩, ← hrest,
        List.drop_left, ← List.cons_append, ← hrest, List.append_assoc, List.drop_left]
    · obtain ⟨parts, hparts, hpair⟩ := Option.map_eq_some_iff.1 h
      cases hpair
      have hlen : pat.length ≤ (d :: u).length := by
        rw [heq]
        simp only [List.length_append]
        omega
      have hp' : ¬ pat <+: d :: (u ++ v) := fun hpre =>
        hp (List.prefix_of_prefix_length_le hpre (List.prefix_append (d :: u) v) hlen)
      rw [List.cons_append, cut, if_neg hp', ih hparts, Option.map_some]

/-- Before a place where no occurrence can begin or pass, there is none in a text that has none. -/
theorem cut_append_of_none (hnone : ¬ pat <:+: u) (hpass : ∀ w, w ≠ [] → w <:+ u → ¬ pat <+: w ++ v) :
    cut pat (u ++ v) = (cut pat v).map fun parts => (u ++ parts.1, parts.2) := by
  induction u with
  | nil => simp
  | cons d u ih =>
    have hhere : ¬ pat <+: d :: (u ++ v) := hpass (d :: u) (List.cons_ne_nil d u) List.suffix_rfl
    have hrest := ih (fun h => hnone (h.trans (List.suffix_cons d u).isInfix))
      fun w hw hsuf => hpass w hw (hsuf.trans (List.suffix_cons d u))
    rw [List.cons_append, cut, if_neg hhere, hrest, Option.map_map]
    rfl

theorem cut_leftmost (h : cut pat s = some (before, behind)) {j : Nat} (hj : j < before.length) :
    ¬ pat <+: s.drop j := by
  induction s generalizing before j with
  | nil =>
    unfold cut at h
    split_ifs at h with hp
    cases h
    simp at hj
  | cons d s ih =>
    unfold cut at h
    split_ifs at h with hp
    · cases h
      simp at hj
    · obtain ⟨parts, hparts, hpair⟩ := Option.map_eq_some_iff.1 h
      cases hpair
      cases j with
      | zero => exact hp
      | succ j => exact ih hparts (Nat.lt_of_succ_lt_succ hj)

omit [DecidableEq α] in
theorem prefix_or_mem (h : pat <+: u ++ c :: v) : pat <+: u ∨ c ∈ pat := by
  obtain hlt | hle := Nat.lt_or_ge u.length pat.length
  · have hu : u ++ [c] <+: pat := by
      refine List.prefix_of_prefix_length_le ⟨v, by simp⟩ h ?_
      rw [List.length_append, List.length_singleton]
      exact hlt
    exact .inr (hu.subset (by simp))
  · exact .inl (List.prefix_of_prefix_length_le h (List.prefix_append u _) hle)

theorem cut_append_cons (hnone : ¬ pat <:+: u) (hc : c ∉ pat) (hpat : pat ≠ []) (v : List α) :
    cut pat (u ++ c :: v) = (cut pat v).map fun parts => (u ++ c :: parts.1, parts.2) := by
  have hcons : cut pat (c :: v) = (cut pat v).map fun parts => (c :: parts.1, parts.2) := by
    rw [cut, if_neg]
    intro hp
    obtain ⟨a, pat', rfl⟩ := List.exists_cons_of_ne_nil hpat
    exact hc ((List.cons_prefix_cons.mp hp).1 ▸ List.mem_cons_self ..)
  rw [cut_append_of_none hnone, hcons, Option.map_map]
  · rfl
  · intro w _ hsuf hp
    have hw := (prefix_or_mem hp).resolve_right hc
    exact hnone (hw.isInfix.trans hsuf.isInfix)

/-- An occurrence does not reach into the next one if the first character of the pattern does not come again. -/
theorem cut_append_pattern {a : α} (hnone : ¬ a :: pat <:+: u) (ha : a ∉ pat) (v : List α) :
    cut (a :: pat) (u ++ (a :: pat) ++ v) = some (u, v) := by
  have hhere : cut (a :: pat) ((a :: pat) ++ v) = some ([], v) := by
    rw [List.cons_append, cut, if_pos ⟨v, rfl⟩, ← List.cons_append, List.drop_left]
  rw [List.append_assoc, cut_append_of_none hnone, hhere]
  · simp
  · intro w hw hsuf hp
    obtain ⟨d, w, rfl⟩ := List.exists_cons_of_ne_nil hw
    rw [List.cons_append, List.cons_append] at hp
    obtain ⟨rfl, hrest⟩ := List.cons_prefix_cons.mp hp
    have hw := (prefix_or_mem hrest).resolve_right ha
    exact hnone ((List.cons_prefix_cons.mpr ⟨rfl, hw⟩).isInfix.trans hsuf.isInfix)

/-- The part before the first occurrence. -/
def beforeFirst (pat s : List α) : List α := ((cut pat s).map Prod.fst).getD s

/-- The part behind the last occurrence, as long as occurrences do not overlap. -/
def behindLast (pat s : List α) : List α := ((cut pat.reverse s.reverse).map fun parts => parts.1.reverse).getD s

theorem beforeFirst_of_none (h : ¬ pat <:+: s) : beforeFirst pat s = s := by
  rw [beforeFirst, cut_eq_none_iff.mpr h, Option.map_none, Option.getD_none]

theorem behindLast_of_none (h : ¬ pat <:+: s) : behindLast pat s = s := by
  have hrev : cut pat.reverse s.reverse = none := cut_eq_none_iff.mpr fun hin => h (List.reverse_infix.mp hin)
  rw [behindLast, hrev, Option.map_none, Option.getD_none]

theorem beforeFirst_subset (pat s : List α) : beforeFirst pat s ⊆ s := by
  unfold beforeFirst
  cases hcut : cut pat s with
  | none => exact List.Subset.refl s
  | some parts =>
    intro d hd
    rw [cut_eq_append hcut]
    exact List.mem_append_left _ (List.mem_append_left _ hd)

theorem behindLast_subset (pat s : List α) : behindLast pat s ⊆ s := by
  unfold behindLast
  cases hcut : cut pat.reverse s.reverse with
  | none => exact List.Subset.refl s
  | some parts =>
    intro d hd
    rw [← List.mem_reverse, cut_eq_append hcut]
    exact List.mem_append_left _ (List.mem_append_left _ (List.mem_reverse.mp hd))

theorem behindLast_append (hpat : pat ≠ []) (hnd : pat.Nodup) (u v : List α) :
    behindLast pat (u ++ pat ++ v) = behindLast pat v := by
  have hrev : (u ++ pat ++ v).reverse = v.reverse ++ pat.reverse ++ u.reverse := by simp
  unfold behindLast
  rw [hrev]
  cases hcut : cut pat.reverse v.reverse with
  | some parts => rw [List.append_assoc, cut_append_right hcut]; rfl
  | none =>
    obtain ⟨a, rest, hrest⟩ := List.exists_cons_of_ne_nil (List.reverse_eq_nil_iff.not.mpr hpat)
    have ha : a ∉ rest := (List.nodup_cons.mp (hrest ▸ List.nodup_reverse.mpr hnd)).1
    rw [hrest] at hcut ⊢
    rw [cut_append_pattern (cut_eq_none_iff.mp hcut) ha]
    simp

/-! ## All occurrences -/

/-- The pieces of a text between the occurrences of a pattern. -/
inductive Pieces (pat : List α) : List α → List (List α) → Prop
  | last {s : List α} (h : cut pat s = none) : Pieces pat s [s]
  | next {s before behind : List α} {ps : List (List α)} (h : cut pat s = some (before, behind))
      (hps : Pieces pat behind ps) : Pieces pat s (before :: ps)

namespace Pieces
variable {ps qs : List (List α)} {p q : List α}

theorem exists_pieces (hpat : pat ≠ []) (s : List α) : ∃ ps, Pieces pat s ps := by
  generalize hn : s.length = n
  induction n using Nat.strong_induction_on generalizing s with
  | _ n ih =>
    cases hcut : cut pat s with
    | none => exact ⟨_, .last hcut⟩
    | some parts =>
      obtain ⟨before, behind⟩ := parts
      have hlen := congrArg List.length (cut_eq_append hcut)
      have hpos := List.length_pos_iff.mpr hpat
      simp only [List.length_append] at hlen
      obtain ⟨ps, hps⟩ := ih behind.length (by omega) behind rfl
      exact ⟨_, .next hcut hps⟩

theorem ne_nil (h : Pieces pat s ps) : ps ≠ [] := by
  cases h <;> exact List.cons_ne_nil _ _

theorem of_singleton (h : Pieces pat s [p]) : cut pat s = none ∧ p = s := by
  cases h with
  | last hcut => exact ⟨hcut, rfl⟩
  | next _ hps => exact absurd rfl hps.ne_nil

theorem of_cons (h : Pieces pat s (p :: ps)) (hne : ps ≠ []) :
    ∃ behind, cut pat s = some (p, behind) ∧ Pieces pat behind ps := by
  cases h with
  | last _ => exact absurd rfl hne
  | next hcut hps => exact ⟨_, hcut, hps⟩

theorem subset (h : Pieces pat s ps) : ∀ p ∈ ps, p ⊆ s := by
  induction h with
  | last _ =>
    intro p hp
    rw [List.mem_singleton.mp hp]
    exact List.Subset.refl _
  | next hcut _ ih =>
    intro p hp
    have heq := cut_eq_append hcut
    obtain rfl | hp := List.mem_cons.mp hp
    · intro d hd
      simp [heq, hd]
    · intro d hd
      simp [heq, ih p hp hd]

theorem not_infix (h : Pieces pat s ps) (hpat : pat ≠ []) : ∀ p ∈ ps, ¬ pat <:+: p := by
  induction h with
  | last hcut =>
    intro p hp
    rw [List.mem_singleton.mp hp]
    exact cut_eq_none_iff.mp hcut
  | next hcut _ ih =>
    intro p hp
    obtain rfl | hp := List.mem_cons.mp hp
    · intro hin
      obtain ⟨left, right, heq⟩ := hin
      have hpos := List.length_pos_iff.mpr hpat
      refine cut_leftmost hcut (j := left.length) ?_ ?_
      · rw [← heq]
        simp only [List.length_append]
        omega
      · rw [cut_eq_append hcut, ← heq]
        simp
    · exact ih p hp

/-- The pieces joined with the pattern are the text. -/
theorem intercalate_eq (h : Pieces pat s ps) : pat.intercalate ps = s := by
  induction h with
  | last _ => simp [List.intercalate]
  | @next s before behind ps hcut hps ih =>
    obtain ⟨p, qs, rfl⟩ := List.exists_cons_of_ne_nil hps.ne_nil
    rw [cut_eq_append hcut]
    simpa [List.intercalate] using ih

theorem head_eq (h : Pieces pat s (p :: ps)) : p = beforeFirst pat s := by
  unfold beforeFirst
  cases h with
  | last hcut => rw [hcut]; rfl
  | next hcut _ => rw [hcut]; rfl

theorem last_eq (h : Pieces pat s (ps ++ [p])) (hpat : pat ≠ []) (hnd : pat.Nodup) : p = behindLast pat s := by
  induction ps generalizing s with
  | nil =>
    obtain ⟨hcut, rfl⟩ := h.of_singleton
    exact (behindLast_of_none (cut_eq_none_iff.mp hcut)).symm
  | cons p' ps ih =>
    obtain ⟨behind, hcut, hps⟩ := h.of_cons (by simp)
    rw [cut_eq_append hcut, behindLast_append hpat hnd]
    exact ih hps

/-- The pieces of two texts with the pattern between them. -/
theorem append_pattern (hu : Pieces pat u ps) (hv : Pieces pat v qs) (hpat : pat ≠ []) (hnd : pat.Nodup) :
    Pieces pat (u ++ pat ++ v) (ps ++ qs) := by
  induction hu with
  | last hcut =>
    obtain ⟨a, pat, rfl⟩ := List.exists_cons_of_ne_nil hpat
    exact .next (cut_append_pattern (cut_eq_none_iff.mp hcut) (List.nodup_cons.mp hnd).1 v) hv
  | next hcut _ ih =>
    refine .next ?_ ih
    rw [List.append_assoc, cut_append_right hcut, List.append_assoc]

/-- Around a character that the pattern does not have, the last piece before it and the first piece behind it are one
piece. -/
theorem append_cons (hu : Pieces pat u (ps ++ [p])) (hv : Pieces pat v (q :: qs)) (hc : c ∉ pat) (hpat : pat ≠ []) :
    Pieces pat (u ++ c :: v) (ps ++ (p ++ c :: q) :: qs) := by
  induction ps generalizing u with
  | nil =>
    obtain ⟨hcut, rfl⟩ := hu.of_singleton
    have hcat := cut_append_cons (cut_eq_none_iff.mp hcut) hc hpat v
    cases hv with
    | last hv =>
      refine .last ?_
      rw [hcat, hv, Option.map_none]
    | next hv hqs =>
      refine .next ?_ hqs
      rw [hcat, hv, Option.map_some]
  | cons p' ps ih =>
    obtain ⟨behind, hcut, hps⟩ := hu.of_cons (by simp)
    exact .next (cut_append_right hcut _) (ih hps)

theorem nil (hpat : pat ≠ []) : Pieces pat [] [[]] := .last (by simp [cut, hpat])

theorem append_list {t : List α} (hu : Pieces pat u (ps ++ [p])) (hv : Pieces pat v (q :: qs)) (ht : t ≠ [])
    (hout : ∀ c ∈ t, c ∉ pat) (hpat : pat ≠ []) : Pieces pat (u ++ (t ++ v)) (ps ++ (p ++ (t ++ q)) :: qs) := by
  induction t generalizing u ps p with
  | nil => exact absurd rfl ht
  | cons c t ih =>
    have hc := hout c (List.mem_cons_self ..)
    cases t with
    | nil => exact hu.append_cons hv hc hpat
    | cons d t =>
      have hrest : Pieces pat ([] ++ ((d :: t) ++ v)) ([] ++ ([] ++ ((d :: t) ++ q)) :: qs) :=
        ih (Pieces.nil hpat) (List.cons_ne_nil d t) fun e he => hout e (List.mem_cons_of_mem c he)
      exact hu.append_cons hrest hc hpat

end Pieces

omit [DecidableEq α] in
theorem intercalate_concat_nil {ps : List (List α)} (h : ps ≠ []) :
    pat.intercalate (ps ++ [[]]) = pat.intercalate ps ++ pat := by
  induction ps with
  | nil => exact absurd rfl h
  | cons p ps ih =>
    cases ps with
    | nil => simp [List.intercalate]
    | cons q ps => simpa [List.intercalate] using ih (List.cons_ne_nil q ps)

/-! ## The positions of the occurrences -/

/-- The positions, from `start` on, of the leftmost occurrences that do not overlap. -/
inductive Matches (pat s : List α) : Nat → List Nat → Prop
  | none {start : Nat} (h : ∀ i, start ≤ i → ¬ pat <+: s.drop i) : Matches pat s start []
  | next {start i : Nat} {ms : List Nat} (h : IsLeast {i | start ≤ i ∧ pat <+: s.drop i} i)
      (hms : Matches pat s (i + pat.length) ms) : Matches pat s start (i :: ms)

/-- What lies between the occurrences at the given positions. -/
def between (pat s : List α) : Nat → List Nat → List (List α)
  | start, [] => [s.drop start]
  | start, i :: ms => (s.take i).drop start :: between pat s (i + pat.length) ms

theorem Pieces.exists_matches {ps : List (List α)} {start : Nat} (h : Pieces pat (s.drop start) ps) :
    ∃ ms, Matches pat s start ms ∧ between pat s start ms = ps := by
  generalize ht : s.drop start = t at h
  induction h generalizing start with
  | last hcut =>
    subst ht
    refine ⟨[], .none fun i hi hp => ?_, rfl⟩
    have hdrop : s.drop i = (s.drop start).drop (i - start) := by rw [List.drop_drop, Nat.add_sub_cancel' hi]
    rw [hdrop] at hp
    exact cut_eq_none_iff.mp hcut (hp.isInfix.trans (List.drop_suffix _ _).isInfix)
  | @next t before behind ps hcut _ ih =>
    subst ht
    have heq := cut_eq_append hcut
    have hhere : s.drop (start + before.length) = pat ++ behind := by
      rw [← List.drop_drop, heq, List.append_assoc, List.drop_left]
    have hbehind : s.drop (start + before.length + pat.length) = behind := by
      rw [← List.drop_drop, hhere, List.drop_left]
    have hbefore : (s.take (start + before.length)).drop start = before := by
      rw [List.drop_take, Nat.add_sub_cancel_left, heq, List.append_assoc, List.take_left]
    obtain ⟨ms, hms, hbetween⟩ := ih hbehind
    refine ⟨_ :: ms, .next ⟨⟨Nat.le_add_right .., hhere ▸ List.prefix_append ..⟩, ?_⟩ hms, ?_⟩
    · rintro j ⟨hj, hp⟩
      by_contra hlt
      have hdrop : s.drop j = (s.drop start).drop (j - start) := by rw [List.drop_drop, Nat.add_sub_cancel' hj]
      exact cut_leftmost hcut (by omega) (hdrop ▸ hp)
    · rw [between, hbefore, hbetween]

omit [DecidableEq α] in
theorem Matches.end_le {start : Nat} {ms : List Nat} (h : Matches pat s start ms) (hpat : pat ≠ []) :
    ∀ i ∈ ms, i + pat.length ≤ s.length := by
  induction h with
  | none _ => simp
  | next hleast _ ih =>
    have hlen := hleast.1.2.length_le
    have hpos := List.length_pos_iff.mpr hpat
    rw [List.length_drop] at hlen
    refine List.forall_mem_cons.mpr ⟨by omega, ih⟩

omit [DecidableEq α] in
theorem between_concat (start : Nat) (ms : List Nat) (i : Nat) :
    ∃ ps, between pat s start (ms ++ [i]) = ps ++ [s.drop (i + pat.length)] := by
  induction ms generalizing start with
  | nil => exact ⟨[_], rfl⟩
  | cons j ms ih =>
    obtain ⟨ps, hps⟩ := ih (j + pat.length)
    exact ⟨_ :: ps, congrArg _ hps⟩

omit [DecidableEq α] in
/-- The last piece is empty if the last occurrence ends where the text ends, or the text is empty. -/
theorem Matches.last_nil_iff {ms : List Nat} (h : Matches pat s 0 ms) (hpat : pat ≠ []) :
    (between pat s 0 ms).getLast? = some [] ↔ s = [] ∨ ms.getLast?.map (· + pat.length) = some s.length := by
  obtain rfl | ⟨ms, i, rfl⟩ := List.eq_nil_or_concat' ms
  · simp [between]
  · obtain ⟨ps, hps⟩ : ∃ ps, between pat s 0 (ms ++ [i]) = ps ++ [s.drop (i + pat.length)] := between_concat 0 ms i
    have hle := h.end_le hpat i (by simp)
    have hpos := List.length_pos_iff.mpr hpat
    have hne : s ≠ [] := by
      rintro rfl
      rw [List.length_nil] at hle
      omega
    rw [hps, List.getLast?_concat, List.getLast?_concat]
    simp only [Option.some.injEq, List.drop_eq_nil_iff, Option.map_some, hne, false_or]
    omega

end EasyDDB.Strings
