import Mathlib.Data.List.Basic

/-! # Loops that may have no defined result

Rules for `List.foldlM` in the `Option` monad: an invariant, an invariant that follows the part of the
list already seen, the states in which the loop comes to its elements, progress, and relations between two
loops over the same list. -/
namespace EasyDDB.Loops
set_option autoImplicit false

variable {α β γ : Type}

/-- A predicate that every completed step preserves holds after the loop. -/
theorem invariant {f : β → α → Option β} {I : β → Prop} {l : List α} {b b' : β}
    (hstep : ∀ a ∈ l, ∀ c c', I c → f c a = some c' → I c') (hb : I b) (h : l.foldlM f b = some b') :
    I b' := by
  induction l generalizing b with
  | nil => cases h; exact hb
  | cons a l ih =>
    rw [List.foldlM_cons, Option.bind_eq_bind, Option.bind_eq_some_iff] at h
    obtain ⟨c, hc, h⟩ := h
    exact ih (fun a' ha' => hstep a' (List.mem_cons_of_mem a ha')) (hstep a (List.mem_cons_self ..) b c hb hc) h

theorem invariant_seen {f : β → α → Option β} {I : List α → β → Prop} {l : List α} {b b' : β}
    (hstep : ∀ pre a post, l = pre ++ a :: post → ∀ c c', I pre c → f c a = some c' → I (pre ++ [a]) c')
    (hb : I [] b) (h : l.foldlM f b = some b') : I l b' := by
  suffices hgen : ∀ pre post c, l = pre ++ post → I pre c → post.foldlM f c = some b' → I l b' from
    hgen [] l b rfl hb h
  intro pre post
  induction post generalizing pre with
  | nil =>
    intro c hl hc h
    rw [List.append_nil] at hl
    cases h
    exact hl ▸ hc
  | cons a post ih =>
    intro c hl hc h
    rw [List.foldlM_cons, Option.bind_eq_bind, Option.bind_eq_some_iff] at h
    obtain ⟨c', hc', h⟩ := h
    exact ih (pre ++ [a]) c' (by rw [hl, List.append_assoc, List.singleton_append])
      (hstep pre a post hl c c' hc hc') h

/-- The loop over `l` from `b` comes to the element `a` in the state `c`. -/
def Visits (f : β → α → Option β) (l : List α) (b : β) (a : α) (c : β) : Prop :=
  ∃ pre post, l = pre ++ a :: post ∧ pre.foldlM f b = some c

theorem not_visits_nil {f : β → α → Option β} {b c : β} {a : α} : ¬ Visits f [] b a c := by
  rintro ⟨pre, post, h, -⟩
  simp at h

theorem visits_concat {f : β → α → Option β} {l : List α} {b c : β} {a x : α} :
    Visits f (l ++ [a]) b x c ↔ Visits f l b x c ∨ (x = a ∧ l.foldlM f b = some c) := by
  constructor
  · rintro ⟨pre, post, h, hc⟩
    obtain rfl | ⟨post', y, rfl⟩ := List.eq_nil_or_concat' post
    · obtain ⟨rfl, hx⟩ := List.append_inj' h rfl
      exact .inr ⟨(List.singleton_inj.mp hx).symm, hc⟩
    · rw [← List.cons_append, ← List.append_assoc] at h
      obtain ⟨hl, -⟩ := List.append_inj' h rfl
      exact .inl ⟨pre, post', hl, hc⟩
  · rintro (⟨pre, post, rfl, hc⟩ | ⟨rfl, hc⟩)
    · exact ⟨pre, post ++ [a], by simp, hc⟩
    · exact ⟨l, [], rfl, hc⟩

theorem invariant_visits {f : β → α → Option β} {I : List α → β → Prop} {l : List α} {b b' : β}
    (hstep : ∀ pre a post, l = pre ++ a :: post → ∀ c c', pre.foldlM f b = some c → I pre c → f c a = some c' →
      I (pre ++ [a]) c')
    (hb : I [] b) (h : l.foldlM f b = some b') : I l b' := by
  refine (invariant_seen (I := fun pre c => pre.foldlM f b = some c ∧ I pre c) ?_ ⟨rfl, hb⟩ h).2
  rintro pre a post hl c c' ⟨hrun, hc⟩ hf
  refine ⟨?_, hstep pre a post hl c c' hrun hc hf⟩
  rw [List.foldlM_append, hrun]
  simp [hf]

/-- A loop whose every step is defined on states of the invariant is defined. -/
theorem progress {f : β → α → Option β} {I : β → Prop} {l : List α} {b : β}
    (hstep : ∀ a ∈ l, ∀ c, I c → ∃ c', f c a = some c' ∧ I c') (hb : I b) :
    ∃ b', l.foldlM f b = some b' ∧ I b' := by
  induction l generalizing b with
  | nil => exact ⟨b, rfl, hb⟩
  | cons a l ih =>
    obtain ⟨c, hc, hI⟩ := hstep a (List.mem_cons_self ..) b hb
    obtain ⟨b', hb', hI'⟩ := ih (fun a' ha' => hstep a' (List.mem_cons_of_mem a ha')) hI
    refine ⟨b', ?_, hI'⟩
    rw [List.foldlM_cons, hc]
    exact hb'

theorem progress_seen {f : β → α → Option β} {I : List α → β → Prop} {l : List α} {b : β}
    (hstep : ∀ pre a post, l = pre ++ a :: post → ∀ c, I pre c → ∃ c', f c a = some c' ∧ I (pre ++ [a]) c')
    (hb : I [] b) : ∃ b', l.foldlM f b = some b' ∧ I l b' := by
  suffices hgen : ∀ pre post c, l = pre ++ post → I pre c → ∃ b', post.foldlM f c = some b' ∧ I l b' from
    hgen [] l b rfl hb
  intro pre post
  induction post generalizing pre with
  | nil =>
    intro c hl hc
    rw [List.append_nil] at hl
    exact ⟨c, rfl, hl ▸ hc⟩
  | cons a post ih =>
    intro c hl hc
    obtain ⟨c', hc', hI⟩ := hstep pre a post hl c hc
    obtain ⟨b', hb', hI'⟩ := ih (pre ++ [a]) c' (by rw [hl, List.append_assoc, List.singleton_append]) hI
    refine ⟨b', ?_, hI'⟩
    rw [List.foldlM_cons, hc']
    exact hb'

/-- Two loops over one list whose steps keep a relation end in related states. -/
theorem simulation {f : β → α → Option β} {g : γ → α → Option γ} {R : β → γ → Prop} {l : List α}
    {b b' : β} {c c' : γ}
    (hstep : ∀ a ∈ l, ∀ d e d' e', R d e → f d a = some d' → g e a = some e' → R d' e')
    (hbc : R b c) (hf : l.foldlM f b = some b') (hg : l.foldlM g c = some c') : R b' c' := by
  induction l generalizing b c with
  | nil => cases hf; cases hg; exact hbc
  | cons a l ih =>
    rw [List.foldlM_cons, Option.bind_eq_bind, Option.bind_eq_some_iff] at hf hg
    obtain ⟨d, hd, hf⟩ := hf
    obtain ⟨e, he, hg⟩ := hg
    exact ih (fun a' ha' => hstep a' (List.mem_cons_of_mem a ha'))
      (hstep a (List.mem_cons_self ..) b c d e hbc hd he) hf hg

/-- A completed loop is followed by another loop over the same list whose steps follow its steps. -/
theorem forward {f : β → α → Option β} {g : γ → α → Option γ} {R : β → γ → Prop} {l : List α} {b b' : β} {c : γ}
    (hstep : ∀ a ∈ l, ∀ d e d', R d e → f d a = some d' → ∃ e', g e a = some e' ∧ R d' e')
    (hbc : R b c) (hf : l.foldlM f b = some b') : ∃ c', l.foldlM g c = some c' ∧ R b' c' := by
  induction l generalizing b c with
  | nil =>
    cases hf
    exact ⟨c, rfl, hbc⟩
  | cons a l ih =>
    rw [List.foldlM_cons, Option.bind_eq_bind, Option.bind_eq_some_iff] at hf
    obtain ⟨d, hd, hf⟩ := hf
    obtain ⟨e, he, hde⟩ := hstep a (List.mem_cons_self ..) b c d hbc hd
    obtain ⟨c', hc', hR⟩ := ih (fun a' ha' => hstep a' (List.mem_cons_of_mem a ha')) hde hf
    refine ⟨c', ?_, hR⟩
    rw [List.foldlM_cons, he]
    exact hc'

/-- A loop whose every step is defined and follows the step of a total loop ends in a related state. -/
theorem follows {f : β → α → Option β} {g : γ → α → γ} {R : β → γ → Prop} {l : List α} {b : β} {c : γ}
    (hstep : ∀ a ∈ l, ∀ d e, R d e → ∃ d', f d a = some d' ∧ R d' (g e a)) (hbc : R b c) :
    ∃ b', l.foldlM f b = some b' ∧ R b' (l.foldl g c) := by
  induction l generalizing b c with
  | nil => exact ⟨b, rfl, hbc⟩
  | cons a l ih =>
    obtain ⟨d, hd, hR⟩ := hstep a List.mem_cons_self b c hbc
    obtain ⟨b', hb', hR'⟩ := ih (fun x hx => hstep x (List.mem_cons_of_mem a hx)) hR
    exact ⟨b', by rw [List.foldlM_cons, hd]; exact hb', hR'⟩

/-- A loop that meets an entry on which no step is defined has no result. -/
theorem stuck {f : β → α → Option β} {l : List α} {a : α} (ha : a ∈ l) (hf : ∀ c, f c a = none) (b : β) :
    l.foldlM f b = none := by
  induction l generalizing b with
  | nil => cases ha
  | cons x l ih =>
    rw [List.foldlM_cons]
    obtain rfl | ha := List.mem_cons.1 ha
    · rw [hf]
      rfl
    · cases f b x with
      | none => rfl
      | some c => exact ih ha c

theorem idle {f : β → α → Option β} {l : List α} {b : β} (hf : ∀ a ∈ l, f b a = some b) :
    l.foldlM f b = some b := by
  induction l with
  | nil => rfl
  | cons a l ih =>
    rw [List.foldlM_cons, hf a (List.mem_cons_self ..)]
    exact ih fun x hx => hf x (List.mem_cons_of_mem a hx)

/-- A loop that appends an entry for every element that passes a test. -/
theorem collect {f : List β → α → Option (List β)} {keep : α → Bool} {g : α → β} {l : List α}
    (hf : ∀ a ∈ l, ∀ c, f c a = some (if keep a then c ++ [g a] else c)) (b : List β) :
    l.foldlM f b = some (b ++ (l.filter keep).map g) := by
  induction l generalizing b with
  | nil => rw [List.foldlM_nil, List.filter_nil, List.map_nil, List.append_nil]; rfl
  | cons a l ih =>
    have ih := ih fun x hx => hf x (List.mem_cons_of_mem a hx)
    rw [List.foldlM_cons, hf a (List.mem_cons_self ..), Option.bind_eq_bind, Option.bind_some, ih]
    by_cases ha : keep a = true
    · rw [if_pos ha, List.filter_cons_of_pos ha, List.map_cons, List.append_assoc, List.singleton_append]
    · rw [if_neg ha, List.filter_cons_of_neg ha]

end EasyDDB.Loops
