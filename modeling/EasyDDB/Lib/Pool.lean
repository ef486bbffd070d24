import EasyDDB.Lib.Runs
import Mathlib.Algebra.Order.BigOperators.Group.List
import Mathlib.Algebra.Order.Ring.Nat
import Mathlib.Data.List.Perm.Basic

/-! # Pools of processes over a shared store

A pool runs sequential processes that share a store.  One step picks a process, lets it act once on the store,
and puts the processes that go on in its place back into the pool; the events it emits are kept in a log.
`Reachable` are the states of all interleavings, `Leads` the runs of a pool up to the order in which the processes
are listed. -/
namespace EasyDDB.Pool
open Runs
set_option autoImplicit false

/-- What one action of a process leaves. -/
structure Outcome (S P V : Type) where
  store : S
  procs : List P
  events : List V

structure State (S P V : Type) where
  store : S
  procs : List P
  log : List V

variable {S P V E : Type}

/-- The process at position `c.1` acts in the environment `c.2`. -/
def step (act : E → S → P → Option (Outcome S P V)) (s : State S P V) (c : Nat × E) : Option (State S P V) := do
  let p ← s.procs[c.1]?
  let o ← act c.2 s.store p
  some ⟨o.store, s.procs.eraseIdx c.1 ++ o.procs, s.log ++ o.events⟩

/-- The runs from `s`, in any interleaving. -/
def Reachable (act : E → S → P → Option (Outcome S P V)) (s t : State S P V) : Prop :=
  Reaches (step act) (fun _ _ => True) s t

variable {act : E → S → P → Option (Outcome S P V)} {C : State S P V → Nat × E → Prop} {s t u : State S P V}

/-! ## Steps -/

/-- A step is an action of one process of the pool; the other processes stay. -/
theorem step_cases {c : Nat × E} (h : step act s c = some t) :
    ∃ p o rest, act c.2 s.store p = some o ∧ s.procs.Perm (p :: rest) ∧
      t = ⟨o.store, rest ++ o.procs, s.log ++ o.events⟩ := by
  simp only [step, Option.bind_eq_bind, Option.bind_eq_some_iff] at h
  obtain ⟨p, hp, o, ho, ht⟩ := h
  obtain ⟨hlt, hget⟩ := List.getElem?_eq_some_iff.1 hp
  refine ⟨p, o, s.procs.eraseIdx c.1, ho, ?_, (Option.some.inj ht).symm⟩
  rw [← hget]
  exact (List.getElem_cons_eraseIdx_perm hlt).symm

theorem exists_step {p : P} {rest : List P} {o : Outcome S P V} {env : E} (hp : s.procs.Perm (p :: rest))
    (ho : act env s.store p = some o) :
    ∃ c t, step act s c = some t ∧ t.store = o.store ∧ t.procs.Perm (o.procs ++ rest) ∧
      t.log = s.log ++ o.events := by
  obtain ⟨k, hk, hget⟩ := List.getElem_of_mem (hp.symm.subset (List.mem_cons_self ..))
  refine ⟨(k, env), ⟨o.store, s.procs.eraseIdx k ++ o.procs, s.log ++ o.events⟩, ?_, rfl, ?_, rfl⟩
  · simp only [step, Option.bind_eq_bind, List.getElem?_eq_getElem hk, hget, Option.bind_some, ho]
  · have herase : (p :: s.procs.eraseIdx k).Perm (p :: rest) := by
      rw [← hget]
      exact (List.getElem_cons_eraseIdx_perm hk).trans (hget ▸ hp)
    exact (List.perm_append_comm).trans ((List.Perm.cons_inv herase).append_left o.procs)

/-! ## Runs -/

/-- An invariant of the store and the log together with an invariant of each process: an action keeps the
first, gives the second to the processes that go on, and does not disturb it for the others. -/
theorem local_invariant {G : S → List V → Prop} {L : S → List V → P → Prop}
    (hglobal : ∀ env st log p o, G st log → L st log p → act env st p = some o → G o.store (log ++ o.events))
    (hlocal : ∀ env st log p o, G st log → L st log p → act env st p = some o →
      ∀ q ∈ o.procs, L o.store (log ++ o.events) q)
    (hstable : ∀ env st log p o q, G st log → L st log p → act env st p = some o → L st log q →
      L o.store (log ++ o.events) q)
    (hG : G s.store s.log) (hL : ∀ p ∈ s.procs, L s.store s.log p) (h : Reaches (step act) C s t) :
    G t.store t.log ∧ ∀ p ∈ t.procs, L t.store t.log p := by
  refine h.invariant (I := fun t => G t.store t.log ∧ ∀ p ∈ t.procs, L t.store t.log p) ?_ ⟨hG, hL⟩
  rintro t t' c - ⟨hGt, hLt⟩ - hstep
  obtain ⟨p, o, rest, ho, hperm, rfl⟩ := step_cases hstep
  have hp : L t.store t.log p := hLt p (hperm.symm.subset (List.mem_cons_self ..))
  refine ⟨hglobal c.2 t.store t.log p o hGt hp ho, fun q hq => ?_⟩
  rcases List.mem_append.1 hq with hq | hq
  · exact hstable c.2 t.store t.log p o q hGt hp ho (hLt q (hperm.symm.subset (List.mem_cons_of_mem p hq)))
  · exact hlocal c.2 t.store t.log p o hGt hp ho q hq

/-! ## The weight of a pool -/

/-- The sum of what the processes weigh. -/
def weight (w : S → P → Nat) (s : State S P V) : Nat := (s.procs.map (w s.store)).sum

/-- A step in which the process that acts leaves less than its own weight, while no other process gets heavier,
lowers the weight of the pool. -/
theorem weight_lt {w : S → P → Nat} {c : Nat × E} (h : step act s c = some t)
    (hact : ∀ p ∈ s.procs, ∀ o, act c.2 s.store p = some o →
      (o.procs.map (w o.store)).sum < w s.store p ∧ ∀ q, w o.store q ≤ w s.store q) : weight w t < weight w s := by
  obtain ⟨p, o, rest, ho, hperm, rfl⟩ := step_cases h
  obtain ⟨hlt, hle⟩ := hact p (hperm.symm.subset (List.mem_cons_self ..)) o ho
  have hrest : (rest.map (w o.store)).sum ≤ (rest.map (w s.store)).sum :=
    List.sum_le_sum fun q _ => hle q
  have hsum : weight w s = w s.store p + (rest.map (w s.store)).sum := by
    rw [weight, (hperm.map _).sum_eq, List.map_cons, List.sum_cons]
  rw [hsum]
  show ((rest ++ o.procs).map (w o.store)).sum < _
  rw [List.map_append, List.sum_append]
  omega

/-! ## Runs up to the order of the processes -/

/-- A run that ends in `t` up to the order of its processes. -/
def Leads (act : E → S → P → Option (Outcome S P V)) (s t : State S P V) : Prop :=
  ∃ t', Reachable act s t' ∧ t'.store = t.store ∧ t'.procs.Perm t.procs ∧ t'.log = t.log

theorem Leads.of_perm (hstore : s.store = t.store) (hprocs : s.procs.Perm t.procs) (hlog : s.log = t.log) :
    Leads act s t :=
  ⟨s, .refl, hstore, hprocs, hlog⟩

theorem Leads.refl : Leads act s s :=
  .of_perm rfl (.refl _) rfl

theorem Leads.of_reachable {s' : State S P V} (h : Reachable act s t) (hstore : s'.store = s.store)
    (hprocs : s'.procs.Perm s.procs) (hlog : s'.log = s.log) : Leads act s' t := by
  induction h with
  | refl => exact .of_perm hstore hprocs hlog
  | tail _ _ hstep ih =>
    obtain ⟨u', hreach, hustore, huprocs, hulog⟩ := ih
    obtain ⟨p, o, rest, ho, hperm, rfl⟩ := step_cases hstep
    obtain ⟨c, v, hv, hvstore, hvprocs, hvlog⟩ := exists_step (huprocs.trans hperm) (hustore ▸ ho)
    exact ⟨v, hreach.tail trivial hv, hvstore, hvprocs.trans List.perm_append_comm, by rw [hvlog, hulog]⟩

theorem Leads.trans (hst : Leads act s t) (htu : Leads act t u) : Leads act s u := by
  obtain ⟨t', hreach, hstore, hprocs, hlog⟩ := hst
  obtain ⟨u', hreach', hustore, huprocs, hulog⟩ := htu
  obtain ⟨v, hv, hvstore, hvprocs, hvlog⟩ := Leads.of_reachable hreach' hstore hprocs hlog
  exact ⟨v, Reaches.trans hreach hv, hvstore.trans hustore, hvprocs.trans huprocs, hvlog.trans hulog⟩

theorem Leads.single {p : P} {rest procs : List P} {o : Outcome S P V} {st : S} {log : List V} (env : E)
    (ho : act env st p = some o) (hprocs : o.procs ++ rest = procs) :
    Leads act ⟨st, p :: rest, log⟩ ⟨o.store, procs, log ++ o.events⟩ := by
  obtain ⟨c, v, hv, hstore, hperm, hlog⟩ := exists_step (s := ⟨st, p :: rest, log⟩) (.refl (p :: rest)) ho
  exact ⟨v, Reaches.refl.tail trivial hv, hstore, hprocs ▸ hperm, hlog⟩

theorem Leads.silent {p : P} {next rest procs : List P} {st st' : S} {log : List V} (env : E)
    (ho : act env st p = some ⟨st', next, []⟩) (hprocs : next ++ rest = procs) :
    Leads act ⟨st, p :: rest, log⟩ ⟨st', procs, log⟩ := by
  have h : Leads act ⟨st, p :: rest, log⟩ ⟨st', procs, log ++ []⟩ := Leads.single env ho hprocs
  rw [List.append_nil] at h
  exact h

theorem Leads.swap {procs procs' : List P} {st : S} {log : List V} (h : procs.Perm procs') :
    Leads act ⟨st, procs, log⟩ ⟨st, procs', log⟩ :=
  .of_perm rfl h rfl

end EasyDDB.Pool
