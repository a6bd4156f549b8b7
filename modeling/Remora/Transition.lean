import Mathlib.Logic.Function.Basic
import Mathlib.Tactic.Common

/-!
# Transition systems

A system is an initial-state predicate and a partial step for each event. Everything a
concurrent program can do is a sequence of events, each of them taken by one of its
threads or by its environment, so a property of every interleaving is a property of
every reachable state.

`ReachableVia ok` is reachability along steps that all meet `ok`, a condition on the
state before the step and the event. `Reachable` asks nothing of the steps.
`ReachableVia.invariant` is the induction every safety proof goes through. A measure that
every step decreases bounds a run (`length_add_measure_le`), and leads to a state in which
nothing is enabled (`exists_terminal`).
-/

namespace Transition

variable {σ ε : Type*}

/-- Initial states, and what each event does to a state. `none` : the event is not
enabled there. -/
structure System (σ ε : Type*) where
  init : σ → Prop
  step : σ → ε → Option σ

namespace System

variable (S : System σ ε)

/-- Reachable along steps that all meet `ok`. -/
inductive ReachableVia (ok : σ → ε → Prop) : σ → Prop
  | init {s : σ} : S.init s → ReachableVia ok s
  | step {s s' : σ} {e : ε} : ReachableVia ok s → ok s e → S.step s e = some s' →
      ReachableVia ok s'

/-- Reachable along any steps. -/
def Reachable (s : σ) : Prop :=
  S.ReachableVia (fun _ _ => True) s

/-- `s'` is reached from `s` by some steps. -/
inductive Steps : σ → σ → Prop
  | refl (s : σ) : Steps s s
  | tail {s s' s'' : σ} {e : ε} : Steps s s' → S.step s' e = some s'' → Steps s s''

/-- The events `es` in order, if each of them is enabled. -/
def run : σ → List ε → Option σ
  | s, [] => some s
  | s, e :: es => (S.step s e).bind fun s' => run s' es

/-- The events `es` in order, if each of them is enabled and meets `ok`. -/
def runVia (ok : σ → ε → Prop) [∀ s e, Decidable (ok s e)] : σ → List ε → Option σ
  | s, [] => some s
  | s, e :: es => if ok s e then (S.step s e).bind fun s' => runVia ok s' es else none

variable {S}

theorem Reachable.init {s : σ} (h : S.init s) : S.Reachable s :=
  ReachableVia.init h

theorem Reachable.step {s s' : σ} {e : ε} (h : S.Reachable s) (hs : S.step s e = some s') :
    S.Reachable s' :=
  ReachableVia.step h trivial hs

theorem ReachableVia.mono {ok ok' : σ → ε → Prop} (hok : ∀ s e, ok s e → ok' s e) {s : σ}
    (h : S.ReachableVia ok s) : S.ReachableVia ok' s := by
  induction h with
  | init h => exact .init h
  | step _ he hs ih => exact .step ih (hok _ _ he) hs

/-- What holds initially and survives every step taken from a state reached so far
holds in every state reached. -/
theorem ReachableVia.invariant {ok : σ → ε → Prop} {I : σ → Prop}
    (hinit : ∀ s, S.init s → I s)
    (hstep : ∀ s e s', S.ReachableVia ok s → I s → ok s e → S.step s e = some s' → I s')
    {s : σ} (h : S.ReachableVia ok s) : I s := by
  induction h with
  | init h => exact hinit _ h
  | step hr hok hs ih => exact hstep _ _ _ hr ih hok hs

theorem Reachable.invariant {I : σ → Prop} (hinit : ∀ s, S.init s → I s)
    (hstep : ∀ s e s', S.Reachable s → I s → S.step s e = some s' → I s')
    {s : σ} (h : S.Reachable s) : I s :=
  ReachableVia.invariant hinit (fun s e s' hr hi _ hs => hstep s e s' hr hi hs) h

theorem Reachable.steps {s s' : σ} (h : S.Reachable s) (hs : S.Steps s s') :
    S.Reachable s' := by
  induction hs with
  | refl => exact h
  | tail _ he ih => exact ih.step he

/-- A property that one step never undoes is never undone. -/
theorem Steps.preserves {I : σ → Prop} (hstep : ∀ s e s', I s → S.step s e = some s' → I s')
    {s s' : σ} (h : S.Steps s s') (hi : I s) : I s' := by
  induction h with
  | refl => exact hi
  | tail _ he ih => exact hstep _ _ _ ih he

theorem reachable_run {s s' : σ} (h : S.Reachable s) :
    ∀ {es : List ε}, S.run s es = some s' → S.Reachable s'
  | [], hr => by
    obtain rfl : s = s' := Option.some.inj hr
    exact h
  | e :: es, hr => by
    obtain ⟨t, ht, hr⟩ := Option.bind_eq_some_iff.mp hr
    exact reachable_run (h.step ht) hr

theorem reachableVia_runVia {ok : σ → ε → Prop} [∀ s e, Decidable (ok s e)] {s s' : σ}
    (h : S.ReachableVia ok s) :
    ∀ {es : List ε}, S.runVia ok s es = some s' → S.ReachableVia ok s'
  | [], hr => by
    obtain rfl : s = s' := Option.some.inj hr
    exact h
  | e :: es, hr => by
    simp only [runVia] at hr
    split_ifs at hr with hok
    obtain ⟨t, ht, hr⟩ := Option.bind_eq_some_iff.mp hr
    exact reachableVia_runVia (h.step hok ht) hr

theorem Steps.head {s s' s'' : σ} {e : ε} (h : S.Steps s' s'') (he : S.step s e = some s') :
    S.Steps s s'' := by
  induction h with
  | refl => exact .tail (.refl s) he
  | tail _ ht ih => exact .tail ih ht

theorem Steps.trans {s s' s'' : σ} (h : S.Steps s s') (h' : S.Steps s' s'') : S.Steps s s'' := by
  induction h' with
  | refl => exact h
  | tail _ he ih => exact .tail ih he

theorem steps_of_run {s s' : σ} : ∀ {es : List ε}, S.run s es = some s' → S.Steps s s'
  | [], hr => by
    obtain rfl : s = s' := Option.some.inj hr
    exact .refl s
  | e :: es, hr => by
    obtain ⟨t, ht, hr⟩ := Option.bind_eq_some_iff.mp hr
    exact (steps_of_run hr).head ht

/-- A run is no longer than a measure that its steps decrease, on states where the
invariant holds. -/
theorem length_add_measure_le {I : σ → Prop} {μ : σ → ℕ}
    (hI : ∀ s e s', I s → S.step s e = some s' → I s')
    (hμ : ∀ s e s', I s → S.step s e = some s' → μ s' < μ s) :
    ∀ {s s' : σ} {es : List ε}, I s → S.run s es = some s' → es.length + μ s' ≤ μ s
  | s, s', [], _, hr => by
    obtain rfl : s = s' := Option.some.inj hr
    simp
  | s, s', e :: es, hi, hr => by
    obtain ⟨t, ht, hr⟩ := Option.bind_eq_some_iff.mp hr
    have h1 := hμ s e t hi ht
    have h2 := length_add_measure_le hI hμ (hI s e t hi ht) hr
    simp only [List.length_cons]
    omega

/-- If every step decreases a measure, some steps lead to a state in which nothing is enabled. -/
theorem exists_terminal {I : σ → Prop} {μ : σ → ℕ}
    (hI : ∀ s e s', I s → S.step s e = some s' → I s')
    (hμ : ∀ s e s', I s → S.step s e = some s' → μ s' < μ s) {s : σ} (hi : I s) :
    ∃ s', S.Steps s s' ∧ I s' ∧ ∀ e, S.step s' e = none := by
  induction hn : μ s using Nat.strongRecOn generalizing s with
  | _ n ih =>
    by_cases hstep : ∃ e s', S.step s e = some s'
    · obtain ⟨e, s₁, hs⟩ := hstep
      obtain ⟨s', hsteps, hi', hnone⟩ := ih (μ s₁) (hn ▸ hμ s e s₁ hi hs) (hI s e s₁ hi hs) rfl
      exact ⟨s', hsteps.head hs, hi', hnone⟩
    · simp only [not_exists] at hstep
      exact ⟨s, .refl s, hi, fun e => Option.eq_none_iff_forall_ne_some.mpr (hstep e)⟩

end System

end Transition
