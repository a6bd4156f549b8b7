import Remora.Transition
import Mathlib.Algebra.BigOperators.Finprod
import Mathlib.Order.WellFounded

/-!
# Systems that come to rest

Some events of a system are its own, and others come from outside. `Next own` are the steps by
its own events. If they decrease a measure in a well-founded order, there is no infinite run of
them (`not_forever`), and whatever the system does by itself ends in a state in which it can do
nothing (`exists_rest`). A measure in `ℕ` bounds the number of these steps (`length_le_measure`).

The measure of a pool of threads is the sum of what each of them has left to do
(`Potential.total`). A thread that acts and starts another one gives up more than it
starts (`Potential.total_lt_of_spawn`).
-/

namespace Transition.System

variable {σ ε : Type*} (S : System σ ε) (own : σ → ε → Prop)

/-- `s'` comes after `s` by an event in `own`. -/
def Next (s' s : σ) : Prop :=
  ∃ e, own s e ∧ S.step s e = some s'

variable {S own} {s s' : σ}

/-- Runs of the events in `own` end if each of them decreases a measure, on states where the
invariant holds. -/
theorem acc_of_decreases {α : Type*} {r : α → α → Prop} (hr : WellFounded r) {I : σ → Prop}
    {μ : σ → α} (hI : ∀ s s', I s → S.Next own s' s → I s')
    (hμ : ∀ s s', I s → S.Next own s' s → r (μ s') (μ s)) (hi : I s) : Acc (S.Next own) s := by
  induction hm : μ s using hr.induction generalizing s with
  | _ m ih =>
    subst hm
    exact .intro s fun s' hs => ih (μ s') (hμ s s' hi hs) (hI s s' hi hs) rfl

/-- No run of the events in `own` goes on forever. -/
theorem not_forever (h : Acc (S.Next own) s) (run : ℕ → σ) (h0 : run 0 = s) :
    ∃ n, ¬S.Next own (run (n + 1)) (run n) := by
  induction h generalizing run with
  | intro s _ ih =>
    by_cases hs : S.Next own (run 1) (run 0)
    · obtain ⟨n, hn⟩ := ih (run 1) (h0 ▸ hs) (fun n => run (n + 1)) rfl
      exact ⟨n + 1, hn⟩
    · exact ⟨0, hs⟩

/-- Runs of the events in `own` lead to a state in which none of them is enabled. -/
theorem exists_rest (h : Acc (S.Next own) s) :
    ∃ s', Relation.ReflTransGen (flip (S.Next own)) s s' ∧ ∀ e, own s' e → S.step s' e = none := by
  induction h with
  | intro s _ ih =>
    by_cases hs : ∃ s', S.Next own s' s
    · obtain ⟨s₁, hs₁⟩ := hs
      obtain ⟨s', hsteps, hrest⟩ := ih s₁ hs₁
      exact ⟨s', hsteps.head hs₁, hrest⟩
    · refine ⟨s, .refl, fun e he => ?_⟩
      cases hstep : S.step s e with
      | none => rfl
      | some s' => exact absurd ⟨s', e, he, hstep⟩ hs

theorem steps_of_next (h : Relation.ReflTransGen (flip (S.Next own)) s s') : S.Steps s s' := by
  induction h with
  | refl => exact .refl s
  | tail _ hs ih =>
    obtain ⟨e, -, he⟩ := hs
    exact ih.tail he

theorem next_of_runVia [∀ s e, Decidable (own s e)] :
    ∀ {s s' : σ} {es : List ε}, S.runVia own s es = some s' →
      Relation.ReflTransGen (flip (S.Next own)) s s'
  | s, s', [], hr => by
    obtain rfl : s = s' := Option.some.inj hr
    exact .refl
  | s, s', e :: es, hr => by
    simp only [runVia] at hr
    split_ifs at hr with hown
    obtain ⟨t, ht, hr⟩ := Option.bind_eq_some_iff.mp hr
    exact (next_of_runVia hr).head ⟨e, hown, ht⟩

/-- A run of the events in `own` is no longer than a measure that each of them decreases. -/
theorem length_le_measure [∀ s e, Decidable (own s e)] {I : σ → Prop} {μ : σ → ℕ}
    (hI : ∀ s s', I s → S.Next own s' s → I s')
    (hμ : ∀ s s', I s → S.Next own s' s → μ s' < μ s) :
    ∀ {s s' : σ} {es : List ε}, I s → S.runVia own s es = some s' → es.length ≤ μ s
  | s, _, [], _, _ => Nat.zero_le (μ s)
  | s, s', e :: es, hi, hr => by
    simp only [runVia] at hr
    split_ifs at hr with hown
    obtain ⟨t, ht, hr⟩ := Option.bind_eq_some_iff.mp hr
    have hnext : S.Next own t s := ⟨e, hown, ht⟩
    have hlt := hμ s t hi hnext
    have hlen := length_le_measure hI hμ (hI s t hi hnext) hr
    simp only [List.length_cons]
    omega

end Transition.System

namespace Potential

open Function

variable {Θ A : Type*} (w : A → ℕ) (f : Θ → Option A)

/-- What is there weighs, nothing does not. -/
def value : Option A → ℕ
  | some a => w a
  | none => 0

/-- Only finitely many are there. -/
def Bounded : Prop :=
  {u | f u ≠ none}.Finite

/-- The weight of all that is there. -/
noncomputable def total : ℕ :=
  ∑ᶠ u, value w (f u)

variable {w f}

theorem total_eq_sum {U : Finset Θ} (hU : ∀ u, f u ≠ none → u ∈ U) :
    total w f = ∑ u ∈ U, value w (f u) := by
  refine finsum_eq_sum_of_support_subset _ fun u hu => hU u fun hnone => hu ?_
  simp [hnone, value]

section Update

variable [DecidableEq Θ]

/-- What is put in the place of `t` counts instead of it. -/
theorem sum_update {B : Type*} (g : B → ℕ) (f : Θ → B) {U : Finset Θ} {t : Θ} (ht : t ∈ U)
    (y : B) : ∑ u ∈ U, g (update f t y u) + g (f t) = ∑ u ∈ U, g (f u) + g y := by
  have hrest : ∑ u ∈ U.erase t, g (update f t y u) = ∑ u ∈ U.erase t, g (f u) :=
    Finset.sum_congr rfl fun u hu => by rw [update_of_ne (Finset.ne_of_mem_erase hu)]
  rw [← Finset.add_sum_erase _ _ ht, ← Finset.add_sum_erase _ (fun u => g (f u)) ht, hrest,
    update_self]
  omega

theorem Bounded.update (h : Bounded f) (t : Θ) (y : Option A) : Bounded (update f t y) := by
  refine (h.insert t).subset fun u hu => ?_
  rcases eq_or_ne u t with rfl | hne
  · exact Set.mem_insert _ _
  · exact Set.mem_insert_of_mem _ (by simpa [hne] using hu)

theorem total_update (h : Bounded f) (t : Θ) (y : Option A) :
    total w (update f t y) + value w (f t) = total w f + value w y := by
  have hf : ∀ u, f u ≠ none → u ∈ insert t h.toFinset := fun u hu =>
    Finset.mem_insert_of_mem (h.mem_toFinset.mpr hu)
  have hg : ∀ u, update f t y u ≠ none → u ∈ insert t h.toFinset := by
    intro u hu
    rcases eq_or_ne u t with rfl | hne
    · exact Finset.mem_insert_self _ _
    · exact hf u (by simpa [hne] using hu)
  rw [total_eq_sum hf, total_eq_sum hg]
  exact sum_update (value w) f (Finset.mem_insert_self _ _) y

/-- A thread that does something has less left to do. -/
theorem total_lt (h : Bounded f) {t : Θ} {x y : A} (hx : f t = some x) (hy : w y < w x) :
    total w (update f t (some y)) < total w f := by
  have hsum := total_update (w := w) h t (some y)
  simp only [hx, value] at hsum
  omega

/-- Also if it starts another one, which has less to do than it gives up. -/
theorem total_lt_of_spawn (h : Bounded f) {t u : Θ} {x y z : A} (hx : f t = some x)
    (hy : w y + w z < w x) : total w (update (update f u (some z)) t (some y)) < total w f := by
  have h1 := total_update (w := w) h u (some z)
  have h2 := total_update (w := w) (h.update u (some z)) t (some y)
  rcases eq_or_ne t u with rfl | hne
  · simp only [hx, value, update_self] at h1 h2
    omega
  · rw [update_of_ne hne] at h2
    simp only [hx, value] at h1 h2
    omega

end Update

theorem bounded_none : Bounded (fun _ : Θ => (none : Option A)) := by
  simp [Bounded]

end Potential
