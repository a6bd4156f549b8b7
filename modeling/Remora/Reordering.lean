import Mathlib.Data.List.FinRange
import Mathlib.Data.Set.BooleanAlgebra
import Mathlib.Data.Set.Disjoint
import Mathlib.Logic.Equiv.Basic
import Mathlib.Order.CompletePartialOrder
import Mathlib.Tactic.Common

/-!
# Reorderings of a run

A run takes one step for every entry of a list. `D` says which entries depend on each other.
Lists that differ by swaps of adjacent independent entries (`Swaps`) end in one state if
independent steps commute (`Swaps.foldl_eq`), and then every entry sees the same in both runs
(`Swaps.perm_observations`). A permutation that keeps the order of the dependent entries is a chain
of such swaps (`swaps_of_pairwise`).

Steps commute for a reason : a step reads some keys of a store and changes some keys, and does
not touch what the other one changes (`Local`, `Local.comm`).
-/

namespace Reordering

variable {ι σ γ : Type*}

/-- Lists that differ by swaps of adjacent independent entries. -/
inductive Swaps (D : ι → ι → Prop) : List ι → List ι → Prop
  | nil : Swaps D [] []
  | cons (a : ι) {l l' : List ι} : Swaps D l l' → Swaps D (a :: l) (a :: l')
  | swap {a b : ι} (l : List ι) : ¬ D a b → Swaps D (a :: b :: l) (b :: a :: l)
  | trans {l l' l'' : List ι} : Swaps D l l' → Swaps D l' l'' → Swaps D l l''

/-! ## From an order to swaps -/

section Order

variable {D : ι → ι → Prop} {l l' : List ι}

theorem Swaps.refl : ∀ l : List ι, Swaps D l l
  | [] => .nil
  | a :: l => .cons a (Swaps.refl l)

theorem Swaps.perm (h : Swaps D l l') : l.Perm l' := by
  induction h with
  | nil => exact List.Perm.nil
  | cons a _ ih => exact ih.cons a
  | swap l _ => exact List.Perm.swap _ _ l
  | trans _ _ ih ih' => exact ih.trans ih'

/-- An entry moves to the front over entries it does not depend on. -/
theorem Swaps.moveToFront {b : ι} : ∀ {u : List ι} (v : List ι), (∀ a ∈ u, ¬ D a b) →
    Swaps D (u ++ b :: v) (b :: (u ++ v))
  | [], v, _ => Swaps.refl _
  | a :: u, v, h => by
    rw [List.forall_mem_cons] at h
    exact ((Swaps.moveToFront v h.2).cons a).trans (.swap _ h.1)

/-- A permutation of a sorted list, in which the dependent entries are in order. -/
theorem swaps_of_pairwise [LinearOrder ι] (hl : l.Pairwise (· < ·)) (hperm : l.Perm l')
    (hl' : l'.Pairwise fun a b => D b a → a < b) : Swaps D l l' := by
  induction l' generalizing l with
  | nil =>
    obtain rfl := hperm.eq_nil
    exact .nil
  | cons b l' ih =>
    obtain ⟨u, v, rfl⟩ := List.append_of_mem (hperm.mem_iff.mpr List.mem_cons_self)
    have htail : (u ++ v).Perm l' := (List.perm_middle.symm.trans hperm).cons_inv
    rw [List.pairwise_cons] at hl'
    obtain ⟨-, -, hbefore⟩ := List.pairwise_append.mp hl
    have hfront : ∀ a ∈ u, ¬ D a b := by
      intro a ha hD
      have hab : a < b := hbefore a ha b List.mem_cons_self
      have hba : b < a := hl'.1 a (htail.mem_iff.mp (List.mem_append_left v ha)) hD
      exact lt_asymm hab hba
    have hsorted : (u ++ v).Pairwise (· < ·) :=
      hl.sublist ((List.Sublist.refl u).append (List.sublist_cons_self b v))
    exact (Swaps.moveToFront v hfront).trans ((ih hsorted htail hl'.2).cons b)

/-- The entries are permuted, the `i`-th to the position `π i`, and the dependent ones stay in
order. -/
theorem swaps_ofFn_symm {n : ℕ} {D : Fin n → Fin n → Prop} (π : Equiv.Perm (Fin n))
    (h : ∀ i j, i < j → D i j → π i < π j) : Swaps D (List.finRange n) (List.ofFn π.symm) := by
  have hperm : (List.finRange n).Perm (List.ofFn π.symm) := by
    rw [List.perm_ext_iff_of_nodup (List.nodup_finRange n)
      (List.nodup_ofFn.mpr π.symm.injective)]
    exact fun p => iff_of_true (List.mem_finRange p) (List.mem_ofFn.mpr (π.symm.surjective p))
  refine swaps_of_pairwise (List.pairwise_lt_finRange n) hperm (List.pairwise_ofFn.mpr ?_)
  intro p q hpq hD
  by_contra hle
  have hlt : π.symm q < π.symm p :=
    lt_of_le_of_ne (not_lt.mp hle) fun heq => hpq.ne' (π.symm.injective heq)
  have hqp := h _ _ hlt hD
  rw [Equiv.apply_symm_apply, Equiv.apply_symm_apply] at hqp
  exact lt_asymm hpq hqp

end Order

/-! ## Runs -/

section Runs

variable {D : ι → ι → Prop} {l l' : List ι} {step : σ → ι → σ} {obs : σ → ι → γ}

/-- Both runs end in one state. -/
theorem Swaps.foldl_eq (h : Swaps D l l')
    (hcomm : ∀ a b, ¬ D a b → ∀ s, step (step s a) b = step (step s b) a) (s : σ) :
    l.foldl step s = l'.foldl step s := by
  induction h generalizing s with
  | nil => rfl
  | cons a _ ih => exact ih _
  | swap l hab => rw [List.foldl_cons, List.foldl_cons, hcomm _ _ hab]; rfl
  | trans _ _ ih ih' => exact (ih s).trans (ih' s)

/-- What is observed at each entry, in the state before its step. -/
def observations (step : σ → ι → σ) (obs : σ → ι → γ) : σ → List ι → List (ι × γ)
  | _, [] => []
  | s, a :: l => (a, obs s a) :: observations step obs (step s a) l

theorem map_fst_observations (l : List ι) (s : σ) :
    (observations step obs s l).map Prod.fst = l := by
  induction l generalizing s with
  | nil => rfl
  | cons a l ih => rw [observations, List.map_cons, ih]

/-- The same is observed at every entry, if independent steps do not touch it. -/
theorem Swaps.perm_observations (h : Swaps D l l')
    (hcomm : ∀ a b, ¬ D a b → ∀ s, step (step s a) b = step (step s b) a)
    (hobs : ∀ a b, ¬ D a b → ∀ s, obs (step s a) b = obs s b ∧ obs (step s b) a = obs s a) (s : σ) :
    (observations step obs s l).Perm (observations step obs s l') := by
  induction h generalizing s with
  | nil => exact List.Perm.nil
  | cons a _ ih => exact (ih _).cons _
  | @swap a b l hab =>
    obtain ⟨hb, ha⟩ := hobs a b hab s
    simp only [observations, hcomm a b hab, ha, hb]
    exact List.Perm.swap _ _ _
  | trans _ _ ih ih' => exact (ih s).trans (ih' s)

/-- An entry that occurs once is observed once. -/
theorem observations_unique (hl : l.Nodup) {s : σ} {a : ι} {x y : γ}
    (hx : (a, x) ∈ observations step obs s l) (hy : (a, y) ∈ observations step obs s l) :
    x = y := by
  have hnodup : ((observations step obs s l).map Prod.fst).Nodup := by
    rw [map_fst_observations]
    exact hl
  exact congrArg Prod.snd (List.inj_on_of_nodup_map hnodup hx hy rfl)

end Runs

/-! ## Steps on a store -/

section Stores

variable {κ ν : Type*} {R R' W W' : Set κ} {f g : (κ → ν) → Option (κ → ν)}

/-- A step that reads `R` and changes `W`. What it does to `W`, and whether it fails, depends on
`R` alone. -/
structure Local (R W : Set κ) (f : (κ → ν) → Option (κ → ν)) : Prop where
  others : ∀ {s s'}, f s = some s' → ∀ k ∉ W, s' k = s k
  agree : ∀ {s u s'}, (∀ k ∈ R, u k = s k) → f s = some s' →
    ∃ u', f u = some u' ∧ ∀ k ∈ W, u' k = s' k

theorem Local.isSome (hf : Local R W f) {s u : κ → ν} (h : ∀ k ∈ R, u k = s k)
    (hs : (f s).isSome) : (f u).isSome := by
  obtain ⟨s', hs'⟩ := Option.isSome_iff_exists.mp hs
  obtain ⟨u', hu', -⟩ := hf.agree h hs'
  simp [hu']

/-- If both steps return on a store, both orders do, with one result. -/
theorem Local.bind_eq (hf : Local R W f) (hg : Local R' W' g) (hRW' : Disjoint R W')
    (hWR' : Disjoint W R') (hWW' : Disjoint W W') {s s₁ s₂ : κ → ν} (h₁ : f s = some s₁)
    (h₂ : g s = some s₂) : ∃ u, g s₁ = some u ∧ f s₂ = some u := by
  have hR' : ∀ k ∈ R', s₁ k = s k := fun k hk => hf.others h₁ k (hWR'.notMem_of_mem_right hk)
  have hR : ∀ k ∈ R, s₂ k = s k := fun k hk => hg.others h₂ k (hRW'.notMem_of_mem_left hk)
  obtain ⟨u, hu, hagree⟩ := hg.agree hR' h₂
  obtain ⟨u', hu', hagree'⟩ := hf.agree hR h₁
  have heq : u' = u := by
    funext k
    by_cases hW : k ∈ W
    · rw [hagree' k hW, hg.others hu k (hWW'.notMem_of_mem_left hW)]
    · rw [hf.others hu' k hW]
      by_cases hW' : k ∈ W'
      · exact (hagree k hW').symm
      · rw [hg.others h₂ k hW', hg.others hu k hW', hf.others h₁ k hW]
  exact ⟨u, hu, heq ▸ hu'⟩

/-- Steps commute if neither changes what the other reads or changes. -/
theorem Local.comm (hf : Local R W f) (hg : Local R' W' g) (hRW' : Disjoint R W')
    (hWR' : Disjoint W R') (hWW' : Disjoint W W') (s : κ → ν) :
    (f s).bind g = (g s).bind f := by
  cases h₁ : f s with
  | none =>
    cases h₂ : g s with
    | none => rfl
    | some s₂ =>
      have hR : ∀ k ∈ R, s k = s₂ k := fun k hk =>
        (hg.others h₂ k (hRW'.notMem_of_mem_left hk)).symm
      by_contra hne
      have hsome := hf.isSome hR (Option.isSome_iff_ne_none.mpr (Ne.symm hne))
      simp [h₁] at hsome
  | some s₁ =>
    cases h₂ : g s with
    | none =>
      have hR' : ∀ k ∈ R', s k = s₁ k := fun k hk =>
        (hf.others h₁ k (hWR'.notMem_of_mem_right hk)).symm
      by_contra hne
      have hsome := hg.isSome hR' (Option.isSome_iff_ne_none.mpr hne)
      simp [h₂] at hsome
    | some s₂ =>
      obtain ⟨u, hu, hu'⟩ := hf.bind_eq hg hRW' hWR' hWW' h₁ h₂
      exact hu.trans hu'.symm

end Stores

end Reordering
