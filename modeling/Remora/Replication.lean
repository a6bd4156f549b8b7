import Mathlib.Logic.Function.Basic
import Mathlib.Logic.Relation
import Mathlib.Order.Nat
import Mathlib.Tactic.Common

/-!
# Copies of a versioned value

Each place has a copy of a value, or none, and a value has a version. A copy is written with a
value newer than every copy, or it is fetched, replaced by the newest one (`Update`). Then
copies of one version are equal (`Update.agree`), and no place ever goes back to an older version
(`Update.le`).

A place that reads the newest copy reads what was written last, wherever that was.
-/

namespace Replication

open Function Relation

variable {P V : Type*} {ver : V → ℕ} {c c' : P → Option V}

variable (ver) in
/-- `x` is a copy, and no copy is newer. -/
structure Newest (c : P → Option V) (x : V) : Prop where
  copy : ∃ p, c p = some x
  le : ∀ q y, c q = some y → ver y ≤ ver x

variable (ver) in
/-- Copies of one version are equal. -/
def Agree (c : P → Option V) : Prop :=
  ∀ p q x y, c p = some x → c q = some y → ver x = ver y → x = y

theorem Newest.eq (hc : Agree ver c) {x y : V} (hx : Newest ver c x) (hy : Newest ver c y) :
    x = y := by
  obtain ⟨p, hp⟩ := hx.copy
  obtain ⟨q, hq⟩ := hy.copy
  exact hc p q x y hp hq (le_antisymm (hy.le p x hp) (hx.le q y hq))

/-- Equal copies agree. -/
theorem Agree.const {x : Option V} (h : ∀ p, c p = x) : Agree ver c := by
  intro p q y z hy hz _
  rw [h] at hy hz
  exact Option.some.inj (hy.symm.trans hz)

theorem newest_const_iff [Nonempty P] {x : Option V} (h : ∀ p, c p = x) {y : V} :
    Newest ver c y ↔ x = some y := by
  refine ⟨fun ⟨⟨p, hp⟩, _⟩ => (h p).symm.trans hp, fun hx => ⟨?_, fun q z hz => ?_⟩⟩
  · exact ⟨Classical.arbitrary P, (h _).trans hx⟩
  · obtain rfl := Option.some.inj (hx.symm.trans ((h q).symm.trans hz))
    exact le_rfl

variable [DecidableEq P]

variable (ver) in
/-- What may happen to the copies. -/
inductive Update (c : P → Option V) : (P → Option V) → Prop
  /-- A new version is written at `p`. -/
  | write {p : P} {x : V} : (∀ q y, c q = some y → ver y < ver x) →
      Update c (update c p (some x))
  /-- The newest copy comes to `p`. -/
  | fetch {p : P} {x : V} : Newest ver c x → Update c (update c p (some x))

/-- A copy after `p` was set. -/
theorem update_cases {p q : P} {x y : V} (h : update c p (some x) q = some y) :
    (q = p ∧ y = x) ∨ (q ≠ p ∧ c q = some y) := by
  rcases eq_or_ne q p with rfl | hne
  · rw [update_self] at h
    exact Or.inl ⟨rfl, (Option.some.inj h).symm⟩
  · rw [update_of_ne hne] at h
    exact Or.inr ⟨hne, h⟩

namespace Update

theorem agree (h : Update ver c c') (hc : Agree ver c) : Agree ver c' := by
  intro q r y z hy hz heq
  cases h with
  | @write p x hlt =>
    rcases update_cases hy with ⟨-, rfl⟩ | ⟨-, hy'⟩ <;>
      rcases update_cases hz with ⟨-, rfl⟩ | ⟨-, hz'⟩
    · rfl
    · exact absurd heq (hlt r z hz').ne'
    · exact absurd heq (hlt q y hy').ne
    · exact hc q r y z hy' hz' heq
  | @fetch p x hx =>
    obtain ⟨p', hp'⟩ := hx.copy
    rcases update_cases hy with ⟨-, rfl⟩ | ⟨-, hy'⟩ <;>
      rcases update_cases hz with ⟨-, rfl⟩ | ⟨-, hz'⟩
    · rfl
    · exact hc p' r y z hp' hz' heq
    · exact hc q p' y z hy' hp' heq
    · exact hc q r y z hy' hz' heq

/-- No place goes back to an older version. -/
theorem le (h : Update ver c c') {q : P} {y : V} (hy : c q = some y) :
    ∃ z, c' q = some z ∧ ver y ≤ ver z := by
  cases h with
  | @write p x hlt =>
    rcases eq_or_ne q p with rfl | hne
    · exact ⟨x, by simp, (hlt q y hy).le⟩
    · exact ⟨y, by rwa [update_of_ne hne], le_rfl⟩
  | @fetch p x hx =>
    rcases eq_or_ne q p with rfl | hne
    · exact ⟨x, by simp, hx.le q y hy⟩
    · exact ⟨y, by rwa [update_of_ne hne], le_rfl⟩

end Update

/-- Over any number of updates. -/
theorem le_of_updates (h : ReflTransGen (Update ver) c c') {q : P} {y : V} (hy : c q = some y) :
    ∃ z, c' q = some z ∧ ver y ≤ ver z := by
  induction h with
  | refl => exact ⟨y, hy, le_rfl⟩
  | tail _ hu ih =>
    obtain ⟨z, hz, hle⟩ := ih
    obtain ⟨w, hw, hle'⟩ := hu.le hz
    exact ⟨w, hw, hle.trans hle'⟩

end Replication
