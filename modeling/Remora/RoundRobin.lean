import Mathlib.Data.Nat.Count
import Mathlib.Tactic.Common

/-!
# Turns of equal length

`N` parties take turns of length `T`, so that each step belongs to one of them (`turn`). A counter
that is reset at the end of a turn tells when it ends (`turn_succ`, `succ_mod`). In every `N * T`
steps in a row each party has `T` of them (`count_turn`).
-/

namespace RoundRobin

variable {T N : ℕ}

/-- Whose turn it is in the step `n`. -/
def turn (T N n : ℕ) : ℕ :=
  n / T % N

theorem turn_lt (hN : 0 < N) (n : ℕ) : turn T N n < N :=
  Nat.mod_lt _ hN

/-- The turn ends when the counter has come to its length. -/
theorem le_succ_mod_iff (hT : 0 < T) (n : ℕ) : T ≤ n % T + 1 ↔ T ∣ n + 1 := by
  have hlt := Nat.mod_lt n hT
  rw [Nat.dvd_iff_mod_eq_zero, Nat.add_mod]
  constructor
  · intro h
    have hlast : n % T = T - 1 := by omega
    rcases Nat.eq_or_lt_of_le hT with rfl | hT'
    · exact Nat.mod_one _
    · rw [hlast, Nat.mod_eq_of_lt hT', Nat.sub_add_cancel hT, Nat.mod_self]
  · intro h
    by_contra hnot
    have hT' : 1 < T := by omega
    rw [Nat.mod_eq_of_lt hT', Nat.mod_eq_of_lt (by omega)] at h
    omega

theorem succ_mod (hT : 0 < T) (n : ℕ) :
    (n + 1) % T = if T ≤ n % T + 1 then 0 else n % T + 1 := by
  split_ifs with h
  · exact Nat.mod_eq_zero_of_dvd ((le_succ_mod_iff hT n).mp h)
  · have hT' : 1 < T := by omega
    rw [Nat.add_mod, Nat.mod_eq_of_lt hT', Nat.mod_eq_of_lt (by omega)]

theorem turn_succ (hT : 0 < T) (n : ℕ) :
    turn T N (n + 1) = if T ≤ n % T + 1 then (turn T N n + 1) % N else turn T N n := by
  unfold turn
  split_ifs with h
  · rw [Nat.succ_div_of_dvd ((le_succ_mod_iff hT n).mp h), Nat.mod_add_mod]
  · rw [Nat.succ_div_of_not_dvd fun hdvd => h ((le_succ_mod_iff hT n).mpr hdvd)]

/-! ## Fairness -/

section Fair

variable {p : ℕ → Prop} [DecidablePred p]

/-- A period has the same count wherever it begins. -/
theorem count_window {c : ℕ} (hp : ∀ k, p (c + k) ↔ p k) (a : ℕ) :
    Nat.count (fun k => p (a + k)) c = Nat.count p c := by
  have hleft := Nat.count_add p a c
  have hright := Nat.count_add p c a
  have hshift : Nat.count (fun k => p (c + k)) a = Nat.count p a := by
    simp only [hp]
  rw [Nat.add_comm a c, hright, hshift] at hleft
  omega

/-- Elements of a list that are known by their places. -/
theorem countP_eq_count {α : Type*} {l : List α} {q : α → Bool}
    (h : ∀ k x, l[k]? = some x → (q x = true ↔ p k)) : l.countP q = Nat.count p l.length := by
  induction l generalizing p with
  | nil => rfl
  | cons x l ih =>
    have htail := ih (p := fun k => p (k + 1)) fun k y hy => h (k + 1) y hy
    have hhead := h 0 x rfl
    rw [List.length_cons, Nat.count_succ', List.countP_cons, htail]
    simp only [hhead]

end Fair

theorem turn_of_lt (hT : 0 < T) {m k : ℕ} (hm : m < N) (hk : k < T) :
    turn T N (m * T + k) = m := by
  rw [turn, Nat.mul_comm, Nat.mul_add_div hT, Nat.div_eq_of_lt hk, Nat.add_zero,
    Nat.mod_eq_of_lt hm]

/-- In the first turns, those of a party are its own one. -/
theorem count_turn_of_le (hT : 0 < T) {j m : ℕ} (hm : m ≤ N) :
    Nat.count (fun k => turn T N k = j) (m * T) = if j < m then T else 0 := by
  induction m with
  | zero => simp
  | succ m ih =>
    rw [Nat.succ_mul, Nat.count_add, ih (Nat.le_of_succ_le hm)]
    have hturn : ∀ k < T, turn T N (m * T + k) = m := fun k hk => turn_of_lt hT hm hk
    rcases eq_or_ne m j with rfl | hne
    · rw [Nat.count_of_forall fun {k} hk => hturn k hk]
      simp
    · rw [Nat.count_of_forall_not fun {k} hk h => hne ((hturn k hk).symm.trans h)]
      have hiff : j < m + 1 ↔ j < m := by omega
      simp [hiff]

/-- In `N * T` steps in a row each party has `T` of them. -/
theorem count_turn (hT : 0 < T) {j : ℕ} (hj : j < N) (a : ℕ) :
    Nat.count (fun k => turn T N (a + k) = j) (N * T) = T := by
  have hperiod : ∀ k, turn T N (N * T + k) = j ↔ turn T N k = j := by
    intro k
    rw [turn, Nat.mul_comm, Nat.mul_add_div hT, Nat.add_mod_left, turn]
  rw [count_window (p := fun k => turn T N k = j) hperiod, count_turn_of_le hT le_rfl, if_pos hj]

end RoundRobin
