import Mathlib.Algebra.BigOperators.Group.List.Basic
import Mathlib.Algebra.Ring.Nat

/-!
# Machine integers

Integers have the ranges of the machine. `Build` says what becomes of a result outside, and
whether debug assertions are checked.

Numbers that are added up one after the other panic, or wrap, as their exact sum does in one
operation (`sum_eq`, `Adds.trans`). Therefore a counter is exact up to the width in every build
(`Adds.mod_eq`), and exact if the exact sum fits (`Adds.eq_of_lt`) or overflows are checked
(`Adds.eq_of_checked`).
-/

namespace Remora

/-- How the program is built : whether an overflow is a panic or wraps, and whether debug
assertions are checked. -/
structure Build where
  overflowChecks : Bool
  debugAssertions : Bool
  deriving DecidableEq, Repr

/-- `as usize`, where that is 64 bits wide. -/
def asUsize (n : ℕ) : ℕ :=
  n % 2 ^ 64

theorem asUsize_of_lt {n : ℕ} (h : n < 2 ^ 64) : asUsize n = n :=
  Nat.mod_eq_of_lt h

theorem sum_map_asUsize_mod (l : List ℕ) : (l.map asUsize).sum % 2 ^ 64 = l.sum % 2 ^ 64 :=
  (List.sum_nat_mod l (2 ^ 64)).symm

namespace Build

variable (b : Build)

/-- A signed operation of the given width whose exact result is `n`. `none` : a panic. -/
def signed (bits : ℕ) (n : ℤ) : Option ℤ :=
  if n.bmod (2 ^ bits) = n then some n
  else if b.overflowChecks then none
  else some (n.bmod (2 ^ bits))

/-- An unsigned operation whose exact result, not below 0, is `n`. -/
def unsigned (bits n : ℕ) : Option ℕ :=
  if n < 2 ^ bits then some n
  else if b.overflowChecks then none
  else some (n % 2 ^ bits)

/-- Unsigned numbers are added up. -/
def sum (bits : ℕ) (l : List ℕ) : Option ℕ :=
  l.foldlM (fun total n => b.unsigned bits (total + n)) 0

/-- A cell with `load` has `load'` after additions whose exact sum is `n`. -/
def Adds (bits load n load' : ℕ) : Prop :=
  n = 0 ∧ load' = load ∨ b.unsigned bits (load + n) = some load'

theorem signed_eq_some {bits : ℕ} {n : ℤ} (h : n.bmod (2 ^ bits) = n) :
    b.signed bits n = some n :=
  if_pos h

theorem unsigned_of_lt {bits n : ℕ} (h : n < 2 ^ bits) : b.unsigned bits n = some n :=
  if_pos h

section Unchecked

variable {b} (hb : b.overflowChecks = false)
include hb

/-- An overflow wraps. -/
theorem signed_of_unchecked (bits : ℕ) (n : ℤ) : b.signed bits n = some (n.bmod (2 ^ bits)) := by
  unfold signed
  split_ifs with h
  · rw [h]
  · simp_all
  · rfl

theorem unsigned_of_unchecked (bits n : ℕ) : b.unsigned bits n = some (n % 2 ^ bits) := by
  unfold unsigned
  split_ifs with h
  · rw [Nat.mod_eq_of_lt h]
  · simp_all
  · rfl

end Unchecked

section Results

variable {b} {bits n m : ℕ}

theorem signed_of_mem_i32 {n : ℤ} (hlo : -2 ^ 31 ≤ n) (hhi : n < 2 ^ 31) :
    b.signed 32 n = some n :=
  b.signed_eq_some (Int.bmod_eq_of_le (by omega) (by omega))

/-- An operation that does not panic is exact up to `2 ^ bits`. -/
theorem eq_mod_of_unsigned (h : b.unsigned bits n = some m) : m = n % 2 ^ bits := by
  unfold unsigned at h
  split_ifs at h with hlt
  · rw [Nat.mod_eq_of_lt hlt]
    exact (Option.some.inj h).symm
  · exact (Option.some.inj h).symm

/-- Where overflows are checked, a result is exact. -/
theorem unsigned_of_checked (hb : b.overflowChecks = true) :
    b.unsigned bits n = if n < 2 ^ bits then some n else none := by
  simp [unsigned, hb]

theorem isSome_unsigned (bits n : ℕ) :
    (b.unsigned bits n).isSome ↔ b.overflowChecks = true → n < 2 ^ bits := by
  cases hb : b.overflowChecks with
  | false => simp [unsigned_of_unchecked hb]
  | true => simp [unsigned_of_checked hb]

/-- A second addition does not see whether the first one has wrapped. -/
theorem bind_unsigned (bits n k : ℕ) :
    ((b.unsigned bits n).bind fun m => b.unsigned bits (m + k)) = b.unsigned bits (n + k) := by
  cases hb : b.overflowChecks with
  | false => simp [unsigned_of_unchecked hb]
  | true =>
    simp only [unsigned_of_checked hb]
    by_cases hlt : n < 2 ^ bits
    · rw [if_pos hlt, Option.bind_some]
    · rw [if_neg hlt, if_neg (by omega), Option.bind_none]

theorem foldlM_unsigned (bits n : ℕ) (l : List ℕ) :
    ((b.unsigned bits n).bind fun total =>
      l.foldlM (fun total n => b.unsigned bits (total + n)) total) =
        b.unsigned bits (n + l.sum) := by
  induction l generalizing n with
  | nil => simp
  | cons a l ih =>
    rw [List.sum_cons, ← Nat.add_assoc, ← ih, ← bind_unsigned, Option.bind_assoc]
    rfl

/-- The numbers are added up as if at once. -/
theorem sum_eq (bits : ℕ) (l : List ℕ) : b.sum bits l = b.unsigned bits l.sum := by
  have h := foldlM_unsigned (b := b) bits 0 l
  rwa [b.unsigned_of_lt (Nat.two_pow_pos bits), Option.bind_some, Nat.zero_add] at h

end Results

/-! ## Additions to a cell -/

section Adds

variable {b} {bits load n load' m load'' : ℕ}

theorem Adds.refl (bits load : ℕ) : b.Adds bits load 0 load :=
  Or.inl ⟨rfl, rfl⟩

theorem Adds.single (h : b.unsigned bits (load + n) = some load') : b.Adds bits load n load' :=
  Or.inr h

theorem Adds.trans (h : b.Adds bits load n load') (h' : b.Adds bits load' m load'') :
    b.Adds bits load (n + m) load'' := by
  rcases h with ⟨rfl, rfl⟩ | h
  · rwa [Nat.zero_add]
  · refine Or.inr ?_
    rcases h' with ⟨rfl, rfl⟩ | h'
    · exact h
    · rw [← Nat.add_assoc, ← bind_unsigned, h, Option.bind_some, h']

theorem Adds.mod_eq (h : b.Adds bits load n load') : load' % 2 ^ bits = (load + n) % 2 ^ bits := by
  rcases h with ⟨rfl, rfl⟩ | h
  · rfl
  · rw [eq_mod_of_unsigned h, Nat.mod_mod]

theorem Adds.lt (h : b.Adds bits load n load') (hload : load < 2 ^ bits) : load' < 2 ^ bits := by
  rcases h with ⟨rfl, rfl⟩ | h
  · exact hload
  · rw [eq_mod_of_unsigned h]
    exact Nat.mod_lt _ (Nat.two_pow_pos bits)

theorem Adds.eq_of_lt (h : b.Adds bits load n load') (hlt : load + n < 2 ^ bits) :
    load' = load + n := by
  rw [← Nat.mod_eq_of_lt (h.lt (by omega)), h.mod_eq, Nat.mod_eq_of_lt hlt]

theorem Adds.eq_of_checked (h : b.Adds bits load n load') (hb : b.overflowChecks = true) :
    load' = load + n := by
  rcases h with ⟨rfl, rfl⟩ | h
  · rfl
  · rw [unsigned_of_checked hb] at h
    split_ifs at h
    exact (Option.some.inj h).symm

end Adds

end Build

end Remora
