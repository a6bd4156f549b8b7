import Remora.Transition
import Mathlib.Algebra.BigOperators.Group.Finset.Piecewise
import Mathlib.Algebra.Order.Group.Abs
import Mathlib.Tactic.Abel

/-!
# Books of payments

Groups have members, and clients pay. A payment is booked four times : with the group, with the
member that took it, and with the client, whose balance it lowers and whose payments it adds to.
The books are balanced if a group has what its members have, a client's balance is what it has
paid, and the clients have paid what the groups have received since the books were opened
(`Balanced`). Books that start balanced stay so (`balanced_of_reachable`).

Amounts are in any commutative group, and only the accounts in the scope of the books count
(`Agree`).
-/

namespace Ledger

open Function

variable {α M : Type*}

/-! ## Accounts -/

section Accounts

variable [DecidableEq α] [AddCommGroup M]

/-- Accounts after an amount is added to one of them. -/
def credit (f : α → M) (a : α) (x : M) : α → M :=
  update f a (f a + x)

theorem credit_self (f : α → M) (a : α) (x : M) : credit f a x a = f a + x :=
  update_self a _ f

theorem credit_of_ne {f : α → M} {a b : α} {x : M} (h : b ≠ a) : credit f a x b = f b :=
  update_of_ne h _ f

/-- The sum grows by the amount. -/
theorem sum_credit {s : Finset α} {a : α} (ha : a ∈ s) (f : α → M) (x : M) :
    ∑ b ∈ s, credit f a x b = ∑ b ∈ s, f b + x := by
  rw [credit, Finset.sum_update_of_mem ha, Finset.sum_eq_add_sum_sdiff_singleton_of_mem ha f]
  abel

theorem credit_congr {f f' : α → M} {a b : α} (hb : f b = f' b) (ha : f a = f' a) (x : M) :
    credit f a x b = credit f' a x b := by
  rcases eq_or_ne b a with rfl | hne
  · rw [credit_self, credit_self, ha]
  · rw [credit_of_ne hne, credit_of_ne hne, hb]

end Accounts

/-! ## Books -/

structure Books (γ μ κ M : Type*) where
  group : γ → M
  member : γ × μ → M
  balance : κ → M
  paid : κ → M

structure Payment (γ μ κ M : Type*) where
  group : γ
  member : μ
  client : κ
  amount : M

/-- The accounts of the books. Every group has the same members. -/
structure Scope (γ μ κ : Type*) where
  groups : Finset γ
  members : Finset μ
  clients : Finset κ

variable {γ μ κ : Type*} (C : Scope γ μ κ)

/-- The accounts of the payment are in the books. -/
structure Scope.Covers (p : Payment γ μ κ M) : Prop where
  group : p.group ∈ C.groups
  member : p.member ∈ C.members
  client : p.client ∈ C.clients

/-- Two books with the same amounts. -/
structure Agree (B B' : Books γ μ κ M) : Prop where
  group : ∀ g ∈ C.groups, B.group g = B'.group g
  member : ∀ g ∈ C.groups, ∀ m ∈ C.members, B.member (g, m) = B'.member (g, m)
  balance : ∀ c ∈ C.clients, B.balance c = B'.balance c
  paid : ∀ c ∈ C.clients, B.paid c = B'.paid c

/-- The books balance, and `opening` is how they were opened. -/
structure Balanced [AddCommGroup M] (opening B : Books γ μ κ M) : Prop where
  group : ∀ g ∈ C.groups, B.group g = ∑ m ∈ C.members, B.member (g, m)
  client : ∀ c ∈ C.clients, B.balance c + B.paid c = 0
  total : ∑ c ∈ C.clients, (B.paid c - opening.paid c) =
    ∑ g ∈ C.groups, (B.group g - opening.group g)

variable {C} {opening B B' : Books γ μ κ M} {p : Payment γ μ κ M}

theorem Agree.refl (B : Books γ μ κ M) : Agree C B B :=
  ⟨fun _ _ => rfl, fun _ _ _ _ => rfl, fun _ _ => rfl, fun _ _ => rfl⟩

theorem Agree.trans {B'' : Books γ μ κ M} (h : Agree C B B') (h' : Agree C B' B'') :
    Agree C B B'' where
  group g hg := (h.group g hg).trans (h'.group g hg)
  member g hg m hm := (h.member g hg m hm).trans (h'.member g hg m hm)
  balance c hc := (h.balance c hc).trans (h'.balance c hc)
  paid c hc := (h.paid c hc).trans (h'.paid c hc)

variable [AddCommGroup M]

/-- Whether books balance depends on the accounts in their scope. -/
theorem Balanced.congr (h : Balanced C opening B) (hB : Agree C B' B) : Balanced C opening B' where
  group g hg := by
    rw [hB.group g hg, h.group g hg]
    exact Finset.sum_congr rfl fun m hm => (hB.member g hg m hm).symm
  client c hc := by
    rw [hB.balance c hc, hB.paid c hc]
    exact h.client c hc
  total := by
    have hpaid : ∀ c ∈ C.clients, B'.paid c - opening.paid c = B.paid c - opening.paid c :=
      fun c hc => by rw [hB.paid c hc]
    have hgroup : ∀ g ∈ C.groups, B'.group g - opening.group g = B.group g - opening.group g :=
      fun g hg => by rw [hB.group g hg]
    rw [Finset.sum_congr rfl hpaid, Finset.sum_congr rfl hgroup]
    exact h.total

/-! ## Payments -/

variable [DecidableEq γ] [DecidableEq μ] [DecidableEq κ]

instance (p : Payment γ μ κ M) : Decidable (C.Covers p) :=
  decidable_of_iff (p.group ∈ C.groups ∧ p.member ∈ C.members ∧ p.client ∈ C.clients)
    ⟨fun h => ⟨h.1, h.2.1, h.2.2⟩, fun h => ⟨h.group, h.member, h.client⟩⟩

def Books.post (B : Books γ μ κ M) (p : Payment γ μ κ M) : Books γ μ κ M where
  group := credit B.group p.group p.amount
  member := credit B.member (p.group, p.member) p.amount
  balance := credit B.balance p.client (-p.amount)
  paid := credit B.paid p.client p.amount

variable (C) in
/-- The books while payments are posted. -/
def journal (opening : Books γ μ κ M) : Transition.System (Books γ μ κ M) (Payment γ μ κ M) where
  init B := B = opening
  step B p := if C.Covers p then some (B.post p) else none

/-- Posting a payment keeps books with the same amounts so. -/
theorem Agree.post (h : Agree C B B') (hp : C.Covers p) : Agree C (B.post p) (B'.post p) where
  group g hg := credit_congr (h.group g hg) (h.group _ hp.group) _
  member g hg m hm := credit_congr (h.member g hg m hm) (h.member _ hp.group _ hp.member) _
  balance c hc := credit_congr (h.balance c hc) (h.balance _ hp.client) _
  paid c hc := credit_congr (h.paid c hc) (h.paid _ hp.client) _

theorem group_post (h : Balanced C opening B) (hp : C.Covers p) {g : γ} (hg : g ∈ C.groups) :
    (B.post p).group g = ∑ m ∈ C.members, (B.post p).member (g, m) := by
  rcases eq_or_ne g p.group with rfl | hne
  · have hmember : ∀ m, (B.post p).member (p.group, m) =
        credit (fun m => B.member (p.group, m)) p.member p.amount m := by
      intro m
      rcases eq_or_ne m p.member with rfl | hm
      · rw [credit_self]
        exact credit_self _ _ _
      · rw [credit_of_ne hm]
        exact credit_of_ne fun heq => hm (congrArg Prod.snd heq)
    rw [Finset.sum_congr rfl fun m _ => hmember m, sum_credit hp.member, ← h.group _ hg]
    exact credit_self _ _ _
  · have hmember : ∀ m, (B.post p).member (g, m) = B.member (g, m) := fun m =>
      credit_of_ne fun heq => hne (congrArg Prod.fst heq)
    rw [Finset.sum_congr rfl fun m _ => hmember m, ← h.group g hg]
    exact credit_of_ne hne

theorem client_post (h : Balanced C opening B) {c : κ} (hc : c ∈ C.clients) :
    (B.post p).balance c + (B.post p).paid c = 0 := by
  rcases eq_or_ne c p.client with rfl | hne
  · have hself := h.client _ hc
    simp only [Books.post, credit_self]
    rw [← hself]
    abel
  · simp only [Books.post, credit_of_ne hne]
    exact h.client c hc

theorem Balanced.post (h : Balanced C opening B) (hp : C.Covers p) :
    Balanced C opening (B.post p) where
  group g hg := group_post h hp hg
  client c hc := client_post h hc
  total := by
    have htotal := h.total
    simp only [Finset.sum_sub_distrib] at htotal ⊢
    have hpaid : ∑ c ∈ C.clients, (B.post p).paid c = ∑ c ∈ C.clients, B.paid c + p.amount :=
      sum_credit hp.client _ _
    have hgroup : ∑ g ∈ C.groups, (B.post p).group g = ∑ g ∈ C.groups, B.group g + p.amount :=
      sum_credit hp.group _ _
    rw [hpaid, hgroup, add_sub_right_comm, add_sub_right_comm, htotal]

theorem balanced_of_reachable (h : Balanced C opening opening)
    (hB : (journal C opening).Reachable B) : Balanced C opening B := by
  refine hB.invariant (fun B hinit => hinit ▸ h) fun B p B' _ hB hstep => ?_
  simp only [journal, Option.ite_none_right_eq_some, Option.some.injEq] at hstep
  obtain ⟨hp, rfl⟩ := hstep
  exact hB.post hp

/-! ## How far accounts move -/

section Within

variable [LinearOrder M] [IsOrderedAddMonoid M]

/-- An amount moves an account no farther than it is. -/
theorem abs_credit_sub_le [DecidableEq α] {f f₀ : α → M} {a b : α} {x y : M}
    (hb : |f b - f₀ b| ≤ y) : |credit f a x b - f₀ b| ≤ y + |x| := by
  rcases eq_or_ne b a with rfl | hne
  · rw [credit_self, add_sub_right_comm]
    exact (abs_add_le _ _).trans (add_le_add_left hb _)
  · rw [credit_of_ne hne]
    exact hb.trans (le_add_of_nonneg_right (abs_nonneg x))

variable (C) in
/-- No account is farther than `y` from where it was opened. -/
structure Within (opening B : Books γ μ κ M) (y : M) : Prop where
  group : ∀ g ∈ C.groups, |B.group g - opening.group g| ≤ y
  member : ∀ g ∈ C.groups, ∀ m ∈ C.members, |B.member (g, m) - opening.member (g, m)| ≤ y
  balance : ∀ c ∈ C.clients, |B.balance c - opening.balance c| ≤ y
  paid : ∀ c ∈ C.clients, |B.paid c - opening.paid c| ≤ y

namespace Within

variable {y z : M}

omit [DecidableEq γ] [DecidableEq μ] [DecidableEq κ] in
theorem refl (B : Books γ μ κ M) : Within C B B 0 := by
  constructor <;> simp

omit [DecidableEq γ] [DecidableEq μ] [DecidableEq κ] [IsOrderedAddMonoid M] in
theorem mono (h : Within C opening B y) (hyz : y ≤ z) : Within C opening B z where
  group g hg := (h.group g hg).trans hyz
  member g hg m hm := (h.member g hg m hm).trans hyz
  balance c hc := (h.balance c hc).trans hyz
  paid c hc := (h.paid c hc).trans hyz

omit [DecidableEq γ] [DecidableEq μ] [DecidableEq κ] [IsOrderedAddMonoid M] in
theorem congr (h : Within C opening B y) (hB : Agree C B' B) : Within C opening B' y where
  group g hg := by
    rw [hB.group g hg]
    exact h.group g hg
  member g hg m hm := by
    rw [hB.member g hg m hm]
    exact h.member g hg m hm
  balance c hc := by
    rw [hB.balance c hc]
    exact h.balance c hc
  paid c hc := by
    rw [hB.paid c hc]
    exact h.paid c hc

theorem post (h : Within C opening B y) (p : Payment γ μ κ M) :
    Within C opening (B.post p) (y + |p.amount|) where
  group g hg := abs_credit_sub_le (h.group g hg)
  member g hg m hm := abs_credit_sub_le (h.member g hg m hm)
  balance c hc := by
    rw [← abs_neg p.amount]
    exact abs_credit_sub_le (h.balance c hc)
  paid c hc := abs_credit_sub_le (h.paid c hc)

end Within

end Within

end Ledger
