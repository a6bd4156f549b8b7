import Mathlib.Data.Set.Basic
import Mathlib.Logic.Function.Basic
import Mathlib.Tactic.Common

/-!
# Computations that read a store

A `Reading` is a computation that looks up keys in a store : it returns, it panics, or it
asks for the value of a key and goes on with it. `eval` runs it on a store, a missing key
being a panic, and `reads` is the list of the keys it asks for.

`cached` runs it as programs do that keep what they have read : a key found in the cache is
not looked up again. The outcome is the same, as long as the cache agrees with the store
(`fst_cached`), and nothing else is looked up (`snd_cached_subset`).

What a computation returns depends on the keys it asks for only (`eval_congr`), so that a
bound on these keys, `ReadsIn`, bounds what it depends on (`ReadsIn.eval_congr`).
-/

namespace CachedReads

open Function

variable {κ ν α β : Type}

/-- A computation that returns an `α` and reads values `ν` under keys `κ`. -/
inductive Reading (κ ν α : Type)
  | ret (a : α)
  | panic
  | fetch (k : κ) (next : ν → Reading κ ν α)

namespace Reading

def bind : Reading κ ν α → (α → Reading κ ν β) → Reading κ ν β
  | ret a, f => f a
  | panic, _ => panic
  | fetch k next, f => fetch k fun x => (next x).bind f

instance : Monad (Reading κ ν) where
  pure := ret
  bind := bind

/-- The value of a key. -/
def read (k : κ) : Reading κ ν ν :=
  fetch k ret

/-- A computation that reads nothing. `none` : it panics. -/
def lift : Option α → Reading κ ν α
  | some a => ret a
  | none => panic

/-- The outcome on the store `S`. `none` : a panic. -/
def eval (S : κ → Option ν) : Reading κ ν α → Option α
  | ret a => some a
  | panic => none
  | fetch k next => (S k).bind fun x => (next x).eval S

/-- The keys it asks for on the store `S`, up to the panic if there is one. -/
def reads (S : κ → Option ν) : Reading κ ν α → List κ
  | ret _ => []
  | panic => []
  | fetch k next => k :: (S k).elim [] fun x => (next x).reads S

/-- The outcome, and the keys looked up in the store, when values that were read are kept
in a cache. -/
def cached [DecidableEq κ] (S : κ → Option ν) :
    Reading κ ν α → (κ → Option ν) → Option α × List κ
  | ret a, _ => (some a, [])
  | panic, _ => (none, [])
  | fetch k next, C =>
    match C k with
    | some x => (next x).cached S C
    | none =>
      match S k with
      | none => (none, [k])
      | some x =>
        let (a, ks) := (next x).cached S (update C k (some x))
        (a, k :: ks)

/-! ## Outcomes -/

section Eval

variable {S S' : κ → Option ν} {m : Reading κ ν α} {f : α → Reading κ ν β}

@[simp] theorem eval_pure (a : α) : (pure a : Reading κ ν α).eval S = some a := rfl

@[simp] theorem eval_read (k : κ) : (read k).eval S = S k :=
  Option.bind_fun_some _

@[simp] theorem eval_lift (o : Option α) : (lift o : Reading κ ν α).eval S = o := by
  cases o <;> rfl

@[simp] theorem eval_bind : (m >>= f).eval S = (m.eval S).bind fun a => (f a).eval S := by
  change (m.bind f).eval S = _
  induction m with
  | ret a => rfl
  | panic => rfl
  | fetch k next ih =>
    simp only [bind, eval, Option.bind_assoc]
    exact congrArg _ (funext ih)

theorem mem_reads_bind {k : κ} : k ∈ (m >>= f).reads S ↔
    k ∈ m.reads S ∨ ∃ a, m.eval S = some a ∧ k ∈ (f a).reads S := by
  change k ∈ (m.bind f).reads S ↔ _
  induction m with
  | ret a => simp [bind, reads, eval]
  | panic => simp [bind, reads, eval]
  | fetch k' next ih =>
    rw [bind, reads, reads, eval, List.mem_cons, List.mem_cons, or_assoc]
    cases S k' with
    | none => simp
    | some x => exact or_congr_right (ih x)

/-- The outcome depends on the keys asked for only. -/
theorem eval_congr (h : ∀ k ∈ m.reads S, S' k = S k) : m.eval S' = m.eval S := by
  induction m with
  | ret a => rfl
  | panic => rfl
  | fetch k next ih =>
    rw [eval, eval, h k List.mem_cons_self]
    cases hk : S k with
    | none => rfl
    | some x => exact ih x fun k' hk' => h k' (List.mem_cons_of_mem _ (by simpa [hk] using hk'))

end Eval

/-! ## The cache -/

section Cache

variable {S C : κ → Option ν}

/-- What the cache holds is in the store. -/
def Coherent (S C : κ → Option ν) : Prop :=
  ∀ k x, C k = some x → S k = some x

theorem coherent_empty : Coherent S fun _ => none :=
  fun _ _ h => absurd h (by simp)

variable [DecidableEq κ]

theorem Coherent.update {k : κ} {x : ν} (hC : Coherent S C) (hx : S k = some x) :
    Coherent S (update C k (some x)) := by
  intro k' x' h
  rcases eq_or_ne k' k with rfl | hne
  · rwa [update_self, ← hx] at h
  · rw [update_of_ne hne] at h
    exact hC k' x' h

/-- The cache does not change the outcome. -/
theorem fst_cached (m : Reading κ ν α) (hC : Coherent S C) : (m.cached S C).1 = m.eval S := by
  induction m generalizing C with
  | ret a => rfl
  | panic => rfl
  | fetch k next ih =>
    unfold cached eval
    cases hk : C k with
    | some x =>
      rw [hC k x hk]
      exact ih x hC
    | none =>
      cases hx : S k with
      | none => rfl
      | some x => exact ih x (hC.update hx)

/-- The cache makes for fewer reads of the store, not for others. -/
theorem snd_cached_subset (m : Reading κ ν α) (hC : Coherent S C) :
    (m.cached S C).2 ⊆ m.reads S := by
  induction m generalizing C with
  | ret a => exact List.Subset.refl _
  | panic => exact List.Subset.refl _
  | fetch k next ih =>
    unfold cached reads
    cases hk : C k with
    | some x =>
      rw [hC k x hk]
      exact List.subset_cons_of_subset k (ih x hC)
    | none =>
      cases hx : S k with
      | none => exact List.Subset.refl _
      | some x => exact List.cons_subset_cons k (ih x (hC.update hx))

end Cache

/-! ## Returning -/

section Returns

variable {S : κ → Option ν} {m : Reading κ ν α} {f : α → Reading κ ν β}

/-- The program does not panic on `S`. -/
def Returns (S : κ → Option ν) (m : Reading κ ν α) : Prop :=
  (m.eval S).isSome

theorem Returns.pure (a : α) : Returns S (pure a : Reading κ ν α) := rfl

theorem Returns.lift {o : Option α} (h : o.isSome) : Returns S (lift o) := by
  rw [Returns, eval_lift]
  exact h

theorem Returns.bind (hm : Returns S m) (hf : ∀ a, Returns S (f a)) : Returns S (m >>= f) := by
  obtain ⟨a, ha⟩ := Option.isSome_iff_exists.mp hm
  rw [Returns, eval_bind, ha]
  exact hf a

end Returns

/-! ## Footprints -/

/-- On any store, all keys asked for are in `P`. -/
def ReadsIn (P : Set κ) (m : Reading κ ν α) : Prop :=
  ∀ S, ∀ k ∈ m.reads S, k ∈ P

namespace ReadsIn

variable {P Q : Set κ} {m : Reading κ ν α} {f : α → Reading κ ν β}

theorem pure (a : α) : ReadsIn P (pure a : Reading κ ν α) :=
  fun _ _ h => absurd h List.not_mem_nil

theorem lift (o : Option α) : ReadsIn P (lift o : Reading κ ν α) := by
  cases o <;> exact fun _ _ h => absurd h List.not_mem_nil

theorem read {k : κ} (hk : k ∈ P) : ReadsIn P (read k : Reading κ ν ν) := by
  intro S k' hk'
  rcases List.mem_cons.mp hk' with rfl | hk'
  · exact hk
  · cases hS : S k <;> simp [hS, reads] at hk'

theorem bind (hm : ReadsIn P m) (hf : ∀ a, ReadsIn P (f a)) : ReadsIn P (m >>= f) := by
  intro S k hk
  rcases mem_reads_bind.mp hk with hk | ⟨a, -, hk⟩
  · exact hm S k hk
  · exact hf a S k hk

theorem mono (hm : ReadsIn P m) (h : P ⊆ Q) : ReadsIn Q m :=
  fun S k hk => h (hm S k hk)

theorem eval_congr (hm : ReadsIn P m) {S S' : κ → Option ν} (h : ∀ k ∈ P, S' k = S k) :
    m.eval S' = m.eval S :=
  Reading.eval_congr fun k hk => h k (hm S k hk)

end ReadsIn

end Reading

end CachedReads
