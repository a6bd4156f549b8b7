import Mathlib.Data.List.Basic
import Mathlib.Tactic.Common

/-!
# Parsing a stream in chunks

A parser takes an item off the front of a buffer, or waits for more, or rejects the buffer. What
comes after the end of the buffer changes nothing once it has decided (`Parser`). So the items of a
buffer come first in every longer one (`items_append`).

A reader adds one chunk after the other to its buffer, takes all items off it and hands them on. If
a chunk makes the buffer one that is rejected, the items before are not handed on (`read`). The
items of a stream that is not rejected do not depend on how it is cut (`read_of_ok`). Those of a
stream that is rejected do : all of them are handed on if and only if a cut comes after the last
item and before the error shows (`read_all_iff`).
-/

namespace ChunkedParsing

variable {α β ε : Type*}

/-- What a parser makes of a buffer. -/
inductive Next (α β ε : Type*)
  | wait
  | item (a : α) (rest : List β)
  | reject (e : ε)

/-- A parser that stays with its decision when more is added to the buffer. -/
structure Parser (α β ε : Type*) where
  next : List β → Next α β ε
  length_lt {b r : List β} {a : α} : next b = .item a r → r.length < b.length
  item_append {b r : List β} {a : α} (c : List β) : next b = .item a r →
    next (b ++ c) = .item a (r ++ c)
  reject_append {b : List β} {e : ε} (c : List β) : next b = .reject e →
    next (b ++ c) = .reject e

namespace Parser

variable (p : Parser α β ε)

/-- The items of a buffer, and then the rest of it or the error. -/
def items (b : List β) : List α × Except ε (List β) :=
  match _h : p.next b with
  | .wait => ([], .ok b)
  | .item a r => (a :: (items r).1, (items r).2)
  | .reject e => ([], .error e)
termination_by b.length
decreasing_by all_goals exact p.length_lt _h

/-- The items of the chunks, as they are handed on, and then the rest or the error. -/
def read : List β → List (List β) → List (List α) × Except ε (List β)
  | b, [] => ([], .ok b)
  | b, chunk :: chunks =>
    match p.items (b ++ chunk) with
    | (as, .ok r) => (as :: (read r chunks).1, (read r chunks).2)
    | (_, .error e) => ([], .error e)

/-! ## Items -/

section Items

variable {p} {a : α} {as : List α} {b r : List β} {e : ε}

theorem items_of_wait (h : p.next b = .wait) : p.items b = ([], .ok b) := by
  rw [items]
  split
  · rfl
  · simp_all
  · simp_all

theorem items_of_item (h : p.next b = .item a r) :
    p.items b = (a :: (p.items r).1, (p.items r).2) := by
  rw [items]
  split
  · simp_all
  · simp_all
  · simp_all

theorem items_of_reject (h : p.next b = .reject e) : p.items b = ([], .error e) := by
  rw [items]
  split
  · simp_all
  · simp_all
  · simp_all

/-- Induction on the items of a buffer. -/
theorem items_induction {motive : List β → Prop} (wait : ∀ b, p.next b = .wait → motive b)
    (item : ∀ a b r, p.next b = .item a r → motive r → motive b)
    (reject : ∀ e b, p.next b = .reject e → motive b) (b : List β) : motive b := by
  induction h : b.length using Nat.strongRecOn generalizing b with
  | _ n ih =>
    cases hb : p.next b with
    | wait => exact wait b hb
    | item a r => exact item a b r hb (ih r.length (h ▸ p.length_lt hb) r rfl)
    | reject e => exact reject e b hb

/-- The items of a buffer come first, and then those of its rest and what is added. -/
theorem items_append (h : p.items b = (as, .ok r)) (c : List β) :
    p.items (b ++ c) = (as ++ (p.items (r ++ c)).1, (p.items (r ++ c)).2) := by
  induction b using p.items_induction generalizing as with
  | wait b hb =>
    rw [items_of_wait hb] at h
    obtain ⟨rfl, hr⟩ := Prod.mk.inj h
    obtain rfl := Except.ok.inj hr
    rfl
  | item a b r' hb ih =>
    rw [items_of_item hb] at h
    obtain ⟨rfl, hr⟩ := Prod.mk.inj h
    rw [items_of_item (p.item_append c hb), ih (Prod.ext rfl hr), List.cons_append]
  | reject e b hb =>
    rw [items_of_reject hb] at h
    cases (Prod.mk.inj h).2

/-- An error is final. -/
theorem items_append_of_error (h : p.items b = (as, .error e)) (c : List β) :
    p.items (b ++ c) = (as, .error e) := by
  induction b using p.items_induction generalizing as with
  | wait b hb =>
    rw [items_of_wait hb] at h
    cases (Prod.mk.inj h).2
  | item a b r hb ih =>
    rw [items_of_item hb] at h
    obtain ⟨rfl, hr⟩ := Prod.mk.inj h
    rw [items_of_item (p.item_append c hb), ih (Prod.ext rfl hr)]
  | reject e' b hb =>
    rw [items_of_reject hb] at h
    obtain ⟨rfl, he⟩ := Prod.mk.inj h
    rw [items_of_reject (p.reject_append c hb), he]

/-- The parser waits with the rest. -/
theorem wait_of_items (h : p.items b = (as, .ok r)) : p.next r = .wait := by
  induction b using p.items_induction generalizing as with
  | wait b hb =>
    rw [items_of_wait hb] at h
    obtain rfl := Except.ok.inj (Prod.mk.inj h).2
    exact hb
  | item a b r' hb ih =>
    rw [items_of_item hb] at h
    exact ih (Prod.ext rfl (Prod.mk.inj h).2)
  | reject e b hb =>
    rw [items_of_reject hb] at h
    cases (Prod.mk.inj h).2

/-- Without an item the rest is the buffer. -/
theorem rest_of_items_nil (h : p.items b = ([], .ok r)) : r = b := by
  cases hb : p.next b with
  | wait =>
    rw [items_of_wait hb] at h
    exact (Except.ok.inj (Prod.mk.inj h).2).symm
  | item a r' =>
    rw [items_of_item hb] at h
    cases (Prod.mk.inj h).1
  | reject e =>
    rw [items_of_reject hb] at h
    cases (Prod.mk.inj h).2

/-- More of the stream has the same items only if nothing is consumed of it. -/
theorem rest_of_items_append {c r' : List β} (h : p.items b = (as, .ok r))
    (h' : p.items (b ++ c) = (as, .ok r')) : r' = r ++ c := by
  rw [items_append h] at h'
  obtain ⟨hnil, hr'⟩ := Prod.mk.inj h'
  exact rest_of_items_nil (Prod.ext (List.append_right_eq_self.mp hnil) hr')

end Items

/-! ## Chunks -/

section Read

variable {p} {as : List α} {b r : List β} {e : ε} {chunks : List (List β)}

/-- The items of a stream that is not rejected do not depend on the chunks. -/
theorem read_of_ok (hb : p.next b = .wait) (h : p.items (b ++ chunks.flatten) = (as, .ok r)) :
    (p.read b chunks).1.flatten = as ∧ (p.read b chunks).2 = .ok r := by
  induction chunks generalizing b as with
  | nil =>
    rw [List.flatten_nil, List.append_nil, items_of_wait hb] at h
    obtain ⟨rfl, hr⟩ := Prod.mk.inj h
    exact ⟨rfl, hr⟩
  | cons chunk chunks ih =>
    rw [List.flatten_cons, ← List.append_assoc] at h
    cases hc : p.items (b ++ chunk) with
    | mk as₁ x =>
      cases x with
      | error e =>
        rw [items_append_of_error hc] at h
        cases (Prod.mk.inj h).2
      | ok r₁ =>
        rw [items_append hc] at h
        obtain ⟨rfl, hr⟩ := Prod.mk.inj h
        obtain ⟨hitems, hrest⟩ := ih (wait_of_items hc) (Prod.ext rfl hr)
        simp only [read, hc, List.flatten_cons]
        exact ⟨by rw [hitems], hrest⟩

/-- If the stream is rejected, the items of some chunks are handed on, and the next chunk makes the
buffer one that is rejected. -/
theorem read_of_error (hb : p.next b = .wait)
    (h : p.items (b ++ chunks.flatten) = (as, .error e)) :
    (p.read b chunks).2 = .error e ∧ ∃ k r,
      p.items (b ++ (chunks.take k).flatten) = ((p.read b chunks).1.flatten, .ok r) ∧
      p.items (b ++ (chunks.take (k + 1)).flatten) = (as, .error e) := by
  induction chunks generalizing b as with
  | nil =>
    rw [List.flatten_nil, List.append_nil, items_of_wait hb] at h
    cases (Prod.mk.inj h).2
  | cons chunk chunks ih =>
    rw [List.flatten_cons, ← List.append_assoc] at h
    cases hc : p.items (b ++ chunk) with
    | mk as₁ x =>
      cases x with
      | error e' =>
        rw [items_append_of_error hc] at h
        obtain ⟨rfl, he⟩ := Prod.mk.inj h
        obtain rfl := Except.error.inj he
        simp only [read, hc]
        refine ⟨trivial, 0, b, ?_, ?_⟩
        · simpa using items_of_wait hb
        · simpa using hc
      | ok r₁ =>
        rw [items_append hc] at h
        obtain ⟨rfl, he⟩ := Prod.mk.inj h
        obtain ⟨herror, k, r, hk, hk'⟩ := ih (wait_of_items hc) (Prod.ext rfl he)
        simp only [read, hc]
        refine ⟨herror, k + 1, r, ?_, ?_⟩
        · rw [List.take_succ_cons, List.flatten_cons, ← List.append_assoc, items_append hc, hk,
            List.flatten_cons]
        · rw [List.take_succ_cons, List.flatten_cons, ← List.append_assoc, items_append hc, hk']

/-- All items of a stream that is rejected are handed on if and only if some of the chunks have all
items and are not rejected. -/
theorem read_all_iff (hb : p.next b = .wait)
    (h : p.items (b ++ chunks.flatten) = (as, .error e)) :
    (p.read b chunks).1.flatten = as ↔
      ∃ k r, p.items (b ++ (chunks.take k).flatten) = (as, .ok r) := by
  obtain ⟨-, k, r, hk, hk'⟩ := read_of_error hb h
  have hflatten (j : ℕ) : b ++ chunks.flatten =
      b ++ (chunks.take j).flatten ++ (chunks.drop j).flatten := by
    rw [List.append_assoc, ← List.flatten_append, List.take_append_drop]
  refine ⟨fun heq => ⟨k, r, heq ▸ hk⟩, fun ⟨j, r', hj⟩ => ?_⟩
  -- The error shows after `k + 1` chunks, so `j` is not beyond `k`.
  have hle : j ≤ k := by
    by_contra hlt
    obtain ⟨i, rfl⟩ := Nat.exists_eq_add_of_lt (Nat.not_le.mp hlt)
    rw [Nat.add_right_comm, List.take_add, List.flatten_append, ← List.append_assoc,
      items_append_of_error hk'] at hj
    cases (Prod.mk.inj hj).2
  obtain ⟨i, rfl⟩ := Nat.exists_eq_add_of_le hle
  have hall := h
  rw [hflatten (j + i), items_append hk] at hall
  rw [List.take_add, List.flatten_append, ← List.append_assoc, items_append hj] at hk
  have hread := (Prod.mk.inj hk).1
  have hrest := (Prod.mk.inj hall).1
  rw [← hread, List.append_assoc, List.append_right_eq_self, List.append_eq_nil_iff] at hrest
  rw [← hread, hrest.1, List.append_nil]

end Read

end Parser

end ChunkedParsing
