import Mathlib.Algebra.BigOperators.Fin
import Mathlib.Algebra.Order.BigOperators.Group.Finset

/-!
# Splitting work into even parts

A number of items is shared out : every part has the same size until nothing is left, so that one
part may be smaller and the parts after it are empty (`share`). A list is cut at the same places
by taking one part after the other off it (`chunks`), and it gives back the parts it was made of
(`chunks_flatten`).
-/

namespace EvenSplit

open Finset

/-! ## Shares -/

/-- How many of `total` items are in the part `i`, if parts have `size` items. -/
def share (size total i : ℕ) : ℕ :=
  min ((i + 1) * size) total - i * size

variable {size : ℕ}

theorem share_zero (size total : ℕ) : share size total 0 = min size total := by
  simp [share]

/-- The other parts share what the first part leaves. -/
theorem share_succ (size total i : ℕ) : share size total (i + 1) = share size (total - size) i := by
  simp only [share, Nat.succ_mul]
  omega

theorem sum_share (size total k : ℕ) :
    ∑ i ∈ range k, share size total i = min (k * size) total := by
  induction k with
  | zero => simp
  | succ k ih =>
    rw [sum_range_succ, ih, share, Nat.succ_mul]
    omega

/-! ## Chunks -/

variable {α : Type}

/-- The list in chunks of `size` elements, of which the last one may be smaller. -/
def chunks (size : ℕ) (l : List α) : List (List α) :=
  if _h : 0 < size ∧ l ≠ [] then l.take size :: chunks size (l.drop size) else []
termination_by l.length
decreasing_by
  have := List.length_pos_of_ne_nil _h.2
  rw [List.length_drop]
  omega

theorem chunks_nil : chunks size ([] : List α) = [] := by
  rw [chunks, dif_neg (by simp)]

theorem chunks_of_ne_nil (hsize : 0 < size) {l : List α} (hl : l ≠ []) :
    chunks size l = l.take size :: chunks size (l.drop size) := by
  rw [chunks, dif_pos ⟨hsize, hl⟩]

theorem flatten_chunks (hsize : 0 < size) (l : List α) : (chunks size l).flatten = l := by
  induction hn : l.length using Nat.strongRecOn generalizing l with
  | _ n ih =>
    by_cases hl : l = []
    · rw [hl, chunks_nil, List.flatten_nil]
    have hpos := List.length_pos_of_ne_nil hl
    have hdrop : (l.drop size).length < n := by
      rw [List.length_drop]
      omega
    rw [chunks_of_ne_nil hsize hl, List.flatten_cons, ih _ hdrop _ rfl, List.take_append_drop]

theorem length_chunks_le (hsize : 0 < size) {k : ℕ} {l : List α} (h : l.length ≤ k * size) :
    (chunks size l).length ≤ k := by
  induction k generalizing l with
  | zero =>
    obtain rfl : l = [] := List.length_eq_zero_iff.mp (by omega)
    rw [chunks_nil, List.length_nil]
  | succ k ih =>
    by_cases hl : l = []
    · rw [hl, chunks_nil]
      exact Nat.zero_le _
    · rw [chunks_of_ne_nil hsize hl, List.length_cons]
      refine Nat.succ_le_succ (ih ?_)
      rw [List.length_drop, Nat.sub_le_iff_le_add, ← Nat.succ_mul]
      exact h

/-- Parts that are labelled make up together what they make up in a row. -/
theorem sum_map_parts {β σ : Type} (f : α → β) (l : List (σ × List α)) :
    ∑ i : Fin l.length, (l[i].2.map f : Multiset β) =
      ((l.map Prod.snd).flatten.map f : List β) := by
  induction l with
  | nil => rfl
  | cons x l ih =>
    rw [List.map_cons, List.flatten_cons, List.map_append, ← Multiset.coe_add, ← ih]
    exact Fin.sum_univ_succ _

/-- All lists have `size` elements, up to one that may be smaller, and the lists after it are
empty. -/
inductive Filled (size : ℕ) : List (List α) → Prop
  | nil : Filled size []
  | full {l : List α} {ls : List (List α)} : l.length = size → Filled size ls →
      Filled size (l :: ls)
  | last {l : List α} {ls : List (List α)} : l.length ≤ size → (∀ l' ∈ ls, l' = []) →
      Filled size (l :: ls)

/-- Filled lists are the chunks of what they make up together. -/
theorem chunks_flatten (hsize : 0 < size) {ls : List (List α)} (h : Filled size ls) :
    chunks size ls.flatten = ls.takeWhile fun l => !l.isEmpty := by
  induction h with
  | nil => rw [List.flatten_nil, chunks_nil, List.takeWhile_nil]
  | @full l ls hl _ ih =>
    have hne : l ≠ [] := List.ne_nil_of_length_pos (hl ▸ hsize)
    rw [List.flatten_cons, chunks_of_ne_nil hsize (List.append_ne_nil_of_left_ne_nil hne _),
      ← hl, List.take_left, List.drop_left, hl, ih, List.takeWhile_cons_of_pos (by simpa using hne)]
  | @last l ls hl hls =>
    have hrest : ls.flatten = [] := List.flatten_eq_nil_iff.mpr hls
    have htake : (ls.takeWhile fun l => !l.isEmpty) = [] := by
      cases ls with
      | nil => rfl
      | cons l' ls => rw [List.takeWhile_cons_of_neg (by simp [hls l' List.mem_cons_self])]
    rw [List.flatten_cons, hrest, List.append_nil]
    by_cases hne : l = []
    · rw [hne, chunks_nil, List.takeWhile_cons_of_neg (by simp)]
    · rw [chunks_of_ne_nil hsize hne, List.take_of_length_le hl, List.drop_of_length_le hl,
        chunks_nil, List.takeWhile_cons_of_pos (by simpa using hne), htake]

/-- Parts that have their shares are filled. -/
theorem filled_of_shares (total : ℕ) (part : ℕ → List α) (k : ℕ)
    (h : ∀ i < k, (part i).length = share size total i) :
    Filled size ((List.range k).map part) := by
  induction k generalizing total part with
  | zero => exact .nil
  | succ k ih =>
    have hzero := h 0 (Nat.succ_pos k)
    rw [share_zero] at hzero
    rw [List.range_succ_eq_map, List.map_cons, List.map_map]
    rcases le_total size total with hle | hle
    · refine .full (hzero.trans (Nat.min_eq_left hle)) ?_
      refine ih (total - size) (part ∘ Nat.succ) fun i hi => ?_
      exact (h (i + 1) (Nat.succ_lt_succ hi)).trans (share_succ size total i)
    · refine .last (hzero.trans_le (Nat.min_le_left _ _)) ?_
      simp only [List.forall_mem_map, List.mem_range]
      intro i hi
      have hnone : share size total (i + 1) = 0 := by
        rw [share_succ, Nat.sub_eq_zero_of_le hle, share, Nat.min_zero, Nat.zero_sub]
      exact List.length_eq_zero_iff.mp ((h (i + 1) (Nat.succ_lt_succ hi)).trans hnone)

theorem length_flatten_parts (part : ℕ → List α) (k : ℕ) :
    ((List.range k).map part).flatten.length = ∑ i ∈ range k, (part i).length := by
  induction k with
  | zero => rfl
  | succ k ih =>
    rw [List.range_succ, List.map_append, List.flatten_append, List.length_append, ih,
      sum_range_succ]
    simp

/-- Parts that are not larger than their shares, and have all items together, have their shares. -/
theorem length_eq_share {total k : ℕ} {part : ℕ → List α} (htotal : total ≤ k * size)
    (hle : ∀ i < k, (part i).length ≤ share size total i)
    (h : ((List.range k).map part).flatten.length = total) :
    ∀ i < k, (part i).length = share size total i := by
  have hsum : ∑ i ∈ range k, (part i).length = ∑ i ∈ range k, share size total i := by
    rw [← length_flatten_parts, h, sum_share, Nat.min_eq_right htotal]
  have heq := (sum_eq_sum_iff_of_le fun i hi => hle i (mem_range.mp hi)).mp hsum
  exact fun i hi => heq i (mem_range.mpr hi)

end EvenSplit
