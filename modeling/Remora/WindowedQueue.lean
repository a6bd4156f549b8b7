import Mathlib.Data.List.Sort
import Mathlib.Data.List.NodupEquivFin
import Mathlib.Tactic.Common

/-!
# Queues that are served from a window

Each item leaves from one of the first `w` places (`Departs`), as when up to `w` tasks work on the
items at once and any of them may finish first. Nothing is lost and nothing leaves twice
(`Departs.perm`), but there is no order.

An item may wait while any number of others pass it. But it can itself pass fewer than `w`
(`InWindow`) : those that are before it when it leaves.
-/

namespace WindowedQueue

variable {α β : Type*} {w : ℕ}

/-- What has left, in this order, and what is left. -/
inductive Departs (w : ℕ) (input : List α) : List α → List α → Prop
  | start : Departs w input [] input
  | leave {out before after : List α} {a : α} : Departs w input out (before ++ a :: after) →
      before.length < w → Departs w input (out ++ [a]) (before ++ after)

/-- Positions, each once and below `n`, in an order in which each of them comes before fewer than
`w` smaller ones. -/
structure InWindow (w n : ℕ) (order : List ℕ) : Prop where
  nodup : order.Nodup
  lt {p : ℕ} : p ∈ order → p < n
  passes {pre : List ℕ} {p : ℕ} : pre ++ [p] <+: order →
    ((List.range p).filter fun q => q ∉ pre).length < w

namespace Departs

section Basic

variable {input out rest : List α}

theorem perm (h : Departs w input out rest) : (out ++ rest).Perm input := by
  induction h with
  | start => exact .refl _
  | leave _ _ ih =>
    rw [List.append_assoc, List.singleton_append]
    exact (List.perm_middle.symm.append_left _).trans ih

theorem sublist (h : Departs w input out rest) : rest.Sublist input := by
  induction h with
  | start => exact .refl _
  | leave _ _ ih => exact ((List.Sublist.refl _).append (List.sublist_cons_self _ _)).trans ih

theorem eraseIdx (h : Departs w input out rest) {k : ℕ} {a : α} (hk : k < w)
    (ha : rest[k]? = some a) : Departs w input (out ++ [a]) (rest.eraseIdx k) := by
  obtain ⟨hlt, rfl⟩ := List.getElem?_eq_some_iff.mp ha
  rw [List.eraseIdx_eq_take_drop_succ]
  refine .leave ?_ ((List.length_take_le _ _).trans_lt hk)
  rwa [List.getElem_cons_drop, List.take_append_drop]

/-- A queue of images is served as the queue itself. -/
theorem exists_of_map (f : β → α) {input : List β} (h : Departs w (input.map f) out rest) :
    ∃ out' rest', Departs w input out' rest' ∧ out'.map f = out ∧ rest'.map f = rest := by
  induction h with
  | start => exact ⟨[], input, .start, rfl, rfl⟩
  | @leave out before after a _ hlt ih =>
    obtain ⟨out', rest', h', rfl, hrest⟩ := ih
    obtain ⟨before', tail, rfl, rfl, htail⟩ := List.map_eq_append_iff.mp hrest
    obtain ⟨b, after', rfl, rfl, rfl⟩ := List.map_eq_cons_iff.mp htail
    rw [List.length_map] at hlt
    exact ⟨out' ++ [b], before' ++ after', .leave h' hlt, by simp, by simp⟩

end Basic

/-! ## The order -/

section Order

variable {n : ℕ} {out rest : List ℕ}

/-- What is before an item when it leaves is exactly what it passes. -/
theorem perm_before {before after : List ℕ} {p : ℕ}
    (h : Departs w (List.range n) out (before ++ p :: after)) :
    before.Perm ((List.range p).filter fun q => q ∉ out) := by
  have hperm := h.perm
  have hnodup := hperm.nodup_iff.mpr List.nodup_range
  have hsorted : (before ++ p :: after).Pairwise (· < ·) :=
    List.pairwise_lt_range.sublist h.sublist
  obtain ⟨-, hrest, hdisjoint⟩ := List.nodup_append'.mp hnodup
  obtain ⟨hbefore, hafter, hlt⟩ := List.pairwise_append.mp hsorted
  have hp : p < n := List.mem_range.mp (h.sublist.subset (by simp))
  refine (List.perm_ext_iff_of_nodup hrest.of_append_left (List.nodup_range.filter _)).mpr
    fun q => ?_
  simp only [List.mem_filter, List.mem_range, decide_eq_true_eq]
  refine ⟨fun hq => ⟨hlt q hq p (by simp), fun hout => hdisjoint hout (by simp [hq])⟩, ?_⟩
  rintro ⟨hqp, hout⟩
  have hmem : q ∈ out ++ (before ++ p :: after) :=
    hperm.mem_iff.mpr (List.mem_range.mpr (hqp.trans hp))
  -- It is neither `p` nor after it.
  rcases List.mem_append.mp ((List.mem_append.mp hmem).resolve_left hout) with hq | hq
  · exact hq
  · rcases List.mem_cons.mp hq with rfl | hq
    · exact absurd hqp (lt_irrefl _)
    · exact absurd hqp (not_lt.mpr (List.rel_of_pairwise_cons hafter hq).le)

/-- The positions leave in an order in which each passes fewer than `w`. -/
theorem inWindow_range (h : Departs w (List.range n) out rest) : InWindow w n out := by
  refine ⟨(h.perm.nodup_iff.mpr List.nodup_range).of_append_left,
    fun hp => List.mem_range.mp (h.perm.subset (List.mem_append_left _ hp)), ?_⟩
  generalize hinput : List.range n = input at h
  induction h with
  | start => simp
  | @leave out before after a h hlt ih =>
    subst hinput
    intro pre p hpre
    rcases List.prefix_concat_iff.mp hpre with heq | hpre
    · obtain ⟨rfl, hp⟩ := List.append_inj' heq rfl
      obtain rfl := List.singleton_injective hp
      exact h.perm_before.length_eq ▸ hlt
    · exact ih hpre

/-- Items leave in an order of their positions in which each passes fewer than `w`. -/
theorem exists_inWindow {input out rest : List α} (h : Departs w input out rest) :
    ∃ order, InWindow w input.length order ∧ out.map some = order.map (input[·]?) := by
  have hinput : input.map some = (List.range input.length).map (input[·]?) := by
    refine List.ext_getElem (by simp) fun k hk hk' => ?_
    simp only [List.length_map, List.length_range] at hk'
    simp [hk']
  have hsome : Departs w (input.map some) (out.map some) (rest.map some) := by
    clear hinput
    induction h with
    | start => exact .start
    | leave _ hlt ih =>
      rw [List.map_append, List.map_append]
      rw [List.map_append, List.map_cons] at ih
      exact .leave ih (by rwa [List.length_map])
  rw [hinput] at hsome
  obtain ⟨order, rest', h', hout, -⟩ := hsome.exists_of_map
  exact ⟨order, h'.inWindow_range, hout.symm⟩

end Order

end Departs

end WindowedQueue
