import Remora.PreConsensusSched
import Mathlib.Algebra.BigOperators.Group.Finset.Basic
import Mathlib.Algebra.Order.BigOperators.Group.Finset
import Mathlib.Data.Finset.Card

/-!
# The conflict classes of a batch

The classes of positions that chains of conflicts link, as sets, and what the scheduler makes of
them. The large ones among its subgraphs are the classes with at least two members, each of them
once (`largeSubgraphs_spec`), so that sums over the subgraphs are sums over the classes. The
digests of a subgraph are those of the members of its class, and its weight is the sum of their
durations, each digest counted once and with the duration of the last transaction that has it.
What the scheduler adds up are the durations `as usize` (`addedWeight`).
-/

namespace Remora

open Relation PreConsensusSchedTask

variable {τ : Type} (transactions : List (RemoraTransaction τ))

open Classical in
/-- The positions linked to `i`. -/
noncomputable def conflictClass (i : ℕ) : Finset ℕ :=
  (Finset.range transactions.length).filter (Linked transactions i)

/-- The classes of the batch. -/
noncomputable def conflictClasses : Finset (Finset ℕ) :=
  (Finset.range transactions.length).image (conflictClass transactions)

/-- The classes with at least two members. -/
noncomputable def largeClasses : Finset (Finset ℕ) :=
  (conflictClasses transactions).filter fun c => 2 ≤ c.card

def digestAt (i : ℕ) : TransactionDigest :=
  (transactions[i]?.map RemoraTransaction.digest).getD 0

/-- The `expected_stateful_duration` of the transaction at position `i`, in microseconds. -/
def durationAt (i : ℕ) : ℕ :=
  (transactions[i]?.map RemoraTransaction.expectedStatefulDuration).getD 0

/-- The durations of the members. -/
def classWeight (c : Finset ℕ) : ℕ :=
  ∑ i ∈ c, durationAt transactions i

/-- The duration of the last transaction that has the digest. -/
def digestWeight (d : TransactionDigest) : ℕ :=
  ((txMap transactions d).map RemoraTransaction.expectedStatefulDuration).getD 0

/-- The durations of the members, where transactions with one digest count once. -/
def plannedWeight (c : Finset ℕ) : ℕ :=
  ∑ d ∈ c.image (digestAt transactions), digestWeight transactions d

/-- The same of the durations `as usize`. -/
def addedWeight (c : Finset ℕ) : ℕ :=
  ∑ d ∈ c.image (digestAt transactions), asUsize (digestWeight transactions d)

variable {transactions} {i j : ℕ}

/-! ## Classes -/

theorem Linked.symm (h : Linked transactions i j) : Linked transactions j i := by
  induction h with
  | refl => exact ReflTransGen.refl
  | tail _ hjk ih => exact ReflTransGen.head hjk.symm ih

theorem mem_conflictClass :
    j ∈ conflictClass transactions i ↔ j < transactions.length ∧ Linked transactions i j := by
  classical
  rw [conflictClass, Finset.mem_filter, Finset.mem_range]

theorem conflictClass_congr (h : Linked transactions i j) :
    conflictClass transactions i = conflictClass transactions j := by
  ext k
  rw [mem_conflictClass, mem_conflictClass]
  exact and_congr_right fun _ => ⟨h.symm.trans, h.trans⟩

theorem mem_conflictClasses {c : Finset ℕ} : c ∈ conflictClasses transactions ↔
    ∃ i < transactions.length, conflictClass transactions i = c := by
  simp [conflictClasses]

theorem mem_largeClasses {c : Finset ℕ} :
    c ∈ largeClasses transactions ↔ c ∈ conflictClasses transactions ∧ 2 ≤ c.card :=
  Finset.mem_filter

/-- A class is the class of each of its members. -/
theorem eq_conflictClass_of_mem {c : Finset ℕ} (hc : c ∈ conflictClasses transactions)
    (hi : i ∈ c) : i < transactions.length ∧ c = conflictClass transactions i := by
  obtain ⟨k, -, rfl⟩ := mem_conflictClasses.mp hc
  obtain ⟨hi, hki⟩ := mem_conflictClass.mp hi
  exact ⟨hi, conflictClass_congr hki⟩

/-! ## Large subgraphs -/

/-- Lists that have every class with at least two members, each member once. -/
structure Enumerates (transactions : List (RemoraTransaction τ)) (subgraphs : List (List ℕ)) :
    Prop where
  nodup : subgraphs.flatten.Nodup
  nodup_map : (subgraphs.map List.toFinset).Nodup
  mem_iff : ∀ c, c ∈ subgraphs.map List.toFinset ↔ c ∈ largeClasses transactions

theorem mem_largeSubgraphs {subgraphs : List (List ℕ)} {c : List ℕ} :
    c ∈ largeSubgraphs subgraphs ↔ c ∈ subgraphs ∧ 2 ≤ c.length := by
  rw [largeSubgraphs, List.mem_filter, List.mem_insertionSort, decide_eq_true_iff, Nat.not_lt]

theorem nodup_map_toFinset {subgraphs : List (List ℕ)} (h : subgraphs.flatten.Nodup)
    (hne : ∀ c ∈ subgraphs, c ≠ []) : (subgraphs.map List.toFinset).Nodup := by
  obtain ⟨-, hdisjoint⟩ := List.nodup_flatten.mp h
  rw [List.Nodup, List.pairwise_map]
  refine hdisjoint.imp_of_mem fun {c d} hc hd hcd heq => ?_
  obtain ⟨i, hi⟩ := List.exists_mem_of_ne_nil c (hne c hc)
  exact hcd hi (List.mem_toFinset.mp (heq ▸ List.mem_toFinset.mpr hi))

section Subgraphs

variable {subgraphs : List (List ℕ)}
  (hperm : subgraphs.flatten.Perm (List.range transactions.length))
  (hclasses : ∀ c ∈ subgraphs, ∀ i ∈ c, ∀ j, j ∈ c ↔ Linked transactions i j)
include hperm hclasses

theorem toFinset_subgraph {c : List ℕ} (hc : c ∈ subgraphs) (hi : i ∈ c) :
    i < transactions.length ∧ c.toFinset = conflictClass transactions i := by
  have hlt : ∀ j ∈ c, j < transactions.length := fun j hj =>
    List.mem_range.mp (hperm.mem_iff.mp (List.mem_flatten.mpr ⟨c, hc, hj⟩))
  refine ⟨hlt i hi, ?_⟩
  ext j
  rw [List.mem_toFinset, mem_conflictClass, ← hclasses c hc i hi j]
  exact ⟨fun hj => ⟨hlt j hj, hj⟩, And.right⟩

theorem exists_subgraph {C : Finset ℕ} (hC : C ∈ conflictClasses transactions) :
    ∃ c ∈ subgraphs, c.toFinset = C := by
  obtain ⟨i, hi, rfl⟩ := mem_conflictClasses.mp hC
  have hmem : i ∈ subgraphs.flatten := hperm.mem_iff.mpr (List.mem_range.mpr hi)
  obtain ⟨c, hc, hic⟩ := List.mem_flatten.mp hmem
  exact ⟨c, hc, (toFinset_subgraph hperm hclasses hc hic).2⟩

end Subgraphs

/-- The scheduler finds the classes with at least two members. -/
theorem largeSubgraphs_spec (I : Petgraph) (transactions : List (RemoraTransaction τ)) :
    ∃ subgraphs, findAllSubgraphs I (buildDependencyGraph transactions).1 = some subgraphs ∧
      Enumerates transactions (largeSubgraphs subgraphs) := by
  obtain ⟨subgraphs, heq, hperm, hclasses⟩ := findAllSubgraphs_eq_some I transactions
  have hflatten : subgraphs.flatten.Nodup := hperm.nodup_iff.mpr List.nodup_range
  have hnodup : ∀ c ∈ subgraphs, c.Nodup := (List.nodup_flatten.mp hflatten).1
  have hlarge : (largeSubgraphs subgraphs).flatten.Nodup := by
    have hsorted := List.perm_insertionSort (fun a b : List ℕ => b.length ≤ a.length) subgraphs
    exact (hsorted.flatten.nodup_iff.mpr hflatten).sublist List.filter_sublist.flatten
  refine ⟨subgraphs, heq, hlarge,
    nodup_map_toFinset hlarge fun c hc => ?_, fun C => ?_⟩
  · exact List.ne_nil_of_length_pos (by have := (mem_largeSubgraphs.mp hc).2; omega)
  · rw [List.mem_map, mem_largeClasses]
    constructor
    · rintro ⟨c, hc, rfl⟩
      obtain ⟨hc, hlen⟩ := mem_largeSubgraphs.mp hc
      obtain ⟨i, hi⟩ := List.exists_mem_of_length_pos (l := c) (by omega)
      obtain ⟨hlt, hclass⟩ := toFinset_subgraph hperm hclasses hc hi
      rw [List.toFinset_card_of_nodup (hnodup c hc)]
      exact ⟨mem_conflictClasses.mpr ⟨i, hlt, hclass.symm⟩, hlen⟩
    · rintro ⟨hC, hcard⟩
      obtain ⟨c, hc, rfl⟩ := exists_subgraph hperm hclasses hC
      refine ⟨c, mem_largeSubgraphs.mpr ⟨hc, ?_⟩, rfl⟩
      rwa [← List.toFinset_card_of_nodup (hnodup c hc)]

namespace Enumerates

variable {subgraphs : List (List ℕ)} (h : Enumerates transactions subgraphs)
include h

/-- A sum over the subgraphs. -/
theorem sum_map (f : Finset ℕ → ℕ) :
    (subgraphs.map fun c => f c.toFinset).sum = ∑ c ∈ largeClasses transactions, f c := by
  have hset : (subgraphs.map List.toFinset).toFinset = largeClasses transactions := by
    ext c
    rw [List.mem_toFinset, h.mem_iff]
  rw [← hset, List.sum_toFinset f h.nodup_map, List.map_map]
  rfl

theorem lt_length {c : List ℕ} (hc : c ∈ subgraphs) (hi : i ∈ c) : i < transactions.length := by
  have hlarge := (h.mem_iff c.toFinset).mp (List.mem_map_of_mem hc)
  exact (eq_conflictClass_of_mem (mem_largeClasses.mp hlarge).1 (List.mem_toFinset.mpr hi)).1

end Enumerates

/-! ## Digests -/

theorem sum_map_filterMap {α β : Type} (f : α → Option β) (g : β → ℕ) (l : List α) :
    ((l.filterMap f).map g).sum = (l.map fun a => ((f a).map g).getD 0).sum := by
  induction l with
  | nil => rfl
  | cons a l ih =>
    cases h : f a with
    | none => simp [h, ih]
    | some y => simp [h, ih]

theorem nodes_buildDependencyGraph (transactions : List (RemoraTransaction τ)) :
    (buildDependencyGraph transactions).1.nodes = transactions.map RemoraTransaction.digest := by
  obtain ⟨b, hb, hnodes, -⟩ := links_buildDependencyGraph transactions
  rw [hb, hnodes]

theorem mapM_nodes {c : List ℕ} (hc : ∀ i ∈ c, i < transactions.length) :
    (c.mapM fun idx => (buildDependencyGraph transactions).1.nodes[idx]?) =
      some (c.map (digestAt transactions)) := by
  rw [nodes_buildDependencyGraph]
  refine mapM_of_forall_eq_some fun i hi => ?_
  rw [List.getElem?_map, List.getElem?_eq_getElem (hc i hi)]
  simp [digestAt, List.getElem?_eq_getElem (hc i hi)]

section Digests

variable {L : Collections} {c : List ℕ} (hc : ∀ i ∈ c, i < transactions.length)
include hc

/-- The digests of a subgraph are found, each once. -/
theorem subgraphDigests_eq_some :
    ∃ digests, subgraphDigests L (buildDependencyGraph transactions).1 c = some digests ∧
      digests.Nodup ∧ digests.toFinset = c.toFinset.image (digestAt transactions) := by
  refine ⟨_, by rw [subgraphDigests, mapM_nodes hc]; rfl, ?_, ?_⟩
  · exact (L.iterate_perm _).nodup_iff.mpr (List.nodup_dedup _)
  · ext d
    rw [List.mem_toFinset, (L.iterate_perm _).mem_iff]
    simp

theorem sum_durations {digests : List TransactionDigest}
    (h : subgraphDigests L (buildDependencyGraph transactions).1 c = some digests) :
    ((durations (txMap transactions) digests).map asUsize).sum =
      addedWeight transactions c.toFinset := by
  obtain ⟨digests', h', hnodup, himage⟩ := subgraphDigests_eq_some (L := L) hc
  obtain rfl := Option.some.inj (h.symm.trans h')
  rw [durations, List.map_map, sum_map_filterMap, addedWeight, ← himage, List.sum_toFinset _ hnodup]
  refine congrArg List.sum (List.map_congr_left fun d _ => ?_)
  rw [digestWeight]
  cases txMap transactions d with
  | none => rfl
  | some tx => rfl

end Digests

theorem sum_addedWeight_mod (transactions : List (RemoraTransaction τ))
    (classes : Finset (Finset ℕ)) :
    (∑ c ∈ classes, addedWeight transactions c) % 2 ^ 64 =
      (∑ c ∈ classes, plannedWeight transactions c) % 2 ^ 64 := by
  rw [Finset.sum_nat_mod, Finset.sum_nat_mod (f := plannedWeight transactions)]
  refine congrArg (· % 2 ^ 64) (Finset.sum_congr rfl fun c _ => ?_)
  exact (Finset.sum_nat_mod _ _ _).symm

theorem sum_addedWeight_of_lt {classes : Finset (Finset ℕ)}
    (h : ∑ c ∈ classes, plannedWeight transactions c < 2 ^ 64) :
    ∑ c ∈ classes, addedWeight transactions c = ∑ c ∈ classes, plannedWeight transactions c := by
  refine Finset.sum_congr rfl fun c hc => Finset.sum_congr rfl fun d hd => asUsize_of_lt ?_
  have hclass : digestWeight transactions d ≤ plannedWeight transactions c :=
    Finset.single_le_sum (fun _ _ => Nat.zero_le _) hd
  have hall : plannedWeight transactions c ≤ ∑ c ∈ classes, plannedWeight transactions c :=
    Finset.single_le_sum (fun _ _ => Nat.zero_le _) hc
  omega

/-! ## Distinct digests -/

theorem txMap_append_singleton (l : List (RemoraTransaction τ)) (tx : RemoraTransaction τ)
    (d : TransactionDigest) :
    txMap (l ++ [tx]) d = if d = tx.digest then some tx else txMap l d := by
  rw [txMap, List.foldl_append, List.foldl_cons, List.foldl_nil, Function.update_apply]
  rfl

theorem mem_of_txMap {d : TransactionDigest} {tx : RemoraTransaction τ}
    (h : txMap transactions d = some tx) : tx ∈ transactions ∧ tx.digest = d := by
  induction transactions using List.reverseRecOn with
  | nil => simp [txMap] at h
  | append_singleton l t ih =>
    rw [txMap_append_singleton] at h
    split_ifs at h with hd
    · obtain rfl := Option.some.inj h
      exact ⟨by simp, hd.symm⟩
    · exact ⟨List.mem_append_left _ (ih h).1, (ih h).2⟩

theorem isSome_txMap {tx : RemoraTransaction τ} (h : tx ∈ transactions) :
    (txMap transactions tx.digest).isSome := by
  induction transactions using List.reverseRecOn with
  | nil => simp at h
  | append_singleton l t ih =>
    rw [txMap_append_singleton]
    split_ifs with hd
    · rfl
    · rcases List.mem_append.mp h with h | h
      · exact ih h
      · exact absurd (by rw [List.mem_singleton.mp h]) hd

section Distinct

variable (hd : (transactions.map RemoraTransaction.digest).Nodup)
include hd

theorem txMap_of_distinct {tx : RemoraTransaction τ} (h : tx ∈ transactions) :
    txMap transactions tx.digest = some tx := by
  obtain ⟨tx', htx'⟩ := Option.isSome_iff_exists.mp (isSome_txMap h)
  obtain ⟨hmem, hdigest⟩ := mem_of_txMap htx'
  rw [htx', List.inj_on_of_nodup_map hd hmem h hdigest]

theorem digestAt_injOn {c : Finset ℕ} (hc : ∀ i ∈ c, i < transactions.length) :
    Set.InjOn (digestAt transactions) c := by
  intro i hi j hj hij
  have hi := hc i hi
  have hj := hc j hj
  simp only [digestAt, List.getElem?_eq_getElem hi, List.getElem?_eq_getElem hj, Option.map_some,
    Option.getD_some] at hij
  have hi' : i < (transactions.map RemoraTransaction.digest).length := by simpa using hi
  have hj' : j < (transactions.map RemoraTransaction.digest).length := by simpa using hj
  have heq : (transactions.map RemoraTransaction.digest)[i] =
      (transactions.map RemoraTransaction.digest)[j] := by simpa using hij
  exact hd.getElem_inj_iff.mp heq

theorem plannedWeight_of_distinct {c : Finset ℕ} (hc : ∀ i ∈ c, i < transactions.length) :
    plannedWeight transactions c = classWeight transactions c := by
  rw [plannedWeight, Finset.sum_image (digestAt_injOn hd hc)]
  refine Finset.sum_congr rfl fun i hi => ?_
  have hi := hc i hi
  have htx := txMap_of_distinct hd (List.getElem_mem hi)
  simp only [digestWeight, digestAt, durationAt, List.getElem?_eq_getElem hi, Option.map_some,
    Option.getD_some, htx]

end Distinct

end Remora
