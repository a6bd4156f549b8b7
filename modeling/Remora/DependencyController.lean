import Remora.Rendezvous
import Remora.VersionAssignment

/-!
# The versioned dependency controller

`VersionedDependencyController` maps an object at a version to the `Notify` its consumer
waits on and its producer signals. Each map or `Notify` operation is one atomic action of
`Rendezvous`, and a method of the controller is the list of the actions it performs, in
order. The task id of an entry is never read and is left out.

A task that requires the versions `ks` performs `dependencyProgram ks` : it gets the
handles of the versions it waits for and of the versions it produces, waits, deletes the
entries it waited on, and at its end notifies.
-/

namespace Remora

open Rendezvous

namespace VersionedDependencyController

/-- The successor of the largest version. `none` : the `expect` on an empty list. -/
def calculateNextVersion (ks : List ObjectVersion) : Option SequenceNumber :=
  (ks.map Prod.snd).max?.map (· + 1)

/-- The actions of one call, and the keys of the handles it returns : those to wait on
and those to signal. -/
structure Handles where
  actions : List (Action ObjectVersion)
  prior : List ObjectVersion
  next : List ObjectVersion

def getPriorDependencyAndUpdate (ks : List ObjectVersion) (ignorePrior ignoreNext : Bool) :
    Option Handles :=
  (calculateNextVersion ks).map fun nextV =>
    { actions := ks.flatMap fun k =>
        (if initialVersion < k.2 ∧ ignorePrior = false then [.get k] else []) ++
        (if ignoreNext = false then [.get (k.1, nextV)] else [])
      prior := if ignorePrior then [] else ks.filter fun k => initialVersion < k.2
      next := if ignoreNext then [] else ks.map fun k => (k.1, nextV) }

def removeDependency (ks : List ObjectVersion) : List (Action ObjectVersion) :=
  ks.map .remove

/-- The handles of a task that requires `ks`, none if it requires nothing. -/
def handlesOf (ks : List ObjectVersion) : Handles :=
  if ks.isEmpty then ⟨[], [], []⟩
  else (getPriorDependencyAndUpdate ks false false).getD ⟨[], [], []⟩

end VersionedDependencyController

open VersionedDependencyController

/-- What a task that requires `ks` does at the controller. -/
def dependencyProgram (ks : List ObjectVersion) : List (Action ObjectVersion) :=
  (handlesOf ks).actions ++ (handlesOf ks).prior.map .wait ++ removeDependency ks ++
    (handlesOf ks).next.map .notify

/-! ## A task's handles

The versions a task requires are at least 2 and of distinct objects, and then the
controller's successor version is the one the version assignment recorded. -/

section Handles

variable {ks : List ObjectVersion} (h2 : ∀ k ∈ ks, initialVersion ≤ k.2)
include h2

theorem calculateNextVersion_eq (hne : ks ≠ []) :
    calculateNextVersion ks = some (nextVersion ks) := by
  have hmax : (ks.map Prod.snd).max? = some (maxVersion ks) := by
    rw [List.max?_eq_some_iff]
    constructor
    · rcases foldl_max_mem ks initialVersion with h | ⟨k, hk, h⟩
      · obtain ⟨k, hk⟩ := List.exists_mem_of_ne_nil ks hne
        refine List.mem_map.mpr ⟨k, hk, le_antisymm (le_maxVersion hk) ?_⟩
        rw [maxVersion, h]
        exact h2 k hk
      · exact List.mem_map.mpr ⟨k, hk, h⟩
    · intro v hv
      obtain ⟨k, hk, rfl⟩ := List.mem_map.mp hv
      exact le_maxVersion hk
  simp [calculateNextVersion, hmax, nextVersion]

theorem handlesOf_prior : (handlesOf ks).prior = ks.filter fun k => initialVersion < k.2 := by
  unfold handlesOf
  split_ifs with h
  · simp [List.isEmpty_iff.mp h]
  · simp [getPriorDependencyAndUpdate, calculateNextVersion_eq h2 (by simpa using h)]

theorem handlesOf_next : (handlesOf ks).next = ks.map fun k => (k.1, nextVersion ks) := by
  unfold handlesOf
  split_ifs with h
  · simp [List.isEmpty_iff.mp h]
  · simp [getPriorDependencyAndUpdate, calculateNextVersion_eq h2 (by simpa using h)]

theorem handlesOf_actions : (handlesOf ks).actions = ks.flatMap fun k =>
    (if initialVersion < k.2 then [Action.get k] else []) ++ [.get (k.1, nextVersion ks)] := by
  unfold handlesOf
  split_ifs with h
  · simp [List.isEmpty_iff.mp h]
  · simp [getPriorDependencyAndUpdate, calculateNextVersion_eq h2 (by simpa using h)]

theorem mem_handlesOf_actions {a : Action ObjectVersion} :
    a ∈ (handlesOf ks).actions ↔
      ∃ k ∈ ks, (initialVersion < k.2 ∧ a = .get k) ∨ a = .get (k.1, nextVersion ks) := by
  simp only [handlesOf_actions h2, List.mem_flatMap, List.mem_append, List.mem_ite_nil_right,
    List.mem_singleton]

theorem rank_of_mem_handlesOf {a : Action ObjectVersion} (ha : a ∈ (handlesOf ks).actions) :
    a.rank = 0 := by
  obtain ⟨k, -, ⟨-, rfl⟩ | rfl⟩ := (mem_handlesOf_actions h2).mp ha <;> rfl

theorem get_mem_dependencyProgram {k : ObjectVersion} :
    .get k ∈ dependencyProgram ks ↔
      (k ∈ ks ∧ initialVersion < k.2) ∨ (k.1 ∈ ks.map Prod.fst ∧ k.2 = nextVersion ks) := by
  simp only [dependencyProgram, removeDependency, List.mem_append, mem_handlesOf_actions h2,
    List.mem_map, reduceCtorEq, and_false, exists_false, or_false, Action.get.injEq]
  constructor
  · rintro ⟨a, ha, ⟨hlt, rfl⟩ | rfl⟩
    · exact Or.inl ⟨ha, hlt⟩
    · exact Or.inr ⟨⟨a, ha, rfl⟩, rfl⟩
  · rintro (⟨hk, hlt⟩ | ⟨⟨a, ha, ha1⟩, hk⟩)
    · exact ⟨k, hk, Or.inl ⟨hlt, rfl⟩⟩
    · exact ⟨a, ha, Or.inr (Prod.ext ha1.symm hk)⟩

theorem wait_mem_dependencyProgram {k : ObjectVersion} :
    .wait k ∈ dependencyProgram ks ↔ k ∈ ks ∧ initialVersion < k.2 := by
  simp [dependencyProgram, mem_handlesOf_actions h2, handlesOf_prior h2, removeDependency]

theorem remove_mem_dependencyProgram {k : ObjectVersion} :
    .remove k ∈ dependencyProgram ks ↔ k ∈ ks := by
  simp [dependencyProgram, mem_handlesOf_actions h2, removeDependency]

theorem notify_mem_dependencyProgram {k : ObjectVersion} :
    .notify k ∈ dependencyProgram ks ↔ k.1 ∈ ks.map Prod.fst ∧ k.2 = nextVersion ks := by
  simp only [dependencyProgram, handlesOf_next h2, removeDependency, List.mem_append,
    mem_handlesOf_actions h2, List.mem_map, reduceCtorEq, and_false, exists_false, false_or,
    or_self, Action.notify.injEq]
  constructor
  · rintro ⟨a, ⟨b, hb, rfl⟩, rfl⟩
    exact ⟨⟨b, hb, rfl⟩, rfl⟩
  · rintro ⟨⟨a, ha, ha1⟩, hk⟩
    exact ⟨_, ⟨a, ha, rfl⟩, Prod.ext ha1 hk.symm⟩

/-- The four phases of a task, each of one rank. -/
theorem ordered_dependencyProgram : Program.Ordered Action.rank (dependencyProgram ks) := by
  have hmap : ∀ (f : ObjectVersion → Action ObjectVersion) (r : ℕ) (l : List ObjectVersion),
      (∀ k, (f k).rank = r) → (l.map f).Pairwise fun a b => a.rank ≤ b.rank := by
    intro f r l hf
    rw [List.pairwise_map]
    exact List.pairwise_of_forall fun a b => by simp [hf]
  simp only [Program.Ordered, dependencyProgram, removeDependency, List.pairwise_append,
    List.mem_append, List.mem_map]
  refine ⟨⟨⟨?_, hmap _ 1 _ fun _ => rfl, ?_⟩, hmap _ 2 _ fun _ => rfl, ?_⟩,
    hmap _ 3 _ fun _ => rfl, ?_⟩
  · exact List.pairwise_of_forall_mem_list fun a ha b hb => by
      rw [rank_of_mem_handlesOf h2 ha, rank_of_mem_handlesOf h2 hb]
  · rintro a ha b ⟨k, -, rfl⟩
    simp [rank_of_mem_handlesOf h2 ha]
  · rintro a (ha | ⟨k, -, rfl⟩) b ⟨k', -, rfl⟩
    · simp [rank_of_mem_handlesOf h2 ha]
    · simp
  · rintro a ((ha | ⟨k, -, rfl⟩) | ⟨k, -, rfl⟩) b ⟨k', -, rfl⟩
    · simp [rank_of_mem_handlesOf h2 ha]
    · simp
    · simp

theorem nodup_handlesOf_actions (hn : (ks.map Prod.fst).Nodup) :
    (handlesOf ks).actions.Nodup := by
  rw [handlesOf_actions h2, List.nodup_flatMap]
  constructor
  · intro k hk
    have := (Nat.lt_succ_of_le (le_maxVersion hk)).ne
    split_ifs
    · simp [Prod.ext_iff, nextVersion, this]
    · simp
  · refine (List.Nodup.of_map Prod.fst hn).imp_of_mem fun {a b} ha hb hab x hxa hxb => hab ?_
    have key : ∀ c : ObjectVersion, x ∈ (if initialVersion < c.2 then [Action.get c] else []) ++
        [.get (c.1, nextVersion ks)] → x.key.1 = c.1 := by
      intro c hc
      rw [List.mem_append, List.mem_ite_nil_right, List.mem_singleton, List.mem_singleton] at hc
      obtain ⟨-, rfl⟩ | rfl := hc <;> rfl
    exact List.inj_on_of_nodup_map hn ha hb ((key a hxa).symm.trans (key b hxb))

theorem nodup_dependencyProgram (hn : (ks.map Prod.fst).Nodup) :
    (dependencyProgram ks).Nodup := by
  have hks : ks.Nodup := List.Nodup.of_map Prod.fst hn
  -- actions of different phases differ in rank
  have hrank : ∀ {a b : Action ObjectVersion}, a.rank ≠ b.rank → a ≠ b := fun h hab => h (hab ▸ rfl)
  simp only [dependencyProgram, removeDependency, List.nodup_append, List.mem_append,
    List.mem_map]
  refine ⟨⟨⟨nodup_handlesOf_actions h2 hn, ?_, ?_⟩, ?_, ?_⟩, ?_, ?_⟩
  · rw [handlesOf_prior h2]
    exact (hks.filter _).map fun a b h => Action.wait.inj h
  · rintro a ha b ⟨k, -, rfl⟩
    exact hrank (by simp [rank_of_mem_handlesOf h2 ha])
  · exact hks.map fun a b h => Action.remove.inj h
  · rintro a (ha | ⟨k, -, rfl⟩) b ⟨k', -, rfl⟩
    · exact hrank (by simp [rank_of_mem_handlesOf h2 ha])
    · simp
  · rw [handlesOf_next h2, List.map_map]
    refine hks.map_on fun a ha b hb h => ?_
    exact List.inj_on_of_nodup_map hn ha hb (Prod.mk.inj (Action.notify.inj h)).1
  · rintro a ((ha | ⟨k, -, rfl⟩) | ⟨k, -, rfl⟩) b ⟨k', -, rfl⟩
    · exact hrank (by simp [rank_of_mem_handlesOf h2 ha])
    · simp
    · simp

end Handles

/-! ## Producers and consumers of a version -/

section Parties

variable {τ : Type} (txns : List (RemoraTransaction τ))

/-- The transaction that produces `k`. -/
def producerOf (k : ObjectVersion) : Option ℕ :=
  (List.range txns.length).find? fun i => k.1 ∈ accessed txns i ∧ k.2 = produced txns i

/-- The transaction that waits for `k` : none if `k` is an initial version. -/
def consumerOf (k : ObjectVersion) : Option ℕ :=
  (List.range txns.length).find? fun j => k ∈ required txns j ∧ initialVersion < k.2

variable {txns}

theorem lt_length_of_required {j : ℕ} {k : ObjectVersion} (h : k ∈ required txns j) :
    j < txns.length :=
  lt_length_of_accessed (accessed_of_required h)

theorem producerOf_eq_some {k : ObjectVersion} {i : ℕ} :
    producerOf txns k = some i ↔ Produces txns i k := by
  constructor
  · intro h
    rw [produces_iff]
    simpa using List.find?_some h
  · intro h
    have hi := produces_iff.mp h
    cases hf : producerOf txns k with
    | none =>
      rw [producerOf, List.find?_eq_none] at hf
      exact absurd (by simpa using hi) (hf i (List.mem_range.mpr (lt_length_of_accessed hi.1)))
    | some i' =>
      have hi' : Produces txns i' k := produces_iff.mpr (by simpa using List.find?_some hf)
      rw [producer_unique h hi']

theorem consumerOf_eq_some {k : ObjectVersion} {j : ℕ} :
    consumerOf txns k = some j ↔ k ∈ required txns j ∧ initialVersion < k.2 := by
  constructor
  · intro h
    simpa using List.find?_some h
  · intro h
    cases hf : consumerOf txns k with
    | none =>
      rw [consumerOf, List.find?_eq_none] at hf
      exact absurd (by simpa using h) (hf j (List.mem_range.mpr (lt_length_of_required h.1)))
    | some j' =>
      have hj' : k ∈ required txns j' ∧ initialVersion < k.2 := by simpa using List.find?_some hf
      rw [consumer_unique h.1 hj'.1]

theorem producerOf_eq_none_of_le {k : ObjectVersion} (h : k.2 ≤ initialVersion) :
    producerOf txns k = none := by
  by_contra hne
  obtain ⟨i, hi⟩ := Option.ne_none_iff_exists'.mp hne
  have := (produces_iff.mp (producerOf_eq_some.mp hi)).2
  exact absurd (this ▸ initialVersion_lt_produced i) (Nat.not_lt.mpr h)

theorem consumerOf_eq_none_of_le {k : ObjectVersion} (h : k.2 ≤ initialVersion) :
    consumerOf txns k = none := by
  by_contra hne
  obtain ⟨j, hj⟩ := Option.ne_none_iff_exists'.mp hne
  exact absurd (consumerOf_eq_some.mp hj).2 (Nat.not_lt.mpr h)

theorem producerOf_lt_consumerOf {k : ObjectVersion} {i j : ℕ} (hi : producerOf txns k = some i)
    (hj : consumerOf txns k = some j) : i < j :=
  (lastAccess_of_produces (consumerOf_eq_some.mp hj).1 (producerOf_eq_some.mp hi)).1

end Parties

/-! ## The tasks of a consensus sequence

One task for each transaction, all at one controller. -/

section Tasks

variable {τ : Type} (txns : List (RemoraTransaction τ))

theorem initialVersion_le_of_mem (j : ℕ) :
    ∀ k ∈ required txns j, initialVersion ≤ k.2 :=
  fun _ hk => initialVersion_le_of_required hk

theorem mem_map_fst_required {j : ℕ} {k : ObjectVersion} :
    k.1 ∈ (required txns j).map Prod.fst ∧ k.2 = nextVersion (required txns j) ↔
      Produces txns j k := by
  rw [map_fst_required, produces_iff, produced]

/-- The tasks' programs, with the producers and consumers of the version assignment. -/
def taskProtocol : Protocol ObjectVersion ℕ where
  prog j := dependencyProgram (required txns j)
  producer := producerOf txns
  consumer := consumerOf txns
  nodup j := nodup_dependencyProgram (initialVersion_le_of_mem txns j)
    (by rw [map_fst_required]; exact nodup_accessed j)
  ordered j := ordered_dependencyProgram (initialVersion_le_of_mem txns j)
  get_role {j k} h := by
    rw [get_mem_dependencyProgram (initialVersion_le_of_mem txns j),
      mem_map_fst_required] at h
    exact h.symm.imp producerOf_eq_some.mpr consumerOf_eq_some.mpr
  wait_role {j k} h := consumerOf_eq_some.mpr
    ((wait_mem_dependencyProgram (initialVersion_le_of_mem txns j)).mp h)
  remove_role {j k} h := by
    rw [remove_mem_dependencyProgram (initialVersion_le_of_mem txns j)] at h
    rcases Nat.lt_or_ge initialVersion k.2 with hk | hk
    · exact Or.inl (consumerOf_eq_some.mpr ⟨h, hk⟩)
    · exact Or.inr ⟨producerOf_eq_none_of_le hk, consumerOf_eq_none_of_le hk⟩
  notify_role {j k} h := by
    rw [notify_mem_dependencyProgram (initialVersion_le_of_mem txns j),
      mem_map_fst_required] at h
    exact producerOf_eq_some.mpr h
  producer_prog {j k} h := by
    rw [producerOf_eq_some, ← mem_map_fst_required] at h
    exact ⟨(get_mem_dependencyProgram (initialVersion_le_of_mem txns j)).mpr (Or.inr h),
      (notify_mem_dependencyProgram (initialVersion_le_of_mem txns j)).mpr h⟩
  consumer_prog {j k} h := by
    rw [consumerOf_eq_some] at h
    exact ⟨(get_mem_dependencyProgram (initialVersion_le_of_mem txns j)).mpr (Or.inl h),
      (wait_mem_dependencyProgram (initialVersion_le_of_mem txns j)).mpr h,
      (remove_mem_dependencyProgram (initialVersion_le_of_mem txns j)).mpr h.1⟩
  distinct {j k} hp hc := absurd (producerOf_lt_consumerOf hp hc) (Nat.lt_irrefl _)

end Tasks

end Remora
