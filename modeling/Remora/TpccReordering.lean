import Remora.Reordering
import Remora.TpccFootprint
import Remora.VersionAssignment

/-!
# Reordered TPC-C runs

Transactions that access different objects may be executed in any order. Neither changes what
the other one reads, the rows of its items included, which are not declared : nothing
declares an item, and distinct rows have distinct identifiers (`disjoint_footprint`). So their
executions commute (`local_apply`), and so do the assignments of their versions
(`assign_comm`), and any permutation of a sequence that keeps the order of the transactions
with a common object requires the same versions and ends in the same store.
-/

namespace Remora

open VersionAssignmentTask Reordering

/-! ## Version assignment -/

section Assignment

variable {τ : Type} {V V' : Versions} {t u : RemoraTransaction τ}

theorem currentVersions_congr {ids : List ObjectID} (h : ∀ o ∈ ids, V' o = V o) :
    currentVersions V' ids = currentVersions V ids :=
  List.map_congr_left fun o ho => by rw [h o ho]

/-- What a transaction is assigned depends on its own objects. -/
theorem assign_congr (h : ∀ o ∈ t.sharedObjectIds, V' o = V o) :
    (assignSharedObjectVersions V' t).2 = (assignSharedObjectVersions V t).2 := by
  have hversions := currentVersions_congr h
  unfold assignSharedObjectVersions
  split_ifs
  · rfl
  · simp only [fill, hversions]

variable (h : t.sharedObjectIds.Disjoint u.sharedObjectIds)
include h

theorem assign_of_disjoint :
    (assignSharedObjectVersions (assignSharedObjectVersions V t).1 u).2 =
      (assignSharedObjectVersions V u).2 :=
  assign_congr fun o ho => by rw [assign_versions, if_neg (List.disjoint_right.mp h ho)]

/-- Transactions without a common object are assigned in any order. -/
theorem assign_comm :
    (assignSharedObjectVersions (assignSharedObjectVersions V t).1 u).1 =
      (assignSharedObjectVersions (assignSharedObjectVersions V u).1 t).1 := by
  have hrequired := assign_of_disjoint (V := V) h
  have hrequired' := assign_of_disjoint (V := V) h.symm
  have hu := congrArg Prod.snd hrequired
  have ht := congrArg Prod.snd hrequired'
  rw [assign_required, assign_required] at hu ht
  funext o
  simp only [assign_versions, hu, ht]
  split_ifs with ho ho'
  · exact absurd ho (h ho')
  · rfl
  · rfl
  · rfl

end Assignment

namespace Tpcc

variable {β : Type} {P : Platform β}

/-! ## Executions -/

section Executions

variable {t u : RemoraTransaction TpccTransaction}

/-- Two transactions with a common object. -/
def Conflict (P : Platform β) (t u : RemoraTransaction TpccTransaction) : Prop :=
  ∃ o ∈ t.transaction.accessSet P, o ∈ u.transaction.accessSet P

theorem Built.mem_sharedObjectIds (ht : Built P t) {o : ObjectID} :
    o ∈ t.sharedObjectIds ↔ o ∈ t.transaction.accessSet P := by
  rw [RemoraTransaction.sharedObjectIds, t.shared_iff, ht]
  simp [inputsOf]

/-- A transaction stays the same when it is assigned versions. -/
theorem transaction_assign (V : Versions) (t : RemoraTransaction TpccTransaction) :
    (assignSharedObjectVersions V t).2.1.transaction = t.transaction ∧
      (assignSharedObjectVersions V t).2.1.inputs = t.inputs := by
  unfold assignSharedObjectVersions
  split_ifs
  · exact ⟨rfl, rfl⟩
  · exact ⟨rfl, rfl⟩

theorem Built.assign (ht : Built P t) (V : Versions) :
    Built P (assignSharedObjectVersions V t).2.1 := by
  rw [Built, (transaction_assign V t).1, (transaction_assign V t).2]
  exact ht

/-- An execution reads the footprint and changes the declared objects. -/
theorem local_apply (ht : Built P t) :
    Local (footprint P t.transaction) {o | o ∈ t.transaction.accessSet P} (apply P t) where
  others {S S'} h o ho := by
    obtain ⟨N, hN, rfl⟩ := Option.map_eq_some_iff.mp h
    have hnone : N o = none := by
      rw [← Option.not_isSome_iff_eq_none, isSome_newState ht hN]
      exact ho
    rw [commit, hnone, Option.none_or]
  agree {S U S'} hU h := by
    obtain ⟨N, hN, rfl⟩ := Option.map_eq_some_iff.mp h
    refine ⟨commit U N, ?_, fun o ho => ?_⟩
    · rw [apply, execute_congr ht hU, hN]
      rfl
    · obtain ⟨x, hx⟩ := Option.isSome_iff_exists.mp ((isSome_newState ht hN).mpr ho)
      rw [commit, commit, hx, Option.some_or, Option.some_or]

/-- What one transaction reads is not changed by another one that accesses other objects. -/
theorem disjoint_footprint {K : Set PrimaryKey} (hK : Set.InjOn P.objectId K)
    (ht : ∀ k ∈ t.transaction.rows, k ∈ K) (hu : ∀ k ∈ u.transaction.rows, k ∈ K)
    (h : ¬ Conflict P t u) :
    Disjoint (footprint P t.transaction) {o | o ∈ u.transaction.accessSet P} := by
  rw [Set.disjoint_left]
  rintro o (ho | ho) hou
  · exact h ⟨o, ho, hou⟩
  · obtain ⟨k, hk, rfl⟩ := TpccTransaction.mem_itemIds_iff.mp ho
    obtain ⟨k', hk', heq⟩ := TpccTransaction.mem_accessSet_iff.mp hou
    have hkk' : k' = k :=
      hK (hu k' (List.mem_append_left _ hk')) (ht k (List.mem_append_right _ hk)) heq
    subst hkk'
    exact TpccTransaction.kind_of_mem_accessRows hk' (TpccTransaction.kind_of_mem_itemRows hk)

theorem Conflict.symm (h : Conflict P t u) : Conflict P u t := by
  obtain ⟨o, ht, hu⟩ := h
  exact ⟨o, hu, ht⟩

/-- Executions without a common object commute. -/
theorem apply_comm {K : Set PrimaryKey} (hK : Set.InjOn P.objectId K)
    (ht : Built P t) (hu : Built P u) (htK : ∀ k ∈ t.transaction.rows, k ∈ K)
    (huK : ∀ k ∈ u.transaction.rows, k ∈ K) (h : ¬ Conflict P t u) (S : Objects β) :
    (apply P t S).bind (apply P u) = (apply P u S).bind (apply P t) := by
  have hdisjoint := disjoint_footprint hK htK huK h
  refine (local_apply ht).comm (local_apply hu) hdisjoint
    (disjoint_footprint hK huK htK fun h' => h h'.symm).symm (hdisjoint.mono_left ?_) S
  exact fun o ho => Or.inl ho

end Executions

/-! ## Sequences -/

/-- The store after the transactions have got their versions, when they are executed one after
the other. `none` : one of them panics. -/
def executeAll (P : Platform β) (txns : List (RemoraTransaction TpccTransaction))
    (S : Objects β) : Option (Objects β) :=
  (versioned txns).foldl (fun S x => S.bind (apply P x.1)) (some S)

/-- The next transaction gets its versions and is executed. -/
def assignAndExecute (P : Platform β) (s : Versions × Option (Objects β))
    (t : RemoraTransaction TpccTransaction) : Versions × Option (Objects β) :=
  ((assignSharedObjectVersions s.1 t).1,
    s.2.bind (apply P (assignSharedObjectVersions s.1 t).2.1))

theorem foldl_assignAndExecute (txns : List (RemoraTransaction TpccTransaction))
    (s : Versions × Option (Objects β)) :
    txns.foldl (assignAndExecute P) s = (versionsAfter s.1 txns,
      (processVersionAssignments s.1 txns).foldl (fun S x => S.bind (apply P x.1)) s.2) := by
  induction txns generalizing s with
  | nil => rfl
  | cons t txns ih => exact ih _

/-- The versions that a transaction requires next. -/
def requiredNext (s : Versions × Option (Objects β)) (t : RemoraTransaction TpccTransaction) :
    List ObjectVersion :=
  (assignSharedObjectVersions s.1 t).2.2

section Sequences

variable {n : ℕ} (T : Fin n → RemoraTransaction TpccTransaction)

/-- What is observed of the transactions are the versions they require. -/
theorem map_snd_observations (l : List (Fin n)) (s : Versions × Option (Objects β)) :
    (observations (fun s i => assignAndExecute P s (T i)) (fun s i => requiredNext s (T i)) s l).map
        Prod.snd = (processVersionAssignments s.1 (l.map T)).map Prod.snd := by
  induction l generalizing s with
  | nil => rfl
  | cons i l ih => exact congrArg _ (ih _)

/-- The transactions of a run with the versions they require. -/
def requirements (P : Platform β) (S : Objects β) (l : List (Fin n)) :
    List (Fin n × List ObjectVersion) :=
  observations (fun s i => assignAndExecute P s (T i)) (fun s i => requiredNext s (T i))
    (fun _ => none, some S) l

theorem mem_requirements {l : List (Fin n)} {p : ℕ} {i : Fin n} {S : Objects β}
    (hi : l[p]? = some i) : (i, required (l.map T) p) ∈ requirements T P S l := by
  have hfst : ((requirements T P S l).map Prod.fst)[p]? = some i := by
    rw [requirements, map_fst_observations, hi]
  have hrequired :
      required (l.map T) p = ((requirements T P S l).map Prod.snd)[p]?.getD [] := by
    rw [requirements, map_snd_observations, required, versioned, List.getElem?_map]
  rw [List.getElem?_map] at hfst hrequired
  obtain ⟨x, hx, rfl⟩ := Option.map_eq_some_iff.mp hfst
  rw [hrequired, hx]
  exact List.mem_of_getElem? hx

variable {T} (hbuilt : ∀ i, Built P (T i))
  (hrows : Set.InjOn P.objectId {k | ∃ i, k ∈ (T i).transaction.rows})
include hbuilt

theorem disjoint_sharedObjectIds {i j : Fin n} (h : ¬ Conflict P (T i) (T j)) :
    (T i).sharedObjectIds.Disjoint (T j).sharedObjectIds := by
  intro o hi hj
  exact h ⟨o, (hbuilt i).mem_sharedObjectIds.mp hi, (hbuilt j).mem_sharedObjectIds.mp hj⟩

include hrows

theorem assignAndExecute_comm {i j : Fin n} (h : ¬ Conflict P (T i) (T j))
    (s : Versions × Option (Objects β)) :
    assignAndExecute P (assignAndExecute P s (T i)) (T j) =
      assignAndExecute P (assignAndExecute P s (T j)) (T i) := by
  have hdisjoint := disjoint_sharedObjectIds hbuilt h
  have hmem : ∀ (V : Versions) i, ∀ k ∈ (assignSharedObjectVersions V (T i)).2.1.transaction.rows,
      k ∈ {k | ∃ i, k ∈ (T i).transaction.rows} := by
    intro V i k hk
    rw [(transaction_assign V (T i)).1] at hk
    exact ⟨i, hk⟩
  have hconflict : ¬ Conflict P (assignSharedObjectVersions s.1 (T i)).2.1
      (assignSharedObjectVersions s.1 (T j)).2.1 := by
    unfold Conflict
    rw [(transaction_assign s.1 (T i)).1, (transaction_assign s.1 (T j)).1]
    exact h
  simp only [assignAndExecute, assign_of_disjoint hdisjoint, assign_of_disjoint hdisjoint.symm,
    assign_comm hdisjoint, Option.bind_assoc]
  congr 2
  funext S
  exact apply_comm hrows ((hbuilt i).assign s.1) ((hbuilt j).assign s.1) (hmem s.1 i) (hmem s.1 j)
    hconflict S

/-- A sequence is permuted, the `i`-th transaction to the position `π i`, and two transactions with
a common object stay in order. Then each requires the same versions, and the final versions and
the final store are the same. -/
theorem reordered_runs_agree (π : Equiv.Perm (Fin n))
    (hπ : ∀ i j, i < j → Conflict P (T i) (T j) → π i < π j) (S : Objects β) :
    (∀ i, required (List.ofFn (T ∘ π.symm)) (π i) = required (List.ofFn T) i) ∧
      versionsAfter (fun _ => none) (List.ofFn (T ∘ π.symm)) =
        versionsAfter (fun _ => none) (List.ofFn T) ∧
      executeAll P (List.ofFn (T ∘ π.symm)) S = executeAll P (List.ofFn T) S := by
  have hswaps := swaps_ofFn_symm (D := fun i j => Conflict P (T i) (T j)) π hπ
  have hcomm : ∀ i j, ¬ Conflict P (T i) (T j) → ∀ s : Versions × Option (Objects β),
      assignAndExecute P (assignAndExecute P s (T i)) (T j) =
        assignAndExecute P (assignAndExecute P s (T j)) (T i) :=
    fun i j => assignAndExecute_comm hbuilt hrows
  have hobs : ∀ i j, ¬ Conflict P (T i) (T j) → ∀ s : Versions × Option (Objects β),
      requiredNext (assignAndExecute P s (T i)) (T j) = requiredNext s (T j) ∧
        requiredNext (assignAndExecute P s (T j)) (T i) = requiredNext s (T i) := by
    intro i j h s
    have hdisjoint := disjoint_sharedObjectIds hbuilt h
    exact ⟨congrArg Prod.snd (assign_of_disjoint hdisjoint),
      congrArg Prod.snd (assign_of_disjoint hdisjoint.symm)⟩
  have hT : List.ofFn T = (List.finRange n).map T := List.ofFn_eq_map
  have hT' : List.ofFn (T ∘ π.symm) = (List.ofFn π.symm).map T := List.map_ofFn.symm
  rw [hT, hT']
  have hruns : ((List.finRange n).map T).foldl (assignAndExecute P) (fun _ => none, some S) =
      ((List.ofFn π.symm).map T).foldl (assignAndExecute P) (fun _ => none, some S) := by
    rw [List.foldl_map, List.foldl_map]
    exact hswaps.foldl_eq hcomm _
  rw [foldl_assignAndExecute, foldl_assignAndExecute] at hruns
  refine ⟨fun i => ?_, (congrArg Prod.fst hruns).symm, (congrArg Prod.snd hruns).symm⟩
  have hperm : (requirements T P S (List.finRange n)).Perm
      (requirements T P S (List.ofFn π.symm)) := hswaps.perm_observations hcomm hobs _
  have hnew : (i, required ((List.ofFn π.symm).map T) (π i)) ∈
      requirements T P S (List.ofFn π.symm) := mem_requirements T (by simp)
  have hold : (i, required ((List.finRange n).map T) i) ∈
      requirements T P S (List.finRange n) := mem_requirements T (by simp)
  exact observations_unique (List.nodup_finRange n) (hperm.mem_iff.mpr hnew) hold

end Sequences

/-- Payments in two warehouses, of which the last one is where the first one was. -/
def threePayments (i : Fin 3) : RemoraTransaction TpccTransaction :=
  TpccExecutableTransaction.new (plainPlatform ⟨true, true⟩)
    (match i with
      | 0 => .payment 1 1 1 1 1 1
      | 1 => .payment 2 1 2 1 1 5
      | 2 => .payment 1 1 1 1 1 3) i 0 0

/-- The rows of the two warehouses, of a district and of a customer each. -/
def sixRows : Objects (Σ kind, ObjectID × Record kind) :=
  let P := plainPlatform ⟨true, true⟩
  let rows (w : ℕ) : Objects (Σ kind, ObjectID × Record kind) :=
    paymentObjects P initialVersion (P.objectId (.warehouse w)) (P.objectId (.district w 1))
      (P.objectId (.customer w 1 1)) ⟨w, 0, 0, "W"⟩ ⟨w, 1, 0, 0, 1, "D"⟩
      ⟨w, 1, 1, 0, 0, 0, 0, "F", "L"⟩
  commit (commit (fun _ => none) (rows 1)) (rows 2)

/-- The second payment goes first, and both runs end with a store. -/
theorem reordered_runs_agree_three_payments :
    let P := plainPlatform ⟨true, true⟩
    let reordered := List.ofFn (threePayments ∘ (Equiv.swap (0 : Fin 3) 1).symm)
    (executeAll P (List.ofFn threePayments) sixRows).isSome ∧
      (∀ i, required reordered (Equiv.swap (0 : Fin 3) 1 i) =
        required (List.ofFn threePayments) i) ∧
      versionsAfter (fun _ => none) reordered =
        versionsAfter (fun _ => none) (List.ofFn threePayments) ∧
      executeAll P reordered sixRows = executeAll P (List.ofFn threePayments) sixRows := by
  refine ⟨by decide, reordered_runs_agree (fun i => built_new _ _ _ _)
    plainObjectId_injective.injOn (Equiv.swap 0 1) ?_ sixRows⟩
  unfold Conflict
  decide

end Tpcc

end Remora
