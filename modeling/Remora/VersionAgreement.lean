import Remora.DependencyController
import Remora.SequentialExecution
import Remora.TpccFootprint

/-!
# Assigned and executed versions

The version a transaction gives its objects is computed in several places : by the version
assignment, by the dependency controller, and by each executor from the versions a transaction
comes with. On a store that starts with every object at version 2, they all agree.

`checkedRun` is the store while the transactions are checked and executed one after the other.
What it keeps is that an object is at the version that is recorded for it, 2 if there is none
(`recorded_of_checkedRun`), and then the next transaction passes its check and lifts its inputs
to the version recorded next (`versionsAgree`).
-/

namespace Remora

open VersionedDependencyController

variable {τ ω : Type}

/-- The store before the `n`-th transaction, when each transaction is executed if it passes its
check. `none` : an earlier one has panicked. -/
def checkedRun (E : Executor τ ω) (C : Primary τ) (genesis : ObjectID → Option ω) :
    ℕ → Option (ObjectID → Option ω)
  | 0 => some genesis
  | n + 1 => (checkedRun E C genesis n).bind fun S =>
    match C.transaction n with
    | some t => (E.preExecuteCheck t S).bind fun ok => if ok then E.run t S else some S
    | none => some S

/-- Each output is at the version after the ones assigned. -/
def Executor.Versioned (E : Executor τ ω) : Prop :=
  ∀ {t S o x}, E.output t S o = some x → E.version x = t.nextVersion

/-- The `i`-th transaction passes its check on the store `S`. If its execution returns, its inputs
are at the version recorded for them, the controller's next version, and nothing else has
changed. -/
structure VersionsAgree (E : Executor τ ω) (C : Primary τ) (i : ℕ) (t : RemoraTransaction τ)
    (S : ObjectID → Option ω) : Prop where
  checked : E.preExecuteCheck t S = some true
  executed : ∀ S', E.run t S = some S' → ∀ x ∈ t.inputs, ∃ y, S' x.objectId = some y ∧
    versionsAt C.txns (i + 1) x.objectId = some (E.version y) ∧
    calculateNextVersion (required C.txns i) = some (E.version y)
  others : ∀ S', E.run t S = some S' → ∀ o, (∀ x ∈ t.inputs, x.objectId ≠ o) → S' o = S o

section Run

variable {E : Executor τ ω} {C : Primary τ} {genesis S : ObjectID → Option ω} {i : ℕ}
  {t : RemoraTransaction τ}

/-- The objects the transactions access are there, at version 2. -/
def Fresh (E : Executor τ ω) (C : Primary τ) (genesis : ObjectID → Option ω) : Prop :=
  ∀ t ∈ C.txns, ∀ x ∈ t.inputs, ∃ y, genesis x.objectId = some y ∧ E.version y = initialVersion

/-- An object is at the version recorded for it. -/
def Recorded (E : Executor τ ω) (C : Primary τ) (i : ℕ) (S : ObjectID → Option ω) : Prop :=
  ∀ t ∈ C.txns, ∀ x ∈ t.inputs, ∃ y, S x.objectId = some y ∧
    E.version y = (versionsAt C.txns i x.objectId).getD initialVersion

variable (hE : E.Versioned) (hshared : ∀ t ∈ C.txns, ∀ x ∈ t.inputs, x.isShared = true)
include hshared

theorem sharedMoveObject_mem (ht : C.transaction i = some t) {x : InputObjectKind}
    (hx : x ∈ t.inputs) : x = .sharedMoveObject x.objectId ∧
      ∃ t₀ ∈ C.txns, x ∈ t₀.inputs := by
  obtain ⟨t₀, ht₀, hinputs, -⟩ := Primary.transaction_eq_some ht
  have hmem := List.mem_of_getElem? ht₀
  rw [hinputs] at hx
  refine ⟨?_, t₀, hmem, hx⟩
  have := hshared t₀ hmem x hx
  cases x with
  | sharedMoveObject id => rfl
  | immOrOwnedMoveObject id => simp [InputObjectKind.isShared] at this

theorem mem_accessed_iff (ht : C.transaction i = some t) {o : ObjectID} :
    o ∈ accessed C.txns i ↔ ∃ x ∈ t.inputs, x.objectId = o := by
  rw [Primary.mem_accessed ht]
  constructor
  · exact fun h => ⟨_, h, rfl⟩
  · rintro ⟨x, hx, rfl⟩
    exact (sharedMoveObject_mem hshared ht hx).1 ▸ hx

/-- A transaction whose objects are at the recorded versions passes its check. -/
theorem preExecuteCheck_of_recorded (hS : Recorded E C i S) (ht : C.transaction i = some t) :
    E.preExecuteCheck t S = some true := by
  refine Executor.checkInputs_eq_true.mpr fun x hx => ?_
  obtain ⟨hxo, t₀, ht₀, hx₀⟩ := sharedMoveObject_mem hshared ht hx
  obtain ⟨y, hy, hv⟩ := hS t₀ ht₀ x hx₀
  have hrequired : (x.objectId, E.version y) ∈ required C.txns i :=
    mem_required.mpr ⟨(mem_accessed_iff hshared ht).mpr ⟨x, hx, rfl⟩, hv⟩
  rw [hxo]
  exact (Primary.checkInput_eq_true ht hrequired).mpr ⟨y, hy, rfl⟩

include hE

theorem executed_of_run {S' : ObjectID → Option ω} (ht : C.transaction i = some t)
    (h : E.run t S = some S') {x : InputObjectKind} (hx : x ∈ t.inputs) :
    ∃ y, S' x.objectId = some y ∧
      versionsAt C.txns (i + 1) x.objectId = some (E.version y) := by
  obtain ⟨hsome, heq⟩ := (Executor.run_eq_some h).1 x.objectId (t.mem_outputIds.mpr ⟨x, hx, rfl⟩)
  obtain ⟨y, hy⟩ := Option.isSome_iff_exists.mp hsome
  refine ⟨y, heq.trans hy, ?_⟩
  rw [versionsAt_succ, if_pos ((mem_accessed_iff hshared ht).mpr ⟨x, hx, rfl⟩), hE hy,
    Primary.nextVersion_eq_produced ht]

/-- An execution keeps the objects at the recorded versions. -/
theorem recorded_of_run {S' : ObjectID → Option ω} (hS : Recorded E C i S)
    (ht : C.transaction i = some t) (h : E.run t S = some S') : Recorded E C (i + 1) S' := by
  intro t' ht' x hx
  by_cases ho : ∃ z ∈ t.inputs, z.objectId = x.objectId
  · obtain ⟨z, hz, hzx⟩ := ho
    obtain ⟨y, hy, hv⟩ := executed_of_run hE hshared ht h hz
    rw [hzx] at hy hv
    exact ⟨y, hy, by rw [hv]; rfl⟩
  · have hfar : x.objectId ∉ t.outputIds := fun hm => ho (t.mem_outputIds.mp hm)
    rw [(Executor.run_eq_some h).2 _ hfar, versionsAt_succ,
      if_neg fun hm => ho ((mem_accessed_iff hshared ht).mp hm)]
    exact hS t' ht' x hx

theorem recorded_of_checkedRun (hgenesis : Fresh E C genesis)
    (hS : checkedRun E C genesis i = some S) : Recorded E C i S := by
  induction i generalizing S with
  | zero =>
    obtain rfl := Option.some.inj hS
    exact hgenesis
  | succ i ih =>
    obtain ⟨S₀, hS₀, hS⟩ := Option.bind_eq_some_iff.mp hS
    cases ht : C.transaction i with
    | some t =>
      rw [ht] at hS
      simp only [preExecuteCheck_of_recorded hshared (ih hS₀) ht, Option.bind_some, if_true] at hS
      exact recorded_of_run hE hshared (ih hS₀) ht hS
    | none =>
      rw [ht] at hS
      obtain rfl := Option.some.inj hS
      intro t' ht' x hx
      rw [versionsAt_succ, if_neg]
      · exact ih hS₀ t' ht' x hx
      · intro hm
        have hlt := lt_length_of_accessed hm
        rw [Primary.transaction, versioned, VersionAssignmentTask.processVersionAssignments_getElem?,
          List.getElem?_eq_getElem hlt] at ht
        simp at ht

theorem versionsAgree (hgenesis : Fresh E C genesis) (hS : checkedRun E C genesis i = some S)
    (ht : C.transaction i = some t) : VersionsAgree E C i t S where
  checked :=
    preExecuteCheck_of_recorded hshared (recorded_of_checkedRun hE hshared hgenesis hS) ht
  executed S' h x hx := by
    obtain ⟨y, hy, hv⟩ := executed_of_run hE hshared ht h hx
    have hacc := (mem_accessed_iff hshared ht).mpr ⟨x, hx, rfl⟩
    refine ⟨y, hy, hv, ?_⟩
    rw [versionsAt_succ, if_pos hacc] at hv
    rw [← hv, produced]
    refine calculateNextVersion_eq (fun k => initialVersion_le_of_required) fun hnil => ?_
    rw [← map_fst_required, hnil] at hacc
    simp at hacc
  others S' h o ho := (Executor.run_eq_some h).2 o fun hm => by
    obtain ⟨x, hx, hxo⟩ := t.mem_outputIds.mp hm
    exact ho x hx hxo

end Run

/-! ## The two executors -/

theorem versioned_fakeExecutor (τ : Type) : (fakeExecutor τ).Versioned :=
  (lawful_fakeExecutor τ).version

/-- A gas coin that is there can be updated. -/
theorem isSome_run_fakeExecutor {t : RemoraTransaction τ} {S : ObjectID → Option FakeObject}
    (h : ∀ x ∈ t.inputs, (S x.objectId).isSome) : ((fakeExecutor τ).run t S).isSome := by
  refine Executor.isSome_run.mpr fun o ho => ?_
  obtain ⟨x, hx, rfl⟩ := t.mem_outputIds.mp ho
  simpa [fakeExecutor] using h x hx

open Tpcc in
theorem built_of_transaction {β : Type} {P : Platform β} {C : Primary TpccTransaction}
    (hbuilt : ∀ t ∈ C.txns, Built P t) {i : ℕ} {t : RemoraTransaction TpccTransaction}
    (ht : C.transaction i = some t) : Built P t := by
  rw [Primary.transaction, versioned, VersionAssignmentTask.processVersionAssignments_getElem?,
    Option.map_map] at ht
  obtain ⟨t₀, ht₀, rfl⟩ := Option.map_eq_some_iff.mp ht
  have hb := hbuilt t₀ (List.mem_of_getElem? ht₀)
  simp only [Function.comp_apply, VersionAssignmentTask.assignSharedObjectVersions]
  split_ifs
  · exact hb
  · exact hb

open Tpcc in
/-- On a store that starts at version 2, every check returns true, and every execution lifts its
inputs to the version that the assignment records and the controller computes. The Fake executor
always returns. -/
theorem assigned_and_executed_versions :
    (∀ (τ : Type) (C : Primary τ) (genesis : ObjectID → Option FakeObject),
      (∀ t ∈ C.txns, ∀ x ∈ t.inputs, x.isShared = true) → Fresh (fakeExecutor τ) C genesis →
      ∀ i t S, C.transaction i = some t → checkedRun (fakeExecutor τ) C genesis i = some S →
        VersionsAgree (fakeExecutor τ) C i t S ∧ ((fakeExecutor τ).run t S).isSome) ∧
    ∀ (β : Type) (P : Platform β) (C : Primary TpccTransaction) (genesis : Objects β),
      (∀ t ∈ C.txns, Built P t) → Fresh (executor P) C genesis →
      ∀ i t S, C.transaction i = some t → checkedRun (executor P) C genesis i = some S →
        VersionsAgree (executor P) C i t S ∧ (executor P).run t S = apply P t S := by
  constructor
  · intro τ C genesis hshared hgenesis i t S ht hS
    refine ⟨versionsAgree (versioned_fakeExecutor τ) hshared hgenesis hS ht,
      isSome_run_fakeExecutor fun x hx => ?_⟩
    obtain ⟨-, t₀, ht₀, hx₀⟩ := sharedMoveObject_mem hshared ht hx
    obtain ⟨y, hy, -⟩ :=
      recorded_of_checkedRun (versioned_fakeExecutor τ) hshared hgenesis hS t₀ ht₀ x hx₀
    simp [hy]
  · intro β P C genesis hbuilt hgenesis i t S ht hS
    have hshared : ∀ t ∈ C.txns, ∀ x ∈ t.inputs, x.isShared = true := fun t ht x hx =>
      (hbuilt t ht).isShared hx
    exact ⟨versionsAgree version_of_output hshared hgenesis hS ht,
      executor_run (built_of_transaction hbuilt ht)⟩

/-- A primary that sends the transactions to no proxy. -/
def primaryOf (txns : List (RemoraTransaction τ)) : Primary τ :=
  ⟨.NoSeparation, .LSDS, [], 0, 0, txns, List.nodup_nil⟩

/-- Two transactions on gas coins, of which they share one. -/
def twoTransfers : Primary Unit :=
  primaryOf [.new () 0 [.sharedMoveObject 0, .sharedMoveObject 1] 0 0,
    .new () 1 [.sharedMoveObject 1] 0 0]

def coins (o : ObjectID) : Option FakeObject :=
  some ⟨o, 2, 10, .shared 2⟩

open Tpcc in
/-- One payment twice. -/
def twoPayments : Primary TpccTransaction :=
  primaryOf [onePayment, onePayment]

open Tpcc in
theorem assigned_and_executed_versions_second :
    (∃ t S, twoTransfers.transaction 1 = some t ∧
      checkedRun (fakeExecutor Unit) twoTransfers coins 1 = some S ∧
      VersionsAgree (fakeExecutor Unit) twoTransfers 1 t S ∧
      ((fakeExecutor Unit).run t S).isSome) ∧
    ∃ t S, twoPayments.transaction 1 = some t ∧
      checkedRun (executor (plainPlatform ⟨true, true⟩)) twoPayments threeRows 1 = some S ∧
      VersionsAgree (executor (plainPlatform ⟨true, true⟩)) twoPayments 1 t S ∧
      (executor (plainPlatform ⟨true, true⟩)).run t S = apply (plainPlatform ⟨true, true⟩) t S := by
  constructor
  · obtain ⟨t, ht⟩ := Option.isSome_iff_exists.mp
      (show (twoTransfers.transaction 1).isSome by decide)
    obtain ⟨S, hS⟩ := Option.isSome_iff_exists.mp
      (show (checkedRun (fakeExecutor Unit) twoTransfers coins 1).isSome by decide)
    exact ⟨t, S, ht, hS, assigned_and_executed_versions.1 Unit twoTransfers coins (by decide)
      (fun _ _ _ _ => ⟨_, rfl, rfl⟩) 1 t S ht hS⟩
  · obtain ⟨t, ht⟩ :=
      Option.isSome_iff_exists.mp (show (twoPayments.transaction 1).isSome by decide)
    obtain ⟨S, hS⟩ := Option.isSome_iff_exists.mp (show (checkedRun
      (executor (plainPlatform ⟨true, true⟩)) twoPayments threeRows 1).isSome by decide)
    have hmem : ∀ t ∈ twoPayments.txns, t = onePayment := by
      simp [twoPayments, primaryOf]
    have hversions : ∀ x ∈ onePayment.inputs,
        (threeRows x.objectId).map Object.version = some initialVersion := by decide
    refine ⟨t, S, ht, hS, assigned_and_executed_versions.2 _ (plainPlatform ⟨true, true⟩) twoPayments
      threeRows (fun t ht => hmem t ht ▸ rfl) (fun t ht x hx => ?_) 1 t S ht hS⟩
    exact Option.map_eq_some_iff.mp (hversions x (hmem t ht ▸ hx))

end Remora
