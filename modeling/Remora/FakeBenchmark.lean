import Remora.FakeWorkload
import Remora.LoadSplit
import Remora.LoadedNode

/-!
# A benchmark of fake transactions

The load generator sends what it has drawn to a node whose store was drawn from the same seed. A
transaction does nothing but lift the versions of its accounts, to one more than the largest. So in
the end the newest copies of the accounts tell how often each was accessed, whatever the order was
(`benchmark_counts_accesses`).
-/

namespace Remora

namespace FakeExecutor

open Sampling Sampling.Sampler EvenSplit Function Deployment Replication
open Tpcc (realRun numClients)

/-! ## Versions -/

section Versions

variable {τ : Type} {C : Primary τ} {genesis : ObjectID → Option FakeObject} {runs : ℕ → Bool}

/-- All inputs are accounts. -/
theorem accessed_of_mem_outputIds
    (hgenesis : ∀ o x, genesis o = some x → x = fakeSharedObjectWithId 2 o)
    (hbuilt : ∀ t ∈ C.txns, BuiltFrom genesis t) {i : ℕ} {t : RemoraTransaction τ}
    (ht : C.transaction i = some t) {o : ObjectID} (ho : o ∈ t.outputIds) :
    (genesis o).isSome ∧ o ∈ accessed C.txns i := by
  obtain ⟨x, hx, rfl⟩ := t.mem_outputIds.mp ho
  obtain ⟨t₀, ht₀, hinputs, -⟩ := Primary.transaction_eq_some ht
  obtain ⟨y, hy, hshared⟩ := (hbuilt t₀ (List.mem_of_getElem? ht₀)).isShared (hinputs ▸ hx)
  rw [hgenesis _ y hy] at hshared
  refine ⟨by rw [hy]; rfl, (Primary.mem_accessed ht).mpr ?_⟩
  cases x with
  | sharedMoveObject id => exact hx
  | immOrOwnedMoveObject id => cases hshared

/-- One node that executes everything has each account at its recorded version. -/
theorem sequential_eq (hgenesis : ∀ o x, genesis o = some x → x = fakeSharedObjectWithId 2 o)
    (hbuilt : ∀ t ∈ C.txns, BuiltFrom genesis t) {n : ℕ} (hruns : ∀ i < n, runs i = true)
    (o : ObjectID) : sequential (fakeExecutor τ) C runs genesis n o = (genesis o).map fun _ =>
      fakeSharedObjectWithId ((versionsAt C.txns n o).getD initialVersion) o := by
  induction n generalizing o with
  | zero =>
    rw [sequential, versionsAt_zero, Option.getD_none, initialVersion]
    cases h : genesis o with
    | none => rfl
    | some x => exact congrArg some (hgenesis o x h)
  | succ n ih =>
    have ih := ih fun i hi => hruns i (Nat.lt_succ_of_lt hi)
    by_cases ho : ∃ t, C.transaction n = some t ∧ o ∈ t.outputIds
    · obtain ⟨t, ht, ho⟩ := ho
      have hinput {o : ObjectID} := accessed_of_mem_outputIds hgenesis hbuilt ht (o := o)
      obtain ⟨hsome, hacc⟩ := hinput ho
      obtain ⟨x, hx⟩ := Option.isSome_iff_exists.mp hsome
      have hall : ∀ o ∈ t.outputIds,
          (sequential (fakeExecutor τ) C runs genesis n o).isSome := by
        intro o ho
        rw [ih, Option.isSome_map]
        exact (hinput ho).1
      rw [sequential_succ ht (hruns n (Nat.lt_succ_self n)) hall ho, versionsAt_succ, if_pos hacc]
      change (sequential (fakeExecutor τ) C runs genesis n o).map _ = _
      rw [ih, hx, Primary.nextVersion_eq_produced ht]
      rfl
    · have hacc : o ∉ accessed C.txns n := by
        intro hacc
        obtain ⟨t, ht⟩ := SharedObjTxnForwarder.transaction_of_lt (lt_length_of_accessed hacc)
        exact ho ⟨t, ht, Primary.outputIds_of_accessed ht hacc⟩
      rw [sequential_succ_of_notMem fun t ht hm => ho ⟨t, ht, hm⟩, ih, versionsAt_succ,
        if_neg hacc]

/-- When everything is done, the proxies have the accounts at the recorded versions. -/
theorem newest_iff_of_done {D : Deployment τ FakeObject} {s : State τ FakeObject}
    (hE : D.executor = fakeExecutor τ)
    (hgenesis : ∀ o x, D.genesis o = some x → x = fakeSharedObjectWithId 2 o)
    (hbuilt : ∀ t ∈ D.primary.txns, BuiltFrom D.genesis t) (hr : (system D).Reachable s)
    (hdone : Done D s) (o : ObjectID) (x : FakeObject) :
    Newest FakeObject.version (copies s o) x ↔ (D.genesis o).isSome ∧ x = fakeSharedObjectWithId
      ((versionsAt D.primary.txns D.primary.txns.length o).getD initialVersion) o := by
  have hsound := sound_fake hE hbuilt fun o x h => by rw [hgenesis o x h]; rfl
  have hnewest : Newest FakeObject.version (copies s o) x ↔ sequential (fakeExecutor τ) D.primary
      (fun i => decide (i < D.primary.txns.length)) D.genesis D.primary.txns.length o =
        some x := by
    by_cases ho : ∃ l, o ∈ accessed D.primary.txns l
    · obtain ⟨l, ho⟩ := ho
      have hends := hsound.endsSequential s hr (hdone.allFinished hr) _ (hdone.executed_iff hr) o l
        ho x
      rwa [hE] at hends
    · have hno : ∀ i t, D.primary.transaction i = some t → o ∉ t.outputIds :=
        fun i t ht hm => ho ⟨i, (accessed_of_mem_outputIds hgenesis hbuilt ht hm).2⟩
      rw [sequential_eq_of_notMem (m := 0) (Nat.zero_le _) fun l _ _ => hno l]
      exact newest_const_iff fun p => copies_of_no_input hno hr p
  rw [hnewest, sequential_eq hgenesis hbuilt fun i hi => decide_eq_true hi, Option.map_eq_some_iff,
    Option.isSome_iff_exists]
  constructor
  · rintro ⟨y, hy, rfl⟩
    exact ⟨⟨y, hy⟩, rfl⟩
  · rintro ⟨⟨y, hy⟩, rfl⟩
    exact ⟨y, hy, rfl⟩

end Versions

/-! ## The benchmark -/

/-- How the load generator and the nodes are started, what the load generator makes of it, and the
node under load. -/
structure Benchmark where
  build : Build
  statistics : LoadStatistics
  /-- What a generator of seed 0 draws. -/
  seeded : List ℕ
  config : BenchmarkParameters
  nodeConfig : BenchmarkParameters
  random : ℕ → TransactionDigest
  nodeRandom : ℕ → TransactionDigest
  transactions : List FakeTransaction
  generated : generateTransactions build statistics seeded random config = some transactions
  runs : List (ℕ × List FakeTransaction)
  split : realRun build transactions (List.range numClients) = some runs
  verificationDuration : ℕ
  expectedStatefulDuration : ℕ
  serialize : RemoraTransaction Unit → List UInt8
  deserialize : List UInt8 → Option (RemoraTransaction Unit)
  node : PrimaryNode Unit FakeObject
  executor : node.executor = fakeExecutor Unit
  genesis : new build statistics seeded nodeRandom nodeConfig = some node.genesis

namespace Benchmark

variable (B : Benchmark)

/-- `send_single_transaction`. -/
def timed (t : FakeTransaction) : RemoraTransaction Unit :=
  t.timed B.verificationDuration B.expectedStatefulDuration

/-- The node under the load of the clients. -/
def loaded : LoadedNode (Fin B.runs.length) Unit FakeObject where
  node := B.node
  serialize := B.serialize
  deserialize := B.deserialize
  transactions i := B.runs[i].2.map B.timed

/-- How many of the transactions access `o`. -/
def accesses (o : ObjectID) : ℕ :=
  B.transactions.countP fun t => o ∈ t.sharedObjectIds

/-- No transaction accesses `o` together with another account. -/
def Alone (o : ObjectID) : Prop :=
  ∀ t ∈ B.transactions, o ∈ t.sharedObjectIds → ∀ o' ∈ t.sharedObjectIds, o' = o

/-- The nodes draw the same, and no less than the load generator, from a workload that draws some
account for each transaction. -/
structure Matches : Prop where
  workload : B.config.workload = B.nodeConfig.workload
  le : B.config.total ≤ B.nodeConfig.total
  lt : B.nodeConfig.total < 2 ^ 63
  load : ∀ w, B.config.workload = some w → Ensures (w.load B.statistics) (· ≠ [])

theorem accesses_map_timed (o : ObjectID) :
    Remora.accesses (B.transactions.map B.timed) o = B.accesses o := by
  rw [Remora.accesses, List.countP_map, accesses]
  exact List.countP_congr fun t _ => by
    simp [timed, FakeTransaction.mem_sharedObjectIds_timed]

variable {B}

namespace Matches

variable (hB : B.Matches)
include hB

theorem lt_pow : B.nodeConfig.total < 2 ^ 64 :=
  hB.lt.trans (Nat.pow_lt_pow_right (by decide) (by decide))

theorem length_lt : B.transactions.length < 2 ^ 63 := by
  obtain ⟨hlength, -⟩ := exists_accounts (hB.le.trans_lt hB.lt_pow) hB.load B.generated
  rw [hlength]
  exact hB.le.trans_lt hB.lt

theorem sum_transactions : B.loaded.network.workload =
    (B.transactions.map B.timed : Multiset (RemoraTransaction Unit)) := by
  rw [← Tpcc.flatten_realRun hB.length_lt B.split]
  exact sum_map_parts B.timed B.runs

theorem exists_of_mem_submit {i : Fin B.runs.length} {m : RemoraTransaction Unit}
    (h : m ∈ B.loaded.transactions i) : ∃ t ∈ B.transactions, B.timed t = m := by
  obtain ⟨t, ht, rfl⟩ := List.mem_map.mp h
  refine ⟨t, ?_, rfl⟩
  rw [← Tpcc.flatten_realRun hB.length_lt B.split]
  exact List.mem_flatten_of_mem (List.mem_map_of_mem (List.getElem_mem i.isLt)) ht

theorem builtFrom {t : FakeTransaction} (ht : t ∈ B.transactions) :
    BuiltFrom B.node.genesis (B.timed t) :=
  builtFrom_of_generated hB.workload hB.le hB.lt_pow B.generated B.genesis ht _ _

theorem sharedObjects_ne_nil {t : FakeTransaction} (ht : t ∈ B.transactions) :
    (B.timed t).sharedObjects ≠ [] := by
  obtain ⟨ids, hids, hinputs⟩ :=
    (exists_accounts (hB.le.trans_lt hB.lt_pow) hB.load B.generated).2 t ht
  obtain ⟨id, ids', rfl⟩ := List.exists_cons_of_ne_nil hids
  have hmem : accountId id ∈ (B.timed t).sharedObjectIds := by
    rw [timed, FakeTransaction.mem_sharedObjectIds_timed, FakeTransaction.mem_sharedObjectIds,
      hinputs]
    exact List.mem_cons_self
  intro hnil
  rw [RemoraTransaction.sharedObjectIds, hnil] at hmem
  cases hmem

theorem genesis_eq {o : ObjectID} {x : FakeObject} (h : B.node.genesis o = some x) :
    x = fakeSharedObjectWithId 2 o := by
  obtain ⟨w, accounts, rest, -, -, -, hall⟩ := new_eq_some hB.lt_pow B.genesis
  exact hall o x h

theorem version_genesis {o : ObjectID} {x : FakeObject} (h : B.node.genesis o = some x) :
    x.version = 2 := by
  obtain rfl := hB.genesis_eq h
  rfl

theorem submits (hencodes : ∀ i, B.loaded.network.Encodes i)
    (hdigests : (B.transactions.map (·.digest)).Nodup) :
    B.loaded.Submits (BuiltFrom B.node.genesis) where
  encodes := hencodes
  all i t ht := by
    obtain ⟨t, hmem, rfl⟩ := hB.exists_of_mem_submit ht
    exact ⟨hB.builtFrom hmem, hB.sharedObjects_ne_nil hmem⟩
  nodup := by
    rw [hB.sum_transactions, Multiset.map_coe, Multiset.coe_nodup, List.map_map]
    exact hdigests

end Matches

/-- Coin pairs are accessed alone. -/
theorem alone_of_isUniswap (hlt : B.config.total < 2 ^ 64)
    (hw : ∀ w, B.config.workload = some w → w.isUniswap = true) (o : ObjectID) : B.Alone o := by
  intro t ht ho o' ho'
  obtain ⟨ids, ⟨pair, rfl⟩, hinputs⟩ := (exists_accounts hlt
    (fun w h => ensures_load_of_isUniswap B.statistics (hw w h)) B.generated).2 t ht
  rw [FakeTransaction.mem_sharedObjectIds, hinputs, accountInputs, List.map_singleton,
    List.mem_singleton, InputObjectKind.sharedMoveObject.injEq] at ho ho'
  exact ho'.trans ho.symm

end Benchmark

/-- Accounts are what is drawn. -/
def drawnAccounts : LoadStatistics where
  solanaConcurrency := do pure [(← draw).toUInt64]
  ethereumTransfers := do pure ((← draw).toUInt64, (← draw).toUInt64)
  ethereumNftMint := do pure ((← draw).toUInt64, (← draw).toUInt64)
  ethereumUniswapNormal := do pure (← draw).toUInt64
  ethereumUniswapPeak := do pure (← draw).toUInt64
  zipfianWorkload _ _ := do pure [(← draw).toUInt64]

/-- A second of Uniswap. -/
def oneSecond (load : ℕ) : BenchmarkParameters :=
  ⟨load, 10 ^ 9, some .FakeUniswapNormal⟩

def twoSwaps : List FakeTransaction :=
  [⟨11, accountInputs [7]⟩, ⟨12, accountInputs [7]⟩]

end FakeExecutor

end Remora
