import Remora.Executor
import Remora.Sampling
import Remora.TpccObjectIds

/-!
# Fake workloads

The load generator and every node draw the transactions of a fake workload from generators of the
same seed. The nodes keep the accounts only, as their initial stores, and the load generator the
transactions only. As both draw the same, each transaction is built for the stores, unless the load
generator draws more than the nodes (`builtFrom_of_generated`).
-/

namespace Remora

namespace FakeExecutor

open Sampling Sampling.Sampler Function
open Tpcc (fromBytes)

/-! ## Accounts -/

/-- The 32 bytes of an account : its number with the lowest byte first, and then zeros. -/
def accountBytes (id : UInt64) : Vector UInt8 32 :=
  Vector.ofFn fun i => if (i : ℕ) < 8 then (id >>> (8 * i : ℕ).toUInt64).toUInt8 else 0

def accountId (id : UInt64) : ObjectID :=
  fromBytes (accountBytes id)

def fakeSharedObjectWithId (initialVersion : SequenceNumber) (id : ObjectID) : FakeObject where
  id := id
  version := initialVersion
  value := 10
  owner := .shared initialVersion

@[simp] theorem id_fakeSharedObjectWithId (v : SequenceNumber) (id : ObjectID) :
    (fakeSharedObjectWithId v id).id = id := rfl

/-! ## The workloads -/

/-- `sui_single_node_benchmark::load_statistics` : what draws the accounts of a transaction. -/
structure LoadStatistics where
  /-- The inputs only. -/
  solanaConcurrency : Sampler (List UInt64)
  ethereumTransfers : Sampler (UInt64 × UInt64)
  ethereumNftMint : Sampler (UInt64 × UInt64)
  ethereumUniswapNormal : Sampler UInt64
  ethereumUniswapPeak : Sampler UInt64
  zipfianWorkload : F64 → UInt64 → Sampler (List UInt64)

section Load

variable (S : LoadStatistics)

def solanaLoad : Sampler (List UInt64) :=
  S.solanaConcurrency

def ethTransfers : Sampler (List UInt64) := do
  let (sender, recipient) ← S.ethereumTransfers
  pure [sender, recipient]

def ethMint : Sampler (List UInt64) := do
  let (nft, minter) ← S.ethereumNftMint
  pure [nft, minter]

def uniswapNormal : Sampler (List UInt64) := do
  let coinPair ← S.ethereumUniswapNormal
  pure [coinPair]

def uniswapPeak : Sampler (List UInt64) := do
  let coinPair ← S.ethereumUniswapPeak
  pure [coinPair]

def zipfian (alpha : F64) (numberOfInputs : UInt64) : Sampler (List UInt64) :=
  S.zipfianWorkload alpha numberOfInputs

/-- The fake ones among the workloads. -/
inductive WorkloadType
  | FakeSolanaTransactions
  | FakeEthereumTransfers
  | FakeEthereumNftMint
  | FakeUniswapNormal
  | FakeUniswapPeak
  | FakeZipfian (alpha : F64) (numberOfInputs : UInt64)

def WorkloadType.load : WorkloadType → Sampler (List UInt64)
  | FakeSolanaTransactions => solanaLoad S
  | FakeEthereumTransfers => ethTransfers S
  | FakeEthereumNftMint => ethMint S
  | FakeUniswapNormal => uniswapNormal S
  | FakeUniswapPeak => uniswapPeak S
  | FakeZipfian alpha numberOfInputs => zipfian S alpha numberOfInputs

/-- The workloads of a coin pair for each transaction. -/
def WorkloadType.isUniswap : WorkloadType → Bool
  | FakeUniswapNormal | FakeUniswapPeak => true
  | _ => false

theorem ensures_load_of_isUniswap {w : WorkloadType} (hw : w.isUniswap = true) :
    Ensures (w.load S) fun ids => ∃ pair, ids = [pair] := by
  cases w with
  | FakeUniswapNormal => exact (Ensures.trivial _).bind fun pair _ => Ensures.pure ⟨pair, rfl⟩
  | FakeUniswapPeak => exact (Ensures.trivial _).bind fun pair _ => Ensures.pure ⟨pair, rfl⟩
  | _ => cases hw

end Load

/-! ## Generation -/

structure FakeTransaction where
  digest : TransactionDigest
  inputs : List InputObjectKind
  deriving DecidableEq, Repr

namespace FakeTransaction

def sharedObjectIds (t : FakeTransaction) : List ObjectID :=
  t.inputs.filterMap fun
    | .sharedMoveObject id => some id
    | .immOrOwnedMoveObject _ => none

/-- `TransactionWithTimestamp::new`, as the load generator calls it. -/
def timed (t : FakeTransaction) (verificationDuration expectedStatefulDuration : ℕ) :
    RemoraTransaction Unit :=
  .new () t.digest t.inputs verificationDuration expectedStatefulDuration

theorem mem_sharedObjectIds {t : FakeTransaction} {o : ObjectID} :
    o ∈ t.sharedObjectIds ↔ .sharedMoveObject o ∈ t.inputs := by
  rw [sharedObjectIds, List.mem_filterMap]
  constructor
  · rintro ⟨x, hx, heq⟩
    cases x with
    | sharedMoveObject id => exact Option.some.inj heq ▸ hx
    | immOrOwnedMoveObject id => cases heq
  · exact fun h => ⟨_, h, rfl⟩

theorem mem_sharedObjectIds_timed {t : FakeTransaction} {v s : ℕ} {o : ObjectID} :
    o ∈ (t.timed v s).sharedObjectIds ↔ o ∈ t.sharedObjectIds :=
  ((t.timed v s).shared_iff o).trans mem_sharedObjectIds.symm

end FakeTransaction

/-- The inputs of a transaction on these accounts. -/
def accountInputs (ids : List UInt64) : List InputObjectKind :=
  ids.map fun id => .sharedMoveObject (accountId id)

section Generate

variable (load : Sampler (List UInt64)) (random : ℕ → TransactionDigest)

/-- The loop. `random i` is the digest of the `i`-th transaction, which has its own randomness. -/
def generateFrom : ℕ → List FakeObject → List FakeTransaction →
    Sampler (List FakeObject × List FakeTransaction)
  | 0, objects, transactions => pure (objects, transactions)
  | n + 1, objects, transactions => do
    let ids ← load
    let objects := ids.foldl
      (fun objects id => objects.insert (fakeSharedObjectWithId 2 (accountId id))) objects
    generateFrom n objects (transactions ++ [⟨random transactions.length, accountInputs ids⟩])

def generateFakeLoadObjectsAndTransactions (txCount : ℕ) :
    Sampler (List FakeObject × List FakeTransaction) :=
  generateFrom load random txCount [] []

end Generate

structure BenchmarkParameters where
  load : ℕ
  /-- In nanoseconds. -/
  duration : ℕ
  /-- `none` : another workload. -/
  workload : Option WorkloadType

/-- `load * duration.as_secs()`. -/
def BenchmarkParameters.total (config : BenchmarkParameters) : ℕ :=
  config.load * (config.duration / 10 ^ 9)

section New

variable (b : Build) (S : LoadStatistics) (seeded : List ℕ) (random : ℕ → TransactionDigest)
  (config : BenchmarkParameters)

/-- `seeded` is what the generator of seed 0 draws. `none` : the panic on another workload or on an
overflow. -/
def generateFakeTransactions : Option (List FakeObject × List FakeTransaction) := do
  let preGeneration ← b.unsigned 64 config.total
  let workload ← config.workload
  let (generated, _) ← generateFakeLoadObjectsAndTransactions (workload.load S) random
    preGeneration seeded
  pure generated

/-- `generate_transactions`. -/
def generateTransactions : Option (List FakeTransaction) :=
  (generateFakeTransactions b S seeded random config).map Prod.snd

def writeObject (store : ObjectID → Option FakeObject) (object : FakeObject) :
    ObjectID → Option FakeObject :=
  update store object.id (some object)

/-- `FakeExecutor::new` : the store of the executor. -/
def new : Option (ObjectID → Option FakeObject) :=
  (generateFakeTransactions b S seeded random config).map fun generated =>
    generated.1.foldl writeObject fun _ => none

end New

/-! ## Both draw the same -/

section Generated

variable {load : Sampler (List UInt64)} {random : ℕ → TransactionDigest}

theorem mem_insert_accounts {ids : List UInt64} {objects : List FakeObject} {x : FakeObject} :
    x ∈ ids.foldl (fun objects id => objects.insert (fakeSharedObjectWithId 2 (accountId id)))
      objects ↔ x ∈ objects ∨ ∃ id ∈ ids, x = fakeSharedObjectWithId 2 (accountId id) := by
  induction ids generalizing objects with
  | nil => simp
  | cons id ids ih =>
    rw [List.foldl_cons, ih, List.mem_insert_iff, List.exists_mem_cons_iff, or_assoc, or_left_comm]

/-- What is generated is what the load draws. -/
theorem generateFrom_eq_some {n : ℕ} {objects objects' : List FakeObject}
    {transactions transactions' : List FakeTransaction} {draws rest : List ℕ}
    (h : generateFrom load random n objects transactions draws =
      some ((objects', transactions'), rest)) :
    ∃ accounts, load.replicate n draws = some (accounts, rest) ∧
      (∀ x, x ∈ objects' ↔
        x ∈ objects ∨ ∃ ids ∈ accounts, ∃ id ∈ ids, x = fakeSharedObjectWithId 2 (accountId id)) ∧
      transactions'.map FakeTransaction.inputs =
        transactions.map FakeTransaction.inputs ++ accounts.map accountInputs := by
  induction n generalizing objects transactions draws with
  | zero =>
    obtain ⟨heq, rfl⟩ := Prod.mk.inj (Option.some.inj h)
    obtain ⟨rfl, rfl⟩ := Prod.mk.inj heq
    exact ⟨[], rfl, by simp, by simp⟩
  | succ n ih =>
    obtain ⟨ids, rest', hids, h⟩ := bind_eq_some h
    obtain ⟨accounts, haccounts, hobjects, htransactions⟩ := ih h
    refine ⟨ids :: accounts, ?_, fun x => ?_, ?_⟩
    · rw [replicate, bind_of_some hids, bind_of_some haccounts]
      rfl
    · rw [hobjects, mem_insert_accounts, List.exists_mem_cons_iff, or_assoc]
    · simpa using htransactions

end Generated

section Built

variable {b : Build} {S : LoadStatistics} {seeded : List ℕ}
  {random nodeRandom : ℕ → TransactionDigest} {config nodeConfig : BenchmarkParameters}

/-- The accounts that are drawn are those of the transactions, and the objects. -/
theorem generateFakeTransactions_eq_some {objects : List FakeObject}
    {transactions : List FakeTransaction} (hlt : config.total < 2 ^ 64)
    (h : generateFakeTransactions b S seeded random config = some (objects, transactions)) :
    ∃ w accounts rest, config.workload = some w ∧
      (w.load S).replicate config.total seeded = some (accounts, rest) ∧
      (∀ x, x ∈ objects ↔
        ∃ ids ∈ accounts, ∃ id ∈ ids, x = fakeSharedObjectWithId 2 (accountId id)) ∧
      transactions.map FakeTransaction.inputs = accounts.map accountInputs := by
  rw [generateFakeTransactions, Build.unsigned, if_pos hlt] at h
  obtain ⟨w, hw, h⟩ := Option.bind_eq_some_iff.mp ((Option.bind_some _ _).symm.trans h)
  obtain ⟨⟨⟨objects', transactions'⟩, rest⟩, hgenerated, h⟩ := Option.bind_eq_some_iff.mp h
  obtain ⟨rfl, rfl⟩ := Prod.mk.inj (Option.some.inj h)
  obtain ⟨accounts, haccounts, hobjects, htransactions⟩ := generateFrom_eq_some hgenerated
  exact ⟨w, accounts, rest, hw, haccounts, by simpa using hobjects, by simpa using htransactions⟩

/-- The store has one object for each account. -/
theorem foldl_writeObject {objects : List FakeObject}
    (h : ∀ x ∈ objects, x = fakeSharedObjectWithId 2 x.id) (store : ObjectID → Option FakeObject)
    (o : ObjectID) : objects.foldl writeObject store o =
      if fakeSharedObjectWithId 2 o ∈ objects then some (fakeSharedObjectWithId 2 o)
      else store o := by
  induction objects generalizing store with
  | nil => simp
  | cons x objects ih =>
    rw [List.forall_mem_cons] at h
    rw [List.foldl_cons, ih h.2]
    by_cases ho : x.id = o
    · subst ho
      simp [writeObject, ← h.1]
    · have hne : fakeSharedObjectWithId 2 o ≠ x := fun heq => ho (heq ▸ rfl)
      simp [writeObject, hne, update_of_ne (Ne.symm ho)]

/-- The store of a node. -/
theorem new_eq_some {store : ObjectID → Option FakeObject} (hlt : config.total < 2 ^ 64)
    (h : new b S seeded random config = some store) :
    ∃ w accounts rest, config.workload = some w ∧
      (w.load S).replicate config.total seeded = some (accounts, rest) ∧
      (∀ ids ∈ accounts, ∀ id ∈ ids,
        store (accountId id) = some (fakeSharedObjectWithId 2 (accountId id))) ∧
      ∀ o x, store o = some x → x = fakeSharedObjectWithId 2 o := by
  obtain ⟨⟨objects, transactions⟩, hgenerated, hstore⟩ := Option.map_eq_some_iff.mp h
  replace hstore : store = objects.foldl writeObject fun _ => none := hstore.symm
  obtain ⟨w, accounts, rest, hw, haccounts, hobjects, -⟩ :=
    generateFakeTransactions_eq_some hlt hgenerated
  have hall : ∀ x ∈ objects, x = fakeSharedObjectWithId 2 x.id := by
    intro x hx
    obtain ⟨ids, -, id, -, rfl⟩ := (hobjects x).mp hx
    rw [id_fakeSharedObjectWithId]
  refine ⟨w, accounts, rest, hw, haccounts, fun ids hids id hid => ?_, fun o x hx => ?_⟩
  · have hmem := (hobjects _).mpr ⟨ids, hids, id, hid, rfl⟩
    rw [hstore, foldl_writeObject hall, if_pos hmem]
  · rw [hstore, foldl_writeObject hall, Option.ite_none_right_eq_some] at hx
    exact (Option.some.inj hx.2).symm

/-- A transaction finds its accounts in the stores of the nodes, if they have drawn as many. -/
theorem builtFrom_of_generated {transactions : List FakeTransaction}
    {store : ObjectID → Option FakeObject} (hworkload : config.workload = nodeConfig.workload)
    (hle : config.total ≤ nodeConfig.total) (hlt : nodeConfig.total < 2 ^ 64)
    (h : generateTransactions b S seeded random config = some transactions)
    (hnew : new b S seeded nodeRandom nodeConfig = some store) {t : FakeTransaction}
    (ht : t ∈ transactions) (v s : ℕ) : BuiltFrom store (t.timed v s) := by
  obtain ⟨⟨objects, transactions'⟩, hgenerated, rfl⟩ := Option.map_eq_some_iff.mp h
  obtain ⟨w, accounts, rest, hw, haccounts, -, hinputs⟩ :=
    generateFakeTransactions_eq_some (hle.trans_lt hlt) hgenerated
  obtain ⟨w', accounts', rest', hw', haccounts', hstore, -⟩ := new_eq_some hlt hnew
  obtain rfl := Option.some.inj (hw.symm.trans (hworkload.trans hw'))
  -- The load generator has drawn the first of what the nodes have drawn.
  obtain ⟨left, hleft⟩ := replicate_take haccounts' hle
  obtain ⟨rfl, -⟩ := Prod.mk.inj (Option.some.inj (haccounts.symm.trans hleft))
  intro x hx
  have hmem : t.inputs ∈ (accounts'.take config.total).map accountInputs :=
    hinputs ▸ List.mem_map_of_mem ht
  obtain ⟨ids, hids, heq⟩ := List.mem_map.mp hmem
  obtain ⟨id, hid, rfl⟩ := List.mem_map.mp (show x ∈ accountInputs ids from heq ▸ hx)
  rw [fromStore, InputObjectKind.objectId, hstore ids (List.mem_of_mem_take hids) id hid]
  rfl

/-- If the load draws accounts, the transactions have some. -/
theorem exists_accounts {transactions : List FakeTransaction} (hlt : config.total < 2 ^ 64)
    {Q : List UInt64 → Prop}
    (hload : ∀ w, config.workload = some w → Ensures (w.load S) Q)
    (h : generateTransactions b S seeded random config = some transactions) :
    transactions.length = config.total ∧
      ∀ t ∈ transactions, ∃ ids, Q ids ∧ t.inputs = accountInputs ids := by
  obtain ⟨⟨objects, transactions'⟩, hgenerated, rfl⟩ := Option.map_eq_some_iff.mp h
  obtain ⟨w, accounts, rest, hw, haccounts, -, hinputs⟩ :=
    generateFakeTransactions_eq_some hlt hgenerated
  obtain ⟨hlength, hall⟩ := ensures_replicate (hload w hw) _ _ _ _ haccounts
  refine ⟨?_, fun t ht => ?_⟩
  · simpa [hlength] using congrArg List.length hinputs
  · have hmem : t.inputs ∈ accounts.map accountInputs := hinputs ▸ List.mem_map_of_mem ht
    obtain ⟨ids, hids, heq⟩ := List.mem_map.mp hmem
    exact ⟨ids, hall ids hids, heq.symm⟩

end Built

end FakeExecutor

end Remora
