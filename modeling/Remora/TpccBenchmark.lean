import Remora.LoadSplit
import Remora.LoadedNode
import Remora.TpccNode

/-!
# A TPC-C benchmark

The whole way of a benchmark, from the tasks that draw the transactions to the stores of the
proxies. What is drawn is within the initial store, and pays a limited amount (`Drawn`). The load
generator cuts the transactions into chunks, one for each of its connections, and the chunks are all
transactions (`sum_transactions`). So the node executes what was drawn, and none of the money is
lost (`benchmark_conserves_money`).
-/

namespace Remora

namespace Tpcc

open Sampling Sampling.Sampler EvenSplit Function Deployment Replication

variable {β : Type}

/-! ## What is drawn -/

/-- A transaction on the initial store of `W` warehouses, with its inputs. -/
structure Drawn (P : Platform β) (W : ℕ) (t : UntimedTransaction) : Prop where
  inputs : t.inputs = inputsOf P t.txn
  rows : ∀ k ∈ t.txn.rows, k ∈ initialRows W
  quantity : ∀ l ∈ t.txn.lines, 1 ≤ l.line.quantity ∧ l.line.quantity ≤ maxOlQuantity
  amount : |t.txn.amount| ≤ maxPaymentCents

theorem Drawn.placed {P : Platform β} {W : ℕ} {t : UntimedTransaction} (h : Drawn P W t)
    (v s : ℕ) : Placed P {k | k ∈ initialRows W} (t.timed v s) where
  built := h.inputs
  rows := h.rows
  quantity := h.quantity

/-- It reads its warehouse at least, which is shared. -/
theorem Drawn.sharedObjects_ne_nil {P : Platform β} {W : ℕ} {t : UntimedTransaction}
    (h : Drawn P W t) (v s : ℕ) : (t.timed v s).sharedObjects ≠ [] := by
  obtain ⟨o, ho⟩ : ∃ o, o ∈ t.txn.readSet P := by
    cases t.txn <;> exact ⟨_, List.mem_cons_self⟩
  have hmem : o ∈ (t.timed v s).sharedObjects.map Prod.fst := by
    refine ((t.timed v s).shared_iff o).mpr ?_
    change .sharedMoveObject o ∈ t.inputs
    rw [h.inputs]
    exact List.mem_map_of_mem (TpccTransaction.mem_accessSet.mpr ho)
  intro hnil
  rw [hnil] at hmem
  cases hmem

namespace TpccGenerator

variable (g : TpccGenerator)

theorem ensures_amount (b : Build) : Ensures (g.generateTransaction b) fun x =>
    |x.1.transaction.amount| ≤ maxPaymentCents := by
  have horder : ∀ g : TpccGenerator, Ensures g.generateNewOrder fun x =>
      |x.transaction.amount| ≤ maxPaymentCents := fun g =>
    (Ensures.trivial _).bind fun wId _ => (Ensures.trivial _).bind fun dId _ =>
      (Ensures.trivial _).bind fun cId _ => (Ensures.trivial _).bind fun olCnt _ =>
        (Ensures.trivial _).bind fun items _ => Ensures.pure (by simp [TpccTransaction.amount])
  have hpayment : ∀ g : TpccGenerator, Ensures g.generatePayment fun x =>
      |x.transaction.amount| ≤ maxPaymentCents := fun g =>
    (Ensures.trivial _).bind fun wId _ => (Ensures.trivial _).bind fun dId _ =>
      (Ensures.trivial _).bind fun x _ => (Ensures.trivial _).bind fun cDId _ =>
        (Ensures.trivial _).bind fun cId _ => (ensures_genRange _ _).bind fun hAmount h =>
          Ensures.pure (by simpa [TpccTransaction.amount] using h.2)
  refine (Ensures.trivial _).bind fun g' _ => (Ensures.trivial _).bind fun payment _ => ?_
  have hgenerated : Ensures (if payment then g'.generatePayment else g'.generateNewOrder) fun x =>
      |x.transaction.amount| ≤ maxPaymentCents :=
    Ensures.ite (fun _ => hpayment g') fun _ => horder g'
  exact hgenerated.bind fun x hx => Ensures.pure hx

theorem ensures_numWarehouses (b : Build) : Ensures (g.generateTransaction b) fun x =>
    x.2.numWarehouses = g.numWarehouses := by
  have hrotate : Ensures (lift (g.maybeRotateHotspot b)) fun g' =>
      g'.numWarehouses = g.numWarehouses := Ensures.lift fun _ => numWarehouses_of_rotate
  exact hrotate.bind fun g' hg => (Ensures.trivial _).bind fun payment _ =>
    (Ensures.trivial _).bind fun x _ => Ensures.pure hg

theorem ensures_drawn (P : Platform β) (n : ℕ) :
    Ensures (g.generateAll P n) fun transactions =>
      ∀ t ∈ transactions, Drawn P g.numWarehouses t := by
  induction n generalizing g with
  | zero => exact Ensures.pure (by simp)
  | succ n ih =>
    have hone : Ensures (g.generateTransaction P.build) fun x =>
        (∀ digest, Drawn P g.numWarehouses (.new P x.1.transaction digest)) ∧
          x.2.numWarehouses = g.numWarehouses := by
      intro draws x rest h
      have hwithin := ensures_generateTransaction g P.build _ _ _ h
      refine ⟨fun digest => ⟨rfl, hwithin.rows, ?_, ensures_amount g P.build _ _ _ h⟩,
        ensures_numWarehouses g P.build _ _ _ h⟩
      intro l hl
      simp only [UntimedTransaction.new] at hl
      cases htxn : x.1.transaction with
      | newOrder wId dId cId items =>
        rw [htxn] at hl
        obtain ⟨item, hitem, rfl⟩ := List.mem_map.mp hl
        exact (hwithin.lines wId dId cId items htxn).2.2 item hitem
      | payment =>
        rw [htxn] at hl
        simp [TpccTransaction.lines] at hl
    refine hone.bind fun x hx => (Ensures.trivial _).bind fun digest _ => ?_
    refine (ih x.2).bind fun transactions htransactions => Ensures.pure ?_
    rw [hx.2] at htransactions
    exact List.forall_mem_cons.mpr ⟨hx.1 digest, htransactions⟩

end TpccGenerator

namespace Generation

variable (r : Generation β)

/-- The warehouses of the benchmark. -/
def numWarehouses : ℕ :=
  (r.config.workload.getD .fallback).numWarehouses

variable {r}

/-- The transactions are what the tasks drew. -/
theorem drawn_of_generated {transactions : List UntimedTransaction}
    (h : r.generateTransactions = some transactions) :
    ∀ t ∈ transactions, Drawn r.platform r.numWarehouses t := by
  obtain ⟨totalTxns, ends, -, hends, hfits, -, rfl⟩ := generateTransactions_eq_some.mp h
  rw [spawnTasks_eq (lt_of_fits hfits)] at hends
  obtain rfl := Option.some.inj hends
  intro t ht
  obtain ⟨taskEnd, hend, ht⟩ := List.mem_flatMap.mp ht
  obtain ⟨taskId, -, rfl⟩ := List.mem_map.mp hend
  cases htask : r.generatorTask (share ((totalTxns + numGeneratorTasks - 1) / numGeneratorTasks)
      totalTxns taskId) (r.draws taskId) with
  | none =>
    rw [chunk_taskEnd_of_none htask] at ht
    simp at ht
  | some x =>
    rw [taskEnd_of_some htask] at ht
    have hensures : Ensures (r.generatorTask (share ((totalTxns + numGeneratorTasks - 1) /
        numGeneratorTasks) totalTxns taskId)) fun transactions =>
          ∀ t ∈ transactions, Drawn r.platform r.numWarehouses t :=
      (Ensures.trivial _).bind fun _ _ => TpccGenerator.ensures_drawn _ _ _
    exact hensures _ _ _ htask t ht

end Generation

/-! ## The clients -/

/-- A benchmark of a node : what was drawn, the chunks of the connections, the durations that are
added to the transactions, and what `bincode` makes of them. -/
structure Benchmark (β : Type) where
  generation : Generation β
  transactions : List UntimedTransaction
  generated : generation.generateTransactions = some transactions
  runs : List (ℕ × List UntimedTransaction)
  split : realRun generation.platform.build transactions (List.range numClients) = some runs
  length_lt : transactions.length < 2 ^ 63
  verificationDuration : ℕ
  expectedStatefulDuration : ℕ
  serialize : RemoraTransaction TpccTransaction → List UInt8
  deserialize : List UInt8 → Option (RemoraTransaction TpccTransaction)
  node : PrimaryNode TpccTransaction (Object β)

namespace Benchmark

variable (B : Benchmark β)

/-- `send_single_transaction`. -/
def timed (t : UntimedTransaction) : RemoraTransaction TpccTransaction :=
  t.timed B.verificationDuration B.expectedStatefulDuration

/-- `submit_transactions` : what a task submits over its connection, at whatever rate. -/
def submitTransactions (i : Fin B.runs.length) : List (RemoraTransaction TpccTransaction) :=
  B.runs[i].2.map B.timed

/-- The node under the load of the clients. -/
def loaded : LoadedNode (Fin B.runs.length) TpccTransaction (Object β) :=
  ⟨B.node, B.serialize, B.deserialize, B.submitTransactions⟩

/-- There are connections enough for the chunks. -/
theorem flatten_runs : (B.runs.map Prod.snd).flatten = B.transactions :=
  flatten_realRun B.length_lt B.split

theorem exists_of_mem_submit {i : Fin B.runs.length} {m : RemoraTransaction TpccTransaction}
    (h : m ∈ B.submitTransactions i) : ∃ t ∈ B.transactions, B.timed t = m := by
  obtain ⟨t, ht, rfl⟩ := List.mem_map.mp h
  refine ⟨t, ?_, rfl⟩
  rw [← B.flatten_runs]
  exact List.mem_flatten_of_mem (List.mem_map_of_mem (List.getElem_mem i.isLt)) ht

/-- What the connections submit together are all transactions. -/
theorem sum_transactions : B.loaded.network.workload =
    (B.transactions.map B.timed : Multiset (RemoraTransaction TpccTransaction)) := by
  rw [← flatten_runs B]
  exact sum_map_parts B.timed B.runs

/-! ## The money -/

theorem drawn {t : UntimedTransaction} (ht : t ∈ B.transactions) :
    Drawn B.generation.platform B.generation.numWarehouses t :=
  Generation.drawn_of_generated B.generated t ht

theorem spent_le :
    spent (B.transactions.map B.timed) ≤ maxPaymentCents * B.transactions.length := by
  have hall : ∀ x ∈ (B.transactions.map B.timed).map fun t => |t.transaction.amount|,
      x ≤ (maxPaymentCents : ℤ) := by
    simp only [List.map_map, List.forall_mem_map]
    exact fun t ht => (B.drawn ht).amount
  refine (List.sum_le_card_nsmul _ _ hall).trans_eq ?_
  rw [List.length_map, List.length_map, nsmul_eq_mul, mul_comm]

section Load

variable {B} {Dr : Draws}

theorem submits (hencodes : ∀ i, B.loaded.network.Encodes i)
    (hdigests : (B.transactions.map (·.digest)).Nodup) :
    B.loaded.Submits
      (Placed B.generation.platform {k | k ∈ initialRows B.generation.numWarehouses}) where
  encodes := hencodes
  all i t ht := by
    obtain ⟨t, hmem, rfl⟩ := B.exists_of_mem_submit ht
    exact ⟨(B.drawn hmem).placed _ _, (B.drawn hmem).sharedObjects_ne_nil _ _⟩
  nodup := by
    rw [sum_transactions, Multiset.map_coe, Multiset.coe_nodup, List.map_map]
    exact hdigests

end Load

end Benchmark

/-- One order of five lines, for the warehouse of `oneWarehouse`. -/
def releaseOrder : Generation (Σ kind, ObjectID × Record kind) where
  platform := plainPlatform ⟨false, false⟩
  config := { load := 1, duration := 10 ^ 9, workload := some ⟨1, some 0, 1, some 0, 0⟩ }
  size := 200
  size_pos := Nat.succ_pos _
  draws _ := List.replicate 15 0 ++ [7]
  hasPanicked _ := false

end Tpcc

end Remora
