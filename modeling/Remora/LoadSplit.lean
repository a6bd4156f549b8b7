import Remora.EvenSplit
import Remora.EndlessDraws

/-!
# The load of a benchmark and the clients

Sixteen tasks generate the transactions of a benchmark, each from a generator of its own, and the
load generator cuts the list of all of them into chunks for its sixteen clients. Both divide the
number of transactions by sixteen and round up, one in the share of a task (`taskCount`) and the
other in the size of a chunk (`splitTransactions`).

The places of the cuts are the same, so that each client replays what one task generated. But if
there is nothing to generate, a chunk has size 0, which is a panic (`splits_line_up_iff`). The tasks
draw from streams that do not end, so that whether they return is a matter of the parameters.
-/

namespace Remora

namespace Tpcc

open Sampling Sampling.Sampler EvenSplit

def numGeneratorTasks : ℕ := 16

def numClients : ℕ := 16

/-- `(n + parts - 1) / parts` in 64 bits. -/
def ceilDiv (b : Build) (n parts : ℕ) : Option ℕ := do
  let sum ← b.unsigned 64 (n + parts)
  if 1 ≤ sum then some ((sum - 1) / parts)
  else if b.overflowChecks then none
  else some ((2 ^ 64 - 1) / parts)

theorem ceilDiv_eq (b : Build) {n parts : ℕ} (hparts : 0 < parts) (h : n + parts < 2 ^ 64) :
    ceilDiv b n parts = some ((n + parts - 1) / parts) := by
  have hsum : b.unsigned 64 (n + parts) = some (n + parts) := if_pos h
  rw [ceilDiv, hsum]
  exact if_pos (by omega)

/-! ## Parameters -/

/-- `WorkloadType::Tpcc`. -/
structure TpccWorkload where
  numWarehouses : ℕ
  paymentRatio : F64
  numNodes : ℕ
  hotspotPercentage : F64
  rotationIntervalSecs : ℕ

/-- What is taken for any other workload. -/
def TpccWorkload.fallback : TpccWorkload :=
  ⟨1, some (1 / 2), 1, some 0, 20⟩

structure BenchmarkParameters where
  load : ℕ
  /-- In nanoseconds. -/
  duration : ℕ
  /-- `none` : another workload. -/
  workload : Option TpccWorkload

namespace BenchmarkParameters

variable (config : BenchmarkParameters)

/-- `duration.as_secs()`. -/
def seconds : ℕ :=
  config.duration / 10 ^ 9

/-- The transactions that the load and the duration ask for. -/
def total : ℕ :=
  config.load * config.seconds

/-- The share of a task. -/
def taskShare (taskId : ℕ) : ℕ :=
  share ((config.total + numGeneratorTasks - 1) / numGeneratorTasks) config.total taskId

end BenchmarkParameters

/-- `TpccExecutableTransaction`, as long as the load generator has not added the durations. -/
structure UntimedTransaction where
  digest : TransactionDigest
  txn : TpccTransaction
  inputs : List InputObjectKind
  deriving DecidableEq, Repr

namespace UntimedTransaction

variable {β : Type} (P : Platform β)

def new (txn : TpccTransaction) (digest : TransactionDigest) : UntimedTransaction :=
  ⟨digest, txn, inputsOf P txn⟩

def timed (t : UntimedTransaction) (verificationDuration expectedStatefulDuration : ℕ) :
    RemoraTransaction TpccTransaction :=
  .new t.txn t.digest t.inputs verificationDuration expectedStatefulDuration

end UntimedTransaction

/-! ## Tasks -/

/-- The next transactions of a generator. -/
def TpccGenerator.generateAll {β : Type} (P : Platform β) :
    TpccGenerator → ℕ → Sampler (List UntimedTransaction)
  | _, 0 => pure []
  | g, n + 1 => do
    let (generated, g) ← g.generateTransaction P.build
    let digest ← draw
    let transactions ← generateAll P g n
    pure (.new P generated.transaction digest :: transactions)

theorem TpccGenerator.ensures_generateAll {β : Type} (P : Platform β) (g : TpccGenerator) (n : ℕ) :
    Ensures (g.generateAll P n) fun transactions => transactions.length = n := by
  induction n generalizing g with
  | zero => exact Ensures.pure rfl
  | succ n ih =>
    refine (Ensures.trivial _).bind fun x _ => (Ensures.trivial _).bind fun digest _ => ?_
    refine (ih x.2).bind fun transactions h => Ensures.pure ?_
    rw [List.length_cons, h]

/-- On a stream on which the redraws end, a generator that is well configured generates what it is
asked for. -/
theorem TpccGenerator.endsOn_generateAll {β : Type} (P : Platform β) {g : TpccGenerator}
    {σ : ℕ → ℕ} (hg : g.WellConfigured P.build) (hredraws : 1 < g.numWarehouses → g.Redraws σ)
    (n : ℕ) {node count : ℕ} (hnode : node < g.numNodes) (hcount : count + n < 2 ^ 64) :
    EndsOn σ ((g.atNode node count).generateAll P n) := by
  induction n generalizing node count with
  | zero => exact EndsOn.pure _
  | succ n ih =>
    refine (endsOn_generateTransaction hg hredraws hnode (by omega)).bind
      (ensures_atNode hnode (by omega)) ?_
    rintro ⟨generated, _⟩ ⟨node', hnode', count', hle, rfl⟩
    refine endsOn_draw.seq fun digest => ?_
    exact (ih hnode' (by omega)).seq fun transactions => EndsOn.pure _

/-- How a task ends. -/
inductive TaskEnd where
  | returned (chunk : List UntimedTransaction)
  | panicked
  | running
  deriving DecidableEq, Repr

/-- What a task adds to the transactions. -/
def TaskEnd.chunk : TaskEnd → List UntimedTransaction
  | returned chunk => chunk
  | panicked => []
  | running => []

/-- The parameters, and what else the generated transactions depend on. -/
structure Generation (β : Type) where
  platform : Platform β
  config : BenchmarkParameters
  /-- The bytes of a transaction in a vector. -/
  size : ℕ
  size_pos : 0 < size
  /-- The numbers that a task draws. -/
  draws : ℕ → List ℕ
  /-- A task that does not return has panicked, or it never ends. -/
  hasPanicked : ℕ → Bool

namespace Generation

variable {β : Type} (r : Generation β)

/-- The part of the load that a task generates, in a second. -/
def perTaskTps : ℕ :=
  (r.config.load + numGeneratorTasks - 1) / numGeneratorTasks

/-- The generator that a task starts with. -/
def generator : TpccGenerator :=
  let w := r.config.workload.getD .fallback
  .new w.numWarehouses w.paymentRatio w.numNodes w.hotspotPercentage w.rotationIntervalSecs
    r.perTaskTps

/-- A task that generates `count` transactions. -/
def generatorTask (count : ℕ) : Sampler (List UntimedTransaction) := do
  let perTaskTps ← lift (ceilDiv r.platform.build r.config.load numGeneratorTasks)
  let w := r.config.workload.getD .fallback
  let generator := TpccGenerator.new w.numWarehouses w.paymentRatio w.numNodes
    w.hotspotPercentage w.rotationIntervalSecs perTaskTps
  generator.generateAll r.platform count

theorem ensures_generatorTask (count : ℕ) :
    Ensures (r.generatorTask count) fun transactions => transactions.length = count :=
  (Ensures.trivial _).bind fun _ _ => TpccGenerator.ensures_generateAll _ _ _

def taskEnd (taskId count : ℕ) : TaskEnd :=
  match r.generatorTask count (r.draws taskId) with
  | some (chunk, _) => .returned chunk
  | none => if r.hasPanicked taskId then .panicked else .running

/-- The transactions of a task, from `start_idx` to `end_idx`. -/
def taskCount (chunkSize totalTxns taskId : ℕ) : Option ℕ := do
  let startIdx ← r.platform.build.unsigned 64 (taskId * chunkSize)
  let endIdx ← r.platform.build.unsigned 64 ((taskId + 1) * chunkSize)
  pure (min endIdx totalTxns - startIdx)

def spawnTasks (totalTxns : ℕ) : Option (List TaskEnd) := do
  let chunkSize ← ceilDiv r.platform.build totalTxns numGeneratorTasks
  (List.range numGeneratorTasks).mapM fun taskId => do
    let count ← r.taskCount chunkSize totalTxns taskId
    pure (r.taskEnd taskId count)

/-- A task that panicked is skipped. `none` : waits forever. -/
def joinTasks : List TaskEnd → Option (List UntimedTransaction)
  | [] => some []
  | .returned chunk :: ends => (joinTasks ends).map (chunk ++ ·)
  | .panicked :: ends => joinTasks ends
  | .running :: _ => none

def totalTxns : Option ℕ :=
  r.platform.build.unsigned 64 (r.config.load * r.config.seconds)

/-- How the tasks of `generate_transactions` end. -/
def taskEnds : Option (List TaskEnd) :=
  r.totalTxns.bind r.spawnTasks

/-- `none` : a panic, or a task that never ends. A vector of more than `isize::MAX` bytes is a
panic. -/
def generateTransactions : Option (List UntimedTransaction) := do
  let totalTxns ← r.totalTxns
  let ends ← r.spawnTasks totalTxns
  if totalTxns * r.size < 2 ^ 63 then joinTasks ends else none

/-! ## What is generated -/

variable {r}

theorem joinTasks_eq_some {ends : List TaskEnd} {transactions : List UntimedTransaction} :
    joinTasks ends = some transactions ↔
      TaskEnd.running ∉ ends ∧ ends.flatMap TaskEnd.chunk = transactions := by
  induction ends generalizing transactions with
  | nil => simp [joinTasks]
  | cons e ends ih =>
    cases e with
    | returned chunk =>
      simp only [joinTasks, Option.map_eq_some_iff, ih, List.mem_cons, reduceCtorEq, false_or,
        List.flatMap_cons, TaskEnd.chunk]
      exact ⟨fun ⟨_, ⟨hends, rfl⟩, heq⟩ => ⟨hends, heq⟩, fun ⟨hends, heq⟩ => ⟨_, ⟨hends, rfl⟩, heq⟩⟩
    | panicked => simp [joinTasks, ih, TaskEnd.chunk]
    | running => simp [joinTasks]

theorem taskEnd_of_some {taskId count : ℕ} {chunk : List UntimedTransaction} {rest : List ℕ}
    (h : r.generatorTask count (r.draws taskId) = some (chunk, rest)) :
    r.taskEnd taskId count = .returned chunk := by
  rw [taskEnd, h]

theorem chunk_taskEnd_of_none {taskId count : ℕ}
    (h : r.generatorTask count (r.draws taskId) = none) :
    (r.taskEnd taskId count).chunk = [] := by
  rw [taskEnd, h]
  dsimp only
  split_ifs <;> rfl

/-- A task that does not return falls short of its share. -/
theorem length_chunk_taskEnd (taskId count : ℕ) :
    (r.taskEnd taskId count).chunk.length ≤ count ∧
      ((r.taskEnd taskId count).chunk.length = count →
        0 < count → (r.generatorTask count (r.draws taskId)).isSome) := by
  cases h : r.generatorTask count (r.draws taskId) with
  | none =>
    rw [chunk_taskEnd_of_none h, List.length_nil]
    exact ⟨Nat.zero_le _, fun heq hpos => absurd heq hpos.ne⟩
  | some x =>
    have hlength := r.ensures_generatorTask count _ _ _ h
    rw [taskEnd_of_some h, TaskEnd.chunk]
    exact ⟨hlength.le, fun _ _ => rfl⟩

/-- A task with nothing to do returns. -/
theorem generatorTask_zero (hload : r.config.load + numGeneratorTasks < 2 ^ 64) (draws : List ℕ) :
    r.generatorTask 0 draws = some ([], draws) := by
  rw [generatorTask, ceilDiv_eq _ (by decide) hload]
  rfl

theorem taskCount_eq {chunkSize totalTxns taskId : ℕ}
    (h : (taskId + 1) * chunkSize < 2 ^ 64) :
    r.taskCount chunkSize totalTxns taskId = some (share chunkSize totalTxns taskId) := by
  have hle : taskId * chunkSize ≤ (taskId + 1) * chunkSize :=
    Nat.mul_le_mul_right _ (Nat.le_succ _)
  rw [taskCount, Build.unsigned, if_pos (hle.trans_lt h), Build.unsigned, if_pos h]
  rfl

/-- The parts of a vector that fits in memory are its shares. -/
theorem spawnTasks_eq {totalTxns : ℕ} (h : totalTxns < 2 ^ 63) :
    r.spawnTasks totalTxns = some ((List.range numGeneratorTasks).map fun taskId =>
      r.taskEnd taskId (share ((totalTxns + numGeneratorTasks - 1) / numGeneratorTasks) totalTxns
        taskId)) := by
  rw [spawnTasks, ceilDiv_eq _ (by decide) (by rw [numGeneratorTasks]; omega)]
  refine mapM_of_forall_eq_some fun taskId htask => ?_
  have htask := List.mem_range.mp htask
  rw [taskCount_eq]
  · rfl
  have hle : (taskId + 1) * ((totalTxns + numGeneratorTasks - 1) / numGeneratorTasks) ≤
      numGeneratorTasks * ((totalTxns + numGeneratorTasks - 1) / numGeneratorTasks) :=
    Nat.mul_le_mul_right _ htask
  refine hle.trans_lt ((Nat.mul_div_le _ _).trans_lt ?_)
  rw [numGeneratorTasks]
  omega

/-- The transactions are those of the tasks, one task after the other. -/
theorem generateTransactions_eq_some {transactions : List UntimedTransaction} :
    r.generateTransactions = some transactions ↔
      ∃ totalTxns ends, r.totalTxns = some totalTxns ∧ r.spawnTasks totalTxns = some ends ∧
        totalTxns * r.size < 2 ^ 63 ∧ TaskEnd.running ∉ ends ∧
          ends.flatMap TaskEnd.chunk = transactions := by
  simp only [generateTransactions, Option.bind_eq_bind, Option.bind_eq_some_iff,
    Option.ite_none_right_eq_some, joinTasks_eq_some]
  constructor
  · rintro ⟨totalTxns, htotal, ends, hends, h⟩
    exact ⟨totalTxns, ends, htotal, hends, h⟩
  · rintro ⟨totalTxns, ends, htotal, hends, h⟩
    exact ⟨totalTxns, htotal, ends, hends, h⟩

theorem lt_of_fits {n : ℕ} (h : n * r.size < 2 ^ 63) : n < 2 ^ 63 :=
  (Nat.le_mul_of_pos_right n r.size_pos).trans_lt h

theorem total_le_shares (n : ℕ) :
    n ≤ numGeneratorTasks * ((n + numGeneratorTasks - 1) / numGeneratorTasks) := by
  rw [numGeneratorTasks]
  omega

theorem totalTxns_le {totalTxns : ℕ} (h : r.totalTxns = some totalTxns) :
    totalTxns ≤ r.config.total := by
  simp only [Generation.totalTxns, Build.unsigned] at h
  split_ifs at h
  · exact (Option.some.inj h).ge
  · exact Option.some.inj h ▸ Nat.mod_le _ _

/-- If no transaction is missing, every task has returned its share. -/
theorem isSome_of_generateTransactions {transactions : List UntimedTransaction}
    (h : r.generateTransactions = some transactions)
    (hlength : transactions.length = r.config.total) :
    r.config.total * r.size < 2 ^ 63 ∧ ∀ i < numGeneratorTasks, 0 < r.config.taskShare i →
      (r.generatorTask (r.config.taskShare i) (r.draws i)).isSome := by
  obtain ⟨totalTxns, ends, htotal, hends, hfits, -, rfl⟩ := generateTransactions_eq_some.mp h
  rw [spawnTasks_eq (lt_of_fits hfits)] at hends
  obtain rfl := Option.some.inj hends
  rw [List.flatMap_map, List.flatMap_def] at hlength
  have hle := fun i (_ : i < numGeneratorTasks) => (r.length_chunk_taskEnd i (share
    ((totalTxns + numGeneratorTasks - 1) / numGeneratorTasks) totalTxns i)).1
  have hall : totalTxns = r.config.total := by
    refine (totalTxns_le htotal).antisymm ?_
    rw [← hlength, length_flatten_parts]
    refine (Finset.sum_le_sum fun i hi => hle i (Finset.mem_range.mp hi)).trans ?_
    rw [sum_share]
    exact Nat.min_le_right _ _
  subst hall
  refine ⟨hfits, fun i hi hpos => (r.length_chunk_taskEnd i _).2 ?_ hpos⟩
  exact length_eq_share (total_le_shares _) hle hlength i hi

theorem load_lt_of_fits (hpos : 0 < r.config.total) (hfits : r.config.total * r.size < 2 ^ 63) :
    r.config.load + numGeneratorTasks < 2 ^ 64 := by
  have hlt : r.config.total < 2 ^ 63 := lt_of_fits hfits
  have hle : r.config.load ≤ r.config.total :=
    Nat.le_mul_of_pos_right _ (Nat.pos_of_mul_pos_left hpos)
  rw [numGeneratorTasks]
  omega

/-- If no task falls short of its share, no transaction is missing. -/
theorem exists_parts (hpos : 0 < r.config.total) (hfits : r.config.total * r.size < 2 ^ 63)
    (htasks : ∀ i < numGeneratorTasks, 0 < r.config.taskShare i →
      (r.generatorTask (r.config.taskShare i) (r.draws i)).isSome) :
    ∃ part : ℕ → List UntimedTransaction,
      (∀ i < numGeneratorTasks, (part i).length = r.config.taskShare i) ∧
      r.taskEnds = some ((List.range numGeneratorTasks).map fun i => .returned (part i)) ∧
      r.generateTransactions = some ((List.range numGeneratorTasks).map part).flatten := by
  have hlt : r.config.total < 2 ^ 63 := lt_of_fits hfits
  have hload := load_lt_of_fits hpos hfits
  have hreturns : ∀ i < numGeneratorTasks,
      (r.generatorTask (r.config.taskShare i) (r.draws i)).isSome := by
    intro i hi
    rcases Nat.eq_zero_or_pos (r.config.taskShare i) with hzero | hpos
    · rw [hzero, generatorTask_zero hload]
      rfl
    · exact htasks i hi hpos
  let part := fun i => (r.taskEnd i (r.config.taskShare i)).chunk
  have hpart : ∀ i < numGeneratorTasks,
      r.taskEnd i (r.config.taskShare i) = .returned (part i) ∧
        (part i).length = r.config.taskShare i := by
    intro i hi
    obtain ⟨⟨chunk, rest⟩, h⟩ := Option.isSome_iff_exists.mp (hreturns i hi)
    have hend := taskEnd_of_some h
    simp only [part, hend, TaskEnd.chunk]
    exact ⟨trivial, r.ensures_generatorTask _ _ _ _ h⟩
  have htotal : r.totalTxns = some r.config.total := if_pos (hlt.trans (by decide))
  have hspawn : r.spawnTasks r.config.total =
      some ((List.range numGeneratorTasks).map fun i => .returned (part i)) := by
    rw [spawnTasks_eq hlt]
    refine congrArg some (List.map_congr_left fun i hi => ?_)
    exact (hpart i (List.mem_range.mp hi)).1
  refine ⟨part, fun i hi => (hpart i hi).2, ?_, ?_⟩
  · rw [taskEnds, htotal, Option.bind_some, hspawn]
  · refine generateTransactions_eq_some.mpr ⟨_, _, htotal, hspawn, hfits, by simp, ?_⟩
    rw [List.flatMap_map, List.flatMap_def]
    rfl

end Generation

/-! ## Clients -/

/-- `none` : `chunks` panics at size 0. -/
def splitTransactions {τ : Type} (b : Build) (transactions : List τ) : Option (List (List τ)) := do
  let chunkSize ← ceilDiv b transactions.length numClients
  if chunkSize = 0 then none else some (chunks chunkSize transactions)

/-- The size of a chunk of nothing is 0. -/
theorem splitTransactions_nil {τ : Type} (b : Build) :
    splitTransactions b ([] : List τ) = none := by
  rw [splitTransactions, List.length_nil, ceilDiv_eq _ (by decide) (by decide)]
  rfl

theorem splitTransactions_eq {τ : Type} (b : Build) {transactions : List τ}
    (hpos : 0 < transactions.length) (hlt : transactions.length < 2 ^ 63) :
    0 < (transactions.length + numClients - 1) / numClients ∧
      splitTransactions b transactions =
        some (chunks ((transactions.length + numClients - 1) / numClients) transactions) := by
  have hsize : 0 < (transactions.length + numClients - 1) / numClients := by
    rw [numClients]
    omega
  rw [splitTransactions, ceilDiv_eq _ (by decide) (by rw [numClients]; omega)]
  exact ⟨hsize, if_neg hsize.ne'⟩

/-- `real_run` : the clients that are connected, each with its chunk. -/
def realRun {τ σ : Type} (b : Build) (transactions : List τ) (senders : List σ) :
    Option (List (σ × List τ)) :=
  (splitTransactions b transactions).map senders.zip

/-- The clients have all transactions together. -/
theorem flatten_realRun {τ : Type} {b : Build} {transactions : List τ}
    {runs : List (ℕ × List τ)} (hlt : transactions.length < 2 ^ 63)
    (h : realRun b transactions (List.range numClients) = some runs) :
    (runs.map Prod.snd).flatten = transactions := by
  have hpos : 0 < transactions.length := by
    by_contra hzero
    obtain rfl : transactions = [] := List.length_eq_zero_iff.mp (by omega)
    rw [realRun, splitTransactions_nil] at h
    cases h
  obtain ⟨hsize, hchunks⟩ := splitTransactions_eq b hpos hlt
  rw [realRun, hchunks] at h
  have hlen : (chunks ((transactions.length + numClients - 1) / numClients)
      transactions).length ≤ numClients := by
    refine length_chunks_le hsize ?_
    rw [numClients]
    omega
  rw [← Option.some.inj h, List.map_snd_zip (by rwa [List.length_range]), flatten_chunks hsize]

namespace Generation

variable {β : Type} {r : Generation β}

/-- The transactions of the load, and their chunks, one for each task that had any to generate. -/
structure LinedUp (r : Generation β) (transactions : List UntimedTransaction)
    (split : List (List UntimedTransaction)) : Prop where
  generated : r.generateTransactions = some transactions
  length_transactions : transactions.length = r.config.total
  splits : splitTransactions r.platform.build transactions = some split
  length_split : split.length ≤ numClients
  flatten : split.flatten = transactions
  output : ∀ (i : ℕ) (chunk : List UntimedTransaction), split[i]? = some chunk →
    ∃ ends, r.taskEnds = some ends ∧ ends[i]? = some (.returned chunk)
  /-- Every chunk has a client, if all of them are connected. -/
  clients : ∀ {σ : Type} (senders : List σ), senders.length = numClients →
    ∃ runs, realRun r.platform.build transactions senders = some runs ∧ runs.map Prod.snd = split

theorem LinedUp.total_pos {transactions : List UntimedTransaction}
    {split : List (List UntimedTransaction)} (h : r.LinedUp transactions split) :
    0 < r.config.total := by
  refine Nat.pos_of_ne_zero fun hzero => ?_
  have hempty : transactions = [] :=
    List.length_eq_zero_iff.mp (h.length_transactions.trans hzero)
  have hsplit := h.splits
  rw [hempty, splitTransactions_nil] at hsplit
  cases hsplit

theorem lined_up_of_parts {part : ℕ → List UntimedTransaction} (hpos : 0 < r.config.total)
    (hfits : r.config.total * r.size < 2 ^ 63)
    (hlength : ∀ i < numGeneratorTasks, (part i).length = r.config.taskShare i)
    (hends : r.taskEnds = some ((List.range numGeneratorTasks).map fun i => .returned (part i)))
    (hgenerate : r.generateTransactions = some ((List.range numGeneratorTasks).map part).flatten) :
    ∃ transactions split, r.LinedUp transactions split := by
  set parts := (List.range numGeneratorTasks).map part with hparts
  have htotal : parts.flatten.length = r.config.total := by
    rw [length_flatten_parts, Finset.sum_congr rfl fun i hi => hlength i (Finset.mem_range.mp hi)]
    exact (sum_share _ _ _).trans (Nat.min_eq_right (total_le_shares _))
  obtain ⟨hsize, hsplit⟩ := splitTransactions_eq r.platform.build (htotal ▸ hpos)
    (htotal ▸ lt_of_fits hfits)
  -- The size of a chunk is the size of a share, computed from the list.
  have hshares : ∀ i < numGeneratorTasks, (part i).length =
      share ((parts.flatten.length + numClients - 1) / numClients) parts.flatten.length i := by
    rw [htotal]
    exact hlength
  have hchunks := chunks_flatten hsize (filled_of_shares _ _ _ hshares)
  rw [← hparts] at hchunks
  have hinitial := List.takeWhile_prefix (l := parts) fun l => !l.isEmpty
  rw [← hchunks] at hinitial
  have hnum : parts.length = numGeneratorTasks := by
    rw [hparts, List.length_map, List.length_range]
  have hlen := hinitial.length_le.trans_eq hnum
  refine ⟨parts.flatten, _, hgenerate, htotal, hsplit, hlen, flatten_chunks hsize _,
    fun i chunk hi => ⟨_, hends, ?_⟩, fun senders hsenders => ?_⟩
  · obtain ⟨hlt, rfl⟩ := List.getElem?_eq_some_iff.mp hi
    rw [hinitial.getElem hlt, List.getElem?_map, List.getElem?_range (hlt.trans_le hlen)]
    simp [hparts]
  · refine ⟨_, congrArg (Option.map senders.zip) hsplit, ?_⟩
    exact List.map_snd_zip (hlen.trans_eq hsenders.symm)

end Generation

/-- The load is generated and split among the clients as it is meant to be. -/
def Generation.LinesUp {β : Type} (r : Generation β) : Prop :=
  ∃ transactions split, r.LinedUp transactions split

/-- It is enough that the tasks return. -/
theorem Generation.linesUp_of_isSome {β : Type} {r : Generation β} (hpos : 0 < r.config.total)
    (hfits : r.config.total * r.size < 2 ^ 63)
    (htasks : ∀ i < numGeneratorTasks, 0 < r.config.taskShare i →
      (r.generatorTask (r.config.taskShare i) (r.draws i)).isSome) : r.LinesUp := by
  obtain ⟨part, hlength, hends, hgenerate⟩ := exists_parts hpos hfits htasks
  exact lined_up_of_parts hpos hfits hlength hends hgenerate

/-! ## Tasks that draw from streams -/

namespace Generation

variable {β : Type} (r : Generation β) (σ : ℕ → ℕ → ℕ)

/-- Every task has the first `n` numbers of its stream to draw. -/
def onTape (n : ℕ) : Generation β :=
  { r with draws := fun taskId => segment (σ taskId) 0 n }

/-- From some length of the tapes on, it makes no difference that they end, and the load is
generated and split as it is meant to be. -/
def LinesUpOn : Prop :=
  ∃ N, ∀ n ≥ N, (r.onTape σ n).LinesUp

variable {r σ}

theorem generatorTask_eq (hload : r.config.load + numGeneratorTasks < 2 ^ 64) (count : ℕ) :
    r.generatorTask count = r.generator.generateAll r.platform count := by
  rw [generatorTask, ceilDiv_eq _ (by decide) hload]
  rfl

/-- A task that returns a transaction has a generator that is well configured. -/
theorem wellConfigured_of_generatorTask (hload : r.config.load + numGeneratorTasks < 2 ^ 64)
    {count : ℕ} (hcount : 0 < count) {draws : List ℕ}
    (h : (r.generatorTask count draws).isSome) : r.generator.WellConfigured r.platform.build := by
  obtain ⟨n, rfl⟩ := Nat.exists_eq_succ_of_ne_zero hcount.ne'
  rw [generatorTask_eq hload] at h
  obtain ⟨x, h⟩ := Option.isSome_iff_exists.mp h
  obtain ⟨generated, rest, h, -⟩ := bind_eq_some h
  have hfirst : ((r.generator.atNode 0 0).generateTransaction r.platform.build draws).isSome :=
    Option.isSome_iff_exists.mpr ⟨_, h⟩
  exact TpccGenerator.wellConfigured_of_isSome r.generator.numNodes_pos hfirst

/-- On streams on which the redraws end, the tasks return if the generator is well configured. -/
theorem exists_tapes (hpos : 0 < r.config.total) (hfits : r.config.total * r.size < 2 ^ 63)
    (hredraws : 1 < r.generator.numWarehouses →
      ∀ taskId < numGeneratorTasks, r.generator.Redraws (σ taskId))
    (hgenerator : r.generator.WellConfigured r.platform.build) :
    ∃ N, ∀ n ≥ N, ∀ i < numGeneratorTasks,
      (r.generatorTask (r.config.taskShare i) ((r.onTape σ n).draws i)).isSome := by
  have htask : ∀ i < numGeneratorTasks, ∃ N, ∀ n ≥ N,
      (r.generatorTask (r.config.taskShare i) (segment (σ i) 0 n)).isSome := by
    intro i hi
    have hshare : r.config.taskShare i ≤ r.config.total :=
      (Nat.sub_le _ _).trans (Nat.min_le_right _ _)
    have hlt := lt_of_fits hfits
    have hends : EndsOn (σ i)
        ((r.generator.atNode 0 0).generateAll r.platform (r.config.taskShare i)) :=
      TpccGenerator.endsOn_generateAll r.platform hgenerator (fun h => hredraws h i hi) _
        r.generator.numNodes_pos (by omega)
    rw [generatorTask_eq (load_lt_of_fits hpos hfits)]
    exact hends.exists_segment
  choose! N hN using htask
  refine ⟨(Finset.range numGeneratorTasks).sup N, fun n hn i hi => hN i hi n ?_⟩
  exact (Finset.le_sup (f := N) (Finset.mem_range.mpr hi)).trans hn

end Generation

/-- One order for two warehouses. -/
def singleOrder : Generation (Σ kind, ObjectID × Record kind) where
  platform := plainPlatform ⟨true, true⟩
  config := { load := 1, duration := 10 ^ 9, workload := some ⟨2, some 0, 2, some 0, 0⟩ }
  size := 200
  size_pos := by decide
  draws _ := []
  hasPanicked _ := false

/-- A load for half a second. -/
def subSecondLoad : Generation (Σ kind, ObjectID × Record kind) where
  platform := plainPlatform ⟨true, true⟩
  config := { load := 100, duration := 5 * 10 ^ 8, workload := none }
  size := 200
  size_pos := by decide
  draws _ := []
  hasPanicked _ := false

end Tpcc

end Remora
