import Remora.Build
import Remora.DependencyGraph
import Mathlib.Algebra.Group.Nat.Defs
import Mathlib.Algebra.GroupWithZero.Nat
import Mathlib.Data.List.Sort

/-!
# The pre-consensus scheduler

The scheduler gets every batch that mock consensus seals, and plans where the transactions of a
subgraph with at least two nodes go. First a proxy is chosen for each large subgraph, the largest
ones first : each proxy has a score for the objects of the subgraph it had last, and one for its
load, and chance decides among the proxies whose score is the best. The choice is entered in the
routing plan for every transaction of the subgraph. When all large subgraphs have a proxy, the
loads and the proxies that had the objects last are brought up to date.

Scores are floating-point numbers in the program, and here they are of any type with the
operations. A batch that is scheduled on its own, while no other thread touches the plan and the
loads, is `scheduleTransactionBatch`. A result of `none` is a panic, at an index or where loads,
which are microseconds in a `usize`, are added up in a build with overflow checks.
-/

namespace Remora

open Function

variable {τ : Type}

/-- What the scheduler uses of libraries : the graph, and the order in which a hash set of digests
is iterated. -/
structure Collections where
  petgraph : Petgraph
  iterate : List TransactionDigest → List TransactionDigest
  iterate_perm : ∀ l, (iterate l).Perm l

/-- A hash set that is iterated in the order of its list. -/
def collections : Collections := ⟨petgraph, id, List.Perm.refl⟩

/-- The scheduler, with the maps it shares. A proxy without a load has load 0. Only connected
proxies have loads. -/
structure PreConsensusSchedTask where
  numProxies : ℕ
  preConsensusRoutingPlan : TransactionDigest → Option ProxyId
  proxyLoads : ProxyId → ℕ
  objectLastProxy : ℕ → Option ProxyId

namespace PreConsensusSchedTask

/-- `new`, on maps that other threads may have used before. -/
def new (numProxies : ℕ) (plan : TransactionDigest → Option ProxyId) (loads : ProxyId → ℕ) :
    PreConsensusSchedTask :=
  ⟨numProxies, plan, loads, fun _ => none⟩

/-! ## The proxy that had an object last -/

/-- The length of `object_last_proxy`. -/
def objectLastProxyLength : ℕ := 2 ^ 24

/-- The `k`-th of the 32 bytes of an identifier. -/
def asRef (o : ObjectID) (k : ℕ) : ℕ :=
  o / 256 ^ (31 - k) % 256

/-- `none` : the subtraction underflows. That is a panic, or, in a build without overflow checks, an
index beyond the end of any vector, and then the access panics. -/
def objectId24bitIndex (o : ObjectID) : Option ℕ :=
  let index := asRef o 0 ||| asRef o 1 <<< 8 ||| asRef o 2 <<< 16
  if index = 0 then none else some (index - 1)

/-- The place of an object in `object_last_proxy`, if it is in bounds. -/
def lastProxyIndex (o : ObjectID) : Option ℕ :=
  (objectId24bitIndex o).bind fun idx => if idx < objectLastProxyLength then some idx else none

/-- How many of the objects each proxy had last. -/
def localityScores (numProxies : ℕ) (objectLastProxy : ℕ → Option ProxyId) :
    List ObjectID → (ProxyId → ℕ) → Option (ProxyId → ℕ)
  | [], scores => some scores
  | obj :: objects, scores => do
    let idx ← lastProxyIndex obj
    match objectLastProxy idx with
    | some p =>
      if p < numProxies then
        localityScores numProxies objectLastProxy objects (update scores p (scores p + 1))
      else none
    | none => localityScores numProxies objectLastProxy objects scores

/-- The proxy has the objects now. -/
def recordLastProxy (proxyId : ProxyId) :
    List ObjectID → (ℕ → Option ProxyId) → Option (ℕ → Option ProxyId)
  | [], objectLastProxy => some objectLastProxy
  | obj :: objects, objectLastProxy => do
    let idx ← lastProxyIndex obj
    recordLastProxy proxyId objects (update objectLastProxy idx (some proxyId))

/-! ## Scores -/

section Scores

variable (F : Type) [Zero F] [One F] [NatCast F] [Add F] [Sub F] [Neg F] [Mul F] [Div F] [Max F]
  [OfScientific F] [LT F] [DecidableLT F]

/-- The largest score, but at least 1. -/
def maxScore (numProxies : ℕ) (scores : ProxyId → ℕ) : ℕ :=
  max ((((List.range numProxies).map scores).max?).getD 1) 1

variable (numProxies : ℕ) (locality loads : ProxyId → ℕ)

/-- More objects and less load are better, and count the same. -/
def combinedScore (p : ProxyId) : F :=
  let normalizedLocality : F := locality p / maxScore numProxies locality
  let normalizedLoad : F := 1 - loads p / maxScore numProxies loads
  0.5 * normalizedLocality + 0.5 * normalizedLoad

def maxCombinedScore : F :=
  (List.range numProxies).foldl
    (fun acc p => max acc (combinedScore F numProxies locality loads p)) 0

/-- The proxies whose score is the largest, up to an epsilon. -/
def bestCandidates : List ProxyId :=
  (List.range numProxies).filter fun p =>
    let difference := combinedScore F numProxies locality loads p -
      maxCombinedScore F numProxies locality loads
    max difference (-difference) < 1e-9

/-- The candidate that the random number `tie` selects. -/
def bestProxy (tie : ℕ) : ProxyId :=
  let best := bestCandidates F numProxies locality loads
  if best.isEmpty then 0 else best.getD (tie % best.length) 0

end Scores

/-! ## A large subgraph -/

/-- The transactions of a batch by digest. Of several with one digest it is the last one. -/
def txMap (transactions : List (RemoraTransaction τ)) :
    TransactionDigest → Option (RemoraTransaction τ) :=
  transactions.foldl (fun m tx => update m tx.digest (some tx)) fun _ => none

/-- The digests of the nodes, each once. -/
def subgraphDigests (L : Collections) (graph : DiGraph) (nodes : List ℕ) :
    Option (List TransactionDigest) :=
  (nodes.mapM fun idx => graph.nodes[idx]?).map fun digests => L.iterate digests.dedup

/-- The shared objects of the transactions, one after the other. -/
def subgraphObjects (txs : TransactionDigest → Option (RemoraTransaction τ))
    (digests : List TransactionDigest) : List ObjectID :=
  digests.flatMap fun digest => ((txs digest).map RemoraTransaction.sharedObjectIds).getD []

/-- The durations of the transactions, as they are added up. -/
def durations (txs : TransactionDigest → Option (RemoraTransaction τ))
    (digests : List TransactionDigest) : List ℕ :=
  (digests.filterMap txs).map RemoraTransaction.expectedStatefulDuration

def totalWeight (b : Build) (txs : TransactionDigest → Option (RemoraTransaction τ))
    (digests : List TransactionDigest) : Option ℕ :=
  b.sum 64 ((durations txs digests).map asUsize)

/-- The proxy of a large subgraph. -/
structure Assignment where
  proxyId : ProxyId
  digests : List TransactionDigest
  objects : List ObjectID
  deriving DecidableEq, Repr

/-- The digests are planned. -/
def insertPlan (proxyId : ProxyId) (digests : List TransactionDigest)
    (plan : TransactionDigest → Option ProxyId) : TransactionDigest → Option ProxyId :=
  digests.foldl (fun plan digest => update plan digest (some proxyId)) plan

section Schedule

variable (b : Build) (L : Collections) (F : Type) [Zero F] [One F] [NatCast F] [Add F] [Sub F]
  [Neg F] [Mul F] [Div F] [Max F] [OfScientific F] [LT F] [DecidableLT F]

def assignLargeSubgraphProxy (graph : DiGraph)
    (txs : TransactionDigest → Option (RemoraTransaction τ)) (nodes : List ℕ) (tie : ℕ)
    (s : PreConsensusSchedTask) : Option (Assignment × PreConsensusSchedTask) := do
  let digests ← subgraphDigests L graph nodes
  let objects := subgraphObjects txs digests
  let locality ← localityScores s.numProxies s.objectLastProxy objects fun _ => 0
  let proxyId := bestProxy F s.numProxies locality s.proxyLoads tie
  some (⟨proxyId, digests, objects⟩, { s with
    preConsensusRoutingPlan := insertPlan proxyId digests s.preConsensusRoutingPlan })

def updateStateForSds (txs : TransactionDigest → Option (RemoraTransaction τ)) (a : Assignment)
    (s : PreConsensusSchedTask) : Option PreConsensusSchedTask := do
  let weight ← totalWeight b txs a.digests
  let load ← b.unsigned 64 (s.proxyLoads a.proxyId + weight)
  let objectLastProxy ← recordLastProxy a.proxyId a.objects s.objectLastProxy
  some { s with
    proxyLoads := update s.proxyLoads a.proxyId load
    objectLastProxy := objectLastProxy }

/-- Every large subgraph gets a proxy, by the next of the random numbers. -/
def assignSubgraphs (graph : DiGraph) (txs : TransactionDigest → Option (RemoraTransaction τ)) :
    List (List ℕ) → (ℕ → ℕ) → PreConsensusSchedTask →
      Option (List Assignment × PreConsensusSchedTask)
  | [], _, s => some ([], s)
  | nodes :: subgraphs, ties, s => do
    let (a, s) ← assignLargeSubgraphProxy L F graph txs nodes (ties 0) s
    let (assignments, s) ← assignSubgraphs graph txs subgraphs (fun k => ties (k + 1)) s
    some (a :: assignments, s)

/-- The loop over the assignments. What it counts for each proxy is logged only, but its index is
checked. -/
def updateStates (txs : TransactionDigest → Option (RemoraTransaction τ)) :
    List Assignment → PreConsensusSchedTask → Option PreConsensusSchedTask
  | [], s => some s
  | a :: assignments, s => do
    let s ← updateStateForSds b txs a s
    if a.proxyId < s.numProxies then updateStates txs assignments s else none

def handleLargeSubgraphs (graph : DiGraph)
    (txs : TransactionDigest → Option (RemoraTransaction τ)) (largeSubgraphs : List (List ℕ))
    (ties : ℕ → ℕ) (s : PreConsensusSchedTask) : Option PreConsensusSchedTask := do
  let (assignments, s) ← assignSubgraphs L F graph txs largeSubgraphs ties s
  updateStates b txs assignments s

/-- `log_load_summary` and `log_load_distribution`. What they log is left out, but each of them adds
up all loads. -/
def logLoads (s : PreConsensusSchedTask) : Option PreConsensusSchedTask :=
  if b.debugAssertions then
    (b.sum 64 ((List.range s.numProxies).map s.proxyLoads)).map fun _ => s
  else some s

/-- The subgraphs with at least two nodes, the largest ones first. -/
def largeSubgraphs (subgraphs : List (List ℕ)) : List (List ℕ) :=
  (subgraphs.insertionSort fun a b => b.length ≤ a.length).filter fun subgraph =>
    ¬ subgraph.length < 2

def applySdsPolicy (transactions : List (RemoraTransaction τ)) (graph : DiGraph) (ties : ℕ → ℕ)
    (s : PreConsensusSchedTask) : Option PreConsensusSchedTask := do
  let subgraphs ← findAllSubgraphs L.petgraph graph
  let large := largeSubgraphs subgraphs
  let s ← (if large.isEmpty then some s
    else handleLargeSubgraphs b L F graph (txMap transactions) large ties s)
  logLoads b s

/-- `schedule_transaction_batch`, when the random numbers drawn for the large subgraphs are
`ties`. -/
def scheduleTransactionBatch (transactions : List (RemoraTransaction τ)) (ties : ℕ → ℕ)
    (s : PreConsensusSchedTask) : Option PreConsensusSchedTask :=
  if s.numProxies = 0 then some s
  else applySdsPolicy b L F transactions (buildDependencyGraph transactions).1 ties s

end Schedule

end PreConsensusSchedTask

end Remora
