import Remora.Transition
import Remora.DependencyController
import Remora.WorkerPool

/-!
# The forwarder of shared-object transactions

`process_shared_txns` numbers the versioned transactions and hands each to a pool of
workers as a `ForwardingTask`. The task waits for the tasks that produce the versions it
requires, chooses a proxy (the routing plan's, or a fallback), records that this proxy
owns the versions it produces, tells the proxy where the versions it requires are, sends
the transaction, and notifies.

The workers share six maps, the `ForwardingContext`. A map operation is one atomic
`ForwardAction`, and a task is the list of those it still has to perform, so that an
interleaving of the workers is a sequence of `Event`s. The scheduler that fills the
routing plan and the stateless forwarder run beside the workers and write to the same
maps at any time : they are events of the environment here.

`sent` records each call of `send_to_proxy`, under the task that made it. A message to a
proxy without a connection is dropped on its way.
-/

namespace Remora

open Function Rendezvous

/-- How a transaction without a plan is routed. -/
inductive PreConsensusSchedulingPolicy
  /-- To the proxy that has most of its states. -/
  | LSDS
  /-- Round robin. -/
  | RSDS
  deriving DecidableEq, Repr

/-- A message from the primary, by the task that sends it. -/
inductive MessageId
  /-- The `StatelessTxn` of a task. -/
  | stateless (n : ℕ)
  /-- The `Txn` or `CombinedTxn` of a forwarding task. -/
  | stateful (n : ℕ)
  deriving DecidableEq, Repr

/-- What the primary is configured with, and the transactions in consensus order.
`connections` lists the connected proxies in the order their map is iterated. -/
structure Primary (τ : Type) where
  mode : SeparationMode
  policy : PreConsensusSchedulingPolicy
  connections : List ProxyId
  numWorkers : ℕ
  bufferSize : ℕ
  txns : List (RemoraTransaction τ)
  nodup : connections.Nodup

variable {τ : Type}

/-- The transaction of a forwarding task, with its versions. -/
def Primary.transaction (C : Primary τ) (i : ℕ) : Option (RemoraTransaction τ) :=
  (versioned C.txns)[i]?.map Prod.fst

/-- One atomic operation of a forwarding task. -/
inductive ForwardAction
  | dep (a : Action ObjectVersion)
  | removePlan
  | countState (k : ObjectVersion)
  | fallback
  | getOwner (k : ObjectVersion)
  | insertOwner (k : ObjectVersion)
  | removeOwner (k : ObjectVersion)
  | readLoad (p : ProxyId)
  | pickStateless
  | sendStateless
  | removeStateless
  | sendTxn
  deriving DecidableEq

/-- The local variables of a task, and the actions it has not performed yet. -/
structure ForwardingTask where
  todo : List ForwardAction
  held : ObjectVersion → Option ℕ
  proxyId : Option ProxyId
  proxyStateCounts : ProxyId → ℕ
  requiredStates : RequiredStates
  leastLoaded : Option (ProxyId × ℕ)
  statelessProxyId : ProxyId

/-- The maps the workers share. A proxy without a load has load 0. -/
structure ForwardingContext (τ : Type) where
  dependencyController : Table ObjectVersion
  routingPlan : TransactionDigest → Option ProxyId
  statesToProxy : ObjectVersion → Option ProxyId
  proxyLoads : ProxyId → ℕ
  statelessForwardingTable : TransactionDigest → Option ProxyId
  sent : MessageId → Option (ProxyId × PrimaryToProxyMessage τ)

/-! ## The fallback proxy -/

/-- The scan for the largest count, with the proxies that have it. -/
def bestProxies (counts : ProxyId → ℕ) (proxyCount : ℕ) : ℕ × List ProxyId :=
  (List.range proxyCount).foldl (fun (maxCount, best) index =>
    if counts index > maxCount then (counts index, [index])
    else if counts index = maxCount then (maxCount, best ++ [index])
    else (maxCount, best)) (0, [])

/-- The proxy with the most states. The outer `none` is an index out of bounds. -/
def getProxyForSharedObjectsMostStates (proxyCount : ℕ) (counts : ProxyId → ℕ)
    (ks : List ObjectVersion) (txnCnt : ℕ) : Option (Option ProxyId) :=
  if proxyCount = 0 then some none
  else if ks.isEmpty then some (some 0)
  else
    let best := (bestProxies counts proxyCount).2
    (if best.length > 1 then best[txnCnt % best.length]? else best[0]?).map some

/-- The proxy of a transaction without a plan. `none` : a panic, as the remainder by the
number of proxies is taken in either case. -/
def fallbackProxyId (policy : PreConsensusSchedulingPolicy) (proxyCount : ℕ)
    (counts : ProxyId → ℕ) (ks : List ObjectVersion) (counter : ℕ) : Option ProxyId :=
  match policy with
  | .LSDS =>
    (getProxyForSharedObjectsMostStates proxyCount counts ks counter).bind fun chosen =>
      if proxyCount = 0 then none else some (chosen.getD (counter % proxyCount))
  | .RSDS => if proxyCount = 0 then none else some (counter % proxyCount)

/-! ## A forwarding task -/

/-- The owner to fetch a state from, if it is not the proxy itself. -/
def previousOwnerValue (owner : Option ProxyId) (proxyIndex : ProxyId) : Option ProxyId :=
  match owner with
  | some q => if q ≠ proxyIndex then some q else none
  | none => none

/-- The scan for the least load keeps the first proxy that has it. -/
def minByLoad (leastLoaded : Option (ProxyId × ℕ)) (p : ProxyId) (load : ℕ) :
    Option (ProxyId × ℕ) :=
  match leastLoaded with
  | some (q, least) => if load < least then some (p, load) else some (q, least)
  | none => some (p, load)

/-- `make_verification_request`. -/
def makeVerificationRequest (t : RemoraTransaction τ) : StatelessVerificationRequest :=
  ⟨t.digest, t.verificationDuration⟩

/-- The message that carries the transaction. -/
def statefulMessage (mode : SeparationMode) (t : RemoraTransaction τ) (p stateless : ProxyId)
    (states : RequiredStates) : PrimaryToProxyMessage τ :=
  if mode.isPrimarySeparation then .txn t stateless states else .combinedTxn t p states

namespace ForwardAction

/-- What an action of task `i` does to the maps and the task's variables. -/
def perform (C : Primary τ) (i : ℕ) (X : ForwardingContext τ) (l : ForwardingTask) :
    ForwardAction → Option (ForwardingContext τ × ForwardingTask)
  | dep a => (a.perform X.dependencyController l.held).map fun (T, held) =>
      ({ X with dependencyController := T }, { l with held := held })
  | removePlan => (C.transaction i).map fun t =>
      ({ X with routingPlan := update X.routingPlan t.digest none },
        { l with proxyId := X.routingPlan t.digest })
  | countState k =>
    match l.proxyId, X.statesToProxy k with
    | none, some q =>
      if q < C.connections.length then
        some (X, { l with
          proxyStateCounts := update l.proxyStateCounts q (l.proxyStateCounts q + 1) })
      else some (X, l)
    | _, _ => some (X, l)
  | fallback =>
    match l.proxyId with
    | some _ => some (X, l)
    | none => do
      let t ← C.transaction i
      let p ← fallbackProxyId C.policy C.connections.length l.proxyStateCounts
        (required C.txns i) i
      some ({ X with
          proxyLoads := update X.proxyLoads p (X.proxyLoads p + t.expectedStatefulDuration) },
        { l with proxyId := some p })
  | getOwner k => l.proxyId.map fun p =>
      (X, { l with
        requiredStates := l.requiredStates ++ [(k, previousOwnerValue (X.statesToProxy k) p)] })
  | insertOwner k => l.proxyId.map fun p =>
      ({ X with
          statesToProxy :=
            update X.statesToProxy (k.1, nextVersion (required C.txns i)) (some p) }, l)
  | removeOwner k => some ({ X with statesToProxy := update X.statesToProxy k none }, l)
  | readLoad p => some (X, { l with
      leastLoaded := minByLoad l.leastLoaded p (X.proxyLoads p) })
  | pickStateless => (C.transaction i).map fun t =>
      let p := (l.leastLoaded.map Prod.fst).getD 0
      ({ X with proxyLoads := update X.proxyLoads p (X.proxyLoads p + t.verificationDuration) },
        { l with statelessProxyId := p })
  | sendStateless => (C.transaction i).map fun t =>
      ({ X with
          sent := update X.sent (.stateless i)
            (some (l.statelessProxyId, .statelessTxn (makeVerificationRequest t))) }, l)
  | removeStateless => (C.transaction i).map fun t =>
      ({ X with
          statelessForwardingTable := update X.statelessForwardingTable t.digest none },
        { l with statelessProxyId := (X.statelessForwardingTable t.digest).getD 0 })
  | sendTxn => do
    let t ← C.transaction i
    let p ← l.proxyId
    some ({ X with
        sent := update X.sent (.stateful i)
          (some (p, statefulMessage C.mode t p l.statelessProxyId l.requiredStates)) }, l)

end ForwardAction

open ForwardAction VersionedDependencyController

/-- `get_proxy_for_shared_objects_most_states` reads the owners of `ks`. Nothing is read
once there is a plan. -/
def fallbackActions (policy : PreConsensusSchedulingPolicy) (ks : List ObjectVersion) :
    List ForwardAction :=
  match policy with
  | .LSDS => ks.map countState ++ [fallback]
  | .RSDS => [fallback]

/-- `get_missing_states_for_transaction`. -/
def getMissingStatesForTransaction (ks : List ObjectVersion) : List ForwardAction :=
  ks.flatMap fun k => [getOwner k, insertOwner k, removeOwner k]

/-- `pick_stateless_proxy` : the least loaded proxy, the first one if there are several. -/
def pickStatelessProxy (connections : List ProxyId) : List ForwardAction :=
  connections.map readLoad ++ [pickStateless]

/-- The messages of a task, and how it comes to know the stateless proxy. -/
def sendActions (C : Primary τ) : List ForwardAction :=
  match C.mode with
  | .NoSeparation | .ProxySeparation => [sendTxn]
  | .PrimaryPostSeparation => pickStatelessProxy C.connections ++ [sendStateless, sendTxn]
  | .PrimaryPreSeparation => [removeStateless, sendTxn]

/-- What task `i` does, in order. -/
def processForwardingTask (C : Primary τ) (i : ℕ) : List ForwardAction :=
  let ks := required C.txns i
  let handles := handlesOf ks
  handles.actions.map dep ++ handles.prior.map (dep ∘ .wait) ++ (removeDependency ks).map dep ++
    [removePlan] ++ fallbackActions C.policy ks ++ getMissingStatesForTransaction ks ++
    sendActions C ++ handles.next.map (dep ∘ .notify)

/-- A task before its first action. -/
def ForwardingTask.new (C : Primary τ) (i : ℕ) : ForwardingTask where
  todo := processForwardingTask C i
  held := fun _ => none
  proxyId := none
  proxyStateCounts := fun _ => 0
  requiredStates := []
  leastLoaded := none
  statelessProxyId := 0

/-! ## The forwarder -/

namespace SharedObjTxnForwarder

structure State (τ : Type) where
  pool : WorkerPool
  tasks : ℕ → ForwardingTask
  context : ForwardingContext τ

inductive Event
  /-- The dispatcher sends the next transaction to a worker. -/
  | sendTask
  /-- Worker `w` takes the next task of its queue. -/
  | recv (w : ℕ)
  /-- Worker `w` performs the next action of its task. -/
  | run (w : ℕ)
  /-- The task of worker `w` returns. -/
  | finish (w : ℕ)
  /-- The scheduler plans a transaction. -/
  | plan (d : TransactionDigest) (p : ProxyId)
  /-- The scheduler or the stateless forwarder adds to a load. -/
  | load (p : ProxyId) (weight : ℕ)
  /-- The `n`-th task of the stateless forwarder sends a request. -/
  | sendStateless (n : ℕ) (p : ProxyId) (request : StatelessVerificationRequest)
  /-- The stateless forwarder records where it sent a request. -/
  | insertStateless (d : TransactionDigest) (p : ProxyId)

variable (C : Primary τ)

def State.init : State τ where
  pool := WorkerPool.empty
  tasks := ForwardingTask.new C
  context := ⟨Table.empty, fun _ => none, fun _ => none, fun _ => 0, fun _ => none,
    fun _ => none⟩

/-- The next action of the task `i`, if it is enabled. -/
def runTask (s : State τ) (i : ℕ) : Option (State τ) :=
  match (s.tasks i).todo with
  | [] => none
  | a :: rest => (a.perform C i s.context (s.tasks i)).map fun (X, l) =>
      { s with tasks := update s.tasks i { l with todo := rest }, context := X }

def step (s : State τ) : Event → Option (State τ)
  | .sendTask =>
    if s.pool.sent < C.txns.length then
      (s.pool.sendTask C.numWorkers C.bufferSize).map fun pool => { s with pool := pool }
    else none
  | .recv w => (s.pool.recv C.numWorkers w).map fun pool => { s with pool := pool }
  | .run w => (s.pool.running w).bind fun i => runTask C s i
  | .finish w =>
    (s.pool.running w).bind fun i =>
      if (s.tasks i).todo.isEmpty then
        (s.pool.finish w).map fun pool => { s with pool := pool }
      else none
  | .plan d p => some { s with
      context := { s.context with routingPlan := update s.context.routingPlan d (some p) } }
  | .load p weight => some { s with
      context := { s.context with
        proxyLoads := update s.context.proxyLoads p (s.context.proxyLoads p + weight) } }
  | .sendStateless n p request =>
    if C.mode = .PrimaryPreSeparation ∧ (s.context.sent (.stateless n)).isNone then
      some { s with context := { s.context with
        sent := update s.context.sent (.stateless n) (some (p, .statelessTxn request)) } }
    else none
  | .insertStateless d p => some { s with
      context := { s.context with
        statelessForwardingTable := update s.context.statelessForwardingTable d (some p) } }

/-- Every interleaving of the dispatcher, the workers and the environment. -/
def system : Transition.System (State τ) Event where
  init s := s = State.init C
  step := step C

/-- The proxy that `send_to_proxy` was called with for the `i`-th transaction. -/
def forwardedTo (s : State τ) (i : ℕ) : Option ProxyId :=
  (s.context.sent (.stateful i)).map Prod.fst

end SharedObjTxnForwarder

end Remora
