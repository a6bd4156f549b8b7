import Remora.ConsensusDrain
import Remora.Extension
import Remora.LoadBalancer
import Mathlib.Algebra.Order.Group.Multiset
import Mathlib.Tactic.Abel

/-!
# The primary node

`PrimaryNode::start` connects the consensus, the load balancer, the two tasks it hands the
transactions to, and the forwarder, by channels of a fixed capacity. The transactions are not known
in advance here : they arrive, and reach the version assignment in the order their batches are
delivered. A `Deployment` has the transactions that are assigned so far, and goes on with a longer
sequence each time (`reachable_deployment`).

`Wired` says where each transaction is, and in which order. The load balancer holds a commit
while it waits for room in a channel, and so does the version assignment with the rest of a batch.
What the owned forwarder sends is recorded, and not delivered here. The channels to the
pre-consensus scheduler and to the stateless forwarder are not bounded.
-/

namespace Remora

open Function VersionAssignmentTask OwnedObjTxnForwarder

variable {τ ω : Type}

/-- What `start` is configured with, and what the proxies run. -/
structure PrimaryNode (τ ω : Type) where
  consensusParameters : MockConsensus.MockConsensusParameters
  separationMode : SeparationMode
  loadBalancingPolicy : PreConsensusSchedulingPolicy
  connections : List ProxyId
  /-- `DEFAULT_CHANNEL_SIZE`. -/
  channelSize : ℕ
  numWorkers : ℕ
  bufferSize : ℕ
  executor : Executor τ ω
  outcome : ThreadId → Bool
  genesis : ObjectID → Option ω
  nodup : connections.Nodup

namespace PrimaryNode

/-- What the load balancer has in hand. -/
inductive Balancing (τ : Type)
  /-- It waits for a commit. -/
  | recv
  /-- It sends the owned-only transactions, and then the others. -/
  | sendOwned (owned shared : List (RemoraTransaction τ))
  | sendShared (shared : List (RemoraTransaction τ))

namespace Balancing

def owned : Balancing τ → List (RemoraTransaction τ)
  | sendOwned owned _ => owned
  | _ => []

def shared : Balancing τ → List (RemoraTransaction τ)
  | sendOwned _ shared | sendShared shared => shared
  | recv => []

/-- The sends that are left. -/
def sends : Balancing τ → ℕ
  | recv => 0
  | sendOwned _ _ => 2
  | sendShared _ => 1

end Balancing

/-- The consensus, the load balancer with its count of commits, the channels to the owned forwarder
and to the version assignment, these two, and the forwarder with the proxies. `forwardedOwned` and
`assigned` record the transactions the two tasks are done with, and `versionedTxns` what is sent on
the channel to the forwarder. -/
structure State (τ ω : Type) where
  consensus : MockConsensus.State τ
  txnCnt : ℕ
  balancing : Balancing τ
  ownedBatches : List (List (RemoraTransaction τ))
  sharedBatches : List (List (RemoraTransaction τ))
  index : ℕ
  ownedSent : List (ProxyId × PrimaryToProxyMessage τ)
  forwardedOwned : List (RemoraTransaction τ)
  transactions : List (RemoraTransaction τ)
  sharedObjectVersions : Versions
  versionedTxns : List (RemoraTransaction τ × List ObjectVersion)
  assigned : List (RemoraTransaction τ)
  deployment : Deployment.State τ ω

inductive Event (τ : Type)
  | consensus (e : MockConsensus.Event τ)
  /-- The load balancer receives a commit. -/
  | receive
  /-- The load balancer sends what it has in hand. -/
  | send
  /-- The owned forwarder forwards a batch. -/
  | forwardOwned
  /-- The version assignment receives a batch, or sends its next transaction. -/
  | assign
  /-- The forwarder and the proxies. -/
  | deployment (e : Deployment.Event)

/-- The owned-only transactions of a commit, and the others. -/
def separate (commit : List (RemoraTransaction τ)) :
    List (RemoraTransaction τ) × List (RemoraTransaction τ) :=
  (commit.filter fun t => t.sharedObjects.isEmpty, commit.filter fun t => !t.sharedObjects.isEmpty)

variable (N : PrimaryNode τ ω)

def consensus : MockConsensus.Config :=
  ⟨N.consensusParameters, N.separationMode⟩

/-- The forwarder and the proxies, if `txns` is the consensus sequence. -/
def deployment (txns : List (RemoraTransaction τ)) : Deployment τ ω where
  primary := ⟨N.separationMode, N.loadBalancingPolicy, N.connections, N.numWorkers, N.bufferSize,
    txns, N.nodup⟩
  executor := N.executor
  outcome := N.outcome
  genesis := N.genesis

def State.init : State τ ω where
  consensus := MockConsensus.State.init
  txnCnt := 0
  balancing := .recv
  ownedBatches := []
  sharedBatches := []
  index := 0
  ownedSent := []
  forwardedOwned := []
  transactions := []
  sharedObjectVersions := fun _ => none
  versionedTxns := []
  assigned := []
  deployment := Deployment.State.init (N.deployment [])

/-- The load balancer keeps its end of the channel, and a commit waits for room in it. -/
def admits (s : State τ ω) : MockConsensus.Event τ → Bool
  | .close => false
  | .sent => s.consensus.phase.delivering.isEmpty ||
      decide (s.consensus.txPrimaryExecutor.length - s.txnCnt < N.channelSize)
  | _ => true

/-- The batch is sent if it is not empty. `none` : the channel is full. -/
def sendBatch (queue : List (List (RemoraTransaction τ))) (txns : List (RemoraTransaction τ)) :
    Option (List (List (RemoraTransaction τ))) :=
  if txns.isEmpty then some queue
  else if queue.length < N.channelSize then some (queue ++ [txns])
  else none

/-- A transaction gets its versions and is sent to the forwarder. -/
def assignNext (s : State τ ω) (t : RemoraTransaction τ) (rest : List (RemoraTransaction τ)) :
    State τ ω :=
  let (versions, t', result) := assignSharedObjectVersions s.sharedObjectVersions t
  { s with
    transactions := rest
    sharedObjectVersions := versions
    versionedTxns := s.versionedTxns ++ [(t', result)]
    assigned := s.assigned ++ [t]
    deployment :=
      s.deployment.extend (N.deployment (s.assigned ++ [t])).primary s.assigned.length }

def step (s : State τ ω) : Event τ → Option (State τ ω)
  | .consensus e =>
    if N.admits s e then
      (MockConsensus.step N.consensus s.consensus e).map fun c => { s with consensus := c }
    else none
  | .receive =>
    match s.balancing, s.consensus.txPrimaryExecutor[s.txnCnt]? with
    | .recv, some (commit, _) => some { s with
        txnCnt := s.txnCnt + 1
        balancing := .sendOwned (separate commit).1 (separate commit).2 }
    | _, _ => none
  | .send =>
    match s.balancing with
    | .recv => none
    | .sendOwned owned shared => (N.sendBatch s.ownedBatches owned).map fun queue =>
        { s with ownedBatches := queue, balancing := .sendShared shared }
    | .sendShared shared => (N.sendBatch s.sharedBatches shared).map fun queue =>
        { s with sharedBatches := queue, balancing := .recv }
  | .forwardOwned =>
    match s.ownedBatches with
    | [] => none
    | txns :: rest =>
      (forwardOwnedTxnsInParallel .RoundRobin N.connections s.index txns).map fun (index, msgs) =>
        { s with
          ownedBatches := rest
          index := index
          ownedSent := s.ownedSent ++ msgs
          forwardedOwned := s.forwardedOwned ++ txns }
  | .assign =>
    match s.transactions, s.sharedBatches with
    | [], [] => none
    | [], txns :: rest => some { s with transactions := txns, sharedBatches := rest }
    | t :: rest, _ =>
      if s.assigned.length - s.deployment.forwarder.pool.sent < N.channelSize then
        some (N.assignNext s t rest)
      else none
  | .deployment e => (Deployment.step (N.deployment s.assigned) s.deployment e).map fun d =>
      { s with deployment := d }

/-- Every order of arrivals, and every interleaving of the tasks and the proxies. -/
def system : Transition.System (State τ ω) (Event τ) where
  init s := s = State.init N
  step := step N

/-! ## Steps -/

/-- What a step does. -/
inductive StepCase (s : State τ ω) : Event τ → State τ ω → Prop
  | consensus {e : MockConsensus.Event τ} {c : MockConsensus.State τ} : N.admits s e = true →
      MockConsensus.step N.consensus s.consensus e = some c →
      StepCase s (.consensus e) { s with consensus := c }
  | receive {commit : List (RemoraTransaction τ)} {n : ℕ} : s.balancing = .recv →
      s.consensus.txPrimaryExecutor[s.txnCnt]? = some (commit, n) →
      StepCase s .receive { s with
        txnCnt := s.txnCnt + 1
        balancing := .sendOwned (separate commit).1 (separate commit).2 }
  | sendOwned {owned shared : List (RemoraTransaction τ)}
      {queue : List (List (RemoraTransaction τ))} : s.balancing = .sendOwned owned shared →
      N.sendBatch s.ownedBatches owned = some queue →
      StepCase s .send { s with ownedBatches := queue, balancing := .sendShared shared }
  | sendShared {shared : List (RemoraTransaction τ)}
      {queue : List (List (RemoraTransaction τ))} : s.balancing = .sendShared shared →
      N.sendBatch s.sharedBatches shared = some queue →
      StepCase s .send { s with sharedBatches := queue, balancing := .recv }
  | forwardOwned {txns : List (RemoraTransaction τ)} {rest : List (List (RemoraTransaction τ))}
      {index : ℕ} {msgs : List (ProxyId × PrimaryToProxyMessage τ)} :
      s.ownedBatches = txns :: rest →
      forwardOwnedTxnsInParallel .RoundRobin N.connections s.index txns = some (index, msgs) →
      StepCase s .forwardOwned { s with
        ownedBatches := rest
        index := index
        ownedSent := s.ownedSent ++ msgs
        forwardedOwned := s.forwardedOwned ++ txns }
  | recvShared {txns : List (RemoraTransaction τ)} {rest : List (List (RemoraTransaction τ))} :
      s.transactions = [] → s.sharedBatches = txns :: rest →
      StepCase s .assign { s with transactions := txns, sharedBatches := rest }
  | assign {t : RemoraTransaction τ} {rest : List (RemoraTransaction τ)} :
      s.transactions = t :: rest →
      s.assigned.length - s.deployment.forwarder.pool.sent < N.channelSize →
      StepCase s .assign (N.assignNext s t rest)
  | deployment {e : Deployment.Event} {d : Deployment.State τ ω} :
      Deployment.step (N.deployment s.assigned) s.deployment e = some d →
      StepCase s (.deployment e) { s with deployment := d }

variable {N} {s s' : State τ ω} {e : Event τ}

theorem step_cases (h : step N s e = some s') : StepCase N s e s' := by
  cases e with
  | consensus e' =>
    obtain ⟨hadmits, h⟩ := Option.ite_none_right_eq_some.mp h
    obtain ⟨c, hc, rfl⟩ := Option.map_eq_some_iff.mp h
    exact .consensus hadmits hc
  | receive =>
    simp only [step] at h
    split at h
    · rename_i commit n hrecv hcommit
      obtain rfl := Option.some.inj h
      exact .receive hrecv hcommit
    · simp at h
  | send =>
    simp only [step] at h
    split at h
    · simp at h
    · rename_i owned shared hb
      obtain ⟨queue, hqueue, rfl⟩ := Option.map_eq_some_iff.mp h
      exact .sendOwned hb hqueue
    · rename_i shared hb
      obtain ⟨queue, hqueue, rfl⟩ := Option.map_eq_some_iff.mp h
      exact .sendShared hb hqueue
  | forwardOwned =>
    simp only [step] at h
    split at h
    · simp at h
    · rename_i txns rest hbatches
      obtain ⟨⟨index, msgs⟩, hmsgs, rfl⟩ := Option.map_eq_some_iff.mp h
      exact .forwardOwned hbatches hmsgs
  | assign =>
    simp only [step] at h
    split at h
    · simp at h
    · rename_i txns rest htxns hbatches
      obtain rfl := Option.some.inj h
      exact .recvShared htxns hbatches
    · rename_i t rest htxns
      obtain ⟨hroom, h⟩ := Option.ite_none_right_eq_some.mp h
      obtain rfl := Option.some.inj h
      exact .assign htxns hroom
  | deployment e' =>
    obtain ⟨d, hd, rfl⟩ := Option.map_eq_some_iff.mp h
    exact .deployment hd

end PrimaryNode

/-! ## The owned forwarder -/

namespace OwnedObjTxnForwarder

variable (connections : List ProxyId)

/-- The messages for the `k`-th owned-only transaction. -/
def turn (x : RemoraTransaction τ × ℕ) : List (ProxyId × PrimaryToProxyMessage τ) :=
  let idx := x.2 % connections.length
  if idx ∈ connections then
    [(idx, .statelessTxn (makeVerificationRequest x.1)), (idx, .txn x.1 idx [])]
  else []

theorem turn_nil (x : RemoraTransaction τ × ℕ) : turn [] x = [] := rfl

/-- The turns go on from wherever the index is, as it counts modulo the number of proxies. -/
theorem forwardOwnedTxns_eq {start total : ℕ}
    (h : start % connections.length = total % connections.length)
    (txns : List (RemoraTransaction τ)) : forwardOwnedTxns .RoundRobin connections start txns =
      some ((txns.zipIdx total).flatMap (turn connections)) := by
  induction txns generalizing start total with
  | nil => rfl
  | cons t ts ih =>
    have hnext : (start + 1) % connections.length = (total + 1) % connections.length := by
      rw [Nat.add_mod, h, ← Nat.add_mod]
    have hone : forwardOwnedTxn .RoundRobin connections (start % connections.length) t =
        some (turn connections (t, total)) := by
      simp only [forwardOwnedTxn, turn, h]
      split_ifs <;> rfl
    simp [forwardOwnedTxns, hone, ih hnext, List.zipIdx_cons]

/-- A batch is forwarded from the index on, and the index counts on. -/
theorem exists_forwardOwnedTxnsInParallel {index total : ℕ}
    (h : connections = [] ∨ index = total % connections.length)
    (txns : List (RemoraTransaction τ)) :
    ∃ index', forwardOwnedTxnsInParallel .RoundRobin connections index txns =
      some (index', (txns.zipIdx total).flatMap (turn connections)) ∧
      (connections = [] ∨ index' = (total + txns.length) % connections.length) := by
  by_cases hn : connections.length = 0
  · obtain rfl := List.length_eq_zero_iff.mp hn
    refine ⟨index, ?_, Or.inl rfl⟩
    simp [forwardOwnedTxnsInParallel, turn_nil, List.flatMap_eq_nil_iff]
  · obtain rfl := h.resolve_left (by rintro rfl; simp at hn)
    refine ⟨_, ?_, Or.inr rfl⟩
    simp [forwardOwnedTxnsInParallel, hn, forwardOwnedTxns_eq connections (Nat.mod_mod _ _)]

end OwnedObjTxnForwarder

namespace PrimaryNode

variable {N : PrimaryNode τ ω} {s s' : State τ ω} {e : Event τ}

/-! ## Where everything is -/

/-- The commits the load balancer has received. -/
def commits (s : State τ ω) : List (List (RemoraTransaction τ)) :=
  (s.consensus.txPrimaryExecutor.take s.txnCnt).map Prod.fst

/-- The shared-object transactions of the commits are assigned, in the hands of the version
assignment, in its channel, or in the hands of the load balancer, in this order, and the owned-only
ones are forwarded, in the channel, or in the hands of the load balancer. -/
structure Wired (N : PrimaryNode τ ω) (s : State τ ω) : Prop where
  consensus : (MockConsensus.system N.consensus).Reachable s.consensus
  isOpen : s.consensus.primaryExecutorClosed = false
  txnCnt_le : s.txnCnt ≤ s.consensus.txPrimaryExecutor.length
  shared : (commits s).flatMap (fun c => (separate c).2) =
    s.assigned ++ s.transactions ++ s.sharedBatches.flatten ++ s.balancing.shared
  owned : (commits s).flatMap (fun c => (separate c).1) =
    s.forwardedOwned ++ s.ownedBatches.flatten ++ s.balancing.owned
  index : N.connections = [] ∨ s.index = s.forwardedOwned.length % N.connections.length
  ownedSent : s.ownedSent = s.forwardedOwned.zipIdx.flatMap (turn N.connections)
  versions : s.sharedObjectVersions = versionsAfter (fun _ => none) s.assigned
  versionedTxns : s.versionedTxns = versioned s.assigned

namespace Wired

theorem init : Wired N (State.init N) where
  consensus := .init rfl
  isOpen := rfl
  txnCnt_le := le_rfl
  shared := rfl
  owned := rfl
  index := Or.inr (Nat.zero_mod _).symm
  ownedSent := rfl
  versions := rfl
  versionedTxns := rfl

/-- What is sent on a channel is in it, or there was nothing to send. -/
theorem flatten_sendBatch {queue queue' : List (List (RemoraTransaction τ))}
    {txns : List (RemoraTransaction τ)} (h : N.sendBatch queue txns = some queue') :
    queue'.flatten = queue.flatten ++ txns := by
  simp only [sendBatch] at h
  split_ifs at h with hempty <;> obtain rfl := Option.some.inj h
  · rw [List.isEmpty_iff.mp hempty, List.append_nil]
  · simp

/-- The load balancer has no part in what the consensus does, and what was delivered stays. -/
theorem take_consensus (hle : s.txnCnt ≤ s.consensus.txPrimaryExecutor.length)
    {e : MockConsensus.Event τ} {c : MockConsensus.State τ}
    (h : MockConsensus.step N.consensus s.consensus e = some c) :
    s.txnCnt ≤ c.txPrimaryExecutor.length ∧
      c.txPrimaryExecutor.take s.txnCnt = s.consensus.txPrimaryExecutor.take s.txnCnt := by
  obtain ⟨more, hmore⟩ := MockConsensus.prefix_of_step h
  rw [← hmore, List.length_append]
  exact ⟨by omega, List.take_append_of_le_length hle⟩

theorem step (hW : Wired N s) (h : PrimaryNode.step N s e = some s') : Wired N s' := by
  cases step_cases h with
  | @consensus e' c hadmits hc =>
    obtain ⟨hle, htake⟩ := take_consensus hW.txnCnt_le hc
    have hcommits : commits { s with consensus := c } = commits s := by simp [commits, htake]
    exact { hW with
      consensus := hW.consensus.step hc
      isOpen := ((MockConsensus.received_of_step hc).2
        (by rintro rfl; simp [admits] at hadmits)).trans hW.isOpen
      txnCnt_le := hle
      shared := by rw [hcommits]; exact hW.shared
      owned := by rw [hcommits]; exact hW.owned }
  | @receive commit n hrecv hcommit =>
    obtain ⟨hlt, hget⟩ := List.getElem?_eq_some_iff.mp hcommit
    have hcommits : commits { s with
        txnCnt := s.txnCnt + 1
        balancing := .sendOwned (separate commit).1 (separate commit).2 } =
        commits s ++ [commit] := by
      simp [commits, List.take_add_one, hcommit]
    exact { hW with
      txnCnt_le := hlt
      shared := by
        rw [hcommits, List.flatMap_append, hW.shared, hrecv]
        simp [Balancing.shared]
      owned := by
        rw [hcommits, List.flatMap_append, hW.owned, hrecv]
        simp [Balancing.owned] }
  | sendOwned hb hqueue => exact { hW with
      shared := by simpa [commits, hb, Balancing.shared] using hW.shared
      owned := by
        simpa [commits, hb, Balancing.owned, flatten_sendBatch hqueue] using hW.owned }
  | sendShared hb hqueue => exact { hW with
      shared := by
        simpa [commits, hb, Balancing.shared, flatten_sendBatch hqueue] using hW.shared
      owned := by simpa [commits, hb, Balancing.owned] using hW.owned }
  | @forwardOwned txns rest index msgs hbatches hmsgs =>
    obtain ⟨index', hmsgs', hindex⟩ :=
      exists_forwardOwnedTxnsInParallel N.connections hW.index txns
    obtain ⟨rfl, rfl⟩ := Prod.mk.inj (Option.some.inj (hmsgs.symm.trans hmsgs'))
    exact { hW with
      owned := by simpa [commits, hbatches] using hW.owned
      index := by simpa using hindex
      ownedSent := by simp [hW.ownedSent, List.zipIdx_append] }
  | recvShared htxns hbatches => exact { hW with
      shared := by simpa [commits, htxns, hbatches] using hW.shared }
  | @assign t rest htxns hroom => exact { hW with
      shared := by simpa [commits, assignNext, htxns] using hW.shared
      versions := by
        simp [assignNext, versionsAfter_append, ← hW.versions, versionsAfter]
      versionedTxns := by
        simp [assignNext, versioned, processVersionAssignments_append, ← hW.versions,
          processVersionAssignments, hW.versionedTxns] }
  | deployment hd => exact { hW with }

end Wired

theorem wired_of_reachable (h : (system N).Reachable s) : Wired N s :=
  h.invariant (fun _ h => h ▸ Wired.init) fun _ _ _ _ hW hs => hW.step hs

/-- The forwarder and the proxies do what they would do if the sequence were known. `Q` is a
condition on their events. -/
theorem reachableVia_deployment {ok : State τ ω → Event τ → Prop} {Q : Deployment.Event → Prop}
    (hok : ∀ s e, ok s (.deployment e) → Q e) (h : (system N).ReachableVia ok s) :
    (Deployment.system (N.deployment s.assigned)).ReachableVia (fun _ e => Q e) s.deployment := by
  induction h with
  | init h =>
    obtain rfl := h
    exact .init rfl
  | @step s s' e _ he hs ih =>
    cases step_cases hs with
    | @assign t rest _ _ =>
      exact Deployment.reachableVia_extend (D := N.deployment s.assigned) [t] (fun _ _ h => h) ih
    | deployment hd => exact .step ih (hok _ _ he) hd
    | _ => exact ih

theorem reachable_deployment (h : (system N).Reachable s) :
    (Deployment.system (N.deployment s.assigned)).Reachable s.deployment :=
  reachableVia_deployment (Q := fun _ => True) (fun _ _ _ => trivial) h

/-- The transactions that have not reached the load balancer. -/
def ordering (s : State τ ω) : List (RemoraTransaction τ) :=
  ((s.consensus.waiter ++ s.consensus.phase.delivering ++
      s.consensus.txPrimaryExecutor.drop s.txnCnt).map Prod.fst).flatten ++
    s.consensus.currentBatch ++ s.consensus.phase.received

theorem perm_commits (cs : List (List (RemoraTransaction τ))) :
    (cs.flatMap (fun c => (separate c).1) ++ cs.flatMap fun c => (separate c).2).Perm
      cs.flatten := by
  refine (List.flatMap_append_perm cs _ _).trans ?_
  rw [← List.flatMap_id']
  exact List.Perm.flatMap_left cs fun c _ => List.filter_append_perm _ c

/-- What the consensus has received is in a batch that has not reached the load balancer, or in
one of the commits. -/
theorem Wired.perm_ordering (hW : Wired N s) :
    s.consensus.received.Perm (ordering s ++ (commits s).flatten) := by
  have hI := MockConsensus.conserved_of_reachable hW.consensus hW.isOpen
  have hsealed : (((s.consensus.waiter ++ s.consensus.phase.delivering ++
      s.consensus.txPrimaryExecutor).map Prod.fst).flatten).Perm
      s.consensus.sealedBatches.flatten := by
    rw [← List.zipIdx_map_fst 0 s.consensus.sealedBatches]
    exact (hI.delivered.map _).flatten
  rw [← List.take_append_drop s.txnCnt s.consensus.txPrimaryExecutor] at hsealed
  rw [hI.received, ← Multiset.coe_eq_coe]
  rw [← Multiset.coe_eq_coe] at hsealed
  simp only [ordering, commits, List.map_append, List.flatten_append, ← Multiset.coe_add,
    ← hsealed]
  abel

/-- Each transaction received is in one place of the pipeline, once. Whatever the batches are and in
whatever order they are delivered, the shared-object transactions of the commits are given their
versions in order, and the forwarder and the proxies do what they would do with this sequence from
the beginning. The `k`-th owned-only transaction goes to the proxy `k` modulo their number, in two
messages, if this proxy is connected. -/
theorem pipeline_in_order (N : PrimaryNode τ ω) (s : State τ ω) (hs : (system N).Reachable s) :
    s.consensus.received.Perm (ordering s ++
      ((s.forwardedOwned ++ s.ownedBatches.flatten ++ s.balancing.owned) ++
        (s.assigned ++ s.transactions ++ s.sharedBatches.flatten ++ s.balancing.shared))) ∧
    (commits s).flatMap (fun c => (separate c).2) =
      s.assigned ++ s.transactions ++ s.sharedBatches.flatten ++ s.balancing.shared ∧
    (commits s).flatMap (fun c => (separate c).1) =
      s.forwardedOwned ++ s.ownedBatches.flatten ++ s.balancing.owned ∧
    s.ownedSent = s.forwardedOwned.zipIdx.flatMap (turn N.connections) ∧
    s.versionedTxns = versioned s.assigned ∧
    (Deployment.system (N.deployment s.assigned)).Reachable s.deployment := by
  have hW := wired_of_reachable hs
  refine ⟨?_, hW.shared, hW.owned, hW.ownedSent, hW.versionedTxns, reachable_deployment hs⟩
  rw [← hW.owned, ← hW.shared]
  exact hW.perm_ordering.trans ((perm_commits _).symm.append_left _)

theorem nodup_two : ([0, 1] : List ProxyId).Nodup := by decide

/-- Two proxies, and batches of two. -/
def pairs : PrimaryNode Unit FakeObject where
  consensusParameters := ⟨2, 2, Nat.zero_lt_two, Nat.zero_lt_two⟩
  separationMode := .NoSeparation
  loadBalancingPolicy := .RSDS
  connections := [0, 1]
  channelSize := 1
  numWorkers := 2
  bufferSize := 1
  executor := fakeExecutor Unit
  outcome := fun _ => true
  genesis := fun o => if o = 7 then some ⟨7, 2, 1, .shared 2⟩ else none
  nodup := nodup_two

/-- A transaction without and one with a shared object come through. -/
def pairsRun : List (Event Unit) :=
  [.consensus (.arrive (.new () 10 [.immOrOwnedMoveObject 3] 1 1)),
    .consensus (.arrive (.new () 11 [.sharedMoveObject 7] 1 1)), .consensus .sent,
    .consensus (.complete 0), .consensus .sent, .receive, .send, .send, .forwardOwned, .assign,
    .assign]

/-- The first one is sent to the first proxy. -/
theorem pipeline_in_order_pairs : ∃ s : State Unit FakeObject, (system pairs).Reachable s ∧
    s.assigned.map (·.digest) = [11] ∧ s.forwardedOwned.map (·.digest) = [10] ∧
      s.ownedSent = s.forwardedOwned.zipIdx.flatMap (turn [0, 1]) := by
  have hview : ((system pairs).run (State.init pairs) pairsRun).map (fun s =>
      (s.assigned.map (·.digest), s.forwardedOwned.map (·.digest))) = some ([11], [10]) := by
    decide
  obtain ⟨s, hrun, hview⟩ := Option.map_eq_some_iff.mp hview
  obtain ⟨hassigned, hforwarded⟩ := Prod.mk.inj hview
  have hs : (system pairs).Reachable s := Transition.System.reachable_run (.init rfl) hrun
  exact ⟨s, hs, hassigned, hforwarded, (pipeline_in_order pairs s hs).2.2.2.1⟩

end PrimaryNode

end Remora
