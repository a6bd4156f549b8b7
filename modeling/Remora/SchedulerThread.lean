import Remora.RoutingPlan
import Remora.StatelessTxnForwarder

/-!
# The scheduler beside the forwarder

Mock consensus sends every batch it seals to the scheduler, and delivers it to the forwarder some
time later. Nothing orders the two from there on : the scheduler may take a batch before, while or
after its transactions are forwarded. Both write to the routing plan and to the loads.

The scheduler is a thread whose steps are its operations on these two maps. For each large
subgraph it reads the loads of all proxies one by one, and enters the proxy it has chosen for one
digest after the other. When all subgraphs have a proxy, it adds the weights to the loads, again
one by one, and a build with debug assertions reads all loads twice more. Everything else is its own
and takes no step (`schedule`). If nobody interferes, a batch is handled as
`scheduleTransactionBatch` says (`steps_scheduleTransactionBatch`).

A load is a `usize`. The steps of the forwarder are those of `SharedObjTxnForwarder`, and what they
do to the loads is done again in a `usize` (`forward`). `updates` records every addition to a load
as it would be without a bound, with the digests of the transactions whose
`expected_stateful_duration` is in it. The verification durations that the forwarders add have none.
-/

namespace Remora

open Function PreConsensusSchedTask

variable {τ : Type}

/-- The batches in the order they are sealed. A transaction of a batch is given by its place in
the consensus order. -/
structure Batches (C : Primary τ) where
  batches : List (List ℕ)
  perm : batches.flatten.Perm (List.range C.txns.length)

namespace Batches

variable {C : Primary τ} (B : Batches C) (k : ℕ)

def places : List ℕ :=
  (B.batches[k]?).getD []

def transactions : List (RemoraTransaction τ) :=
  (B.places k).filterMap fun i => C.txns[i]?

/-- The digests of the large subgraphs of a batch. -/
def digests (L : Collections) : Option (List (List TransactionDigest)) := do
  let graph := (buildDependencyGraph (B.transactions k)).1
  let subgraphs ← findAllSubgraphs L.petgraph graph
  (largeSubgraphs subgraphs).mapM (subgraphDigests L graph)

end Batches

/-- An addition to the load of a proxy. -/
structure LoadUpdate where
  proxyId : ProxyId
  weight : ℕ
  /-- The transactions whose `expected_stateful_duration` is added. -/
  digests : List TransactionDigest
  deriving DecidableEq, Repr

/-- What an action of the `i`-th forwarding task adds to a load. -/
def ForwardAction.updates (C : Primary τ) (i : ℕ) (l : ForwardingTask) :
    ForwardAction → List LoadUpdate
  | fallback =>
    match l.proxyId with
    | some _ => []
    | none => ((C.transaction i).bind fun t =>
        (fallbackProxyId C.policy C.connections.length l.proxyStateCounts
          (required C.txns i) i).map fun p => ⟨p, t.expectedStatefulDuration, [t.digest]⟩).toList
  | pickStateless => ((C.transaction i).map fun t =>
      ⟨(l.leastLoaded.map Prod.fst).getD 0, t.verificationDuration, []⟩).toList
  | _ => []

/-- What a step of the forwarder adds to a load. -/
def SharedObjTxnForwarder.updates (C : Primary τ) (s : SharedObjTxnForwarder.State τ) :
    SharedObjTxnForwarder.Event → List LoadUpdate
  | .run w => ((s.pool.running w).bind fun i => ((s.tasks i).todo.head?).map fun a =>
      a.updates C i (s.tasks i)).getD []
  | .load p weight => [⟨p, weight, []⟩]
  | _ => []

theorem exists_mapM {α β : Type} {f : α → Option β} {l : List α} (h : ∀ a ∈ l, ∃ b, f a = some b) :
    ∃ l', l.mapM f = some l' ∧ List.Forall₂ (fun a b => f a = some b) l l' := by
  induction l with
  | nil => exact ⟨[], rfl, List.Forall₂.nil⟩
  | cons a l ih =>
    rw [List.forall_mem_cons] at h
    obtain ⟨b, hb⟩ := h.1
    obtain ⟨l', hl', hforall⟩ := ih h.2
    exact ⟨b :: l', by simp [hb, hl'], List.Forall₂.cons hb hforall⟩

/-- The large subgraphs of a batch, and their digests. -/
theorem Batches.digests_spec {C : Primary τ} (B : Batches C) (k : ℕ) (L : Collections) :
    ∃ subgraphs digests,
      findAllSubgraphs L.petgraph (buildDependencyGraph (B.transactions k)).1 = some subgraphs ∧
      Enumerates (B.transactions k) (largeSubgraphs subgraphs) ∧
      (largeSubgraphs subgraphs).mapM
        (subgraphDigests L (buildDependencyGraph (B.transactions k)).1) = some digests ∧
      List.Forall₂ (fun c ds =>
        subgraphDigests L (buildDependencyGraph (B.transactions k)).1 c = some ds)
        (largeSubgraphs subgraphs) digests ∧
      B.digests k L = some digests := by
  obtain ⟨subgraphs, hfind, henum⟩ := largeSubgraphs_spec L.petgraph (B.transactions k)
  obtain ⟨digests, hdigests, hforall⟩ := exists_mapM (l := largeSubgraphs subgraphs)
    (f := subgraphDigests L (buildDependencyGraph (B.transactions k)).1) fun c hc => by
      obtain ⟨ds, hds, -⟩ := subgraphDigests_eq_some (L := L) fun i hi => henum.lt_length hc hi
      exact ⟨ds, hds⟩
  refine ⟨subgraphs, digests, hfind, henum, hdigests, hforall, ?_⟩
  simp [Batches.digests, hfind, hdigests]

namespace SchedulerThread

/-! ## Loads in a `usize` -/

/-- The loads after the additions. -/
def addLoads (b : Build) : List LoadUpdate → (ProxyId → ℕ) → Option (ProxyId → ℕ)
  | [], loads => some loads
  | u :: updates, loads => do
    let load ← b.unsigned 64 (loads u.proxyId + asUsize u.weight)
    addLoads b updates (update loads u.proxyId load)

def withLoads (s : SharedObjTxnForwarder.State τ) (loads : ProxyId → ℕ) :
    SharedObjTxnForwarder.State τ :=
  { s with context := { s.context with proxyLoads := loads } }

/-- A step of the forwarder. -/
def forward (b : Build) (C : Primary τ) (s : SharedObjTxnForwarder.State τ)
    (e : SharedObjTxnForwarder.Event) : Option (SharedObjTxnForwarder.State τ) := do
  let s' ← SharedObjTxnForwarder.step C s e
  let loads ← addLoads b (SharedObjTxnForwarder.updates C s e) s.context.proxyLoads
  some (withLoads s' loads)

theorem forward_eq_some {b : Build} {C : Primary τ} {s s' : SharedObjTxnForwarder.State τ}
    {e : SharedObjTxnForwarder.Event} (h : forward b C s e = some s') :
    ∃ s₁ loads, SharedObjTxnForwarder.step C s e = some s₁ ∧
      addLoads b (SharedObjTxnForwarder.updates C s e) s.context.proxyLoads = some loads ∧
      withLoads s₁ loads = s' := by
  simpa only [forward, Option.bind_eq_bind, Option.bind_eq_some_iff, Option.some.injEq,
    exists_and_left] using h

/-- A load that fits already is added. -/
theorem forward_load {b : Build} {C : Primary τ} {s : SharedObjTxnForwarder.State τ} {p : ProxyId}
    {weight load : ℕ} (hweight : weight < 2 ^ 64)
    (h : b.unsigned 64 (s.context.proxyLoads p + weight) = some load) :
    forward b C s (.load p weight) = some (withLoads s (update s.context.proxyLoads p load)) := by
  simp only [forward, SharedObjTxnForwarder.step, SharedObjTxnForwarder.updates, addLoads,
    asUsize_of_lt hweight, h, Option.bind_eq_bind, Option.bind_some]
  rfl

/-! ## The thread -/

/-- Where the scheduler is. `rest` are the digests of the large subgraphs it has not come to. -/
inductive Phase
  /-- Waits for a batch. -/
  | recv
  /-- Between two large subgraphs. -/
  | assign (rest : List (List TransactionDigest)) (assignments : List Assignment)
  /-- Reads the loads, and then chooses a proxy. -/
  | score (digests : List TransactionDigest) (objects : List ObjectID)
      (localityScores loadScores : ProxyId → ℕ) (toRead : List ProxyId)
      (rest : List (List TransactionDigest)) (assignments : List Assignment)
  /-- Enters the digests that are left in the plan. -/
  | insert (a : Assignment) (left : List TransactionDigest)
      (rest : List (List TransactionDigest)) (assignments : List Assignment)
  /-- Adds the weights of the assignments to the loads. -/
  | update (assignments : List Assignment)
  /-- Adds up the loads in `log_load_summary`. -/
  | logSummary (total : ℕ) (toRead : List ProxyId)
  /-- Adds up the loads in `log_load_distribution`. -/
  | logDistribution (total : ℕ) (toRead : List ProxyId)

/-- The forwarder, whose context has the plan and the loads, how many batches mock consensus has
sealed, how many the scheduler has taken, and the scheduler's own variables. -/
structure State (τ : Type) where
  forwarder : SharedObjTxnForwarder.State τ
  sealedBatches : ℕ
  taken : ℕ
  phase : Phase
  objectLastProxy : ℕ → Option ProxyId
  updates : List LoadUpdate

inductive Event
  /-- Mock consensus seals the next batch. -/
  | sealBatch
  /-- A step of the forwarder, or an addition to a load by the stateless forwarder. -/
  | forward (e : SharedObjTxnForwarder.Event)
  /-- The next step of the scheduler, if it draws the random number `tie`. -/
  | schedule (tie : ℕ)

variable (b : Build) (L : Collections) (F : Type) [Zero F] [One F] [NatCast F] [Add F] [Sub F]
  [Neg F] [Mul F] [Div F] [Max F] [OfScientific F] [LT F] [DecidableLT F] (C : Primary τ)
  (B : Batches C)

def State.init : State τ where
  forwarder := SharedObjTxnForwarder.State.init C
  sealedBatches := 0
  taken := 0
  phase := .recv
  objectLastProxy := fun _ => none
  updates := []

/-- A transaction is forwarded only after its batch has been sealed. What the scheduler does to
the plan is not a step of the forwarder. -/
def enabled (s : State τ) : SharedObjTxnForwarder.Event → Bool
  | .sendTask => (B.batches.take s.sealedBatches).flatten.contains s.forwarder.pool.sent
  | .plan _ _ => false
  | _ => true

/-- The transactions of the batch that was taken last. -/
def txs (s : State τ) : TransactionDigest → Option (RemoraTransaction τ) :=
  txMap (B.transactions (s.taken - 1))

/-- A step of the scheduler. -/
def schedule (tie : ℕ) (s : State τ) : Option (State τ) :=
  let numProxies := C.connections.length
  match s.phase with
  | .recv =>
    if s.taken < s.sealedBatches then
      if numProxies = 0 then some { s with taken := s.taken + 1 }
      else (B.digests s.taken L).map fun digests =>
        { s with taken := s.taken + 1, phase := .assign digests [] }
    else none
  | .assign [] assignments => some { s with phase := .update assignments }
  | .assign (digests :: rest) assignments =>
    let objects := subgraphObjects (txs C B s) digests
    (localityScores numProxies s.objectLastProxy objects fun _ => 0).map fun locality =>
      { s with phase :=
          .score digests objects locality (fun _ => 0) (List.range numProxies) rest assignments }
  | .score digests objects locality loads (p :: toRead) rest assignments =>
    let loads := update loads p (s.forwarder.context.proxyLoads p)
    some { s with phase := .score digests objects locality loads toRead rest assignments }
  | .score digests objects locality loads [] rest assignments =>
    let a := ⟨bestProxy F numProxies locality loads tie, digests, objects⟩
    some { s with phase := .insert a digests rest assignments }
  | .insert a (digest :: left) rest assignments =>
    (SharedObjTxnForwarder.step C s.forwarder (.plan digest a.proxyId)).map fun forwarder =>
      { s with forwarder := forwarder, phase := .insert a left rest assignments }
  | .insert a [] rest assignments => some { s with phase := .assign rest (assignments ++ [a]) }
  | .update (a :: assignments) => do
    let weight ← totalWeight b (txs C B s) a.digests
    let forwarder ← forward b C s.forwarder (.load a.proxyId weight)
    let objectLastProxy ← recordLastProxy a.proxyId a.objects s.objectLastProxy
    if a.proxyId < numProxies then
      some { s with
        forwarder := forwarder
        phase := .update assignments
        objectLastProxy := objectLastProxy
        updates := s.updates ++
          [⟨a.proxyId, (durations (txs C B s) a.digests).sum, a.digests⟩] }
    else none
  | .update [] => some { s with
      phase := if b.debugAssertions then .logSummary 0 (List.range numProxies) else .recv }
  | .logSummary total (p :: toRead) =>
    (b.unsigned 64 (total + s.forwarder.context.proxyLoads p)).map fun total =>
      { s with phase := .logSummary total toRead }
  | .logSummary _ [] => some { s with phase := .logDistribution 0 (List.range numProxies) }
  | .logDistribution total (p :: toRead) =>
    (b.unsigned 64 (total + s.forwarder.context.proxyLoads p)).map fun total =>
      { s with phase := .logDistribution total toRead }
  | .logDistribution _ [] => some { s with phase := .recv }

def step (s : State τ) : Event → Option (State τ)
  | .sealBatch =>
    if s.sealedBatches < B.batches.length then
      some { s with sealedBatches := s.sealedBatches + 1 }
    else none
  | .forward e =>
    if enabled C B s e then
      (forward b C s.forwarder e).map fun forwarder =>
        { s with
          forwarder := forwarder
          updates := s.updates ++ SharedObjTxnForwarder.updates C s.forwarder e }
    else none
  | .schedule tie => schedule b L F C B tie s

/-- Every interleaving of mock consensus, the scheduler and the forwarder. -/
def system : Transition.System (State τ) Event where
  init s := s = State.init C
  step := step b L F C B

/-! ## Without interference -/

section Alone

variable {b L F C B} {s : State τ}

/-- What `scheduleTransactionBatch` works on. -/
def view (C : Primary τ) (s : State τ) : PreConsensusSchedTask where
  numProxies := C.connections.length
  preConsensusRoutingPlan := s.forwarder.context.routingPlan
  proxyLoads := s.forwarder.context.proxyLoads
  objectLastProxy := s.objectLastProxy

/-- The scheduler comes from `s` to the phase `phase`, where it sees `v`. -/
def Gets (b : Build) (L : Collections) (F : Type) [Zero F] [One F] [NatCast F] [Add F] [Sub F]
    [Neg F] [Mul F] [Div F] [Max F] [OfScientific F] [LT F] [DecidableLT F] (C : Primary τ)
    (B : Batches C) (s : State τ) (phase : Phase) (v : PreConsensusSchedTask) : Prop :=
  ∃ s', (system b L F C B).Steps s s' ∧ s'.phase = phase ∧ s'.taken = s.taken ∧ view C s' = v

theorem Gets.refl : Gets b L F C B s s.phase (view C s) :=
  ⟨s, .refl s, rfl, rfl, rfl⟩

theorem Gets.head {s' : State τ} {phase : Phase} {v : PreConsensusSchedTask}
    (h : Gets b L F C B s' phase v) (tie : ℕ) (hstep : schedule b L F C B tie s = some s')
    (htaken : s'.taken = s.taken) : Gets b L F C B s phase v := by
  obtain ⟨s'', hsteps, hphase, htaken', hview⟩ := h
  exact ⟨s'', hsteps.head (e := .schedule tie) hstep, hphase, htaken'.trans htaken, hview⟩

theorem gets_of_step {s' : State τ} (tie : ℕ) (hstep : schedule b L F C B tie s = some s')
    (htaken : s'.taken = s.taken) : Gets b L F C B s s'.phase (view C s') :=
  Gets.refl.head tie hstep htaken

theorem Gets.trans {phase phase' : Phase} {v v' : PreConsensusSchedTask}
    (h : Gets b L F C B s phase v)
    (h' : ∀ s', s'.phase = phase → s'.taken = s.taken → view C s' = v →
      Gets b L F C B s' phase' v') : Gets b L F C B s phase' v' := by
  obtain ⟨s', hsteps, hphase, htaken, hview⟩ := h
  obtain ⟨s'', hsteps', hphase', htaken', hview'⟩ := h' s' hphase htaken hview
  exact ⟨s'', hsteps.trans hsteps', hphase', htaken'.trans htaken, hview'⟩

theorem gets_score {digests : List TransactionDigest} {objects : List ObjectID}
    {locality loads : ProxyId → ℕ} {toRead : List ProxyId} {rest : List (List TransactionDigest)}
    {assignments : List Assignment}
    (hphase : s.phase = .score digests objects locality loads toRead rest assignments) :
    ∃ loads', (∀ p ∈ toRead, loads' p = (view C s).proxyLoads p) ∧
      (∀ p ∉ toRead, loads' p = loads p) ∧
      Gets b L F C B s (.score digests objects locality loads' [] rest assignments) (view C s) := by
  induction toRead generalizing s loads with
  | nil => exact ⟨loads, by simp, by simp, hphase ▸ Gets.refl⟩
  | cons p toRead ih =>
    obtain ⟨loads', hread, hother, hgets⟩ := ih (s := { s with
      phase := .score digests objects locality
        (update loads p (s.forwarder.context.proxyLoads p)) toRead rest assignments }) rfl
    refine ⟨loads', fun q hq => ?_, fun q hq => ?_, hgets.head 0 ?_ rfl⟩
    · by_cases hq' : q ∈ toRead
      · exact hread q hq'
      · obtain rfl := (List.mem_cons.mp hq).resolve_right hq'
        rw [hother q hq', update_self]
        rfl
    · rw [List.mem_cons, not_or] at hq
      rw [hother q hq.2, update_of_ne hq.1]
    · rw [schedule, hphase]

theorem gets_insert {a : Assignment} {left : List TransactionDigest}
    {rest : List (List TransactionDigest)} {assignments : List Assignment}
    (hphase : s.phase = .insert a left rest assignments) :
    Gets b L F C B s (.insert a [] rest assignments) { view C s with
      preConsensusRoutingPlan :=
        insertPlan a.proxyId left (view C s).preConsensusRoutingPlan } := by
  induction left generalizing s with
  | nil => exact hphase ▸ Gets.refl
  | cons d left ih =>
    let context := { s.forwarder.context with
      routingPlan := update s.forwarder.context.routingPlan d (some a.proxyId) }
    have hgets := ih (s := { s with
      forwarder := { s.forwarder with context := context }
      phase := .insert a left rest assignments }) rfl
    refine hgets.head 0 ?_ rfl
    rw [schedule, hphase]
    rfl

theorem gets_assign {graph : DiGraph} {nodes : List ℕ} {digests : List TransactionDigest}
    {rest : List (List TransactionDigest)} {assignments : List Assignment} {a : Assignment}
    {v : PreConsensusSchedTask} {tie : ℕ}
    (hphase : s.phase = .assign (digests :: rest) assignments)
    (hdigests : subgraphDigests L graph nodes = some digests)
    (h : assignLargeSubgraphProxy L F graph (txs C B s) nodes tie (view C s) = some (a, v)) :
    Gets b L F C B s (.assign rest (assignments ++ [a])) v := by
  simp only [assignLargeSubgraphProxy, hdigests, Option.bind_eq_bind, Option.bind_some,
    Option.bind_eq_some_iff, Option.some.injEq, Prod.mk.injEq] at h
  obtain ⟨locality, hlocality, rfl, rfl⟩ := h
  let objects := subgraphObjects (txs C B s) digests
  let numProxies := C.connections.length
  have hscore : schedule b L F C B 0 s = some { s with
      phase := .score digests objects locality (fun _ => 0) (List.range numProxies) rest
        assignments } := by
    rw [schedule, hphase]
    exact Option.map_eq_some_iff.mpr ⟨locality, hlocality, rfl⟩
  obtain ⟨loads, hloads, -, hgets⟩ := gets_score (L := L) (F := F) (B := B) (s := { s with
    phase := .score digests objects locality (fun _ => 0) (List.range numProxies) rest
      assignments }) rfl
  refine (hgets.trans fun s₁ hphase₁ htaken₁ hview₁ => ?_).head 0 hscore rfl
  have hbest : bestProxy F numProxies locality loads tie =
      bestProxy F numProxies locality (view C s).proxyLoads tie :=
    bestProxy_congr fun p hp => hloads p (List.mem_range.mpr hp)
  have hchoose : schedule b L F C B tie s₁ = some { s₁ with
      phase := .insert ⟨bestProxy F numProxies locality loads tie, digests, objects⟩ digests rest
        assignments } := by
    rw [schedule, hphase₁]
  refine Gets.head ?_ tie hchoose rfl
  refine (gets_insert rfl).trans fun s₂ hphase₂ htaken₂ hview₂ => ?_
  have hcollect : schedule b L F C B 0 s₂ = some { s₂ with phase := .assign rest (assignments ++
      [⟨bestProxy F numProxies locality loads tie, digests, objects⟩]) } := by
    rw [schedule, hphase₂]
  have hview₁ : view C s₁ = view C s := hview₁
  have hview : view C s₂ = { view C s with
      preConsensusRoutingPlan :=
        insertPlan (bestProxy F numProxies locality (view C s).proxyLoads tie) digests
          (view C s).preConsensusRoutingPlan } := by
    rw [hview₂, ← hbest, ← hview₁]
    rfl
  rw [hbest] at hcollect
  exact hview ▸ gets_of_step 0 hcollect rfl

theorem gets_assignSubgraphs {graph : DiGraph} {subgraphs : List (List ℕ)}
    {digests : List (List TransactionDigest)} {collected assignments : List Assignment}
    {v : PreConsensusSchedTask} {ties : ℕ → ℕ} (hphase : s.phase = .assign digests collected)
    (hdigests : subgraphs.mapM (subgraphDigests L graph) = some digests)
    (h : assignSubgraphs L F graph (txs C B s) subgraphs ties (view C s) = some (assignments, v)) :
    Gets b L F C B s (.assign [] (collected ++ assignments)) v := by
  induction subgraphs generalizing s digests collected assignments ties with
  | nil =>
    obtain rfl : digests = [] := by simpa using hdigests.symm
    obtain ⟨rfl, rfl⟩ := Prod.mk.inj (Option.some.inj h)
    rw [List.append_nil]
    exact hphase ▸ Gets.refl
  | cons nodes subgraphs ih =>
    simp only [List.mapM_cons, Option.bind_eq_bind, Option.bind_eq_some_iff, Option.pure_def,
      Option.some.injEq] at hdigests
    obtain ⟨ds, hds, dss, hdss, rfl⟩ := hdigests
    simp only [assignSubgraphs, Option.bind_eq_bind, Option.bind_eq_some_iff, Option.some.injEq,
      Prod.exists, Prod.mk.injEq] at h
    obtain ⟨a, v₁, ha, as, v₂, has, rfl, rfl⟩ := h
    refine (gets_assign hphase hds ha).trans fun s₁ hphase₁ htaken₁ hview₁ => ?_
    have htxs : txs C B s₁ = txs C B s := by rw [txs, htaken₁, ← txs]
    rw [← htxs, ← hview₁] at has
    simpa using ih hphase₁ hdss has

theorem gets_updateStates {assignments : List Assignment} {v : PreConsensusSchedTask}
    (hphase : s.phase = .update assignments)
    (h : updateStates b (txs C B s) assignments (view C s) = some v) :
    Gets b L F C B s (.update []) v := by
  induction assignments generalizing s with
  | nil =>
    obtain rfl := Option.some.inj h
    exact hphase ▸ Gets.refl
  | cons a assignments ih =>
    simp only [updateStates, updateStateForSds, Option.bind_eq_bind, Option.bind_eq_some_iff,
      Option.some.injEq, Option.ite_none_right_eq_some] at h
    obtain ⟨v₁, ⟨weight, hweight, load, hload, last, hlast, rfl⟩, hlt, hrest⟩ := h
    have hlast : recordLastProxy a.proxyId a.objects s.objectLastProxy = some last := hlast
    have hlt : a.proxyId < C.connections.length := hlt
    have hsum : weight < 2 ^ 64 := by
      rw [totalWeight, Build.sum_eq] at hweight
      rw [Build.eq_mod_of_unsigned hweight]
      exact Nat.mod_lt _ (Nat.two_pow_pos 64)
    let loads := update s.forwarder.context.proxyLoads a.proxyId load
    have hstep : schedule b L F C B 0 s = some { s with
        forwarder := withLoads s.forwarder loads
        phase := .update assignments
        objectLastProxy := last
        updates := s.updates ++
          [⟨a.proxyId, (durations (txs C B s) a.digests).sum, a.digests⟩] } := by
      rw [schedule, hphase]
      simp only [hweight, forward_load hsum hload, hlast, if_pos hlt, Option.bind_eq_bind,
        Option.bind_some, loads]
    exact (ih rfl hrest).head 0 hstep rfl

/-- The loads are added up in the phases `φ`. -/
theorem gets_logged {φ : ℕ → List ProxyId → Phase}
    (hφ : ∀ (s : State τ) total p toRead total', s.phase = φ total (p :: toRead) →
      b.unsigned 64 (total + s.forwarder.context.proxyLoads p) = some total' →
        schedule b L F C B 0 s = some { s with phase := φ total' toRead })
    {total total' : ℕ} {toRead : List ProxyId} (hphase : s.phase = φ total toRead)
    (h : (toRead.map (view C s).proxyLoads).foldlM
      (fun total n => b.unsigned 64 (total + n)) total = some total') :
    Gets b L F C B s (φ total' []) (view C s) := by
  induction toRead generalizing s total with
  | nil =>
    obtain rfl := Option.some.inj h
    exact hphase ▸ Gets.refl
  | cons p toRead ih =>
    rw [List.map_cons, List.foldlM_cons] at h
    obtain ⟨total₁, htotal, hrest⟩ := Option.bind_eq_some_iff.mp h
    exact (ih (s := { s with phase := φ total₁ toRead }) rfl hrest).head 0
      (hφ s total p toRead total₁ hphase htotal) rfl

theorem gets_logLoads (hphase : s.phase = .update [])
    (h : logLoads b (view C s) = some (view C s)) : Gets b L F C B s .recv (view C s) := by
  let numProxies := C.connections.length
  have hupdated : schedule b L F C B 0 s = some { s with
      phase := if b.debugAssertions then .logSummary 0 (List.range numProxies) else .recv } := by
    rw [schedule, hphase]
  refine Gets.head ?_ 0 hupdated rfl
  rw [logLoads] at h
  split_ifs at h with hdebug
  · obtain ⟨total, htotal, -⟩ := Option.map_eq_some_iff.mp h
    have hsummary : Gets b L F C B { s with phase := .logSummary 0 (List.range numProxies) }
        (.logSummary total []) (view C s) :=
      gets_logged (fun s _ p _ _ hphase hp => by simp [schedule, hphase, hp]) rfl htotal
    rw [if_pos hdebug]
    refine hsummary.trans fun s₁ hphase₁ _ hview₁ => ?_
    have hread : schedule b L F C B 0 s₁ = some { s₁ with
        phase := .logDistribution 0 (List.range numProxies) } := by
      rw [schedule, hphase₁]
    refine Gets.head ?_ 0 hread rfl
    have hdistribution : Gets b L F C B { s₁ with
        phase := .logDistribution 0 (List.range numProxies) } (.logDistribution total [])
        (view C s) :=
      hview₁ ▸ gets_logged (fun s _ p _ _ hphase hp => by simp [schedule, hphase, hp]) rfl
        (hview₁ ▸ htotal)
    refine hdistribution.trans fun s₂ hphase₂ _ hview₂ => ?_
    have hdone : schedule b L F C B 0 s₂ = some { s₂ with phase := .recv } := by
      rw [schedule, hphase₂]
    exact hview₂ ▸ gets_of_step 0 hdone rfl
  · rw [if_neg hdebug]
    exact Gets.refl

/-- If nobody interferes, the scheduler handles the next batch as `scheduleTransactionBatch`
says. -/
theorem steps_scheduleTransactionBatch {ties : ℕ → ℕ} {v : PreConsensusSchedTask}
    (hphase : s.phase = .recv) (hsealed : s.taken < s.sealedBatches)
    (h : scheduleTransactionBatch b L F (B.transactions s.taken) ties (view C s) = some v) :
    ∃ s', (system b L F C B).Steps s s' ∧ s'.phase = .recv ∧ s'.taken = s.taken + 1 ∧
      view C s' = v := by
  by_cases hn : C.connections.length = 0
  · have hstep : schedule b L F C B 0 s = some { s with taken := s.taken + 1 } := by
      rw [schedule, hphase]
      simp only [if_pos hsealed, if_pos hn]
    have hview : view C s = v := by simpa [scheduleTransactionBatch, view, hn] using h
    exact ⟨_, (Transition.System.Steps.refl _).head (e := .schedule 0) hstep, hphase, rfl, hview⟩
  obtain ⟨subgraphs, digests, hfind, -, hmapM, -, hdigests⟩ := B.digests_spec s.taken L
  have htake : schedule b L F C B 0 s = some { s with
      taken := s.taken + 1, phase := .assign digests [] } := by
    rw [schedule, hphase]
    simp only [if_pos hsealed, if_neg hn, hdigests, Option.map_some]
  have htxs : txs C B { s with taken := s.taken + 1, phase := .assign digests [] } =
      txMap (B.transactions s.taken) := rfl
  have hnum : (view C s).numProxies ≠ 0 := hn
  simp only [scheduleTransactionBatch, if_neg hnum, applySdsPolicy, hfind, Option.bind_eq_bind,
    Option.bind_some, List.isEmpty_iff, Option.bind_eq_some_iff] at h
  obtain ⟨v', h, hlog⟩ := h
  obtain rfl := (logLoads_eq_some.mp hlog).1
  suffices Gets b L F C B { s with taken := s.taken + 1, phase := .assign digests [] } .recv v' by
    obtain ⟨s', hsteps, hphase', htaken', hview⟩ := this
    exact ⟨s', hsteps.head (e := .schedule 0) htake, hphase', htaken', hview⟩
  have hhandle : handleLargeSubgraphs b L F (buildDependencyGraph (B.transactions s.taken)).1
      (txMap (B.transactions s.taken)) (largeSubgraphs subgraphs) ties (view C s) = some v' := by
    split_ifs at h with hempty
    · rw [hempty]
      exact h
    · exact h
  simp only [handleLargeSubgraphs, Option.bind_eq_bind, Option.bind_eq_some_iff,
    Prod.exists] at hhandle
  obtain ⟨assignments, v₁, hassign, hupdate⟩ := hhandle
  refine (gets_assignSubgraphs rfl hmapM (htxs ▸ hassign)).trans fun s₁ hphase₁ htaken₁ hview₁ => ?_
  have htxs₁ : txs C B s₁ = txMap (B.transactions s.taken) := by rw [txs, htaken₁, ← txs, htxs]
  have hassigned : schedule b L F C B 0 s₁ = some { s₁ with phase := .update assignments } := by
    rw [schedule, hphase₁, List.nil_append]
  refine Gets.head ?_ 0 hassigned rfl
  rw [← htxs₁, ← hview₁] at hupdate
  have hgets : Gets b L F C B { s₁ with phase := .update assignments } (.update []) v' :=
    gets_updateStates rfl hupdate
  refine hgets.trans fun s₂ hphase₂ htaken₂ hview₂ => ?_
  exact hview₂ ▸ gets_logLoads hphase₂ (hview₂ ▸ hlog)

end Alone

end SchedulerThread

end Remora
