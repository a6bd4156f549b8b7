import Remora.NodeCompletion
import Remora.TpccDeployment

/-!
# A primary node that serves TPC-C

The whole way of TPC-C transactions, from their arrival at the node to the stores of the proxies.
Built without overflow checks, the node and its proxies come to rest, and what the proxies then have
is the store of one node that has executed everything received (`node_conserves_money`) : the order
of the batches changes neither the money nor what is counted.
-/

namespace Remora

namespace Tpcc

open Function Deployment Replication

variable {β : Type} {P : Platform β} {C : Primary TpccTransaction} {S₀ : Objects β}

/-! ## All transactions -/

theorem replay_congr {runs runs' : ℕ → Bool} {n : ℕ} (h : ∀ i < n, runs i = runs' i) :
    replay P C runs S₀ n = replay P C runs' S₀ n := by
  induction n with
  | zero => rfl
  | succ n ih =>
    rw [replay, replay, ih fun i hi => h i (Nat.lt_succ_of_lt hi), h n (Nat.lt_succ_self n)]

theorem executedTxns_all {runs : ℕ → Bool} {txns : List (RemoraTransaction TpccTransaction)}
    (h : ∀ i < txns.length, runs i = true) :
    executedTxns runs txns txns.length = txns.map fun t => t.transaction := by
  have hall : txns.zipIdx.filter (fun x => runs x.2) = txns.zipIdx :=
    List.filter_eq_self.mpr fun x hx => h x.2 (List.snd_lt_of_mem_zipIdx hx)
  rw [executedTxns, List.take_length, hall]
  calc txns.zipIdx.map (fun x => x.1.transaction)
      = (txns.zipIdx.map Prod.fst).map fun t => t.transaction := List.map_map.symm
    _ = txns.map fun t => t.transaction := by rw [List.zipIdx_map_fst]

theorem spent_le_of_subperm {txns txns' : List (RemoraTransaction TpccTransaction)}
    (h : txns.Subperm txns') : spent txns ≤ spent txns' := by
  obtain ⟨l, hperm, hsub⟩ := h
  rw [spent, ← (hperm.map _).sum_eq]
  refine (hsub.map _).sum_le_sum fun x hx => ?_
  obtain ⟨t, -, rfl⟩ := List.mem_map.mp hx
  exact abs_nonneg _

/-! ## The node -/

/-- The proxies of the node run TPC-C from the initial store. -/
structure ServesTpcc (P : Platform β) (Dr : Draws) (W : ℕ)
    (N : PrimaryNode TpccTransaction (Object β)) : Prop where
  executor : N.executor = proxyExecutor P (initObjects P Dr W)
  genesis : N.genesis = initObjects P Dr W

section Node

open PrimaryNode (Admitted isOwn)

variable {N : PrimaryNode TpccTransaction (Object β)} {Dr : Draws} {W : ℕ}
  {s : PrimaryNode.State TpccTransaction (Object β)}

/-- What is assigned runs TPC-C, if what was received does not overflow. -/
theorem ServesTpcc.runsTpcc (hN : ServesTpcc P Dr W N)
    (hr : (PrimaryNode.system N).ReachableVia (Admitted (Placed P {k | k ∈ initialRows W}) N) s)
    (hspent : initialWYtdCents + spent s.consensus.received < 2 ^ 63) :
    RunsTpcc P Dr W (N.deployment s.assigned) where
  executor := hN.executor
  genesis := hN.genesis
  placed t ht := by
    have hsub := (PrimaryNode.wired_of_reachable (hr.mono fun _ _ _ => trivial)).assigned_subperm
    exact ((PrimaryNode.received_of_reachable hr).all t (hsub.subset ht)).1
  spent := by
    have hsub := (PrimaryNode.wired_of_reachable (hr.mono fun _ _ _ => trivial)).assigned_subperm
    have hle := spent_le_of_subperm hsub
    change initialWYtdCents + Tpcc.spent s.assigned < 2 ^ 63
    omega

section Rest

variable (hrows : Set.InjOn P.objectId {k | k ∈ initialRows W})
  (hb : P.build.overflowChecks = false) (hN : ServesTpcc P Dr W N)
  (hmode : N.separationMode.isPrimarySeparation = false) (houtcome : ∀ t, N.outcome t = true)
  (hC : SetUp (N.deployment []).primary)
include hrows hb hN hmode houtcome hC

theorem doneAtRest
    (hr : (PrimaryNode.system N).ReachableVia (Admitted (Placed P {k | k ∈ initialRows W}) N) s)
    (hspent : initialWYtdCents + spent s.consensus.received < 2 ^ 63) :
    (N.deployment s.assigned).DoneAtRest := by
  have hdigests := ((PrimaryNode.received_of_reachable hr).of_subperm
    (PrimaryNode.wired_of_reachable (hr.mono fun _ _ _ => trivial)).assigned_subperm).nodup
  exact RunsTpcc.doneAtRest hrows (hN.runsTpcc hr hspent) hb hmode hdigests houtcome
    ⟨hC.numWorkers, hC.bufferSize, hC.connected, hC.numbered⟩

omit hb hmode houtcome hC in
/-- What the proxies have once everything assigned is done. -/
theorem conserved_of_done
    (hr : (PrimaryNode.system N).ReachableVia (Admitted (Placed P {k | k ∈ initialRows W}) N) s)
    (hspent : initialWYtdCents + spent s.consensus.received < 2 ^ 63)
    (hdone : Done (N.deployment s.assigned) s.deployment) :
    ∃ S, (∀ o x, Newest Object.version (copies s.deployment o) x ↔ S o = some x) ∧
      replay P (N.deployment s.assigned).primary (fun _ => true) (initObjects P Dr W)
        s.assigned.length = some S ∧
      MoneyConserved P W (initObjects P Dr W) S ∧
      Counted P W ⟨S, s.assigned.map fun t => t.transaction⟩ := by
  have hD := hN.runsTpcc hr hspent
  have hdep := PrimaryNode.reachable_deployment (hr.mono fun _ _ _ => trivial)
  obtain ⟨S, hnewest, hS, hreplayed⟩ := hD.exists_replayed hrows hdep (hdone.allFinished hdep)
    (hdone.executed_iff hdep)
  refine ⟨S, hnewest, ?_, hreplayed.moneyConserved hrows, ?_⟩
  · rw [← hS]
    exact replay_congr fun i hi => (decide_eq_true hi).symm
  · have hexecuted : executedTxns (fun i => decide (i < s.assigned.length)) s.assigned
        s.assigned.length = s.assigned.map fun t => t.transaction :=
      executedTxns_all fun i hi => decide_eq_true hi
    rw [← hexecuted]
    exact hreplayed.counted hrows

end Rest

end Node

/-- A node with two proxies, for one warehouse. -/
def oneWarehouse : PrimaryNode TpccTransaction (Object (Σ kind, ObjectID × Record kind)) where
  consensusParameters := ⟨2, 2, Nat.zero_lt_two, Nat.zero_lt_two⟩
  separationMode := .NoSeparation
  loadBalancingPolicy := .RSDS
  connections := [0, 1]
  channelSize := 1
  numWorkers := 2
  bufferSize := 1
  executor := proxyExecutor (plainPlatform ⟨false, false⟩)
    (initObjects (plainPlatform ⟨false, false⟩) leastDraws 1)
  outcome := fun _ => true
  genesis := initObjects (plainPlatform ⟨false, false⟩) leastDraws 1
  nodup := PrimaryNode.nodup_two

end Tpcc

end Remora
