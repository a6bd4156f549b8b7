import Remora.RoutingPlan
import Remora.Transition

/-!
# Panics of the scheduler

`object_id_24bit_index` reads the first three bytes of an identifier as a number and subtracts 1.
If all three are 0, that underflows, and in all other cases the index is in bounds
(`isSome_lastProxyIndex`). The proxies a batch records are proxies the next batch can index, so
that no other index panics. What is left are the loads : a build with overflow checks adds up all
of them after each batch.

The scheduler gets batches while other threads change the plan and the loads. It panics if and
only if some batch has an object whose first three bytes are 0 in a class with at least two
members, or overflows are checked and the loads do not fit a `usize` (`scheduler_indexing_iff`).
-/

namespace Remora

open Function Transition

variable {τ : Type}

namespace PreConsensusSchedTask

variable {b : Build} {L : Collections} {F : Type} [Zero F] [One F] [NatCast F] [Add F] [Sub F]
  [Neg F] [Mul F] [Div F] [Max F] [OfScientific F] [LT F] [DecidableLT F]
  {s s' : PreConsensusSchedTask} {graph : DiGraph}
  {txs : TransactionDigest → Option (RemoraTransaction τ)}

/-- The first three bytes are 0. -/
def ZeroPrefixed (o : ObjectID) : Prop :=
  asRef o 0 = 0 ∧ asRef o 1 = 0 ∧ asRef o 2 = 0

instance (o : ObjectID) : Decidable (ZeroPrefixed o) :=
  inferInstanceAs (Decidable (_ ∧ _))

/-- No object of a class with at least two members starts with three bytes that are 0. -/
def Indexable (transactions : List (RemoraTransaction τ)) : Prop :=
  ∀ c ∈ largeClasses transactions, ∀ i ∈ c, ∀ tx,
    txMap transactions (digestAt transactions i) = some tx → ∀ o ∈ tx.sharedObjectIds,
      ¬ZeroPrefixed o

/-! ## Objects -/

theorem asRef_lt (o : ObjectID) (k : ℕ) : asRef o k < 2 ^ 8 :=
  Nat.mod_lt _ (by decide)

theorem index_eq_zero_iff (o : ObjectID) :
    (asRef o 0 ||| asRef o 1 <<< 8 ||| asRef o 2 <<< 16) = 0 ↔ ZeroPrefixed o := by
  simp only [ZeroPrefixed, Nat.or_eq_zero_iff, Nat.shiftLeft_eq, and_assoc]
  omega

theorem index_lt (o : ObjectID) :
    (asRef o 0 ||| asRef o 1 <<< 8 ||| asRef o 2 <<< 16) < 2 ^ 24 := by
  have h0 := asRef_lt o 0
  have h1 := asRef_lt o 1
  have h2 := asRef_lt o 2
  refine Nat.or_lt_two_pow (Nat.or_lt_two_pow ?_ ?_) ?_
  · omega
  · rw [Nat.shiftLeft_eq]
    omega
  · rw [Nat.shiftLeft_eq]
    omega

/-- An index that does not underflow is in bounds. -/
theorem isSome_lastProxyIndex (o : ObjectID) : (lastProxyIndex o).isSome ↔ ¬ZeroPrefixed o := by
  have hlt := index_lt o
  rw [← index_eq_zero_iff]
  unfold lastProxyIndex objectId24bitIndex objectLastProxyLength
  by_cases h : (asRef o 0 ||| asRef o 1 <<< 8 ||| asRef o 2 <<< 16) = 0
  · simp [h]
  · have hidx : (asRef o 0 ||| asRef o 1 <<< 8 ||| asRef o 2 <<< 16) - 1 < 2 ^ 24 := by omega
    simp only [h, if_false, Option.bind_some, if_pos hidx, Option.isSome_some, not_false_eq_true]

/-- The proxies that had objects last can be indexed. -/
def ProxiesInBounds (s : PreConsensusSchedTask) : Prop :=
  ∀ idx p, s.objectLastProxy idx = some p → p < s.numProxies

theorem isSome_localityScores {n : ℕ} {objectLastProxy : ℕ → Option ProxyId}
    (hlast : ∀ idx p, objectLastProxy idx = some p → p < n) (objects : List ObjectID)
    (scores : ProxyId → ℕ) :
    (localityScores n objectLastProxy objects scores).isSome ↔
      ∀ o ∈ objects, ¬ZeroPrefixed o := by
  induction objects generalizing scores with
  | nil => simp [localityScores]
  | cons o objects ih =>
    rw [List.forall_mem_cons, ← isSome_lastProxyIndex]
    cases hidx : lastProxyIndex o with
    | none => simp [localityScores, hidx]
    | some idx =>
      cases hp : objectLastProxy idx with
      | none => simp [localityScores, hidx, hp, ih]
      | some p => simp [localityScores, hidx, hp, hlast idx p hp, ih]

theorem recordLastProxy_spec {n : ℕ} {p : ProxyId} (hp : p < n) {objects : List ObjectID}
    (hobjects : ∀ o ∈ objects, ¬ZeroPrefixed o) {objectLastProxy : ℕ → Option ProxyId}
    (hlast : ∀ idx q, objectLastProxy idx = some q → q < n) :
    ∃ objectLastProxy', recordLastProxy p objects objectLastProxy = some objectLastProxy' ∧
      ∀ idx q, objectLastProxy' idx = some q → q < n := by
  induction objects generalizing objectLastProxy with
  | nil => exact ⟨_, rfl, hlast⟩
  | cons o objects ih =>
    rw [List.forall_mem_cons, ← isSome_lastProxyIndex] at hobjects
    obtain ⟨idx, hidx⟩ := Option.isSome_iff_exists.mp hobjects.1
    have hupdate : ∀ i q, update objectLastProxy idx (some p) i = some q → q < n := by
      intro i q hq
      rcases eq_or_ne i idx with rfl | hne
      · rw [update_self] at hq
        exact Option.some.inj hq ▸ hp
      · rw [update_of_ne hne] at hq
        exact hlast i q hq
    obtain ⟨objectLastProxy', heq, hlast'⟩ := ih hobjects.2 hupdate
    exact ⟨objectLastProxy', by rw [recordLastProxy, hidx]; exact heq, hlast'⟩

theorem mem_subgraphObjects {digests : List TransactionDigest} {o : ObjectID} :
    o ∈ subgraphObjects txs digests ↔
      ∃ d ∈ digests, ∃ tx, txs d = some tx ∧ o ∈ tx.sharedObjectIds := by
  simp only [subgraphObjects, List.mem_flatMap]
  refine exists_congr fun d => and_congr_right fun _ => ?_
  cases txs d with
  | none => simp
  | some tx => simp

/-! ## Loads -/

def totalLoad (s : PreConsensusSchedTask) : ℕ :=
  ∑ p ∈ Finset.range s.numProxies, s.proxyLoads p

/-- What a batch adds to the loads. -/
noncomputable def batchWeight (transactions : List (RemoraTransaction τ)) : ℕ :=
  ∑ c ∈ largeClasses transactions, addedWeight transactions c

theorem load_le_totalLoad {p : ProxyId} (hp : p < s.numProxies) :
    s.proxyLoads p ≤ s.totalLoad :=
  Finset.single_le_sum (fun _ _ => Nat.zero_le _) (Finset.mem_range.mpr hp)

/-- Where overflows are checked, the weight of a batch is added to the loads. -/
theorem totalLoad_of_adds {transactions : List (RemoraTransaction τ)} {f : Finset ℕ → ProxyId}
    (hb : b.overflowChecks = true) (hnum : s'.numProxies = s.numProxies)
    (hf : ∀ c ∈ largeClasses transactions, f c < s.numProxies)
    (h : ∀ p, b.Adds 64 (s.proxyLoads p)
      (∑ c ∈ largeClasses transactions with f c = p, addedWeight transactions c)
      (s'.proxyLoads p)) :
    s'.totalLoad = s.totalLoad + batchWeight transactions := by
  rw [totalLoad, hnum, Finset.sum_congr rfl fun p _ => (h p).eq_of_checked hb, batchWeight,
    ← Finset.sum_fiberwise_of_maps_to (fun c hc => Finset.mem_range.mpr (hf c hc)),
    Finset.sum_add_distrib, totalLoad]

/-! ## Batches -/

/-- All objects of the subgraph can be indexed. -/
def IndexableNodes (L : Collections) (graph : DiGraph)
    (txs : TransactionDigest → Option (RemoraTransaction τ)) (nodes : List ℕ) : Prop :=
  ∃ digests, subgraphDigests L graph nodes = some digests ∧
    ∀ o ∈ subgraphObjects txs digests, ¬ZeroPrefixed o

theorem isSome_assignSubgraphs (hlast : s.ProxiesInBounds) (subgraphs : List (List ℕ))
    (ties : ℕ → ℕ) :
    (assignSubgraphs L F graph txs subgraphs ties s).isSome ↔
      ∀ nodes ∈ subgraphs, IndexableNodes L graph txs nodes := by
  induction subgraphs generalizing ties s with
  | nil => simp [assignSubgraphs]
  | cons nodes subgraphs ih =>
    rw [List.forall_mem_cons]
    cases hdigests : subgraphDigests L graph nodes with
    | none => simp [assignSubgraphs, assignLargeSubgraphProxy, IndexableNodes, hdigests]
    | some digests =>
      have hnodes : IndexableNodes L graph txs nodes ↔
          (localityScores s.numProxies s.objectLastProxy (subgraphObjects txs digests)
            fun _ => 0).isSome := by
        rw [isSome_localityScores hlast]
        simp [IndexableNodes, hdigests]
      rw [hnodes]
      cases hscores : localityScores s.numProxies s.objectLastProxy (subgraphObjects txs digests)
          fun _ => 0 with
      | none => simp [assignSubgraphs, assignLargeSubgraphProxy, hdigests, hscores]
      | some locality =>
        let plan := insertPlan (bestProxy F s.numProxies locality s.proxyLoads (ties 0))
          digests s.preConsensusRoutingPlan
        have hrest := ih (s := { s with preConsensusRoutingPlan := plan }) hlast fun k =>
          ties (k + 1)
        rw [← hrest]
        simp [assignSubgraphs, assignLargeSubgraphProxy, hdigests, hscores, plan,
          Option.isSome_bind]

/-- The updates do not panic, and leave proxies that can be indexed. -/
theorem updateStates_spec (txs : TransactionDigest → Option (RemoraTransaction τ))
    {assignments : List Assignment} (hlast : s.ProxiesInBounds)
    (h : ∀ a ∈ assignments, a.proxyId < s.numProxies ∧ ∀ o ∈ a.objects, ¬ZeroPrefixed o)
    (hfit : b.overflowChecks = true → ∀ p < s.numProxies, s.proxyLoads p +
      (assignments.map fun a => if a.proxyId = p then a.weight txs else 0).sum < 2 ^ 64) :
    ∃ s', updateStates b txs assignments s = some s' ∧ s'.numProxies = s.numProxies ∧
      s'.ProxiesInBounds := by
  induction assignments generalizing s with
  | nil => exact ⟨s, rfl, rfl, hlast⟩
  | cons a assignments ih =>
    rw [List.forall_mem_cons] at h
    simp only [List.map_cons, List.sum_cons] at hfit
    obtain ⟨last, hrecord, hlast'⟩ := recordLastProxy_spec h.1.1 h.1.2 hlast
    have hself : b.overflowChecks = true →
        s.proxyLoads a.proxyId + a.weight txs < 2 ^ 64 := fun hb => by
      have := hfit hb a.proxyId h.1.1
      rw [if_pos rfl] at this
      omega
    obtain ⟨load, hload⟩ := Option.isSome_iff_exists.mp ((b.isSome_unsigned _ _).mpr hself)
    let s₁ := { s with
      proxyLoads := update s.proxyLoads a.proxyId load
      objectLastProxy := last }
    obtain ⟨s', hs', hnum, hbounds⟩ := ih (s := s₁) hlast' h.2 fun hb p hp => by
      have hexact := (Build.Adds.single hload).eq_of_checked hb
      have := hfit hb p hp
      rcases eq_or_ne a.proxyId p with rfl | hne
      · simp only [s₁, update_self, if_pos] at this ⊢
        omega
      · simpa [s₁, update_of_ne hne.symm, hne] using this
    refine ⟨s', ?_, hnum, hbounds⟩
    simp only [updateStates, updateStateForSds_eq, hload, hrecord, Option.bind_eq_bind,
      Option.bind_some, Option.map_some, if_pos h.1.1]
    exact hs'

theorem indexableNodes_iff {transactions : List (RemoraTransaction τ)} {nodes : List ℕ}
    (hlt : ∀ i ∈ nodes, i < transactions.length) :
    IndexableNodes L (buildDependencyGraph transactions).1 (txMap transactions) nodes ↔
      ∀ i ∈ nodes, ∀ tx, txMap transactions (digestAt transactions i) = some tx →
        ∀ o ∈ tx.sharedObjectIds, ¬ZeroPrefixed o := by
  obtain ⟨digests, heq, -, himage⟩ := subgraphDigests_eq_some (L := L) hlt
  have hmem : ∀ d, d ∈ digests ↔ ∃ i ∈ nodes, digestAt transactions i = d := by
    intro d
    rw [← List.mem_toFinset, himage]
    simp
  simp only [IndexableNodes, heq, Option.some.injEq, exists_eq_left', mem_subgraphObjects, hmem]
  constructor
  · intro h i hi tx htx o ho
    exact h o ⟨_, ⟨i, hi, rfl⟩, tx, htx, ho⟩
  · rintro h o ⟨_, ⟨i, hi, rfl⟩, tx, htx, ho⟩
    exact h i hi tx htx o ho

theorem indexable_iff {transactions : List (RemoraTransaction τ)}
    {subgraphs : List (List ℕ)} (henum : Enumerates transactions subgraphs) :
    (∀ nodes ∈ subgraphs, IndexableNodes L (buildDependencyGraph transactions).1
      (txMap transactions) nodes) ↔ Indexable transactions := by
  constructor
  · intro h c hc i hi
    obtain ⟨nodes, hnodes, rfl⟩ := List.mem_map.mp ((henum.mem_iff c).mpr hc)
    exact (indexableNodes_iff fun i hi => henum.lt_length hnodes hi).mp (h nodes hnodes) i
      (List.mem_toFinset.mp hi)
  · intro h nodes hnodes
    refine (indexableNodes_iff fun i hi => henum.lt_length hnodes hi).mpr fun i hi => ?_
    exact h nodes.toFinset ((henum.mem_iff _).mp (List.mem_map_of_mem hnodes)) i
      (List.mem_toFinset.mpr hi)

/-- The loads and the weight of the batch fit, if overflows are checked. -/
def BatchFits (b : Build) (transactions : List (RemoraTransaction τ)) (total : ℕ) : Prop :=
  b.overflowChecks = true → total + batchWeight transactions < 2 ^ 64

/-- A batch panics only at an object that is not indexable, or at loads that do not fit. -/
theorem indexable_of_isSome {transactions : List (RemoraTransaction τ)} {ties : ℕ → ℕ}
    (hdebug : b.overflowChecks = true → b.debugAssertions = true) (hn : 0 < s.numProxies)
    (hlast : s.ProxiesInBounds)
    (h : scheduleTransactionBatch b L F transactions ties s = some s') :
    Indexable transactions ∧ BatchFits b transactions s.totalLoad := by
  refine ⟨?_, fun hb => ?_⟩
  · obtain ⟨subgraphs, hfind, henum⟩ := largeSubgraphs_spec L.petgraph transactions
    simp only [scheduleTransactionBatch, hn.ne', if_false, applySdsPolicy, hfind,
      Option.bind_eq_bind, Option.bind_some, List.isEmpty_iff, Option.bind_eq_some_iff] at h
    obtain ⟨s₁, h, -⟩ := h
    refine (indexable_iff (L := L) henum).mp ?_
    split_ifs at h with hempty
    · simp [hempty]
    · rw [← isSome_assignSubgraphs (F := F) hlast _ ties]
      exact Option.isSome_of_isSome_bind (Option.isSome_of_eq_some h)
  · obtain ⟨subgraphs, assignments, f, henum, hforall, hnum, -, hadds, hlog⟩ := exists_proxies hn h
    have htotal := totalLoad_of_adds hb hnum (fun c hc => proxy_lt henum hforall hn hc) hadds
    exact htotal ▸ (logLoads_eq_some.mp hlog).2 (hdebug hb) hb

theorem scheduleTransactionBatch_of_indexable {transactions : List (RemoraTransaction τ)}
    (hn : 0 < s.numProxies) (hlast : s.ProxiesInBounds) (h : Indexable transactions)
    (hfit : BatchFits b transactions s.totalLoad) (ties : ℕ → ℕ) :
    ∃ s', scheduleTransactionBatch b L F transactions ties s = some s' ∧
      s'.numProxies = s.numProxies ∧ s'.ProxiesInBounds := by
  obtain ⟨subgraphs, hfind, henum⟩ := largeSubgraphs_spec L.petgraph transactions
  have hsome : ∀ nodes ∈ largeSubgraphs subgraphs, IndexableNodes L
      (buildDependencyGraph transactions).1 (txMap transactions) nodes :=
    (indexable_iff henum).mpr h
  rw [← isSome_assignSubgraphs (F := F) hlast _ ties] at hsome
  simp only [scheduleTransactionBatch, hn.ne', if_false, applySdsPolicy, hfind, Option.bind_eq_bind,
    Option.bind_some, List.isEmpty_iff]
  split_ifs with hempty
  · refine ⟨s, logLoads_eq_some.mpr ⟨rfl, fun _ hb => ?_⟩, rfl, hlast⟩
    exact (Nat.le_add_right _ _).trans_lt (hfit hb)
  obtain ⟨⟨assignments, s₁⟩, hassign⟩ := Option.isSome_iff_exists.mp hsome
  obtain ⟨hforall, rfl⟩ := assignSubgraphs_eq_some hassign
  have hobjects : ∀ a ∈ assignments, a.proxyId < s.numProxies ∧
      ∀ o ∈ a.objects, ¬ZeroPrefixed o := by
    intro a ha
    obtain ⟨nodes, hnodes, hassigned⟩ := exists_left_of_forall₂ hforall ha
    obtain ⟨digests, hdigests, hobjects⟩ := (indexable_iff (L := L) henum).mpr h nodes hnodes
    obtain rfl := Option.some.inj (hdigests.symm.trans hassigned.digests)
    exact ⟨hassigned.lt hn, fun o ho => hobjects o (hassigned.objects ▸ ho)⟩
  obtain ⟨f, hforall⟩ := exists_of_forall₂ Assignment.proxyId hforall henum.nodup_map
  obtain ⟨s', hupdate, hnum, hbounds⟩ := updateStates_spec (b := b) (txMap transactions)
    (s := { s with preConsensusRoutingPlan := planAll assignments s.preConsensusRoutingPlan })
    hlast hobjects fun hb p hp => by
      have hload := load_le_totalLoad hp
      have hsum : ∑ c ∈ largeClasses transactions with f c = p, addedWeight transactions c ≤
          batchWeight transactions := Finset.sum_le_sum_of_subset (Finset.filter_subset _ _)
      have := hfit hb
      rw [sum_assignments henum hforall]
      exact (Nat.add_le_add hload hsum).trans_lt this
  have hhandle : handleLargeSubgraphs b L F (buildDependencyGraph transactions).1
      (txMap transactions) (largeSubgraphs subgraphs) ties s = some s' := by
    simpa [handleLargeSubgraphs, hassign] using hupdate
  refine ⟨s', ?_, hnum, hbounds⟩
  rw [hhandle, Option.bind_some]
  refine logLoads_eq_some.mpr ⟨rfl, fun _ hb => ?_⟩
  have htotal : s'.totalLoad = s.totalLoad + batchWeight transactions :=
    totalLoad_of_adds hb hnum (fun c hc => proxy_lt henum hforall hn hc) fun p => by
      rw [← sum_assignments henum hforall]
      exact (updateStates_eq_some hupdate).2.2 p
  rw [← totalLoad, htotal]
  exact hfit hb

/-- What is left of the state after a batch. -/
theorem scheduleTransactionBatch_spec {transactions : List (RemoraTransaction τ)} {ties : ℕ → ℕ}
    (hdebug : b.overflowChecks = true → b.debugAssertions = true) (hn : 0 < s.numProxies)
    (hlast : s.ProxiesInBounds)
    (h : scheduleTransactionBatch b L F transactions ties s = some s') :
    s'.numProxies = s.numProxies ∧ s'.ProxiesInBounds ∧
      (b.overflowChecks = true → s'.totalLoad = s.totalLoad + batchWeight transactions) := by
  obtain ⟨hindexable, hfit⟩ := indexable_of_isSome hdebug hn hlast h
  obtain ⟨s'', hs'', hnum, hbounds⟩ := scheduleTransactionBatch_of_indexable (L := L) (F := F)
    hn hlast hindexable hfit ties
  obtain rfl := Option.some.inj (h.symm.trans hs'')
  obtain ⟨subgraphs, assignments, f, henum, hforall, -, -, hadds, -⟩ := exists_proxies hn h
  exact ⟨hnum, hbounds, fun hb =>
    totalLoad_of_adds hb hnum (fun c hc => proxy_lt henum hforall hn hc) hadds⟩

/-! ## Sequences of batches -/

variable (b L F)

/-- What the scheduler is given, and what other threads do. -/
inductive SchedulerEvent (τ : Type)
  /-- A batch, and the random numbers drawn for it. -/
  | batch (transactions : List (RemoraTransaction τ)) (ties : ℕ → ℕ)
  /-- Other threads change the plan and the loads. -/
  | shared (plan : TransactionDigest → Option ProxyId) (loads : ProxyId → ℕ)

/-- The scheduler. It is stuck when it has panicked. -/
def scheduler (n : ℕ) : System PreConsensusSchedTask (SchedulerEvent τ) where
  init s := ∃ plan loads, s = new n plan loads
  step s
    | .batch transactions ties => scheduleTransactionBatch b L F transactions ties s
    | .shared plan loads => some { s with
        preConsensusRoutingPlan := plan
        proxyLoads := loads }

variable {b L F}

/-- The weights of the batches fit beside the loads, of which `total` is the sum until another
thread changes them. -/
def LoadsFit (n : ℕ) : ℕ → List (SchedulerEvent τ) → Prop
  | _, [] => True
  | total, .batch transactions _ :: events =>
    total + batchWeight transactions < 2 ^ 64 ∧ LoadsFit n (total + batchWeight transactions) events
  | _, .shared _ loads :: events => LoadsFit n (∑ p ∈ Finset.range n, loads p) events

theorem isSome_run (hdebug : b.overflowChecks = true → b.debugAssertions = true)
    (hn : 0 < s.numProxies) (hlast : s.ProxiesInBounds) (events : List (SchedulerEvent τ)) :
    ((scheduler b L F s.numProxies).run s events).isSome ↔
      (∀ transactions ties, .batch transactions ties ∈ events → Indexable transactions) ∧
      (b.overflowChecks = true → LoadsFit s.numProxies s.totalLoad events) := by
  induction events generalizing s with
  | nil => simp [System.run, LoadsFit]
  | cons e events ih =>
    rw [System.run]
    cases e with
    | batch transactions ties =>
      have hbatch : (∀ t ts, .batch t ts ∈ SchedulerEvent.batch transactions ties :: events →
          Indexable t) ↔ Indexable transactions ∧ ∀ t ts, .batch t ts ∈ events → Indexable t := by
        simp only [List.mem_cons, SchedulerEvent.batch.injEq]
        exact ⟨fun h => ⟨h _ _ (Or.inl ⟨rfl, rfl⟩), fun t ts hmem => h t ts (Or.inr hmem)⟩,
          fun h t ts => Or.rec (fun heq => heq.1 ▸ h.1) (h.2 t ts)⟩
      rw [hbatch]
      change ((scheduleTransactionBatch b L F transactions ties s).bind _).isSome ↔ _
      cases hs' : scheduleTransactionBatch b L F transactions ties s with
      | none =>
        refine iff_of_false (by simp) fun h => ?_
        obtain ⟨s', heq, -⟩ := scheduleTransactionBatch_of_indexable (L := L) (F := F) hn hlast
          h.1.1 (fun hb => (h.2 hb).1) ties
        simp [hs'] at heq
      | some s' =>
        obtain ⟨hindexable, hfit⟩ := indexable_of_isSome hdebug hn hlast hs'
        obtain ⟨hnum, hbounds, htotal⟩ := scheduleTransactionBatch_spec hdebug hn hlast hs'
        have hrest := ih (hnum ▸ hn) hbounds
        rw [hnum] at hrest
        refine hrest.trans (and_congr (and_iff_right hindexable).symm
          (imp_congr_right fun hb => ?_))
        rw [htotal hb]
        exact (and_iff_right (hfit hb)).symm
    | shared plan loads =>
      have hrest := ih (s := { s with
        preConsensusRoutingPlan := plan
        proxyLoads := loads }) hn hlast
      refine hrest.trans (and_congr (forall₂_congr fun t ts => imp_congr_left ?_) Iff.rfl)
      simp

/-- The scheduler never panics, if and only if all batches are indexable and, where overflows are
checked, the loads fit. -/
theorem scheduler_indexing_iff (hdebug : b.overflowChecks = true → b.debugAssertions = true)
    {n : ℕ} (hn : 0 < n) (plan : TransactionDigest → Option ProxyId) (loads : ProxyId → ℕ)
    (events : List (SchedulerEvent τ)) :
    ((scheduler b L F n).run (new n plan loads) events).isSome ↔
      (∀ transactions ties, .batch transactions ties ∈ events → Indexable transactions) ∧
      (b.overflowChecks = true → LoadsFit n (∑ p ∈ Finset.range n, loads p) events) :=
  isSome_run hdebug (s := new n plan loads) hn (fun _ _ h => by simp [new] at h) events

def twoBatches : List (SchedulerEvent Unit) :=
  [.batch threeTransactions id, .batch threeTransactions id]

/-- Two batches are scheduled in a build that checks everything. -/
theorem isSome_run_twoBatches :
    ((scheduler ⟨true, true⟩ collections ℚ 2).run (new 2 (fun _ => none) fun _ => 0)
      twoBatches).isSome ∧
      Indexable threeTransactions ∧ LoadsFit 2 (∑ _p ∈ Finset.range 2, 0) twoBatches := by
  have hrun : ((scheduler ⟨true, true⟩ collections ℚ 2).run (new 2 (fun _ => none) fun _ => 0)
      twoBatches).isSome := by decide +kernel
  obtain ⟨hindexable, hfit⟩ :=
    (scheduler_indexing_iff (fun _ => rfl) Nat.two_pos _ _ _).mp hrun
  exact ⟨hrun, hindexable _ _ List.mem_cons_self, hfit rfl⟩

/-- Two transactions on the object whose identifier is all 0. -/
def zeroObjectBatch : List (RemoraTransaction Unit) :=
  [.new () 10 [.sharedMoveObject 0] 0 5, .new () 11 [.sharedMoveObject 0] 0 7]

/-- The scheduler panics at its first batch. -/
theorem isNone_run_zeroObjectBatch :
    ((scheduler ⟨false, false⟩ collections ℚ 1).run (new 1 (fun _ => none) fun _ => 0)
      [.batch zeroObjectBatch id]).isNone := by
  decide +kernel

end PreConsensusSchedTask

end Remora
