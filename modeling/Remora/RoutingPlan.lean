import Remora.ConflictClasses
import Mathlib.Algebra.Field.Rat
import Mathlib.Algebra.Order.Ring.Rat
import Mathlib.Data.List.GetD

/-!
# The routing plan of a batch

What `schedule_transaction_batch` does to the plan and the loads when it returns
(`exists_proxies`). Whatever the scores are, the proxy chosen for a subgraph is one of the proxies,
and the assignments are one for each class with at least two members.

If the transactions have distinct digests, no assignment overwrites the plan of another, and the
weight of an assignment is the sum of the durations of its class. So every class with at least two
members is planned as a whole, its weight is added to the load of its proxy, and nothing else
changes (`routing_plan_of_batch`). A load that does not fit a `usize` wraps or is a panic
(`load_wraps`).
-/

namespace Remora

open Function

variable {τ : Type}

namespace PreConsensusSchedTask

variable {b : Build} {L : Collections} {F : Type} [Zero F] [One F] [NatCast F] [Add F] [Sub F]
  [Neg F] [Mul F] [Div F] [Max F] [OfScientific F] [LT F] [DecidableLT F]
  {s s' : PreConsensusSchedTask}
  {graph : DiGraph} {txs : TransactionDigest → Option (RemoraTransaction τ)}

/-! ## Choosing proxies -/

section Scores

variable {n : ℕ} {locality loads : ProxyId → ℕ} {tie : ℕ} {p : ProxyId}

theorem mem_bestCandidates (h : p ∈ bestCandidates F n locality loads) : p < n :=
  List.mem_range.mp (List.mem_filter.mp h).1

theorem bestProxy_mem (h : bestCandidates F n locality loads ≠ []) :
    bestProxy F n locality loads tie ∈ bestCandidates F n locality loads := by
  have hlt := Nat.mod_lt tie (List.length_pos_iff.mpr h)
  simp only [bestProxy, List.isEmpty_iff, h, if_false]
  rw [List.getD_eq_getElem _ _ hlt]
  exact List.getElem_mem hlt

/-- One of the proxies is chosen, whatever the scores are. -/
theorem bestProxy_lt (hn : 0 < n) : bestProxy F n locality loads tie < n := by
  by_cases h : bestCandidates F n locality loads = []
  · simpa [bestProxy, h] using hn
  · exact mem_bestCandidates (bestProxy_mem h)

/-- Only the loads of the proxies count. -/
theorem bestProxy_congr {loads' : ProxyId → ℕ} (h : ∀ p < n, loads p = loads' p) :
    bestProxy F n locality loads tie = bestProxy F n locality loads' tie := by
  have hmax : maxScore n loads = maxScore n loads' := by
    rw [maxScore, List.map_congr_left fun p hp => h p (List.mem_range.mp hp), ← maxScore]
  have hscore : ∀ p ∈ List.range n,
      combinedScore F n locality loads p = combinedScore F n locality loads' p := fun p hp => by
    simp only [combinedScore, hmax, h p (List.mem_range.mp hp)]
  have hbest : maxCombinedScore F n locality loads = maxCombinedScore F n locality loads' :=
    List.foldl_ext _ _ _ fun acc p hp => by rw [hscore p hp]
  have hcandidates : bestCandidates F n locality loads = bestCandidates F n locality loads' :=
    List.filter_congr fun p hp => by rw [hbest, hscore p hp]
  simp only [bestProxy, hcandidates]

end Scores

/-- `a` is the assignment of the subgraph `nodes`, by one of the random numbers. -/
structure Assigned (L : Collections) (F : Type) [Zero F] [One F] [NatCast F] [Add F] [Sub F]
    [Neg F] [Mul F] [Div F] [Max F] [OfScientific F] [LT F] [DecidableLT F] (graph : DiGraph)
    (txs : TransactionDigest → Option (RemoraTransaction τ)) (s : PreConsensusSchedTask)
    (ties : ℕ → ℕ) (nodes : List ℕ) (a : Assignment) : Prop where
  digests : subgraphDigests L graph nodes = some a.digests
  objects : a.objects = subgraphObjects txs a.digests
  proxyId : ∃ locality k,
    localityScores s.numProxies s.objectLastProxy a.objects (fun _ => 0) = some locality ∧
    a.proxyId = bestProxy F s.numProxies locality s.proxyLoads (ties k)

theorem Assigned.lt {ties : ℕ → ℕ} {nodes : List ℕ} {a : Assignment} (hn : 0 < s.numProxies)
    (h : Assigned L F graph txs s ties nodes a) : a.proxyId < s.numProxies := by
  obtain ⟨locality, k, -, hp⟩ := h.proxyId
  exact hp ▸ bestProxy_lt hn

/-- The plan with all assignments entered. -/
def planAll (assignments : List Assignment) (plan : TransactionDigest → Option ProxyId) :
    TransactionDigest → Option ProxyId :=
  assignments.foldl (fun plan a => insertPlan a.proxyId a.digests plan) plan

theorem assignSubgraphs_eq_some {subgraphs : List (List ℕ)} {ties : ℕ → ℕ}
    {assignments : List Assignment}
    (h : assignSubgraphs L F graph txs subgraphs ties s = some (assignments, s')) :
    List.Forall₂ (Assigned L F graph txs s ties) subgraphs assignments ∧
      s' = { s with
        preConsensusRoutingPlan := planAll assignments s.preConsensusRoutingPlan } := by
  induction subgraphs generalizing ties s assignments with
  | nil =>
    obtain ⟨rfl, rfl⟩ := Prod.mk.inj (Option.some.inj h)
    exact ⟨List.Forall₂.nil, rfl⟩
  | cons nodes subgraphs ih =>
    simp only [assignSubgraphs, assignLargeSubgraphProxy, Option.bind_eq_bind,
      Option.bind_eq_some_iff, Option.some.injEq, Prod.exists, Prod.mk.injEq] at h
    obtain ⟨a, s₁, ⟨digests, hdigests, locality, hlocality, rfl, rfl⟩, as, s₂, hrest, rfl, rfl⟩ := h
    obtain ⟨hforall, hs⟩ := ih hrest
    refine ⟨List.Forall₂.cons ⟨hdigests, rfl, locality, 0, hlocality, rfl⟩
      (hforall.imp fun nodes a ha => ⟨ha.digests, ha.objects, ?_⟩), hs⟩
    obtain ⟨locality, k, hlocality, hproxy⟩ := ha.proxyId
    exact ⟨locality, k + 1, hlocality, hproxy⟩

/-- What the assignment adds to the load of its proxy. -/
def Assignment.weight (txs : TransactionDigest → Option (RemoraTransaction τ))
    (a : Assignment) : ℕ :=
  ((durations txs a.digests).map asUsize).sum

/-- The weight is added at once. -/
theorem updateStateForSds_eq (a : Assignment) :
    updateStateForSds b txs a s =
      (b.unsigned 64 (s.proxyLoads a.proxyId + a.weight txs)).bind fun load =>
        (recordLastProxy a.proxyId a.objects s.objectLastProxy).map fun objectLastProxy =>
          { s with
            proxyLoads := update s.proxyLoads a.proxyId load
            objectLastProxy := objectLastProxy } := by
  rw [Nat.add_comm, ← Build.bind_unsigned, Option.bind_assoc, updateStateForSds, totalWeight,
    Build.sum_eq, ← Assignment.weight]
  simp only [Option.bind_eq_bind, Nat.add_comm, Option.map_eq_bind]
  rfl

theorem updateStates_eq_some {assignments : List Assignment}
    (h : updateStates b txs assignments s = some s') :
    s'.numProxies = s.numProxies ∧ s'.preConsensusRoutingPlan = s.preConsensusRoutingPlan ∧
      ∀ p, b.Adds 64 (s.proxyLoads p)
        (assignments.map fun a => if a.proxyId = p then a.weight txs else 0).sum
        (s'.proxyLoads p) := by
  induction assignments generalizing s with
  | nil =>
    obtain rfl := Option.some.inj h
    exact ⟨rfl, rfl, fun p => .refl 64 _⟩
  | cons a assignments ih =>
    simp only [updateStates, updateStateForSds_eq, Option.bind_eq_bind, Option.bind_eq_some_iff,
      Option.map_eq_some_iff, Option.ite_none_right_eq_some] at h
    obtain ⟨s₁, ⟨load, hload, last, -, rfl⟩, -, hrest⟩ := h
    obtain ⟨hn, hplan, hloads⟩ := ih hrest
    refine ⟨hn, hplan, fun p => ?_⟩
    rw [List.map_cons, List.sum_cons]
    refine Build.Adds.trans ?_ (hloads p)
    rcases eq_or_ne a.proxyId p with rfl | hne
    · simpa using Build.Adds.single hload
    · simpa [hne, hne.symm] using Build.Adds.refl 64 (s.proxyLoads p)

theorem sum_loads (s : PreConsensusSchedTask) :
    ((List.range s.numProxies).map s.proxyLoads).sum =
      ∑ p ∈ Finset.range s.numProxies, s.proxyLoads p :=
  rfl

/-- The loads are only added up. -/
theorem logLoads_eq_some : logLoads b s = some s' ↔ s = s' ∧
    (b.debugAssertions = true → b.overflowChecks = true →
      ∑ p ∈ Finset.range s.numProxies, s.proxyLoads p < 2 ^ 64) := by
  rw [logLoads, Build.sum_eq, sum_loads]
  split_ifs with hdebug
  · have hfit := b.isSome_unsigned 64 (∑ p ∈ Finset.range s.numProxies, s.proxyLoads p)
    rw [← hfit, Option.map_eq_some_iff, Option.isSome_iff_exists]
    simp [hdebug, and_comm]
  · simp [hdebug]

/-- What a batch does. -/
theorem scheduleTransactionBatch_eq_some {transactions : List (RemoraTransaction τ)}
    {ties : ℕ → ℕ} (hn : 0 < s.numProxies)
    (h : scheduleTransactionBatch b L F transactions ties s = some s') :
    ∃ subgraphs assignments, Enumerates transactions subgraphs ∧
      List.Forall₂ (Assigned L F (buildDependencyGraph transactions).1 (txMap transactions) s ties)
        subgraphs assignments ∧
      s'.numProxies = s.numProxies ∧
      s'.preConsensusRoutingPlan = planAll assignments s.preConsensusRoutingPlan ∧
      (∀ p, b.Adds 64 (s.proxyLoads p) (assignments.map fun a =>
        if a.proxyId = p then a.weight (txMap transactions) else 0).sum (s'.proxyLoads p)) ∧
      logLoads b s' = some s' := by
  obtain ⟨subgraphs, hfind, henum⟩ := largeSubgraphs_spec L.petgraph transactions
  simp only [scheduleTransactionBatch, hn.ne', if_false, applySdsPolicy, hfind, Option.bind_eq_bind,
    Option.bind_some, List.isEmpty_iff, Option.bind_eq_some_iff] at h
  obtain ⟨s₂, h, hlog⟩ := h
  obtain rfl := (logLoads_eq_some.mp hlog).1
  split_ifs at h with hempty
  · obtain rfl := Option.some.inj h
    refine ⟨_, [], henum, by rw [hempty]; exact List.Forall₂.nil, rfl, rfl, fun p => ?_, hlog⟩
    exact .refl 64 _
  · simp only [handleLargeSubgraphs, Option.bind_eq_bind, Option.bind_eq_some_iff,
      Prod.exists] at h
    obtain ⟨assignments, s₁, hassign, hupdate⟩ := h
    obtain ⟨hforall, rfl⟩ := assignSubgraphs_eq_some hassign
    obtain ⟨hnum, hplan, hloads⟩ := updateStates_eq_some hupdate
    exact ⟨_, assignments, henum, hforall, hnum, hplan, hloads, hlog⟩

/-! ## Distinct digests -/

theorem insertPlan_apply (p : ProxyId) (digests : List TransactionDigest)
    (plan : TransactionDigest → Option ProxyId) (d : TransactionDigest) :
    insertPlan p digests plan d = if d ∈ digests then some p else plan d := by
  induction digests generalizing plan with
  | nil => rfl
  | cons e digests ih =>
    rw [insertPlan, List.foldl_cons, ← insertPlan, ih]
    rcases eq_or_ne d e with rfl | hne
    · simp
    · simp [hne]

/-- The digest of assignments that all have the proxy `p`, if any has the digest. -/
theorem planAll_apply {assignments : List Assignment} {plan : TransactionDigest → Option ProxyId}
    {d : TransactionDigest} {p : ProxyId}
    (h : ∀ a ∈ assignments, d ∈ a.digests → a.proxyId = p) :
    planAll assignments plan d =
      if ∃ a ∈ assignments, d ∈ a.digests then some p else plan d := by
  induction assignments generalizing plan with
  | nil => simp [planAll]
  | cons a assignments ih =>
    rw [List.forall_mem_cons] at h
    rw [planAll, List.foldl_cons, ← planAll, ih h.2, insertPlan_apply]
    simp only [List.exists_mem_cons_iff]
    by_cases hlater : ∃ a ∈ assignments, d ∈ a.digests
    · rw [if_pos hlater, if_pos (Or.inr hlater)]
    · rw [if_neg hlater]
      by_cases hmem : d ∈ a.digests
      · rw [if_pos hmem, if_pos (Or.inl hmem), h.1 hmem]
      · rw [if_neg hmem, if_neg (by simp [hmem, hlater])]

/-- A function of distinct keys that gives the values. -/
theorem exists_of_forall₂ {α β γ : Type} {R : α → β → Prop} {key : α → γ} (val : β → ℕ)
    {l : List α} {l' : List β} (h : List.Forall₂ R l l') (hl : (l.map key).Nodup) :
    ∃ f : γ → ℕ, List.Forall₂ (fun a b => R a b ∧ val b = f (key a)) l l' := by
  classical
  induction h with
  | nil => exact ⟨fun _ => 0, List.Forall₂.nil⟩
  | @cons a b l l' hab hll' ih =>
    obtain ⟨hnotMem, hl⟩ := List.nodup_cons.mp hl
    obtain ⟨f, hf⟩ := ih hl
    have hne : ∀ a' ∈ l, key a' ≠ key a := fun a' ha' heq =>
      hnotMem (heq ▸ List.mem_map_of_mem ha')
    refine ⟨update f (key a) (val b), List.Forall₂.cons ⟨hab, by simp⟩ ?_⟩
    refine ((List.forall₂_and_left l l').mpr ⟨hne, hf⟩).imp fun a' b' h => ?_
    exact ⟨h.2.1, by rw [h.2.2, update_of_ne h.1]⟩

theorem exists_left_of_forall₂ {α β : Type} {R : α → β → Prop} {l : List α} {l' : List β}
    (h : List.Forall₂ R l l') {b : β} (hb : b ∈ l') : ∃ a ∈ l, R a b := by
  induction h with
  | nil => simp at hb
  | cons hab _ ih =>
    rcases List.mem_cons.mp hb with rfl | hb
    · exact ⟨_, List.mem_cons_self, hab⟩
    · obtain ⟨a, ha, hr⟩ := ih hb
      exact ⟨a, List.mem_cons_of_mem _ ha, hr⟩

theorem exists_right_of_forall₂ {α β : Type} {R : α → β → Prop} {l : List α} {l' : List β}
    (h : List.Forall₂ R l l') {a : α} (ha : a ∈ l) : ∃ b ∈ l', R a b :=
  exists_left_of_forall₂ h.flip ha

section Batch

variable {transactions : List (RemoraTransaction τ)} {subgraphs : List (List ℕ)}
  {assignments : List Assignment} {ties : ℕ → ℕ} {f : Finset ℕ → ProxyId}

/-- `f` is the proxy of every class that the scheduler assigns. -/
def AssignedBy (L : Collections) (F : Type) [Zero F] [One F] [NatCast F] [Add F] [Sub F]
    [Neg F] [Mul F] [Div F] [Max F] [OfScientific F] [LT F] [DecidableLT F]
    (transactions : List (RemoraTransaction τ)) (s : PreConsensusSchedTask) (ties : ℕ → ℕ)
    (f : Finset ℕ → ProxyId) (nodes : List ℕ) (a : Assignment) : Prop :=
  Assigned L F (buildDependencyGraph transactions).1 (txMap transactions) s ties nodes a ∧
    a.proxyId = f nodes.toFinset

variable (henum : Enumerates transactions subgraphs)
  (hforall : List.Forall₂ (AssignedBy L F transactions s ties f) subgraphs assignments)
include henum hforall

/-- The weight of a class goes to its proxy. -/
theorem sum_assignments (p : ProxyId) :
    (assignments.map fun a => if a.proxyId = p then a.weight (txMap transactions) else 0).sum =
      ∑ c ∈ largeClasses transactions with f c = p, addedWeight transactions c := by
  have hmap : (assignments.map fun a =>
        if a.proxyId = p then a.weight (txMap transactions) else 0) =
      subgraphs.map fun c =>
        if f c.toFinset = p then addedWeight transactions c.toFinset else 0 := by
    have hlt : ∀ c ∈ subgraphs, ∀ i ∈ c, i < transactions.length := fun c hc i hi =>
      henum.lt_length hc hi
    clear henum
    induction hforall with
    | nil => rfl
    | cons h _ ih =>
      rw [List.forall_mem_cons] at hlt
      rw [List.map_cons, List.map_cons, ih hlt.2, h.2, Assignment.weight,
        sum_durations hlt.1 h.1.digests]
  rw [hmap, henum.sum_map fun c => if f c = p then addedWeight transactions c else 0,
    Finset.sum_filter]

theorem exists_mem_digests_iff {d : TransactionDigest} {p : ProxyId} :
    (∃ a ∈ assignments, a.proxyId = p ∧ d ∈ a.digests) ↔
      ∃ c ∈ largeClasses transactions, f c = p ∧ ∃ i ∈ c, digestAt transactions i = d := by
  have hdigests : ∀ nodes a, nodes ∈ subgraphs → AssignedBy L F transactions s ties f nodes a →
      (d ∈ a.digests ↔ ∃ i ∈ nodes.toFinset, digestAt transactions i = d) := by
    intro nodes a hnodes ha
    obtain ⟨digests, heq, -, himage⟩ :=
      subgraphDigests_eq_some (L := L) fun i hi => henum.lt_length hnodes hi
    obtain rfl := Option.some.inj (heq.symm.trans ha.1.digests)
    rw [← List.mem_toFinset, himage, Finset.mem_image]
  constructor
  · rintro ⟨a, ha, rfl, hd⟩
    obtain ⟨nodes, hnodes, hassigned⟩ := exists_left_of_forall₂ hforall ha
    exact ⟨_, (henum.mem_iff _).mp (List.mem_map_of_mem hnodes), hassigned.2.symm,
      (hdigests nodes a hnodes hassigned).mp hd⟩
  · rintro ⟨c, hc, rfl, hd⟩
    obtain ⟨nodes, hnodes, rfl⟩ := List.mem_map.mp ((henum.mem_iff c).mpr hc)
    obtain ⟨a, ha, hassigned⟩ := exists_right_of_forall₂ hforall hnodes
    exact ⟨a, ha, hassigned.2, (hdigests nodes a hnodes hassigned).mpr hd⟩

/-- What is planned for a digest that all its transactions have in classes of one proxy. -/
theorem planAll_classes {plan : TransactionDigest → Option ProxyId} {d : TransactionDigest}
    {p : ProxyId} (h : ∀ c ∈ largeClasses transactions, ∀ i ∈ c, digestAt transactions i = d →
      f c = p) :
    planAll assignments plan d = if ∃ c ∈ largeClasses transactions, ∃ i ∈ c,
      digestAt transactions i = d then some p else plan d := by
  rw [planAll_apply (p := p) fun a ha hd => ?_]
  · refine if_congr ?_ rfl rfl
    constructor
    · rintro ⟨a, ha, hd⟩
      obtain ⟨c, hc, -, hi⟩ := (exists_mem_digests_iff henum hforall).mp ⟨a, ha, rfl, hd⟩
      exact ⟨c, hc, hi⟩
    · rintro ⟨c, hc, hi⟩
      obtain ⟨a, ha, -, hd⟩ := (exists_mem_digests_iff henum hforall).mpr ⟨c, hc, rfl, hi⟩
      exact ⟨a, ha, hd⟩
  · obtain ⟨c, hc, hp, i, hi, heq⟩ := (exists_mem_digests_iff henum hforall).mp ⟨a, ha, rfl, hd⟩
    rw [← hp]
    exact h c hc i hi heq

/-- What is planned for a digest that no transaction of a class has. -/
theorem planAll_of_no_class {plan : TransactionDigest → Option ProxyId} {d : TransactionDigest}
    (hnone : ¬∃ c ∈ largeClasses transactions, ∃ i ∈ c, digestAt transactions i = d) :
    planAll assignments plan d = plan d := by
  rw [planAll_classes (p := 0) henum hforall fun c hc i hi heq => ?_, if_neg hnone]
  exact absurd ⟨c, hc, i, hi, heq⟩ hnone

theorem proxy_lt (hn : 0 < s.numProxies) {c : Finset ℕ} (hc : c ∈ largeClasses transactions) :
    f c < s.numProxies := by
  obtain ⟨nodes, hnodes, rfl⟩ := List.mem_map.mp ((henum.mem_iff c).mpr hc)
  obtain ⟨a, -, ha⟩ := exists_right_of_forall₂ hforall hnodes
  exact ha.2 ▸ ha.1.lt hn

end Batch

section LargeClasses

variable {transactions : List (RemoraTransaction τ)} {c : Finset ℕ} {i : ℕ}

theorem eq_of_mem_largeClasses (hc : c ∈ largeClasses transactions) (hi : i ∈ c) :
    i < transactions.length ∧ c = conflictClass transactions i :=
  eq_conflictClass_of_mem (mem_largeClasses.mp hc).1 hi

/-- Of distinct digests, the one of a transaction in a class is no other transaction's. -/
theorem digestAt_eq_of_mem_largeClasses
    (hd : (transactions.map RemoraTransaction.digest).Nodup)
    (hc : c ∈ largeClasses transactions) (hi : i ∈ c) {j : ℕ} (hj : j < transactions.length)
    (heq : digestAt transactions i = digestAt transactions j) : i = j :=
  digestAt_injOn hd (fun _ hk => Finset.mem_range.mp hk)
    (Finset.mem_coe.mpr (Finset.mem_range.mpr (eq_of_mem_largeClasses hc hi).1))
    (Finset.mem_coe.mpr (Finset.mem_range.mpr hj)) heq

theorem digestAt_mem_digests (hi : i < transactions.length) :
    digestAt transactions i ∈ transactions.map RemoraTransaction.digest :=
  List.mem_map.mpr ⟨transactions[i], List.getElem_mem hi, by
    simp [digestAt, List.getElem?_eq_getElem hi]⟩

end LargeClasses

/-- What a batch does, when `f` is the proxy of each class. -/
theorem exists_proxies {transactions : List (RemoraTransaction τ)} {ties : ℕ → ℕ}
    (hn : 0 < s.numProxies)
    (h : scheduleTransactionBatch b L F transactions ties s = some s') :
    ∃ subgraphs assignments f, Enumerates transactions subgraphs ∧
      List.Forall₂ (AssignedBy L F transactions s ties f) subgraphs assignments ∧
      s'.numProxies = s.numProxies ∧
      s'.preConsensusRoutingPlan = planAll assignments s.preConsensusRoutingPlan ∧
      (∀ p, b.Adds 64 (s.proxyLoads p)
        (∑ c ∈ largeClasses transactions with f c = p, addedWeight transactions c)
        (s'.proxyLoads p)) ∧
      logLoads b s' = some s' := by
  obtain ⟨subgraphs, assignments, henum, hforall, hnum, hplan, hloads, hlog⟩ :=
    scheduleTransactionBatch_eq_some hn h
  obtain ⟨f, hforall⟩ := exists_of_forall₂ Assignment.proxyId hforall henum.nodup_map
  refine ⟨subgraphs, assignments, f, henum, hforall, hnum, hplan, fun p => ?_, hlog⟩
  rw [← sum_assignments henum hforall]
  exact hloads p

/-- A load is exact if it fits. -/
theorem load_of_adds {transactions : List (RemoraTransaction τ)} {classes : Finset (Finset ℕ)}
    {load load' : ℕ} (h : b.Adds 64 load (∑ c ∈ classes, addedWeight transactions c) load')
    (hlt : load + ∑ c ∈ classes, plannedWeight transactions c < 2 ^ 64) :
    load' = load + ∑ c ∈ classes, plannedWeight transactions c := by
  rw [sum_addedWeight_of_lt (by omega)] at h
  exact h.eq_of_lt hlt

/-- The exact load of `p` after the batch. -/
noncomputable def loadAfter (transactions : List (RemoraTransaction τ)) (s : PreConsensusSchedTask)
    (proxyOf : Finset ℕ → ProxyId) (p : ProxyId) : ℕ :=
  s.proxyLoads p + ∑ c ∈ largeClasses transactions with proxyOf c = p, classWeight transactions c

/-- What a batch changes, when `proxyOf` is the proxy of each class. Loads are exact where they fit
a `usize`, and up to `2 ^ 64` everywhere. -/
structure RoutesBatch (transactions : List (RemoraTransaction τ)) (s s' : PreConsensusSchedTask)
    (proxyOf : Finset ℕ → ProxyId) : Prop where
  planned : ∀ c ∈ largeClasses transactions, proxyOf c < s.numProxies ∧
    ∀ i ∈ c, s'.preConsensusRoutingPlan (digestAt transactions i) = some (proxyOf c)
  alone : ∀ i < transactions.length, (conflictClass transactions i).card < 2 →
    s'.preConsensusRoutingPlan (digestAt transactions i) =
      s.preConsensusRoutingPlan (digestAt transactions i)
  others : ∀ d ∉ transactions.map RemoraTransaction.digest,
    s'.preConsensusRoutingPlan d = s.preConsensusRoutingPlan d
  loads : ∀ p, loadAfter transactions s proxyOf p < 2 ^ 64 →
    s'.proxyLoads p = loadAfter transactions s proxyOf p
  total : (∀ p < s.numProxies, loadAfter transactions s proxyOf p < 2 ^ 64) →
    ∑ p ∈ Finset.range s.numProxies, s'.proxyLoads p =
      ∑ p ∈ Finset.range s.numProxies, s.proxyLoads p +
        ∑ c ∈ largeClasses transactions, classWeight transactions c
  wrapped : ∀ p, s'.proxyLoads p % 2 ^ 64 = loadAfter transactions s proxyOf p % 2 ^ 64

/-- Every class with at least two members is planned for one proxy, to which its weight is added,
and nothing else changes. -/
theorem routing_plan_of_batch {transactions : List (RemoraTransaction τ)} {ties : ℕ → ℕ}
    (hd : (transactions.map RemoraTransaction.digest).Nodup) (hn : 0 < s.numProxies)
    (h : scheduleTransactionBatch b L F transactions ties s = some s') :
    ∃ proxyOf, RoutesBatch transactions s s' proxyOf := by
  obtain ⟨subgraphs, assignments, f, henum, hforall, -, hplan, hadds, -⟩ := exists_proxies hn h
  have hlt : ∀ c ∈ largeClasses transactions, f c < s.numProxies := fun c hc =>
    proxy_lt henum hforall hn hc
  have hexact : ∀ p, loadAfter transactions s f p = s.proxyLoads p +
      ∑ c ∈ largeClasses transactions with f c = p, plannedWeight transactions c := fun p =>
    congrArg _ <| Finset.sum_congr rfl fun c hc => (plannedWeight_of_distinct hd fun i hi =>
      (eq_of_mem_largeClasses (Finset.mem_filter.mp hc).1 hi).1).symm
  have hloads : ∀ p, loadAfter transactions s f p < 2 ^ 64 →
      s'.proxyLoads p = loadAfter transactions s f p := by
    intro p hp
    rw [hexact] at hp ⊢
    exact load_of_adds (hadds p) hp
  refine ⟨f, ⟨fun c hc => ⟨hlt c hc, fun i hi => ?_⟩, fun j hj hcard => ?_, fun d hnotMem => ?_,
    hloads, fun hfit => ?_, fun p => ?_⟩⟩
  · obtain ⟨hilt, hclass⟩ := eq_of_mem_largeClasses hc hi
    rw [hplan, planAll_classes (p := f c) henum hforall fun c' hc' i' hi' heq => ?_,
      if_pos ⟨c, hc, i, hi, rfl⟩]
    obtain rfl := digestAt_eq_of_mem_largeClasses hd hc' hi' hilt heq
    rw [hclass, (eq_of_mem_largeClasses hc' hi').2]
  · rw [hplan, planAll_of_no_class henum hforall]
    rintro ⟨c, hc, i, hi, heq⟩
    obtain rfl := digestAt_eq_of_mem_largeClasses hd hc hi hj heq
    have hlarge := (mem_largeClasses.mp hc).2
    rw [(eq_of_mem_largeClasses hc hi).2] at hlarge
    omega
  · rw [hplan, planAll_of_no_class henum hforall]
    rintro ⟨c, hc, i, hi, rfl⟩
    exact hnotMem (digestAt_mem_digests (eq_of_mem_largeClasses hc hi).1)
  · rw [Finset.sum_congr rfl fun p hp => hloads p (hfit p (Finset.mem_range.mp hp)),
      ← Finset.sum_fiberwise_of_maps_to (fun c hc => Finset.mem_range.mpr (hlt c hc)),
      ← Finset.sum_add_distrib]
    rfl
  · rw [(hadds p).mod_eq, hexact, Nat.add_mod, sum_addedWeight_mod, ← Nat.add_mod]

/-- The first and the last transaction have an object in common, the second one is alone. -/
def threeTransactions : List (RemoraTransaction Unit) :=
  [.new () 10 [.sharedMoveObject (256 ^ 31)] 0 5, .new () 11 [.sharedMoveObject (2 * 256 ^ 31)] 0 1,
    .new () 12 [.sharedMoveObject (256 ^ 31)] 0 7]

theorem routing_plan_of_three_transactions :
    ∃ s' proxyOf, scheduleTransactionBatch ⟨true, true⟩ collections ℚ threeTransactions id
        (new 2 (fun _ => none) fun _ => 0) = some s' ∧
      RoutesBatch threeTransactions (new 2 (fun _ => none) fun _ => 0) s' proxyOf := by
  obtain ⟨s', h⟩ := Option.isSome_iff_exists.mp (by decide +kernel :
    (scheduleTransactionBatch ⟨true, true⟩ collections ℚ threeTransactions id
      (new 2 (fun _ => none) fun _ => 0)).isSome)
  obtain ⟨proxyOf, hroutes⟩ := routing_plan_of_batch (by decide) (by decide) h
  exact ⟨s', proxyOf, h, hroutes⟩

/-- In a release build, 12 microseconds more than the largest `usize` are 11. -/
theorem load_wraps :
    (threeTransactions.map RemoraTransaction.digest).Nodup ∧
    ∃ s', scheduleTransactionBatch ⟨false, false⟩ collections ℚ threeTransactions id
        (new 1 (fun _ => none) fun _ => 2 ^ 64 - 1) = some s' ∧
      ∑ p ∈ Finset.range 1, s'.proxyLoads p ≠ ∑ _p ∈ Finset.range 1, (2 ^ 64 - 1) +
        ∑ c ∈ largeClasses threeTransactions, classWeight threeTransactions c := by
  have hload : (scheduleTransactionBatch ⟨false, false⟩ collections ℚ threeTransactions id
      (new 1 (fun _ => none) fun _ => 2 ^ 64 - 1)).map (fun s => s.proxyLoads 0) = some 11 := by
    decide +kernel
  obtain ⟨s', hs', hload⟩ := Option.map_eq_some_iff.mp hload
  refine ⟨by decide, s', hs', ?_⟩
  rw [Finset.sum_range_one, Finset.sum_range_one, hload]
  omega

end PreConsensusSchedTask

end Remora
