import Remora.SchedulerIndexing
import Mathlib.Algebra.Order.BigOperators.Group.Finset
import Mathlib.Algebra.Order.Field.Basic
import Mathlib.Data.Finset.Lattice.Prod
import Mathlib.Data.Finset.Max
import Mathlib.Order.Lattice.Nat
import Mathlib.Tactic.FieldSimp
import Mathlib.Tactic.Linarith
import Mathlib.Tactic.NormNum
import Mathlib.Tactic.Ring

/-!
# Load balance after a batch

All large subgraphs of a batch are scored against the loads from before the batch : the weights
are added after the last one has its proxy. When no object has been placed before and scores are
exact, a proxy is a candidate for every one of them, if its load is within a tiny fraction of the
largest load from the smallest one (`mem_bestCandidates_iff`). Chance decides for each subgraph
anew, so that all of them may get the same proxy.

If classes were placed one after the other on a proxy with the smallest load, the loads would
differ by at most what they did before, or else by the weight of one class. The scheduler keeps
this bound, whatever chance decides, if and only if any candidate can take all classes at once
(`batch_balance_iff`). All this is about loads that cannot wrap, whichever proxy gets the classes.
-/

namespace Remora

/-! ## Spread -/

/-- The largest difference between the loads of two of `n` proxies. -/
def spread (n : ℕ) (loads : ProxyId → ℕ) : ℕ :=
  (Finset.range n ×ˢ Finset.range n).sup fun e => loads e.1 - loads e.2

section Spread

variable {n b : ℕ} {loads : ProxyId → ℕ} {p q : ProxyId}

theorem spread_le_iff :
    spread n loads ≤ b ↔ ∀ p < n, ∀ q < n, loads p ≤ loads q + b := by
  simp only [spread, Finset.sup_le_iff, Finset.mem_product, Finset.mem_range, Prod.forall,
    Nat.sub_le_iff_le_add']
  exact ⟨fun h p hp q hq => h p q ⟨hp, hq⟩, fun h p q hpq => h p hpq.1 q hpq.2⟩

variable {ι : Type} {classes : Finset ι} {weight : ι → ℕ} {f : ι → ProxyId} {loads' : ProxyId → ℕ}

/-- The weight of every class is added to the load of its proxy. -/
def Placed (n : ℕ) (classes : Finset ι) (weight : ι → ℕ) (f : ι → ProxyId)
    (loads loads' : ProxyId → ℕ) : Prop :=
  ∀ p < n, loads' p = loads p + ∑ c ∈ classes with f c = p, weight c

/-- The bound holds after a placement, if all classes fit on any of the proxies used. -/
theorem Placed.spread_le (h : Placed n classes weight f loads loads') (hb : spread n loads ≤ b)
    (hfit : ∀ c ∈ classes, ∀ q < n, q ≠ f c → loads (f c) + ∑ c ∈ classes, weight c ≤ loads q + b) :
    spread n loads' ≤ b := by
  refine spread_le_iff.mpr fun p hp q hq => ?_
  have hbefore := spread_le_iff.mp hb p hp q hq
  rcases eq_or_ne q p with rfl | hne
  · omega
  rw [h p hp, h q hq]
  by_cases hused : ∃ c ∈ classes, f c = p
  · obtain ⟨c, hc, rfl⟩ := hused
    have hall := hfit c hc q hq hne
    have hpart : ∑ c' ∈ classes with f c' = f c, weight c' ≤ ∑ c' ∈ classes, weight c' :=
      Finset.sum_le_sum_of_subset (Finset.filter_subset _ _)
    omega
  · have hnone : (classes.filter fun c => f c = p) = ∅ := by
      ext c
      simp only [Finset.mem_filter, Finset.notMem_empty, iff_false]
      exact fun hc => hused ⟨c, hc.1, hc.2⟩
    rw [hnone, Finset.sum_empty]
    omega

theorem Placed.le_of_spread_le (h : Placed n classes weight f loads loads')
    (hb : spread n loads' ≤ b) (hf : ∀ c ∈ classes, f c = p) (hp : p < n) (hq : q < n)
    (hne : q ≠ p) : loads p + ∑ c ∈ classes, weight c ≤ loads q + b := by
  have hafter := spread_le_iff.mp hb p hp q hq
  have hall : (classes.filter fun c => f c = p) = classes := Finset.filter_true_of_mem hf
  have hnone : (classes.filter fun c => f c = q) = ∅ := by
    ext c
    simp only [Finset.mem_filter, Finset.notMem_empty, iff_false]
    exact fun hc => hne (hc.2.symm.trans (hf c hc.1))
  rwa [h p hp, h q hq, hall, hnone, Finset.sum_empty, Nat.add_zero] at hafter

end Spread

namespace PreConsensusSchedTask

/-! ## Candidates -/

/-- The load is within a tiny fraction of the largest load from the smallest one. -/
def NearLeast (n : ℕ) (loads : ProxyId → ℕ) (p : ProxyId) : Prop :=
  p < n ∧ ∀ q < n, (loads p - loads q) * (5 * 10 ^ 8) < max ((Finset.range n).sup loads) 1

section Scores

variable {n : ℕ} {loads : ProxyId → ℕ} {p : ProxyId}

theorem maxScore_eq (n : ℕ) (loads : ProxyId → ℕ) :
    maxScore n loads = max ((Finset.range n).sup loads) 1 := by
  unfold maxScore
  rcases Nat.eq_zero_or_pos n with rfl | hn
  · rfl
  · obtain ⟨p, hp, heq⟩ := Finset.exists_mem_eq_sup (Finset.range n)
      (Finset.nonempty_range_iff.mpr hn.ne') loads
    have hmax : ((List.range n).map loads).max? = some ((Finset.range n).sup loads) := by
      refine List.max?_eq_some_iff.mpr ⟨?_, fun load hload => ?_⟩
      · rw [heq]
        exact List.mem_map_of_mem (List.mem_range.mpr (Finset.mem_range.mp hp))
      · obtain ⟨q, hq, rfl⟩ := List.mem_map.mp hload
        exact Finset.le_sup (Finset.mem_range.mpr (List.mem_range.mp hq))
    rw [hmax, Option.getD_some]

theorem foldl_max_eq {l : List ProxyId} {score : ProxyId → ℚ} (hp : p ∈ l) (hpos : 0 ≤ score p)
    (hmax : ∀ q ∈ l, score q ≤ score p) :
    l.foldl (fun acc q => max acc (score q)) 0 = score p := by
  have hsome : (l.map score).max? = some (score p) :=
    List.max?_eq_some_iff.mpr ⟨List.mem_map_of_mem hp, by simpa using hmax⟩
  rw [← List.foldl_map (f := score) (g := max), List.foldl_max, hsome, Option.getD_some,
    max_eq_right hpos]

/-- With nothing placed before, only the loads count. -/
theorem combinedScore_eq (n : ℕ) (loads : ProxyId → ℕ) (p : ProxyId) :
    combinedScore ℚ n (fun _ => 0) loads p =
      (1 - loads p / (max ((Finset.range n).sup loads) 1 : ℕ)) / 2 := by
  simp only [combinedScore, maxScore_eq, Nat.cast_zero, zero_div]
  ring

/-- The best score is that of a smallest load. -/
theorem maxCombinedScore_eq {m : ProxyId} (hm : m < n) (hleast : ∀ q < n, loads m ≤ loads q) :
    maxCombinedScore ℚ n (fun _ => 0) loads = combinedScore ℚ n (fun _ => 0) loads m := by
  refine foldl_max_eq (List.mem_range.mpr hm) ?_ fun q hq => ?_
  · rw [combinedScore_eq]
    have hle : (loads m : ℚ) ≤ (max ((Finset.range n).sup loads) 1 : ℕ) := by
      have := Finset.le_sup (f := loads) (Finset.mem_range.mpr hm)
      exact_mod_cast this.trans (le_max_left _ _)
    have hone := div_le_one_of_le₀ hle (by positivity)
    linarith
  · have hle : (loads m : ℚ) ≤ loads q := by exact_mod_cast hleast q (List.mem_range.mp hq)
    rw [combinedScore_eq, combinedScore_eq]
    gcongr

/-- A proxy is a candidate, if its load is near the smallest one. -/
theorem mem_bestCandidates_iff :
    p ∈ bestCandidates ℚ n (fun _ => 0) loads ↔ NearLeast n loads p := by
  rw [bestCandidates, List.mem_filter, List.mem_range, NearLeast]
  refine and_congr_right fun hp => ?_
  obtain ⟨m, hm, hleast⟩ := Finset.exists_min_image (Finset.range n) loads
    ⟨p, Finset.mem_range.mpr hp⟩
  simp only [Finset.mem_range] at hm hleast
  have hnear : (∀ q < n, (loads p - loads q) * (5 * 10 ^ 8) < max ((Finset.range n).sup loads) 1) ↔
      (loads p - loads m) * (5 * 10 ^ 8) < max ((Finset.range n).sup loads) 1 := by
    refine ⟨fun h => h m hm, fun h q hq => lt_of_le_of_lt ?_ h⟩
    exact Nat.mul_le_mul_right _ (Nat.sub_le_sub_left (hleast q hq) _)
  rw [hnear, maxCombinedScore_eq hm hleast, combinedScore_eq, combinedScore_eq, decide_eq_true_iff]
  obtain ⟨d, hd⟩ := Nat.exists_eq_add_of_le (hleast p hp)
  have hM : 0 < max ((Finset.range n).sup loads) 1 := by omega
  generalize max ((Finset.range n).sup loads) 1 = M at hM ⊢
  have hM : (0 : ℚ) < M := by exact_mod_cast hM
  have hdifference :
      (1 - (loads p : ℚ) / M) / 2 - (1 - (loads m : ℚ) / M) / 2 = -(d / (2 * M)) := by
    rw [hd]
    push_cast
    field_simp
    ring
  have hpos : (0 : ℚ) ≤ d / (2 * M) := by positivity
  rw [hdifference, neg_neg, max_eq_right (by linarith), div_lt_iff₀ (by positivity), hd,
    Nat.add_sub_cancel_left, ← Nat.cast_lt (α := ℚ)]
  push_cast
  constructor <;> intro h <;> linarith

end Scores

theorem exists_nearLeast {n : ℕ} (hn : 0 < n) (loads : ProxyId → ℕ) : ∃ p, NearLeast n loads p := by
  obtain ⟨m, hm, hleast⟩ := Finset.exists_min_image (Finset.range n) loads
    ⟨0, Finset.mem_range.mpr hn⟩
  refine ⟨m, Finset.mem_range.mp hm, fun q hq => ?_⟩
  rw [Nat.sub_eq_zero_of_le (hleast q (Finset.mem_range.mpr hq)), Nat.zero_mul]
  exact lt_max_of_lt_right Nat.one_pos

/-- Some random number selects a given candidate. -/
theorem exists_tie {n : ℕ} {locality loads : ProxyId → ℕ} {p : ProxyId}
    (hp : p ∈ bestCandidates ℚ n locality loads) : ∃ tie, bestProxy ℚ n locality loads tie = p := by
  have hlt := List.idxOf_lt_length_of_mem hp
  refine ⟨(bestCandidates ℚ n locality loads).idxOf p, ?_⟩
  simp only [bestProxy, List.isEmpty_iff, List.ne_nil_of_mem hp, if_false]
  rw [Nat.mod_eq_of_lt hlt, List.getD_eq_getElem _ _ hlt, List.getElem_idxOf]

theorem localityScores_of_none {n : ℕ} {objects : List ObjectID} {scores scores' : ProxyId → ℕ}
    (h : localityScores n (fun _ => none) objects scores = some scores') : scores' = scores := by
  induction objects with
  | nil => exact (Option.some.inj h).symm
  | cons o objects ih =>
    obtain ⟨idx, -, h⟩ := Option.bind_eq_some_iff.mp h
    exact ih h

/-! ## Batches -/

variable {τ : Type} (transactions : List (RemoraTransaction τ))

/-- The difference between the loads, or the largest weight of a class, if that is more. -/
noncomputable def balanceBound (n : ℕ) (loads : ProxyId → ℕ) : ℕ :=
  max (spread n loads) ((conflictClasses transactions).sup (classWeight transactions))

variable {transactions} {b : Build} {L : Collections} {s s' : PreConsensusSchedTask}
  {ties : ℕ → ℕ}

section Fresh

variable (hlast : s.objectLastProxy = fun _ => none)
include hlast

theorem Assigned.proxyId_eq {nodes : List ℕ} {a : Assignment} {graph : DiGraph}
    {txs : TransactionDigest → Option (RemoraTransaction τ)}
    (h : Assigned L ℚ graph txs s ties nodes a) :
    ∃ k, a.proxyId = bestProxy ℚ s.numProxies (fun _ => 0) s.proxyLoads (ties k) := by
  obtain ⟨locality, k, hlocality, hp⟩ := h.proxyId
  rw [hlast] at hlocality
  exact ⟨k, localityScores_of_none hlocality ▸ hp⟩

theorem Assigned.nearLeast {nodes : List ℕ} {a : Assignment} {graph : DiGraph}
    {txs : TransactionDigest → Option (RemoraTransaction τ)} (hn : 0 < s.numProxies)
    (h : Assigned L ℚ graph txs s ties nodes a) :
    NearLeast s.numProxies s.proxyLoads a.proxyId := by
  obtain ⟨k, hp⟩ := h.proxyId_eq hlast
  obtain ⟨p, hnear⟩ := exists_nearLeast hn s.proxyLoads
  rw [hp, ← mem_bestCandidates_iff]
  exact bestProxy_mem (List.ne_nil_of_mem (mem_bestCandidates_iff.mpr hnear))

variable (hfit : ∀ p < s.numProxies,
  s.proxyLoads p + ∑ c ∈ largeClasses transactions, plannedWeight transactions c < 2 ^ 64)
include hfit

/-- All large classes are placed on candidates. -/
theorem exists_placed (hn : 0 < s.numProxies)
    (h : scheduleTransactionBatch b L ℚ transactions ties s = some s') :
    ∃ f, Placed s.numProxies (largeClasses transactions) (plannedWeight transactions) f
        s.proxyLoads s'.proxyLoads ∧
      ∀ c ∈ largeClasses transactions, NearLeast s.numProxies s.proxyLoads (f c) ∧
        ∃ k, f c = bestProxy ℚ s.numProxies (fun _ => 0) s.proxyLoads (ties k) := by
  obtain ⟨subgraphs, assignments, f, henum, hforall, -, -, hadds, -⟩ := exists_proxies hn h
  refine ⟨f, fun p hp => load_of_adds (hadds p) ?_, fun c hc => ?_⟩
  · have hpart : ∑ c ∈ largeClasses transactions with f c = p, plannedWeight transactions c ≤
        ∑ c ∈ largeClasses transactions, plannedWeight transactions c :=
      Finset.sum_le_sum_of_subset (Finset.filter_subset _ _)
    exact (Nat.add_le_add_left hpart _).trans_lt (hfit p hp)
  · obtain ⟨nodes, hnodes, rfl⟩ := List.mem_map.mp ((henum.mem_iff c).mpr hc)
    obtain ⟨a, -, ha⟩ := exists_right_of_forall₂ hforall hnodes
    rw [← ha.2]
    exact ⟨ha.1.nearLeast hlast hn, ha.1.proxyId_eq hlast⟩

/-- If no load can wrap, the scheduler keeps the bound whatever chance decides, if and only if the
batch panics or all large classes together fit on any candidate. -/
theorem batch_balance_iff (hdebug : b.overflowChecks = true → b.debugAssertions = true)
    (hn : 2 ≤ s.numProxies) :
    (∀ ties s', scheduleTransactionBatch b L ℚ transactions ties s = some s' →
        spread s.numProxies s'.proxyLoads ≤
          balanceBound transactions s.numProxies s.proxyLoads) ↔
      (Indexable transactions → BatchFits b transactions s.totalLoad →
        ∀ p, NearLeast s.numProxies s.proxyLoads p → ∀ q < s.numProxies, q ≠ p →
          s.proxyLoads p + ∑ c ∈ largeClasses transactions, plannedWeight transactions c ≤
            s.proxyLoads q + balanceBound transactions s.numProxies s.proxyLoads) := by
  have hpos : 0 < s.numProxies := by omega
  have hbounds : s.ProxiesInBounds := fun idx p h => by simp [hlast] at h
  constructor
  · intro hbalance hindexable hload p hp q hq hne
    obtain ⟨tie, htie⟩ := exists_tie (mem_bestCandidates_iff.mpr hp)
    obtain ⟨s', hs', -⟩ := scheduleTransactionBatch_of_indexable (L := L) (F := ℚ) hpos hbounds
      hindexable hload fun _ => tie
    obtain ⟨f, hplaced, hf⟩ := exists_placed hlast hfit hpos hs'
    refine hplaced.le_of_spread_le (hbalance _ s' hs') (fun c hc => ?_) hp.1 hq hne
    obtain ⟨-, k, hk⟩ := hf c hc
    rw [hk, htie]
  · intro hcandidates ties s' hs'
    obtain ⟨f, hplaced, hf⟩ := exists_placed hlast hfit hpos hs'
    obtain ⟨hindexable, hload⟩ := indexable_of_isSome hdebug hpos hbounds hs'
    exact hplaced.spread_le (le_max_left _ _) fun c hc =>
      hcandidates hindexable hload (f c) (hf c hc).1

end Fresh

/-- With one class, the bound is kept. -/
theorem batch_balance_iff_threeTransactions :
    ∃ s', scheduleTransactionBatch ⟨true, true⟩ collections ℚ threeTransactions id
        (new 2 (fun _ => none) fun _ => 0) = some s' ∧
      spread 2 s'.proxyLoads ≤ balanceBound threeTransactions 2 fun _ => 0 := by
  have hsome : (scheduleTransactionBatch ⟨true, true⟩ collections ℚ threeTransactions id
      (new 2 (fun _ => none) fun _ => 0)).isSome := by decide +kernel
  obtain ⟨s', hs'⟩ := Option.isSome_iff_exists.mp hsome
  have hsubgraphs : findAllSubgraphs petgraph (buildDependencyGraph threeTransactions).1 =
      some [[0, 2], [1]] := by decide +kernel
  obtain ⟨subgraphs, heq, henum⟩ := largeSubgraphs_spec petgraph threeTransactions
  obtain rfl := Option.some.inj (hsubgraphs.symm.trans heq)
  have hsum : ∑ c ∈ largeClasses threeTransactions, plannedWeight threeTransactions c = 12 := by
    rw [← henum.sum_map]
    decide +kernel
  have hclass : {0, 2} ∈ conflictClasses threeTransactions :=
    (mem_largeClasses.mp ((henum.mem_iff _).mp (by decide))).1
  have hbound : 12 ≤ balanceBound threeTransactions 2 fun _ => 0 :=
    le_max_of_le_right (Finset.le_sup (f := classWeight threeTransactions) hclass)
  refine ⟨s', hs', (batch_balance_iff (b := ⟨true, true⟩) (L := collections)
    (s := new 2 (fun _ => none) fun _ => 0) rfl (fun p _ => ?_) (fun _ => rfl) le_rfl).mpr
      (fun _ _ p _ q _ _ => ?_) id s' hs'⟩
  · rw [hsum]
    exact (by decide : 0 + 12 < 2 ^ 64)
  · rw [hsum]
    simpa [new] using hbound

/-- Two classes of two transactions each, all of them with the same duration. -/
def twoClasses : List (RemoraTransaction Unit) :=
  [.new () 10 [.sharedMoveObject (256 ^ 31)] 0 5, .new () 11 [.sharedMoveObject (256 ^ 31)] 0 5,
    .new () 12 [.sharedMoveObject (2 * 256 ^ 31)] 0 5,
    .new () 13 [.sharedMoveObject (2 * 256 ^ 31)] 0 5]

/-- The first proxy gets both classes, and the other one nothing. -/
theorem balanceBound_lt_spread :
    ∃ s', scheduleTransactionBatch ⟨false, false⟩ collections ℚ twoClasses (fun _ => 0)
        (new 2 (fun _ => none) fun _ => 0) = some s' ∧
      balanceBound twoClasses 2 (fun _ => 0) < spread 2 s'.proxyLoads := by
  have hspread : (scheduleTransactionBatch ⟨false, false⟩ collections ℚ twoClasses (fun _ => 0)
      (new 2 (fun _ => none) fun _ => 0)).map (fun s => spread 2 s.proxyLoads) = some 20 := by
    decide +kernel
  have hsubgraphs : findAllSubgraphs petgraph (buildDependencyGraph twoClasses).1 =
      some [[0, 1], [2, 3]] := by decide +kernel
  have hbound : balanceBound twoClasses 2 (fun _ => 0) ≤ 10 := by
    obtain ⟨subgraphs, heq, hperm, hclasses⟩ := findAllSubgraphs_eq_some petgraph twoClasses
    obtain rfl := Option.some.inj (hsubgraphs.symm.trans heq)
    refine max_le (by decide) (Finset.sup_le fun C hC => ?_)
    obtain ⟨c, hc, rfl⟩ := exists_subgraph hperm hclasses hC
    clear hC
    revert c
    decide +kernel
  obtain ⟨s', hs', hspread⟩ := Option.map_eq_some_iff.mp hspread
  exact ⟨s', hs', by omega⟩

end PreConsensusSchedTask

end Remora
