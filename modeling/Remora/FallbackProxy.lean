import Remora.SharedObjTxnForwarder

/-!
# The fallback proxy

A transaction without a plan goes to the next proxy in turn under `RSDS`, and under `LSDS` to a
proxy that has most of the states it requires. One scan over the counts finds these proxies, all of
them and no other one, also if no proxy has any of the states (`mem_bestProxies`).

`selectFallback` is the choice on a map that stays as it is, and what the actions of a task come to
that no other task interrupts (`performAll_fallbackActions`). It is a proxy with most of the states
whenever a proxy is connected, and a panic otherwise (`fallback_choice_iff`) : the helper knows
what to return without a proxy, but the caller takes the remainder by the number of proxies before
it looks at what the helper returned.
-/

namespace Remora

open Function

variable {τ : Type}

/-! ## The scan -/

section Scan

variable (counts : ProxyId → ℕ) (n : ℕ)

/-- What the scan over the first `n` proxies has found : the largest count, and all proxies that
have it. -/
structure Scanned (scan : ℕ × List ProxyId) : Prop where
  le : ∀ q < n, counts q ≤ scan.1
  attained : 0 < n → ∃ q < n, counts q = scan.1
  best : scan.2 = (List.range n).filter fun q => counts q = scan.1

theorem bestProxies_succ : bestProxies counts (n + 1) =
    if counts n > (bestProxies counts n).1 then (counts n, [n])
    else if counts n = (bestProxies counts n).1 then
      ((bestProxies counts n).1, (bestProxies counts n).2 ++ [n])
    else bestProxies counts n := by
  rw [bestProxies, List.range_succ, List.foldl_append, ← bestProxies]
  rfl

theorem scanned_bestProxies : Scanned counts n (bestProxies counts n) := by
  induction n with
  | zero => exact ⟨by simp, by simp, rfl⟩
  | succ n ih =>
    obtain ⟨hle, hattained, hbest⟩ := ih
    rw [bestProxies_succ]
    split_ifs with hgt heq
    · -- the proxies so far have smaller counts
      refine ⟨fun q hq => ?_, fun _ => ⟨n, Nat.lt_succ_self n, rfl⟩, ?_⟩
      · rcases Nat.lt_succ_iff_lt_or_eq.mp hq with hq | rfl
        · exact (hle q hq).trans hgt.le
        · exact Nat.le_refl _
      · rw [List.range_succ, List.filter_append, List.filter_eq_nil_iff.mpr]
        · simp
        · intro q hq
          have := hle q (List.mem_range.mp hq)
          simpa using by omega
    · refine ⟨fun q hq => ?_, fun _ => ⟨n, Nat.lt_succ_self n, heq⟩, ?_⟩
      · rcases Nat.lt_succ_iff_lt_or_eq.mp hq with hq | rfl
        · exact hle q hq
        · exact heq.le
      · simp [List.range_succ, List.filter_append, hbest, heq]
    · have hn : 0 < n := by
        by_contra hn
        obtain rfl : n = 0 := by omega
        exact heq (Nat.le_zero.mp (Nat.not_lt.mp hgt))
      refine ⟨fun q hq => ?_, fun _ => ?_, ?_⟩
      · rcases Nat.lt_succ_iff_lt_or_eq.mp hq with hq | rfl
        · exact hle q hq
        · exact Nat.not_lt.mp hgt
      · obtain ⟨q, hq, hcount⟩ := hattained hn
        exact ⟨q, Nat.lt_succ_of_lt hq, hcount⟩
      · simp [List.range_succ, List.filter_append, hbest, heq]

variable {counts n} {p : ProxyId}

/-- The scan keeps the proxies with the largest count. -/
theorem mem_bestProxies :
    p ∈ (bestProxies counts n).2 ↔ p < n ∧ ∀ q < n, counts q ≤ counts p := by
  obtain ⟨hle, hattained, hbest⟩ := scanned_bestProxies counts n
  rw [hbest, List.mem_filter, List.mem_range, decide_eq_true_iff]
  refine and_congr_right fun hp => ⟨fun h q hq => h ▸ hle q hq, fun h => ?_⟩
  obtain ⟨q, hq, hcount⟩ := hattained (Nat.zero_lt_of_lt hp)
  exact (hle p hp).antisymm (hcount ▸ h q hq)

theorem bestProxies_ne_nil (hn : 0 < n) : (bestProxies counts n).2 ≠ [] := by
  obtain ⟨hle, hattained, hbest⟩ := scanned_bestProxies counts n
  obtain ⟨q, hq, hcount⟩ := hattained hn
  exact List.ne_nil_of_mem (mem_bestProxies.mpr ⟨hq, fun q' hq' => hcount ▸ hle q' hq'⟩)

theorem bestProxies_congr {counts' : ProxyId → ℕ} (h : ∀ q < n, counts q = counts' q) :
    bestProxies counts n = bestProxies counts' n := by
  refine List.foldl_ext _ _ _ fun x q hq => ?_
  simp only [h q (List.mem_range.mp hq)]

end Scan

/-! ## The choice -/

section Choice

variable {counts : ProxyId → ℕ} {n : ℕ} {ks : List ObjectVersion}

/-- One of the proxies with the largest count is returned, by the transaction's number. -/
theorem exists_mostStates (counts : ProxyId → ℕ) (hn : 0 < n) (hks : ks ≠ []) (txnCnt : ℕ) :
    ∃ p ∈ (bestProxies counts n).2,
      getProxyForSharedObjectsMostStates n counts ks txnCnt = some (some p) := by
  have hpos : 0 < (bestProxies counts n).2.length := List.length_pos_iff.mpr (bestProxies_ne_nil hn)
  simp only [getProxyForSharedObjectsMostStates, hn.ne', if_false, List.isEmpty_iff, hks]
  split_ifs with hlen
  · have hlt := Nat.mod_lt txnCnt hpos
    exact ⟨_, List.getElem_mem hlt, by rw [List.getElem?_eq_getElem hlt]; rfl⟩
  · exact ⟨_, List.getElem_mem hpos, by rw [List.getElem?_eq_getElem hpos]; rfl⟩

/-- With a proxy connected, a transaction without a plan finds a proxy. -/
theorem exists_fallbackProxyId (policy : PreConsensusSchedulingPolicy) (hn : 0 < n)
    (counts : ProxyId → ℕ) (ks : List ObjectVersion) (counter : ℕ) :
    ∃ p, fallbackProxyId policy n counts ks counter = some p ∧ p < n ∧
      (policy = .LSDS → ks ≠ [] → ∀ q < n, counts q ≤ counts p) := by
  cases policy with
  | RSDS => exact ⟨_, if_neg hn.ne', Nat.mod_lt _ hn, by simp⟩
  | LSDS =>
    by_cases hks : ks = []
    · exact ⟨0, by simp [fallbackProxyId, getProxyForSharedObjectsMostStates, hn.ne', hks], hn,
        fun _ h => absurd hks h⟩
    · obtain ⟨p, hp, hchosen⟩ := exists_mostStates counts hn hks counter
      obtain ⟨hlt, hmost⟩ := mem_bestProxies.mp hp
      exact ⟨p, by simp [fallbackProxyId, hchosen, hn.ne'], hlt, fun _ _ => hmost⟩

/-- Without one, the remainder is a panic. -/
theorem fallbackProxyId_zero (policy : PreConsensusSchedulingPolicy) (counts : ProxyId → ℕ)
    (ks : List ObjectVersion) (counter : ℕ) :
    fallbackProxyId policy 0 counts ks counter = none := by
  cases policy <;> rfl

theorem fallbackProxyId_congr {counts' : ProxyId → ℕ} (h : ∀ q < n, counts q = counts' q)
    (policy : PreConsensusSchedulingPolicy) (ks : List ObjectVersion) (counter : ℕ) :
    fallbackProxyId policy n counts ks counter = fallbackProxyId policy n counts' ks counter := by
  simp only [fallbackProxyId, getProxyForSharedObjectsMostStates, bestProxies_congr h]

end Choice

/-! ## The states of a proxy -/

section Counts

variable (proxyCount : ℕ) (statesToProxy : ObjectVersion → Option ProxyId)

/-- How many of the required states the proxy `p` has. -/
def hosted (ks : List ObjectVersion) (p : ProxyId) : ℕ :=
  ks.countP fun k => statesToProxy k = some p

/-- One more state for the proxy that has it. `none` : an index out of bounds. -/
def addStateCount (counts : List ℕ) (k : ObjectVersion) : Option (List ℕ) :=
  match statesToProxy k with
  | some q =>
    if q < proxyCount then counts[q]?.map fun count => counts.set q (count + 1) else some counts
  | none => some counts

/-- `proxy_state_counts`, once the required states are counted. -/
def proxyStateCounts (ks : List ObjectVersion) : Option (List ℕ) :=
  ks.foldlM (addStateCount proxyCount statesToProxy) (List.replicate proxyCount 0)

/-- The fallback selection of `process_forwarding_task`. `none` : a panic. -/
def selectFallback (policy : PreConsensusSchedulingPolicy) (ks : List ObjectVersion)
    (counter : ℕ) : Option ProxyId :=
  match policy with
  | .LSDS => (proxyStateCounts proxyCount statesToProxy ks).bind fun counts =>
      fallbackProxyId .LSDS proxyCount (fun q => counts.getD q 0) ks counter
  | .RSDS => fallbackProxyId .RSDS proxyCount (fun _ => 0) ks counter

variable {proxyCount statesToProxy}

theorem addStateCount_map_range (counts : ProxyId → ℕ) (k : ObjectVersion) :
    addStateCount proxyCount statesToProxy ((List.range proxyCount).map counts) k =
      some ((List.range proxyCount).map fun p =>
        counts p + if statesToProxy k = some p then 1 else 0) := by
  unfold addStateCount
  cases hk : statesToProxy k with
  | none => simp
  | some q =>
    simp only [Option.some.injEq]
    split_ifs with hq
    · rw [List.getElem?_map, List.getElem?_range hq, Option.map_some, Option.map_some,
        Option.some.injEq]
      refine List.ext_getElem (by simp) fun p hp hp' => ?_
      rcases eq_or_ne q p with rfl | hne
      · simp
      · simp [hne]
    · refine congrArg some (List.map_congr_left fun p hp => ?_)
      rw [if_neg, Nat.add_zero]
      rintro rfl
      exact hq (List.mem_range.mp hp)

theorem foldlM_addStateCount (ks : List ObjectVersion) (counts : ProxyId → ℕ) :
    ks.foldlM (addStateCount proxyCount statesToProxy) ((List.range proxyCount).map counts) =
      some ((List.range proxyCount).map fun p => counts p + hosted statesToProxy ks p) := by
  induction ks generalizing counts with
  | nil => simp [hosted]
  | cons k ks ih =>
    rw [List.foldlM_cons, addStateCount_map_range, Option.bind_eq_bind, Option.bind_some, ih]
    refine congrArg some (List.map_congr_left fun p _ => ?_)
    simp only [hosted, List.countP_cons, decide_eq_true_iff]
    omega

/-- No index is out of bounds, and each proxy has its count. -/
theorem proxyStateCounts_eq (ks : List ObjectVersion) :
    proxyStateCounts proxyCount statesToProxy ks =
      some ((List.range proxyCount).map (hosted statesToProxy ks)) := by
  have hzero : List.replicate proxyCount 0 = (List.range proxyCount).map fun _ => 0 := by
    rw [List.map_const', List.length_range]
  rw [proxyStateCounts, hzero, foldlM_addStateCount]
  simp only [Nat.zero_add]

theorem selectFallback_eq (policy : PreConsensusSchedulingPolicy) (ks : List ObjectVersion)
    (counter : ℕ) : selectFallback proxyCount statesToProxy policy ks counter =
      fallbackProxyId policy proxyCount (hosted statesToProxy ks) ks counter := by
  cases policy with
  | RSDS => rfl
  | LSDS =>
    rw [selectFallback, proxyStateCounts_eq, Option.bind_some]
    refine fallbackProxyId_congr (fun q hq => ?_) _ _ _
    rw [List.getD_eq_getElem?_getD, List.getElem?_map, List.getElem?_range hq]
    rfl

end Counts

/-! ## In a forwarding task -/

namespace ForwardAction

variable (C : Primary τ) (i : ℕ)

/-- Task `i` performs the actions one after the other, and nobody else does anything. -/
def performAll : List ForwardAction → ForwardingContext τ → ForwardingTask →
    Option (ForwardingContext τ × ForwardingTask)
  | [], X, l => some (X, l)
  | a :: rest, X, l => (a.perform C i X l).bind fun x => performAll rest x.1 x.2

variable {C i} {X : ForwardingContext τ} {l : ForwardingTask}

theorem performAll_cons {a : ForwardAction} {rest : List ForwardAction} {X' : ForwardingContext τ}
    {l' : ForwardingTask} (h : a.perform C i X l = some (X', l')) :
    performAll C i (a :: rest) X l = performAll C i rest X' l' := by
  rw [performAll, h]
  rfl

theorem performAll_append {as bs : List ForwardAction} {X' : ForwardingContext τ}
    {l' : ForwardingTask} (h : performAll C i as X l = some (X', l')) :
    performAll C i (as ++ bs) X l = performAll C i bs X' l' := by
  induction as generalizing X l with
  | nil =>
    obtain ⟨rfl, rfl⟩ := Prod.mk.inj (Option.some.inj h)
    rfl
  | cons a as ih =>
    obtain ⟨⟨X₁, l₁⟩, ha, h⟩ := Option.bind_eq_some_iff.mp h
    rw [List.cons_append, performAll_cons ha, ih h]

theorem perform_countState (hl : l.proxyId = none) (k : ObjectVersion) :
    perform C i X l (countState k) = some (X, { l with
      proxyStateCounts := fun p => l.proxyStateCounts p +
        if p < C.connections.length ∧ X.statesToProxy k = some p then 1 else 0 }) := by
  obtain ⟨todo, held, _, counts, states, least, stateless⟩ := l
  obtain rfl := hl
  have hnew {counts' counts'' : ProxyId → ℕ} (h : ∀ p, counts' p = counts'' p) :
      some (X, (⟨todo, held, none, counts', states, least, stateless⟩ : ForwardingTask)) =
        some (X, ⟨todo, held, none, counts'', states, least, stateless⟩) := by
    rw [funext h]
  simp only [perform]
  cases hk : X.statesToProxy k with
  | none => exact hnew fun p => by simp
  | some q =>
    simp only [Option.some.injEq]
    split_ifs with hq
    · refine hnew fun p => ?_
      rcases eq_or_ne p q with rfl | hne
      · simp [hq]
      · simp [hne, Ne.symm hne]
    · refine hnew fun p => ?_
      rw [if_neg, Nat.add_zero]
      rintro ⟨hp, rfl⟩
      exact hq hp

/-- What the proxies have is added to their counts. -/
theorem performAll_countState (hl : l.proxyId = none) (ks : List ObjectVersion) :
    performAll C i (ks.map countState) X l = some (X, { l with
      proxyStateCounts := fun p => l.proxyStateCounts p +
        if p < C.connections.length then hosted X.statesToProxy ks p else 0 }) := by
  induction ks generalizing l with
  | nil => simp [performAll, hosted]
  | cons k ks ih =>
    rw [List.map_cons, performAll_cons (perform_countState hl k), ih]
    · refine congrArg (fun counts => some (X, { l with proxyStateCounts := counts })) ?_
      funext p
      simp only [hosted, List.countP_cons, decide_eq_true_iff]
      by_cases hp : p < C.connections.length
      · simp only [hp, true_and, if_true]
        omega
      · simp [hp]
    · exact hl

/-- A task that is not interrupted takes the selected proxy. -/
theorem performAll_fallbackActions (hl : l.proxyId = none)
    (hcounts : l.proxyStateCounts = fun _ => 0) {t : RemoraTransaction τ}
    (ht : C.transaction i = some t) :
    (performAll C i (fallbackActions C.policy (required C.txns i)) X l).bind
        (fun x => x.2.proxyId) =
      selectFallback C.connections.length X.statesToProxy C.policy (required C.txns i) i := by
  have hfallback (l : ForwardingTask) (hl : l.proxyId = none) :
      (performAll C i [fallback] X l).bind (fun x => x.2.proxyId) =
        fallbackProxyId C.policy C.connections.length l.proxyStateCounts (required C.txns i) i := by
    simp only [performAll, perform, hl, ht]
    cases fallbackProxyId C.policy C.connections.length l.proxyStateCounts (required C.txns i) i <;>
      rfl
  rw [selectFallback_eq]
  cases hpolicy : C.policy with
  | RSDS =>
    rw [fallbackActions, hfallback l hl, hpolicy]
    rfl
  | LSDS =>
    rw [fallbackActions, performAll_append (performAll_countState hl _), hfallback, hpolicy]
    · refine fallbackProxyId_congr (fun q hq => ?_) _ _ _
      simp [hcounts, hq]
    · exact hl

end ForwardAction

/-! ## The choice is right if and only if a proxy is connected -/

/-- Among the proxies `0..n-1`, `p` is one that the policy allows. -/
structure FallbackChoice (n : ℕ) (statesToProxy : ObjectVersion → Option ProxyId)
    (policy : PreConsensusSchedulingPolicy) (ks : List ObjectVersion) (p : ProxyId) : Prop where
  lt : p < n
  most : policy = .LSDS → ks ≠ [] → ∀ q < n, hosted statesToProxy ks q ≤ hosted statesToProxy ks p

/-- The fallback selection does not panic, and chooses among the proxies there are, if and only if
there is one. -/
theorem fallback_choice_iff (n : ℕ) (statesToProxy : ObjectVersion → Option ProxyId)
    (policy : PreConsensusSchedulingPolicy) (ks : List ObjectVersion) (counter : ℕ) :
    (∃ p, selectFallback n statesToProxy policy ks counter = some p ∧
        (0 < n → FallbackChoice n statesToProxy policy ks p)) ↔ 0 < n := by
  rw [selectFallback_eq]
  constructor
  · rintro ⟨p, hp, -⟩
    by_contra hn
    obtain rfl : n = 0 := by omega
    rw [fallbackProxyId_zero] at hp
    cases hp
  · intro hn
    obtain ⟨p, hp, hlt, hmost⟩ :=
      exists_fallbackProxyId policy hn (hosted statesToProxy ks) ks counter
    exact ⟨p, hp, fun _ => ⟨hlt, hmost⟩⟩

/-- Without a proxy the helper returns nothing, and the caller panics all the same. -/
theorem fallback_panics_without_proxy :
    getProxyForSharedObjectsMostStates 0 (fun _ => 0) [(7, 2)] 0 = some none ∧
      ¬∃ p, selectFallback 0 (fun _ => none) .LSDS [(7, 2)] 0 = some p := by
  refine ⟨rfl, ?_⟩
  rintro ⟨p, hp⟩
  rw [selectFallback_eq, fallbackProxyId_zero] at hp
  cases hp

/-- Two of three states are at proxy 1, and one at a proxy that is not connected. -/
example : selectFallback 3 (fun k => if k.1 = 9 then some 5 else some 1) .LSDS
    [(7, 2), (8, 2), (9, 2)] 4 = some 1 := by
  decide

end Remora
