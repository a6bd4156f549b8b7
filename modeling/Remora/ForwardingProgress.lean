import Remora.OwnershipHints
import Remora.FallbackProxy

/-!
# The forwarding pool never deadlocks

A worker runs its queue strictly in order and blocks on transactions that sit in other
workers' queues, and the dispatcher blocks on a full queue. Still nothing is ever stuck :
the first transaction, in consensus order, that has been dispatched and is not finished
waits only for transactions before it, which are finished and have notified, and no
transaction is before it in its worker's queue.
-/

namespace Remora

open Function Rendezvous ForwardAction VersionedDependencyController

variable {τ : Type}

namespace SharedObjTxnForwarder

variable {C : Primary τ} {s : State τ}

theorem transaction_of_lt {i : ℕ} (hi : i < C.txns.length) : ∃ t, C.transaction i = some t := by
  unfold Primary.transaction versioned
  rw [VersionAssignmentTask.processVersionAssignments_getElem?, List.getElem?_eq_getElem hi]
  exact ⟨_, rfl⟩

/-! ## Actions are enabled -/

/-- An action of the phases after the choice of a proxy finds one. -/
theorem Hints.exists_proxyId (hI : Inv C s) (hH : Hints C s) {i : ℕ} {a : ForwardAction}
    {rest : List ForwardAction} (ht : (s.tasks i).todo = a :: rest) (ha : 5 < a.rank) :
    ∃ p, (s.tasks i).proxyId = some p := by
  refine Option.ne_none_iff_exists'.mp (hH.chosen i fun hm => ?_)
  have hord := (staged_processForwardingTask C i).ordered.suffix (hI.suffix i)
  rw [ht] at hord hm
  have hle : a.rank ≤ 5 := hord.head_le hm
  omega

/-- Only a wait can block a task. -/
theorem enabled_of_not_wait (hI : Inv C s) (hH : Hints C s) (hconn : C.connections ≠ []) {i : ℕ}
    (hi : i < C.txns.length) {a : ForwardAction} {rest : List ForwardAction}
    (ht : (s.tasks i).todo = a :: rest) (ha : ∀ k, a ≠ dep (.wait k)) :
    (a.perform C i s.context (s.tasks i)).isSome := by
  obtain ⟨t, htxn⟩ := transaction_of_lt hi
  cases a with
  | dep b =>
    have hthread : (agents s i).todo = b :: rest.filterMap depOf := by simp [agents, ht, depOf]
    have := hI.deps.enabled_of_not_wait hthread fun k hk => ha k (by rw [hk])
    simpa [perform, agents] using this
  | removePlan => simp [perform, htxn]
  | countState k =>
    simp only [perform]
    split
    · split_ifs <;> rfl
    · rfl
  | fallback =>
    simp only [perform]
    split
    · rfl
    · obtain ⟨p, hp, -⟩ := exists_fallbackProxyId C.policy
        (List.length_pos_iff.mpr hconn) (s.tasks i).proxyStateCounts (required C.txns i) i
      simp [htxn, hp]
  | getOwner k =>
    obtain ⟨p, hp⟩ := hH.exists_proxyId hI ht (by simp [rank])
    simp [perform, hp]
  | insertOwner k =>
    obtain ⟨p, hp⟩ := hH.exists_proxyId hI ht (by simp [rank])
    simp [perform, hp]
  | removeOwner k => rfl
  | readLoad p => rfl
  | pickStateless => simp [perform, htxn]
  | sendStateless => simp [perform, htxn]
  | removeStateless => simp [perform, htxn]
  | sendTxn =>
    obtain ⟨p, hp⟩ := hH.exists_proxyId hI ht (by simp [rank])
    simp [perform, htxn, hp]

/-- A task whose predecessors have all returned is not blocked : they have notified. -/
theorem wait_enabled (hI : Inv C s) {i : ℕ} {k : ObjectVersion} {rest : List ForwardAction}
    (ht : (s.tasks i).todo = dep (.wait k) :: rest)
    (hmin : ∀ j < i, s.pool.returned j = true) :
    ((dep (.wait k)).perform C i s.context (s.tasks i)).isSome := by
  have hmem : .wait k ∈ dependencyProgram (required C.txns i) :=
    (dep_mem_processForwardingTask C i).mp ((hI.suffix i).subset (by simp [ht]))
  have hcons := (taskProtocol C.txns).wait_role hmem
  obtain ⟨hk, hv⟩ := consumerOf_eq_some.mp hcons
  obtain ⟨j, hlast, hj⟩ := exists_producer hk hv
  have hnotified : (taskProtocol C.txns).Notified (agents s) k :=
    ⟨j, producerOf_eq_some.mpr hj, by simp [agents, hI.returned j (hmin j hlast.1)]⟩
  have hthread : (agents s i).todo = .wait k :: rest.filterMap depOf := by
    simp [agents, ht, depOf]
  have := hI.deps.wait_enabled hthread hnotified
  simpa [perform, agents] using this

/-- The first transaction that is not finished can move. -/
theorem exists_enabled (hI : Inv C s) (hH : Hints C s) (hw : 0 < C.numWorkers)
    (hconn : C.connections ≠ []) (h : ∃ i < s.pool.sent, s.pool.returned i = false) :
    ∃ w < C.numWorkers, ∃ e ∈ [Event.recv w, .run w, .finish w], (step C s e).isSome := by
  obtain ⟨i, hi, hret, hmin⟩ := WorkerPool.exists_first h
  refine ⟨i % C.numWorkers, Nat.mod_lt _ hw, ?_⟩
  rcases hI.pool.progress hw hi hret hmin with hrun | hrecv
  · cases ht : (s.tasks i).todo with
    | nil =>
      exact ⟨.finish (i % C.numWorkers), by simp, by simp [step, hrun, ht, WorkerPool.finish]⟩
    | cons a rest =>
      refine ⟨.run (i % C.numWorkers), by simp, ?_⟩
      have henabled : (a.perform C i s.context (s.tasks i)).isSome := by
        by_cases ha : ∃ k, a = dep (.wait k)
        · obtain ⟨k, rfl⟩ := ha
          exact wait_enabled hI ht hmin
        · exact enabled_of_not_wait hI hH hconn (Nat.lt_of_lt_of_le hi hI.sent_le) ht
            fun k hk => ha ⟨k, hk⟩
      simpa [step, hrun, runTask, ht] using henabled
  · exact ⟨.recv (i % C.numWorkers), by simp, by simpa [step] using hrecv⟩

end SharedObjTxnForwarder

end Remora
