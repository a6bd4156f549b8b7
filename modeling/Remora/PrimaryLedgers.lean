import Remora.OwnershipHints

/-!
# The ledgers of the primary

The version assignment, the dependency controller and `states_to_proxy` each keep a map of
the latest versions, at different moments and by formulas of their own. Once the tasks that
have been dispatched have returned, the three agree : a version is recorded if a transaction
has produced it and none has required it (`versionsAt_eq_some`), and exactly then its handle
is still in the controller (`entry_isSome`) and its owner in the map (`owner_eq_some`).

A task that has not been dispatched has done nothing yet (`unstarted`), and one that has
returned has nothing left to do.
-/

namespace Remora

open Function Rendezvous ForwardAction VersionedDependencyController

variable {τ : Type}

namespace SharedObjTxnForwarder

variable {C : Primary τ} {s s' : State τ} {e : Event}

/-- A task is as it was created until it is dispatched. -/
theorem unstarted_of_reachable (hs : (system C).Reachable s) :
    ∀ i, s.pool.sent ≤ i → s.tasks i = ForwardingTask.new C i := by
  refine hs.invariant (I := fun s => ∀ i, s.pool.sent ≤ i → s.tasks i = ForwardingTask.new C i)
    ?_ ?_
  · rintro s rfl i -
    rfl
  · intro s e s' hr hold hstep i hi
    rcases step_cases hstep with ⟨w, j, -, hw, hrun⟩ | ⟨hidle, hpool⟩
    · obtain ⟨a, rest, l', -, -, htasks, hp⟩ := runTask_eq_some hrun
      rw [hp] at hi
      have hj := ((inv_of_reachable hr).pool.of_running hw).1
      rw [htasks, update_of_ne (by omega), hold i hi]
    · rw [hidle.tasks]
      refine hold i (le_trans ?_ hi)
      rcases hpool with hp | ⟨-, hp⟩ | ⟨w, hp⟩ | ⟨w, j, hw, -, hp⟩
      · rw [hp]
      · rw [(WorkerPool.sendTask_eq_some hp).1]
        omega
      · rw [(WorkerPool.recv_eq_some hp).1]
      · rw [(WorkerPool.finish_eq_some hp hw).1]

/-- Every dispatched task has returned. -/
def Finished (s : State τ) : Prop :=
  ∀ i < s.pool.sent, s.pool.returned i = true

namespace Finished

variable (hs : (system C).Reachable s) (hf : Finished s)
include hs hf

theorem todo_eq_nil {i : ℕ} (hi : i < s.pool.sent) : (s.tasks i).todo = [] :=
  (inv_of_reachable hs).returned i (hf i hi)

/-- What is left of a task's program tells whether it has been dispatched. -/
theorem mem_todo_iff {i : ℕ} {a : ForwardAction} (ha : a ∈ processForwardingTask C i) :
    a ∈ (s.tasks i).todo ↔ s.pool.sent ≤ i := by
  constructor
  · intro hm
    by_contra hi
    simp [hf.todo_eq_nil hs (Nat.lt_of_not_le hi)] at hm
  · intro hi
    rw [unstarted_of_reachable hs i hi]
    exact ha

/-- The controller keeps the handles of the versions that are produced and not required. -/
theorem entry_isSome (k : ObjectVersion) :
    (s.context.dependencyController.entry k).isSome ↔
      (∃ i < s.pool.sent, Produces C.txns i k) ∧ ∀ j < s.pool.sent, k ∉ required C.txns j := by
  have hI := inv_of_reachable hs
  rw [Option.isSome_iff_exists]
  constructor
  · rintro ⟨h, he⟩
    obtain ⟨⟨t, hparty, hheld⟩, hrem⟩ := hI.deps.entry.mp he
    have hsent : t < s.pool.sent := by
      by_contra ht
      simp [agents, unstarted_of_reachable hs t (Nat.le_of_not_lt ht), ForwardingTask.new] at hheld
    -- a consumer that has returned would have deleted the entry
    have hno : ∀ j < s.pool.sent, initialVersion < k.2 → k ∉ required C.txns j := by
      intro j hj hk hr
      refine hrem ⟨j, consumerOf_eq_some.mpr ⟨hr, hk⟩, ?_⟩
      simp [agents, hf.todo_eq_nil hs hj]
    rcases hparty with hp | hc
    · have hprod := producerOf_eq_some.mp hp
      have hk : initialVersion < k.2 := by
        rw [(produces_iff.mp hprod).2]
        exact initialVersion_lt_produced t
      exact ⟨⟨t, hsent, hprod⟩, fun j hj => hno j hj hk⟩
    · obtain ⟨hr, hk⟩ := consumerOf_eq_some.mp hc
      exact absurd hr (hno t hsent hk)
  · rintro ⟨⟨i, hi, hprod⟩, hno⟩
    have hget : Action.get k ∉ (agents s i).todo := by simp [agents, hf.todo_eq_nil hs hi]
    have hp := producerOf_eq_some.mpr hprod
    obtain ⟨h, hh⟩ := Option.ne_none_iff_exists'.mp
      (hI.deps.held_some ((taskProtocol C.txns).producer_prog hp).1 hget)
    refine ⟨h, hI.deps.entry.mpr ⟨⟨i, Or.inl hp, hh⟩, ?_⟩⟩
    rintro ⟨j, hc, hrem⟩
    have hr := (consumerOf_eq_some.mp hc).1
    rw [mem_agents_todo, mem_todo_iff hs hf] at hrem
    · exact hno j (Nat.lt_of_not_le hrem) hr
    · exact (dep_mem_processForwardingTask C j).mpr ((taskProtocol C.txns).consumer_prog hc).2.2

/-- `states_to_proxy` keeps their owners, the proxies their producers were forwarded to. -/
theorem owner_eq_some (k : ObjectVersion) (q : ProxyId) :
    s.context.statesToProxy k = some q ↔
      (∃ i < s.pool.sent, Produces C.txns i k ∧ forwardedTo s i = some q) ∧
        ∀ j < s.pool.sent, k ∉ required C.txns j := by
  have hH := hints_of_reachable hs
  rw [hH.owner k q]
  have hleft : (∀ j, k ∈ required C.txns j → removeOwner k ∈ (s.tasks j).todo) ↔
      ∀ j < s.pool.sent, k ∉ required C.txns j := by
    constructor
    · intro h j hj hr
      have hm := h j hr
      rw [hf.todo_eq_nil hs hj] at hm
      exact absurd hm (by simp)
    · intro h j hr
      rw [mem_todo_iff hs hf ((removeOwner_mem_processForwardingTask C j).mpr hr)]
      exact Nat.le_of_not_lt fun hj => h j hj hr
  rw [hleft]
  refine and_congr_left fun _ => exists_congr fun i => ?_
  constructor
  · rintro ⟨hprod, hins, hq⟩
    obtain ⟨v, hv⟩ := exists_required (produces_iff.mp hprod).1
    have hi : i < s.pool.sent := by
      by_contra hi
      exact hins v ((mem_todo_iff hs hf ((insertOwner_mem_processForwardingTask C i).mpr hv)).mpr
        (Nat.le_of_not_lt hi))
    refine ⟨hi, hprod, ?_⟩
    rw [hH.forwardedTo_eq (by simp [hf.todo_eq_nil hs hi]), hq]
  · rintro ⟨hi, hprod, hq⟩
    refine ⟨hprod, fun v => by simp [hf.todo_eq_nil hs hi], ?_⟩
    rwa [← hH.forwardedTo_eq (by simp [hf.todo_eq_nil hs hi])]

/-- A task that has returned has been forwarded. -/
theorem isSome_forwardedTo {i : ℕ} (hi : i < s.pool.sent) : (forwardedTo s i).isSome := by
  have hH := hints_of_reachable hs
  obtain ⟨t, p, -, -, hsent⟩ := hH.sent i (by simp [hf.todo_eq_nil hs hi])
  simp [forwardedTo, hsent]

theorem owner_isSome (k : ObjectVersion) :
    (s.context.statesToProxy k).isSome ↔
      (∃ i < s.pool.sent, Produces C.txns i k) ∧ ∀ j < s.pool.sent, k ∉ required C.txns j := by
  rw [Option.isSome_iff_exists]
  constructor
  · rintro ⟨q, hq⟩
    obtain ⟨⟨i, hi, hprod, -⟩, hno⟩ := (hf.owner_eq_some hs k q).mp hq
    exact ⟨⟨i, hi, hprod⟩, hno⟩
  · rintro ⟨⟨i, hi, hprod⟩, hno⟩
    obtain ⟨q, hq⟩ := Option.isSome_iff_exists.mp (hf.isSome_forwardedTo hs hi)
    exact ⟨q, (hf.owner_eq_some hs k q).mpr ⟨⟨i, hi, hprod, hq⟩, hno⟩⟩

end Finished

/-- Once all forwarded transactions are finished, the controller has one key for each object
ever accessed, at the version the assignment has recorded for it, `states_to_proxy` has the same
keys, and it maps each of them to the proxy of the object's last accessor. -/
theorem primary_ledgers_agree (C : Primary τ) (s : State τ) (hs : (system C).Reachable s)
    (hf : ∀ i < s.pool.sent, s.pool.returned i = true) :
    (∀ o, (versionsAt C.txns s.pool.sent o).isSome ↔ ∃ i < s.pool.sent, o ∈ accessed C.txns i) ∧
    (∀ k, (s.context.dependencyController.entry k).isSome ↔
      versionsAt C.txns s.pool.sent k.1 = some k.2) ∧
    (∀ k, (s.context.statesToProxy k).isSome ↔
      versionsAt C.txns s.pool.sent k.1 = some k.2) ∧
    ∀ k i, versionsAt C.txns s.pool.sent k.1 = some k.2 → LastAccess C.txns k.1 s.pool.sent i →
      ∃ p, forwardedTo s i = some p ∧ s.context.statesToProxy k = some p := by
  have hf : Finished s := hf
  refine ⟨fun o => isSome_versionsAt, fun k => ?_, fun k => ?_, fun k i hk hi => ?_⟩
  · rw [versionsAt_eq_some, hf.entry_isSome hs]
  · rw [versionsAt_eq_some, hf.owner_isSome hs]
  · obtain ⟨p, hp⟩ := Option.isSome_iff_exists.mp (hf.isSome_forwardedTo hs hi.1)
    refine ⟨p, hp, (hf.owner_eq_some hs k p).mpr ⟨⟨i, hi.1, ?_, hp⟩, ?_⟩⟩
    · rw [versionsAt_of_lastAccess hi] at hk
      exact produces_iff.mpr ⟨hi.2.1, (Option.some.inj hk).symm⟩
    · exact (versionsAt_eq_some.mp hk).2

/-- The two transactions of `twoProxies` have returned. -/
theorem primary_ledgers_agree_two_proxies :
    ∃ s, (system twoProxies).Reachable s ∧ s.context.statesToProxy (7, 4) = some 1 ∧
      (s.context.dependencyController.entry (7, 4)).isSome := by
  have hview : ((system twoProxies).run (State.init twoProxies)
      (twoProxiesRun ++ [.run 1, .finish 0, .finish 1])).map (fun s =>
        (s.pool.sent, s.pool.returned 0, s.pool.returned 1, forwardedTo s 1)) =
          some (2, true, true, some 1) := by decide
  obtain ⟨s, hrun, hview⟩ := Option.map_eq_some_iff.mp hview
  simp only [Prod.mk.injEq] at hview
  obtain ⟨hsent, h0, h1, hfor⟩ := hview
  have hs : (system twoProxies).Reachable s := Transition.System.reachable_run (.init rfl) hrun
  have hf : ∀ i < s.pool.sent, s.pool.returned i = true := by
    intro i hi
    rw [hsent] at hi
    obtain rfl | rfl : i = 0 ∨ i = 1 := by omega
    · exact h0
    · exact h1
  have hk : versionsAt twoProxies.txns s.pool.sent 7 = some 4 := by
    rw [hsent]
    decide
  have hlast : LastAccess twoProxies.txns 7 s.pool.sent 1 := by
    rw [hsent]
    exact ⟨by decide, by decide, fun l h1 h2 => by omega⟩
  have hledger := primary_ledgers_agree twoProxies s hs hf
  obtain ⟨p, hp, hstate⟩ := hledger.2.2.2 (7, 4) 1 hk hlast
  obtain rfl : p = 1 := Option.some.inj (hp.symm.trans hfor)
  exact ⟨s, hs, hstate, (hledger.2.1 (7, 4)).mpr hk⟩

end SharedObjTxnForwarder

end Remora
