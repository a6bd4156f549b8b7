import Remora.ForwardingOrder

/-!
# Ownership hints

With a transaction the primary sends, for each version it requires, the proxy to fetch
that version from. It reads the proxy off `states_to_proxy`, which the workers write and
delete without a lock around the loop over a task's objects.

A version's owner is recorded by its producer before it notifies, and read and deleted by
its consumer after it has waited, so that the map holds a version exactly between the two
(`Hints.owner`), and the consumer always finds the proxy its producer was forwarded to
(`Hints.exact`).
-/

namespace Remora

open Function Rendezvous ForwardAction VersionedDependencyController

variable {τ : Type}

namespace SharedObjTxnForwarder

variable {C : Primary τ} {s s' : State τ} {e : Event}

/-! ## One action of one task -/

/-- Task `i` performs its next action `a` and is left with `rest` and the variables `l'`. -/
structure RunStep (C : Primary τ) (s s' : State τ) (i : ℕ) (a : ForwardAction)
    (rest : List ForwardAction) (l' : ForwardingTask) : Prop where
  todo : (s.tasks i).todo = a :: rest
  perform : a.perform C i s.context (s.tasks i) = some (s'.context, l')
  tasks : s'.tasks = update s.tasks i { l' with todo := rest }

namespace RunStep

variable {i : ℕ} {a b : ForwardAction} {rest : List ForwardAction} {l' : ForwardingTask}
  (h : RunStep C s s' i a rest l')
include h

theorem task_self : s'.tasks i = { l' with todo := rest } := by
  rw [h.tasks, update_self]

theorem task_ne {j : ℕ} (hj : j ≠ i) : s'.tasks j = s.tasks j := by
  rw [h.tasks, update_of_ne hj]

theorem frame : Frame a s.context s'.context (s.tasks i) l' :=
  perform_frame h.perform

theorem mem_todo_iff (hb : b ≠ a) (j : ℕ) : b ∈ (s'.tasks j).todo ↔ b ∈ (s.tasks j).todo := by
  rcases eq_or_ne j i with rfl | hj
  · simp [h.task_self, h.todo, hb]
  · rw [h.task_ne hj]

theorem mem_of_mem {j : ℕ} (hb : b ∈ (s'.tasks j).todo) : b ∈ (s.tasks j).todo := by
  rcases eq_or_ne j i with rfl | hj
  · rw [h.todo]
    exact List.mem_cons_of_mem _ (by simpa [h.task_self] using hb)
  · rwa [h.task_ne hj] at hb

theorem head_mem : a ∈ (s.tasks i).todo := by
  simp [h.todo]

theorem notMem_self (hI : Inv C s) : a ∉ (s'.tasks i).todo := by
  simpa [h.task_self] using
    Program.notMem_of_cons_suffix (nodup_processForwardingTask C i) (h.todo ▸ hI.suffix i)

/-- What is of an earlier phase than the next action is done. -/
theorem done_of_lt (hI : Inv C s) (hb : b.rank < a.rank) : b ∉ (s.tasks i).todo := by
  intro hm
  have hord := (staged_processForwardingTask C i).ordered.suffix (hI.suffix i)
  rw [h.todo] at hord hm
  exact absurd (hord.head_le hm) (Nat.not_le.mpr hb)

/-- The proxy of a task that has chosen one never changes. -/
theorem proxyId_eq (hI : Inv C s) {j : ℕ} (hj : fallback ∉ (s.tasks j).todo) :
    (s'.tasks j).proxyId = (s.tasks j).proxyId := by
  rcases eq_or_ne j i with rfl | hji
  · rw [h.task_self]
    refine h.frame.proxyId ?_ ?_
    · rintro rfl
      exact Program.done_of_done (staged_processForwardingTask C j).ordered (hI.suffix j)
        (fallback_mem_processForwardingTask C j) hj (by decide) h.head_mem
    · rintro rfl
      exact hj h.head_mem
  · rw [h.task_ne hji]

end RunStep

theorem runStep_of_runTask {i : ℕ} (h : runTask C s i = some s') :
    ∃ a rest l', RunStep C s s' i a rest l' := by
  obtain ⟨a, rest, l', ht, hp, htasks, -⟩ := runTask_eq_some h
  exact ⟨a, rest, l', ht, hp, htasks⟩

/-! ## What a wait tells -/

theorem mem_agents_todo {i : ℕ} {b : Action ObjectVersion} :
    b ∈ (agents s i).todo ↔ dep b ∈ (s.tasks i).todo := by
  simp only [agents, List.mem_filterMap]
  constructor
  · rintro ⟨a, ha, hab⟩
    cases a <;> simp_all [depOf]
  · exact fun h => ⟨_, h, rfl⟩

/-- A task past its wait has a producer that has done everything but notify. -/
theorem Inv.done_of_past (hI : Inv C s) {i j : ℕ} {k : ObjectVersion} (hj : k ∈ required C.txns j)
    (hpast : dep (.wait k) ∉ (s.tasks j).todo) (hi : Produces C.txns i k) {a : ForwardAction}
    (ha : a.rank < 11) : a ∉ (s.tasks i).todo := by
  have hk : initialVersion < k.2 := by
    rw [(produces_iff.mp hi).2]
    exact initialVersion_lt_produced i
  obtain ⟨i', hi', hn⟩ := hI.deps.notified_of_woken
    ⟨j, consumerOf_eq_some.mpr ⟨hj, hk⟩, mt mem_agents_todo.mp hpast⟩
  obtain rfl : i = i' := producer_unique hi (producerOf_eq_some.mp hi')
  have hprog : dep (.notify k) ∈ processForwardingTask C i :=
    (dep_mem_processForwardingTask C i).mpr ((taskProtocol C.txns).producer_prog hi').2
  exact Program.done_of_done (staged_processForwardingTask C i).ordered (hI.suffix i) hprog
    (mt mem_agents_todo.mpr hn) ha

/-- A task at its owners' phase or later is past its waits. -/
theorem RunStep.past_wait (hI : Inv C s) {i : ℕ} {a : ForwardAction} {rest : List ForwardAction}
    {l' : ForwardingTask} (h : RunStep C s s' i a rest l') (ha : 1 < a.rank) (k : ObjectVersion) :
    dep (.wait k) ∉ (s.tasks i).todo :=
  h.done_of_lt hI ha

/-! ## The invariant -/

/-- The version whose owner an action reads. -/
def readOf : ForwardAction → Option ObjectVersion
  | getOwner k => some k
  | _ => none

theorem filterMap_readOf_processForwardingTask (i : ℕ) :
    (processForwardingTask C i).filterMap readOf = required C.txns i := by
  have hloop : ∀ ks, (getMissingStatesForTransaction ks).filterMap readOf = ks := by
    intro ks
    induction ks with
    | nil => rfl
    | cons k ks ih =>
      have ih : List.filterMap readOf
          (ks.flatMap fun k => [getOwner k, insertOwner k, removeOwner k]) = ks := ih
      simp [getMissingStatesForTransaction, List.filterMap_cons, readOf, ih]
  have hfb : (fallbackActions C.policy (required C.txns i)).filterMap readOf = [] := by
    cases C.policy <;> simp [fallbackActions, readOf]
  have hsend : (sendActions C).filterMap readOf = [] := by
    unfold sendActions
    cases C.mode <;> simp [pickStatelessProxy, readOf]
  have hdep : ∀ l : List (Action ObjectVersion), (l.map dep).filterMap readOf = [] := by
    intro l
    simp [readOf]
  simp only [processForwardingTask, List.filterMap_append, ← List.map_map, hdep, hloop, hfb, hsend]
  simp [readOf]

theorem mem_filterMap_readOf {todo : List ForwardAction} {k : ObjectVersion} :
    k ∈ todo.filterMap readOf ↔ getOwner k ∈ todo := by
  rw [List.mem_filterMap]
  constructor
  · rintro ⟨a, ha, hak⟩
    cases a <;> simp_all [readOf]
  · exact fun h => ⟨_, h, rfl⟩

/-- What the messages, the owners and the hints are at every moment. -/
structure Hints (C : Primary τ) (s : State τ) : Prop where
  unsent : ∀ i, sendTxn ∈ (s.tasks i).todo → s.context.sent (.stateful i) = none
  sent : ∀ i, sendTxn ∉ (s.tasks i).todo → ∃ t p, C.transaction i = some t ∧
    (s.tasks i).proxyId = some p ∧ s.context.sent (.stateful i) = some (p,
      statefulMessage C.mode t p (s.tasks i).statelessProxyId (s.tasks i).requiredStates)
  chosen : ∀ i, fallback ∉ (s.tasks i).todo → (s.tasks i).proxyId ≠ none
  owner : ∀ k q, s.context.statesToProxy k = some q ↔
    (∃ i, Produces C.txns i k ∧ (∀ v, insertOwner (k.1, v) ∉ (s.tasks i).todo) ∧
      (s.tasks i).proxyId = some q) ∧
    ∀ j, k ∈ required C.txns j → removeOwner k ∈ (s.tasks j).todo
  states : ∀ i, (s.tasks i).requiredStates.map Prod.fst ++
    (s.tasks i).todo.filterMap readOf = required C.txns i
  exact : ∀ i k hint, (k, hint) ∈ (s.tasks i).requiredStates →
    ∃ p, (s.tasks i).proxyId = some p ∧ (k.2 ≤ initialVersion → hint = none) ∧
      ∀ j, Produces C.txns j k → sendTxn ∉ (s.tasks j).todo ∧
        ∃ q, (s.tasks j).proxyId = some q ∧ hint = previousOwnerValue (some q) p

namespace Hints

theorem init : Hints C (State.init C) where
  unsent i _ := rfl
  sent i h := absurd (sendTxn_mem_processForwardingTask C i) h
  chosen i h := absurd (fallback_mem_processForwardingTask C i) h
  owner k q := by
    refine ⟨fun h => by simp [State.init] at h, ?_⟩
    rintro ⟨⟨i, hi, hins, -⟩, -⟩
    obtain ⟨v, hv⟩ := exists_required (produces_iff.mp hi).1
    exact absurd ((insertOwner_mem_processForwardingTask C i).mpr hv) (hins v)
  states i := by
    simp [State.init, ForwardingTask.new, filterMap_readOf_processForwardingTask]
  exact i k hint h := by simp [State.init, ForwardingTask.new] at h

theorem idle (hH : Hints C s) (h : Idle C s s') : Hints C s' := by
  obtain ⟨ht, -, hst, hsent, -⟩ := h
  refine ⟨?_, ?_, ?_, ?_, ?_, ?_⟩ <;> simp only [ht, hst, hsent]
  · exact hH.unsent
  · exact hH.sent
  · exact hH.chosen
  · exact hH.owner
  · exact hH.states
  · exact hH.exact

section Step

variable {i : ℕ} {a : ForwardAction} {rest : List ForwardAction} {l' : ForwardingTask}
  (hI : Inv C s) (hH : Hints C s) (h : RunStep C s s' i a rest l')

/-- A version whose hint has been read is not read again. -/
theorem getOwner_notMem (hH : Hints C s) {j : ℕ} {k : ObjectVersion} {hint : Option ProxyId}
    (hk : (k, hint) ∈ (s.tasks j).requiredStates) : getOwner k ∉ (s.tasks j).todo := by
  have hnd : (required C.txns j).Nodup := nodup_required j
  rw [← hH.states j, List.nodup_append] at hnd
  intro hm
  exact hnd.2.2 k (List.mem_map.mpr ⟨_, hk, rfl⟩) k (mem_filterMap_readOf.mpr hm) rfl

include hI hH h

theorem step_unsent (j : ℕ) (hj : sendTxn ∈ (s'.tasks j).todo) :
    s'.context.sent (.stateful j) = none := by
  have hold := hH.unsent j (h.mem_of_mem hj)
  by_cases ha : a = sendTxn
  · subst ha
    have hji : j ≠ i := by
      rintro rfl
      exact h.notMem_self hI hj
    obtain ⟨t, -, hp⟩ := Option.bind_eq_some_iff.mp h.perform
    obtain ⟨p, -, hp⟩ := Option.bind_eq_some_iff.mp hp
    obtain ⟨hctx, -⟩ := Prod.mk.inj (Option.some.inj hp)
    rw [← hctx]
    simpa [hji] using hold
  · rw [h.frame.sentStateful ha, hold]

theorem step_sent (j : ℕ) (hj : sendTxn ∉ (s'.tasks j).todo) :
    ∃ t p, C.transaction j = some t ∧ (s'.tasks j).proxyId = some p ∧
      s'.context.sent (.stateful j) = some (p, statefulMessage C.mode t p
        (s'.tasks j).statelessProxyId (s'.tasks j).requiredStates) := by
  by_cases ha : a = sendTxn
  · subst ha
    obtain ⟨t, ht, hp⟩ := Option.bind_eq_some_iff.mp h.perform
    obtain ⟨p, hp', hp⟩ := Option.bind_eq_some_iff.mp hp
    obtain ⟨hctx, rfl⟩ := Prod.mk.inj (Option.some.inj hp)
    rw [← hctx]
    rcases eq_or_ne j i with rfl | hji
    · exact ⟨t, p, ht, by simpa [h.task_self] using hp', by simp [h.task_self]⟩
    · rw [h.task_ne hji] at hj ⊢
      simpa [hji] using hH.sent j hj
  · rw [h.mem_todo_iff (Ne.symm ha)] at hj
    rw [h.frame.sentStateful ha]
    rcases eq_or_ne j i with rfl | hji
    · -- only notifications are left, and they change neither the proxy nor the states
      have hrank : ∀ b : ForwardAction, b.rank ≤ 10 → a ≠ b := by
        rintro b hb rfl
        rcases Nat.lt_or_ge a.rank 10 with hlt | hge
        · exact Program.done_of_done (staged_processForwardingTask C j).ordered (hI.suffix j)
            (sendTxn_mem_processForwardingTask C j) hj hlt h.head_mem
        · cases a <;> simp [rank] at hb hge
          · rename_i c
            cases c <;> simp at hb hge
          · exact ha rfl
      rw [h.task_self]
      simp only [h.frame.proxyId (hrank _ (by decide)) (hrank _ (by decide)),
        h.frame.requiredStates fun k => hrank _ (show (getOwner k).rank ≤ 10 by simp [rank]),
        h.frame.statelessProxyId (hrank _ (by decide)) (hrank _ (by decide))]
      exact hH.sent j hj
    · rw [h.task_ne hji]
      exact hH.sent j hj

theorem step_chosen (j : ℕ) (hj : fallback ∉ (s'.tasks j).todo) :
    (s'.tasks j).proxyId ≠ none := by
  by_cases hold : fallback ∈ (s.tasks j).todo
  · have ha : a = fallback := by
      by_contra ha
      exact hj ((h.mem_todo_iff (Ne.symm ha) j).mpr hold)
    have hji : j = i := by
      by_contra hji
      rw [h.task_ne hji] at hj
      exact hj hold
    subst ha hji
    rw [h.task_self]
    have hp := h.perform
    simp only [perform] at hp
    split at hp
    · rename_i p hsome
      obtain ⟨-, rfl⟩ := Prod.mk.inj (Option.some.inj hp)
      simp [hsome]
    · obtain ⟨t, -, hp⟩ := Option.bind_eq_some_iff.mp hp
      obtain ⟨p, -, hp⟩ := Option.bind_eq_some_iff.mp hp
      obtain ⟨-, rfl⟩ := Prod.mk.inj (Option.some.inj hp)
      simp
  · rw [h.proxyId_eq hI hold]
    exact hH.chosen j hold

omit hI in
theorem step_states (j : ℕ) :
    (s'.tasks j).requiredStates.map Prod.fst ++ (s'.tasks j).todo.filterMap readOf =
      required C.txns j := by
  rcases eq_or_ne j i with rfl | hji
  · have hold := hH.states j
    rw [h.todo] at hold
    rw [h.task_self]
    by_cases ha : ∃ k, a = getOwner k
    · obtain ⟨k, rfl⟩ := ha
      obtain ⟨p, -, hp⟩ := Option.map_eq_some_iff.mp h.perform
      obtain ⟨-, rfl⟩ := Prod.mk.inj hp
      simpa [List.filterMap_cons, readOf] using hold
    · have hnone : readOf a = none := by
        cases a <;> simp_all [readOf]
      rw [List.filterMap_cons, hnone] at hold
      simpa [h.frame.requiredStates fun k hk => ha ⟨k, hk⟩] using hold
  · rw [h.task_ne hji]
    exact hH.states j

omit hI hH h in
/-- A task that has recorded an owner, or sent its transaction, has chosen its proxy. -/
theorem fallback_notMem (hI : Inv C s) {j : ℕ} {b : ForwardAction}
    (hb : b ∈ processForwardingTask C j) (hrank : 5 < b.rank) (hdone : b ∉ (s.tasks j).todo) :
    fallback ∉ (s.tasks j).todo :=
  Program.done_of_done (staged_processForwardingTask C j).ordered (hI.suffix j) hb hdone hrank

omit hI hH h in
theorem fallback_notMem_of_recorded (hI : Inv C s) {j : ℕ} {k : ObjectVersion}
    (hk : Produces C.txns j k) (hrec : ∀ v, insertOwner (k.1, v) ∉ (s.tasks j).todo) :
    fallback ∉ (s.tasks j).todo := by
  obtain ⟨v, hv⟩ := exists_required (produces_iff.mp hk).1
  exact fallback_notMem hI ((insertOwner_mem_processForwardingTask C j).mpr hv) (by simp [rank])
    (hrec v)

/-- Where an action is about other versions, it leaves the owner of `k` as it is. -/
theorem step_owner_of_ne {k : ObjectVersion} (hst : s'.context.statesToProxy k =
    s.context.statesToProxy k) (hins : ∀ v, Produces C.txns i k → a ≠ insertOwner (k.1, v))
    (hrem : a ≠ removeOwner k) (q : ProxyId) :
    s'.context.statesToProxy k = some q ↔
    (∃ j, Produces C.txns j k ∧ (∀ v, insertOwner (k.1, v) ∉ (s'.tasks j).todo) ∧
      (s'.tasks j).proxyId = some q) ∧
    ∀ j, k ∈ required C.txns j → removeOwner k ∈ (s'.tasks j).todo := by
  have hrec : ∀ j, Produces C.txns j k → ((∀ v, insertOwner (k.1, v) ∉ (s'.tasks j).todo) ↔
      ∀ v, insertOwner (k.1, v) ∉ (s.tasks j).todo) := by
    intro j hj
    refine forall_congr' fun v => not_congr ?_
    rcases eq_or_ne j i with rfl | hji
    · exact h.mem_todo_iff (hins v hj).symm j
    · rw [h.task_ne hji]
  rw [hst, hH.owner k q]
  refine and_congr (exists_congr fun j => and_congr_right fun hj => ?_)
    (forall_congr' fun j => imp_congr_right fun _ => (h.mem_todo_iff hrem.symm j).symm)
  rw [hrec j hj]
  refine and_congr_right fun hr => ?_
  rw [h.proxyId_eq hI (fallback_notMem_of_recorded hI hj hr)]

omit hH in
/-- The producer records its version, and the consumer, if there is one, still waits. -/
theorem step_owner_of_insertOwner {k₀ : ObjectVersion} (ha : a = insertOwner k₀) (q : ProxyId) :
    s'.context.statesToProxy (k₀.1, produced C.txns i) = some q ↔
    (∃ j, Produces C.txns j (k₀.1, produced C.txns i) ∧
      (∀ v, insertOwner (k₀.1, v) ∉ (s'.tasks j).todo) ∧ (s'.tasks j).proxyId = some q) ∧
    ∀ j, (k₀.1, produced C.txns i) ∈ required C.txns j →
      removeOwner (k₀.1, produced C.txns i) ∈ (s'.tasks j).todo := by
  subst ha
  have hk₀ : k₀ ∈ required C.txns i :=
    (insertOwner_mem_processForwardingTask C i).mp ((hI.suffix i).subset h.head_mem)
  obtain ⟨p, hp, hperf⟩ := Option.map_eq_some_iff.mp h.perform
  obtain ⟨hctx, rfl⟩ := Prod.mk.inj hperf
  have ho : k₀.1 ∈ accessed C.txns i := accessed_of_required hk₀
  have hprod : Produces C.txns i (k₀.1, produced C.txns i) := produces_iff.mpr ⟨ho, rfl⟩
  have hself : s'.context.statesToProxy (k₀.1, produced C.txns i) = some p := by
    rw [← hctx]
    exact update_self _ _ _
  have hproxy : (s'.tasks i).proxyId = some p := by
    rw [h.task_self]
    exact hp
  have hrec : ∀ v, insertOwner (k₀.1, v) ∉ (s'.tasks i).todo := by
    intro v hv
    have hv' : (k₀.1, v) ∈ required C.txns i := by
      have := (hI.suffix i).subset (h.mem_of_mem hv)
      rwa [insertOwner_mem_processForwardingTask] at this
    obtain rfl : v = k₀.2 := required_unique hv' hk₀
    exact h.notMem_self hI hv
  have hleft : ∀ j, (k₀.1, produced C.txns i) ∈ required C.txns j →
      removeOwner (k₀.1, produced C.txns i) ∈ (s'.tasks j).todo := by
    intro j hj
    rw [h.mem_todo_iff (by simp) j]
    by_contra hdone
    have hpast : dep (.wait (k₀.1, produced C.txns i)) ∉ (s.tasks j).todo :=
      Program.done_of_done (staged_processForwardingTask C j).ordered (hI.suffix j)
        ((removeOwner_mem_processForwardingTask C j).mpr hj) hdone (by simp [rank])
    exact hI.done_of_past hj hpast hprod (by simp [rank]) h.head_mem
  rw [hself]
  constructor
  · intro hq
    exact ⟨⟨i, hprod, hrec, hproxy.trans hq⟩, hleft⟩
  · rintro ⟨⟨j, hj, -, hq⟩, -⟩
    obtain rfl := producer_unique hprod hj
    exact hproxy.symm.trans hq

theorem step_owner (k : ObjectVersion) (q : ProxyId) :
    s'.context.statesToProxy k = some q ↔
    (∃ j, Produces C.txns j k ∧ (∀ v, insertOwner (k.1, v) ∉ (s'.tasks j).todo) ∧
      (s'.tasks j).proxyId = some q) ∧
    ∀ j, k ∈ required C.txns j → removeOwner k ∈ (s'.tasks j).todo := by
  cases a with
  | insertOwner k₀ =>
    by_cases hk : k = (k₀.1, produced C.txns i)
    · subst hk
      exact step_owner_of_insertOwner hI h rfl q
    · obtain ⟨p, -, hperf⟩ := Option.map_eq_some_iff.mp h.perform
      obtain ⟨hctx, -⟩ := Prod.mk.inj hperf
      refine step_owner_of_ne hI hH h ?_ (fun v hi hv => hk ?_) (by simp) q
      · rw [← hctx]
        exact update_of_ne hk _ _
      · have hv := insertOwner.inj hv
        rw [produces_iff] at hi
        exact Prod.ext (by rw [hv]) hi.2
  | removeOwner k₀ =>
    have hk₀ : k₀ ∈ required C.txns i :=
      (removeOwner_mem_processForwardingTask C i).mp ((hI.suffix i).subset h.head_mem)
    obtain ⟨hctx, -⟩ := Prod.mk.inj (Option.some.inj h.perform)
    rcases eq_or_ne k k₀ with rfl | hk
    · rw [← hctx]
      refine ⟨fun hq => by simp at hq, fun hq => ?_⟩
      exact absurd (hq.2 i hk₀) (h.notMem_self hI)
    · refine step_owner_of_ne hI hH h ?_ (by simp) (by simpa using hk.symm) q
      rw [← hctx]
      exact update_of_ne hk _ _
  | _ =>
    exact step_owner_of_ne hI hH h (by rw [h.frame.statesToProxy (by simp) (by simp)]) (by simp)
      (by simp) q

/-- The hint the consumer reads names its producer's proxy. -/
theorem hint_of_getOwner {k : ObjectVersion} (ha : a = getOwner k) {p : ProxyId} :
    (k.2 ≤ initialVersion → previousOwnerValue (s.context.statesToProxy k) p = none) ∧
      ∀ j, Produces C.txns j k → sendTxn ∉ (s.tasks j).todo ∧
        ∃ q, (s.tasks j).proxyId = some q ∧
          previousOwnerValue (s.context.statesToProxy k) p = previousOwnerValue (some q) p := by
  subst ha
  have hk : k ∈ required C.txns i :=
    (getOwner_mem_processForwardingTask C i).mp ((hI.suffix i).subset h.head_mem)
  constructor
  · intro hv
    cases hq : s.context.statesToProxy k with
    | none => rfl
    | some q =>
      obtain ⟨⟨j, hj, -⟩, -⟩ := (hH.owner k q).mp hq
      rw [(produces_iff.mp hj).2] at hv
      exact absurd (initialVersion_lt_produced j) (Nat.not_lt.mpr hv)
  · intro j hj
    have hdone : ∀ b : ForwardAction, b.rank < 11 → b ∉ (s.tasks j).todo := fun b =>
      hI.done_of_past hk (h.past_wait hI (by simp [rank]) k) hj
    obtain ⟨q, hq⟩ := Option.ne_none_iff_exists'.mp (hH.chosen j (hdone _ (by decide)))
    refine ⟨hdone _ (by decide), q, hq, ?_⟩
    have hleft : removeOwner k ∈ (s.tasks i).todo :=
      before_removeOwner C i k _ (hI.suffix i) h.head_mem
    rw [(hH.owner k q).mpr ⟨⟨j, hj, fun v => hdone _ (by simp [rank]), hq⟩, fun j' hj' => ?_⟩]
    obtain rfl := consumer_unique hk hj'
    exact hleft

theorem step_exact (j : ℕ) (k : ObjectVersion) (hint : Option ProxyId)
    (hk : (k, hint) ∈ (s'.tasks j).requiredStates) :
    ∃ p, (s'.tasks j).proxyId = some p ∧ (k.2 ≤ initialVersion → hint = none) ∧
      ∀ j', Produces C.txns j' k → sendTxn ∉ (s'.tasks j').todo ∧
        ∃ q, (s'.tasks j').proxyId = some q ∧ hint = previousOwnerValue (some q) p := by
  -- producers have sent, so that their proxies stay
  have hkeep : ∀ {j' p}, sendTxn ∉ (s.tasks j').todo ∧ (∃ q, (s.tasks j').proxyId = some q ∧
      hint = previousOwnerValue (some q) p) → sendTxn ∉ (s'.tasks j').todo ∧
      ∃ q, (s'.tasks j').proxyId = some q ∧ hint = previousOwnerValue (some q) p := by
    rintro j' p ⟨hsent, q, hq, hh⟩
    refine ⟨fun hm => hsent (h.mem_of_mem hm), q, ?_, hh⟩
    rw [h.proxyId_eq hI (fallback_notMem hI (sendTxn_mem_processForwardingTask C j') (by decide)
      hsent), hq]
  by_cases hold : (k, hint) ∈ (s.tasks j).requiredStates
  · obtain ⟨p, hp, h2, hprod⟩ := hH.exact j k hint hold
    refine ⟨p, ?_, h2, fun j' hj' => hkeep (hprod j' hj')⟩
    have hreq : k ∈ required C.txns j := by
      rw [← hH.states j]
      exact List.mem_append_left _ (List.mem_map.mpr ⟨_, hold, rfl⟩)
    rw [h.proxyId_eq hI (fallback_notMem hI ((getOwner_mem_processForwardingTask C j).mpr hreq)
      (by simp [rank]) (getOwner_notMem hH hold)), hp]
  · -- the entry is new, so the action has just read it
    have hji : j = i := by
      by_contra hji
      rw [h.task_ne hji] at hk
      exact hold hk
    subst hji
    rw [h.task_self] at hk
    obtain ⟨k₀, rfl⟩ : ∃ k₀, a = getOwner k₀ := by
      by_contra hne
      rw [h.frame.requiredStates fun k₀ hk₀ => hne ⟨k₀, hk₀⟩] at hk
      exact hold hk
    obtain ⟨p, hp, hperf⟩ := Option.map_eq_some_iff.mp h.perform
    obtain ⟨-, rfl⟩ := Prod.mk.inj hperf
    obtain ⟨rfl, rfl⟩ : k = k₀ ∧ hint = previousOwnerValue (s.context.statesToProxy k₀) p := by
      simpa [hold] using hk
    obtain ⟨h2, hprod⟩ := hint_of_getOwner hI hH h rfl (p := p)
    exact ⟨p, by rw [h.task_self]; exact hp, h2, fun j' hj' => hkeep (hprod j' hj')⟩

end Step

theorem step (hI : Inv C s) (hH : Hints C s) (h : SharedObjTxnForwarder.step C s e = some s') :
    Hints C s' := by
  rcases step_cases h with ⟨w, i, -, -, hr⟩ | ⟨hidle, -⟩
  · obtain ⟨a, rest, l', h⟩ := runStep_of_runTask hr
    exact ⟨step_unsent hI hH h, step_sent hI hH h, step_chosen hI hH h, step_owner hI hH h,
      step_states hH h, step_exact hI hH h⟩
  · exact hH.idle hidle

end Hints

theorem hints_of_reachable (h : (system C).Reachable s) : Hints C s :=
  h.invariant (fun _ h => h ▸ Hints.init) fun _ _ _ hr hH hs =>
    hH.step (inv_of_reachable hr) hs

/-! ## What a transaction is sent with -/

theorem requiredStates_statefulMessage (mode : SeparationMode) (t : RemoraTransaction τ)
    (p stateless : ProxyId) (states : RequiredStates) :
    (statefulMessage mode t p stateless states).requiredStates = states := by
  unfold statefulMessage
  split_ifs <;> rfl

theorem previousOwnerValue_eq_some {q q' p : ProxyId} :
    previousOwnerValue (some q) p = some q' ↔ q = q' ∧ q' ≠ p := by
  simp only [previousOwnerValue]
  split_ifs with h
  · simp only [Option.some.injEq]
    exact ⟨fun hq => ⟨hq, hq ▸ h⟩, fun hq => hq.1⟩
  · simp only [false_iff]
    rintro ⟨rfl, hne⟩
    exact h hne

theorem previousOwnerValue_eq_none {q p : ProxyId} :
    previousOwnerValue (some q) p = none ↔ q = p := by
  simp only [previousOwnerValue]
  split_ifs with h
  · simpa using h
  · simpa using h

namespace Hints

/-- What has been sent for a transaction is what its task knows. -/
theorem sent_eq_some (hH : Hints C s) {i : ℕ} {p : ProxyId} {msg : PrimaryToProxyMessage τ}
    (h : s.context.sent (.stateful i) = some (p, msg)) :
    sendTxn ∉ (s.tasks i).todo ∧ (s.tasks i).proxyId = some p ∧ ∃ t, C.transaction i = some t ∧
      msg = statefulMessage C.mode t p (s.tasks i).statelessProxyId (s.tasks i).requiredStates := by
  have hdone : sendTxn ∉ (s.tasks i).todo := fun hm => by simp [hH.unsent i hm] at h
  obtain ⟨t, p', ht, hp, hs⟩ := hH.sent i hdone
  obtain ⟨rfl, rfl⟩ := Prod.mk.inj (Option.some.inj (hs.symm.trans h))
  exact ⟨hdone, hp, t, ht, rfl⟩

/-- A transaction is forwarded to the proxy its task chose. -/
theorem forwardedTo_eq (hH : Hints C s) {j : ℕ} (hj : sendTxn ∉ (s.tasks j).todo) :
    forwardedTo s j = (s.tasks j).proxyId := by
  obtain ⟨t, p, -, hp, hs⟩ := hH.sent j hj
  simp [forwardedTo, hs, hp]

/-- A transaction's states are the versions it requires, each with its hint. -/
theorem states_of_sent (hI : Inv C s) (hH : Hints C s) {i : ℕ} {p : ProxyId}
    {msg : PrimaryToProxyMessage τ} (h : s.context.sent (.stateful i) = some (p, msg)) :
    msg.requiredStates.map Prod.fst = required C.txns i := by
  obtain ⟨hdone, -, t, -, rfl⟩ := hH.sent_eq_some h
  have hstates := hH.states i
  have hnil : (s.tasks i).todo.filterMap readOf = [] := by
    refine List.eq_nil_iff_forall_not_mem.mpr fun k hk => ?_
    exact Program.done_of_done (staged_processForwardingTask C i).ordered (hI.suffix i)
      (sendTxn_mem_processForwardingTask C i) hdone (by simp [rank]) (mem_filterMap_readOf.mp hk)
  rwa [requiredStates_statefulMessage, ← List.append_nil (List.map _ _), ← hnil]

/-- The hint of a version above 2 names the proxy of its producer, which has been
forwarded. -/
theorem hint_of_sent (hH : Hints C s) {i : ℕ} {p : ProxyId} {msg : PrimaryToProxyMessage τ}
    (h : s.context.sent (.stateful i) = some (p, msg)) {k : ObjectVersion}
    {hint : Option ProxyId} (hk : (k, hint) ∈ msg.requiredStates) :
    (k.2 ≤ initialVersion → hint = none) ∧ ∀ j, Produces C.txns j k →
      ∃ q, forwardedTo s j = some q ∧ hint = previousOwnerValue (some q) p := by
  obtain ⟨-, hp, t, -, rfl⟩ := hH.sent_eq_some h
  rw [requiredStates_statefulMessage] at hk
  obtain ⟨p', hp', h2, hprod⟩ := hH.exact i k hint hk
  obtain rfl : p = p' := Option.some.inj (hp.symm.trans hp')
  refine ⟨h2, fun j hj => ?_⟩
  obtain ⟨hdone, q, hq, hh⟩ := hprod j hj
  exact ⟨q, by rw [hH.forwardedTo_eq hdone, hq], hh⟩

end Hints

/-- Verification requests are sent in the modes that separate them at the primary. -/
theorem statelessTxn_of_sent (hs : (SharedObjTxnForwarder.system C).Reachable s) {n : ℕ}
    {p : ProxyId}
    {msg : PrimaryToProxyMessage τ} (h : s.context.sent (.stateless n) = some (p, msg)) :
    C.mode.isPrimarySeparation = true ∧ ∃ r, msg = .statelessTxn r := by
  revert n p msg
  refine Transition.System.Reachable.invariant (I := fun s => ∀ {n p msg},
    s.context.sent (.stateless n) = some (p, msg) →
      C.mode.isPrimarySeparation = true ∧ ∃ r, msg = .statelessTxn r) ?_ ?_ hs
  · rintro s rfl n p msg h
    simp [SharedObjTxnForwarder.State.init] at h
  · intro s e s' hs hold hstep n p msg h
    rcases SharedObjTxnForwarder.step_cases hstep with ⟨w, i, -, -, hr⟩ | ⟨hidle, -⟩
    · obtain ⟨a, rest, l', hrun⟩ := SharedObjTxnForwarder.runStep_of_runTask hr
      by_cases ha : a = .sendStateless
      · subst ha
        obtain ⟨t, -, hperf⟩ := Option.map_eq_some_iff.mp hrun.perform
        obtain ⟨hctx, -⟩ := Prod.mk.inj hperf
        have hmode := mode_of_mem_processForwardingTask C i (Or.inr rfl)
          (((SharedObjTxnForwarder.inv_of_reachable hs).suffix i).subset hrun.head_mem)
        rw [← hctx] at h
        rcases eq_or_ne n i with rfl | hni
        · simp only [update_self, Option.some.injEq, Prod.mk.injEq] at h
          exact ⟨by rw [hmode]; rfl, _, h.2.symm⟩
        · exact hold (by simpa [hni] using h)
      · rw [hrun.frame.sentStateless ha] at h
        exact hold h
    · rcases hidle.sentStateless n with heq | ⟨hmode, q, r, heq⟩
      · exact hold (heq ▸ h)
      · rw [heq] at h
        simp only [Option.some.injEq, Prod.mk.injEq] at h
        exact ⟨by rw [hmode]; rfl, r, h.2.symm⟩

/-- In every state the workers can reach, the states sent with a transaction to `p` are
the versions it requires, each with the proxy its producer was forwarded to if that is
another one, and with none if the version is initial or its producer was forwarded to
`p`. A proxy is therefore never told to fetch a state from itself. -/
theorem exact_ownership_hints (C : Primary τ) (s : State τ) (hs : (system C).Reachable s)
    (i : ℕ) (p : ProxyId) (msg : PrimaryToProxyMessage τ)
    (h : s.context.sent (.stateful i) = some (p, msg)) :
    msg.requiredStates.map Prod.fst = required C.txns i ∧
    ∀ k hint, (k, hint) ∈ msg.requiredStates →
      (∀ q, hint = some q ↔
        (∃ j, Produces C.txns j k ∧ forwardedTo s j = some q) ∧ q ≠ p) ∧
      (hint = none ↔ k.2 = 2 ∨ ∃ j, Produces C.txns j k ∧ forwardedTo s j = some p) ∧
      hint ≠ some p := by
  have hI := inv_of_reachable hs
  have hH := hints_of_reachable hs
  have hstates := hH.states_of_sent hI h
  refine ⟨hstates, fun k hint hk => ?_⟩
  have hreq : k ∈ required C.txns i := by
    rw [← hstates]
    exact List.mem_map.mpr ⟨_, hk, rfl⟩
  obtain ⟨hinit, hprod⟩ := hH.hint_of_sent h hk
  rcases Nat.lt_or_ge initialVersion k.2 with hv | hv
  · obtain ⟨j, -, hj⟩ := exists_producer hreq hv
    obtain ⟨q, hq, rfl⟩ := hprod j hj
    have huniq : ∀ q', (∃ j', Produces C.txns j' k ∧ forwardedTo s j' = some q') ↔ q = q' := by
      intro q'
      constructor
      · rintro ⟨j', hj', hq'⟩
        obtain rfl := producer_unique hj hj'
        exact Option.some.inj (hq.symm.trans hq')
      · rintro rfl
        exact ⟨j, hj, hq⟩
    refine ⟨fun q' => ?_, ?_, fun hself => ?_⟩
    · rw [previousOwnerValue_eq_some, huniq]
    · rw [previousOwnerValue_eq_none, huniq]
      exact ⟨Or.inr, fun h => h.resolve_left (ne_of_gt hv)⟩
    · exact (previousOwnerValue_eq_some.mp hself).2 rfl
  · have hnone : ¬∃ j, Produces C.txns j k := by
      rintro ⟨j, hj⟩
      rw [(produces_iff.mp hj).2] at hv
      exact absurd (initialVersion_lt_produced j) (Nat.not_lt.mpr hv)
    obtain rfl := hinit hv
    refine ⟨fun q => ⟨fun hq => by simp at hq, ?_⟩, ?_, by simp⟩
    · rintro ⟨⟨j, hj, -⟩, -⟩
      exact absurd ⟨j, hj⟩ hnone
    · exact ⟨fun _ => Or.inl (le_antisymm hv (initialVersion_le_of_required hreq)), fun _ => rfl⟩

/-- Two transactions on one object, two proxies and two workers. -/
def twoProxies : Primary Unit where
  mode := .NoSeparation
  policy := .RSDS
  connections := [0, 1]
  numWorkers := 2
  bufferSize := 1
  txns := [.new () 10 [.sharedMoveObject 7] 1 1, .new () 11 [.sharedMoveObject 7] 1 1]
  nodup := by decide

/-- Both are forwarded, the first one to proxy 0 and the second one to proxy 1. -/
def twoProxiesRun : List Event :=
  [.sendTask, .sendTask, .recv 0, .recv 1] ++ List.replicate 9 (.run 0) ++
    List.replicate 10 (.run 1)

/-- The second transaction is told to fetch version 3 from the proxy of the first. -/
theorem exact_ownership_hints_two_proxies :
    ∃ s msg, (system twoProxies).Reachable s ∧ s.context.sent (.stateful 1) = some (1, msg) ∧
      msg.requiredStates = [((7, 3), some 0)] ∧
      ∃ j, Produces twoProxies.txns j (7, 3) ∧ forwardedTo s j = some 0 := by
  have hview : (((system twoProxies).run (State.init twoProxies) twoProxiesRun).bind
      fun s => (s.context.sent (.stateful 1)).map fun m => (m.1, m.2.requiredStates)) =
        some (1, [((7, 3), some 0)]) := by decide
  obtain ⟨s, hrun, hview⟩ := Option.bind_eq_some_iff.mp hview
  obtain ⟨⟨p, msg⟩, hsent, hview⟩ := Option.map_eq_some_iff.mp hview
  obtain ⟨rfl, hstates⟩ := Prod.mk.inj hview
  have hs : (system twoProxies).Reachable s :=
    Transition.System.reachable_run (.init rfl) hrun
  have hex := exact_ownership_hints twoProxies s hs 1 1 msg hsent
  have hk := hex.2 (7, 3) (some 0) (by rw [hstates]; simp)
  exact ⟨s, msg, hs, hsent, hstates, ((hk.1 0).mp rfl).1⟩

end SharedObjTxnForwarder

end Remora
