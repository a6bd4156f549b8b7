import Remora.OwnershipHints

/-!
# The stateless forwarder

In `PrimaryPreSeparation` the primary has a transaction verified while consensus orders
it. Mock consensus hands the verification request of every transaction it receives to a
second worker pool before it puts the transaction in a batch. A task of that pool picks
the least loaded proxy, sends it the request, and then records the proxy in
`stateless_forwarding_table`, where the transaction's forwarding task looks it up.

Nothing orders the record before the lookup. `stateless_routing_agreement_iff` : the
lookup finds the right proxy and the table is left clean exactly when the entry is
already there. A lookup that comes first falls back to proxy 0, and the entry stays in
the table for good.
-/

namespace Remora

open Function

variable {τ : Type}

/-- The order in which the transactions reach mock consensus. -/
structure Submission (C : Primary τ) where
  order : List ℕ
  perm : order.Perm (List.range C.txns.length)

/-- The `n`-th request handed to the stateless forwarder. -/
def Submission.request {C : Primary τ} (U : Submission C) (n : ℕ) :
    Option StatelessVerificationRequest :=
  (U.order[n]?.bind fun i => C.txns[i]?).map makeVerificationRequest

namespace StatelessTxnForwarder

/-- One atomic operation of a stateless forwarding task. -/
inductive StatelessAction
  | readLoad (p : ProxyId)
  | pickStateless
  | sendToProxy
  | insertStateless
  deriving DecidableEq

open StatelessAction

/-- `StatelessForwardingTask::process`. -/
def process (connections : List ProxyId) : List StatelessAction :=
  connections.map readLoad ++ [pickStateless, sendToProxy, insertStateless]

structure StatelessForwardingTask where
  todo : List StatelessAction
  leastLoaded : Option (ProxyId × ℕ)
  proxy : ProxyId

/-- The shared forwarder, the pool of the stateless forwarder, and how many transactions
mock consensus has received. -/
structure State (τ : Type) where
  forwarder : SharedObjTxnForwarder.State τ
  pool : WorkerPool
  tasks : ℕ → StatelessForwardingTask
  received : ℕ

inductive Event
  /-- Mock consensus receives the next transaction. -/
  | receive
  /-- A step of the shared forwarder or of the scheduler. -/
  | shared (e : SharedObjTxnForwarder.Event)
  | sendTask
  | recv (w : ℕ)
  | run (w : ℕ)
  | finish (w : ℕ)

variable (C : Primary τ) (U : Submission C)

def State.init : State τ where
  forwarder := SharedObjTxnForwarder.State.init C
  pool := WorkerPool.empty
  tasks := fun _ => ⟨process C.connections, none, 0⟩
  received := 0

/-- What an action of the `n`-th task does to the shared maps and its variables. -/
def StatelessAction.perform (n : ℕ) (F : SharedObjTxnForwarder.State τ)
    (l : StatelessForwardingTask) :
    StatelessAction → Option (SharedObjTxnForwarder.State τ × StatelessForwardingTask)
  | readLoad p => some (F, { l with
      leastLoaded := minByLoad l.leastLoaded p (F.context.proxyLoads p) })
  | pickStateless => (U.request n).bind fun r =>
      let p := (l.leastLoaded.map Prod.fst).getD 0
      (SharedObjTxnForwarder.step C F (.load p r.costHint)).map fun F' =>
        (F', { l with proxy := p })
  | sendToProxy => (U.request n).bind fun r =>
      (SharedObjTxnForwarder.step C F (.sendStateless n l.proxy r)).map fun F' => (F', l)
  | insertStateless => (U.request n).bind fun r =>
      (SharedObjTxnForwarder.step C F (.insertStateless r.digest l.proxy)).map fun F' => (F', l)

/-- The steps the shared forwarder and the scheduler take on their own. A transaction is
dispatched only after mock consensus has received it. -/
def enabled (s : State τ) : SharedObjTxnForwarder.Event → Bool
  | .sendTask => (U.order.take s.received).contains s.forwarder.pool.sent
  | .sendStateless _ _ _ | .insertStateless _ _ => false
  | _ => true

def runTask (s : State τ) (n : ℕ) : Option (State τ) :=
  match (s.tasks n).todo with
  | [] => none
  | a :: rest => (a.perform C U n s.forwarder (s.tasks n)).map fun (F, l) =>
      { s with forwarder := F, tasks := update s.tasks n { l with todo := rest } }

def step (s : State τ) : Event → Option (State τ)
  | .receive =>
    if s.received < U.order.length then some { s with received := s.received + 1 } else none
  | .shared e =>
    if enabled C U s e then
      (SharedObjTxnForwarder.step C s.forwarder e).map fun F => { s with forwarder := F }
    else none
  | .sendTask =>
    if s.pool.sent < s.received then
      (s.pool.sendTask C.numWorkers C.bufferSize).map fun pool => { s with pool := pool }
    else none
  | .recv w => (s.pool.recv C.numWorkers w).map fun pool => { s with pool := pool }
  | .run w => (s.pool.running w).bind fun n => runTask C U s n
  | .finish w =>
    (s.pool.running w).bind fun n =>
      if (s.tasks n).todo.isEmpty then
        (s.pool.finish w).map fun pool => { s with pool := pool }
      else none

/-- Every interleaving of mock consensus and the two pools. -/
def system : Transition.System (State τ) Event where
  init s := s = State.init C
  step := step C U

variable {C U} {s s' : State τ} {e : Event}

/-! ## Steps -/

namespace StatelessAction

/-- The phase of an action. -/
def rank : StatelessAction → ℕ
  | readLoad _ => 0
  | pickStateless => 1
  | sendToProxy => 2
  | insertStateless => 3

end StatelessAction

theorem ordered_process (connections : List ProxyId) :
    Program.Ordered rank (process connections) := by
  have hload : Program.Staged rank 0 1 (connections.map readLoad) :=
    Program.Staged.map readLoad _ fun _ => rfl
  have hrest : Program.Staged rank 1 4 [pickStateless, sendToProxy, insertStateless] := by
    refine ⟨?_, ?_, ?_⟩ <;> simp [Program.Ordered, rank]
  exact (hload.append hrest (by omega) (by omega)).ordered

theorem nodup_process {connections : List ProxyId} (h : connections.Nodup) :
    (process connections).Nodup := by
  have hload : (connections.map readLoad).Nodup := h.map fun a b hab => readLoad.inj hab
  simp [process, List.nodup_append, hload]

/-- Task `n` performs its next action `a`. -/
structure RunStep (C : Primary τ) (U : Submission C) (s s' : State τ) (n : ℕ)
    (a : StatelessAction) (rest : List StatelessAction) (l' : StatelessForwardingTask) : Prop where
  todo : (s.tasks n).todo = a :: rest
  perform : a.perform C U n s.forwarder (s.tasks n) = some (s'.forwarder, l')
  tasks : s'.tasks = update s.tasks n { l' with todo := rest }

/-- A step is an action of a stateless forwarding task, a step of the shared forwarder,
or concerns neither's maps. -/
theorem step_cases (h : step C U s e = some s') :
    (∃ n a rest l', RunStep C U s s' n a rest l') ∨
    (s'.tasks = s.tasks ∧ ∃ e', enabled C U s e' = true ∧
      SharedObjTxnForwarder.step C s.forwarder e' = some s'.forwarder) ∨
    (s'.tasks = s.tasks ∧ s'.forwarder = s.forwarder) := by
  cases e with
  | receive =>
    simp only [step] at h
    split_ifs at h
    obtain rfl := Option.some.inj h
    exact Or.inr (Or.inr ⟨rfl, rfl⟩)
  | shared e =>
    simp only [step] at h
    split_ifs at h with he
    obtain ⟨F, hF, rfl⟩ := Option.map_eq_some_iff.mp h
    exact Or.inr (Or.inl ⟨rfl, e, he, hF⟩)
  | sendTask =>
    simp only [step] at h
    split_ifs at h
    obtain ⟨pool, -, rfl⟩ := Option.map_eq_some_iff.mp h
    exact Or.inr (Or.inr ⟨rfl, rfl⟩)
  | recv w =>
    obtain ⟨pool, -, rfl⟩ := Option.map_eq_some_iff.mp h
    exact Or.inr (Or.inr ⟨rfl, rfl⟩)
  | run w =>
    obtain ⟨n, -, hr⟩ := Option.bind_eq_some_iff.mp h
    unfold runTask at hr
    split at hr
    · simp at hr
    · rename_i a rest ht
      obtain ⟨⟨F, l'⟩, hp, rfl⟩ := Option.map_eq_some_iff.mp hr
      exact Or.inl ⟨n, a, rest, l', ht, hp, rfl⟩
  | finish w =>
    obtain ⟨n, -, hr⟩ := Option.bind_eq_some_iff.mp h
    split_ifs at hr
    obtain ⟨pool, -, rfl⟩ := Option.map_eq_some_iff.mp hr
    exact Or.inr (Or.inr ⟨rfl, rfl⟩)

/-- An action reads a load, or is a step of the shared forwarder's environment. -/
theorem perform_cases {n : ℕ} {F F' : SharedObjTxnForwarder.State τ}
    {l l' : StatelessForwardingTask} {a : StatelessAction}
    (h : a.perform C U n F l = some (F', l')) :
    match a with
    | readLoad _ => F' = F ∧ l'.proxy = l.proxy
    | pickStateless => ∃ p weight, SharedObjTxnForwarder.step C F (.load p weight) = some F'
    | sendToProxy => l' = l ∧ ∃ r, U.request n = some r ∧
        SharedObjTxnForwarder.step C F (.sendStateless n l.proxy r) = some F'
    | insertStateless => l' = l ∧ ∃ r, U.request n = some r ∧
        SharedObjTxnForwarder.step C F (.insertStateless r.digest l.proxy) = some F' := by
  cases a with
  | readLoad p =>
    obtain ⟨rfl, rfl⟩ := Prod.mk.inj (Option.some.inj h)
    exact ⟨rfl, rfl⟩
  | pickStateless =>
    obtain ⟨r, -, h⟩ := Option.bind_eq_some_iff.mp h
    obtain ⟨F, hF, h⟩ := Option.map_eq_some_iff.mp h
    obtain ⟨rfl, -⟩ := Prod.mk.inj h
    exact ⟨_, _, hF⟩
  | sendToProxy =>
    obtain ⟨r, hr, h⟩ := Option.bind_eq_some_iff.mp h
    obtain ⟨F, hF, h⟩ := Option.map_eq_some_iff.mp h
    obtain ⟨rfl, rfl⟩ := Prod.mk.inj h
    exact ⟨rfl, r, hr, hF⟩
  | insertStateless =>
    obtain ⟨r, hr, h⟩ := Option.bind_eq_some_iff.mp h
    obtain ⟨F, hF, h⟩ := Option.map_eq_some_iff.mp h
    obtain ⟨rfl, rfl⟩ := Prod.mk.inj h
    exact ⟨rfl, r, hr, hF⟩

/-- What the shared forwarder does here, it does in its own system. -/
theorem forwarder_reachable (h : (system C U).Reachable s) :
    (SharedObjTxnForwarder.system C).Reachable s.forwarder := by
  refine Transition.System.Reachable.invariant
    (I := fun s => (SharedObjTxnForwarder.system C).Reachable s.forwarder)
    (fun s hs => hs ▸ .init rfl) (fun s e s' _ hr hs => ?_) h
  rcases step_cases hs with ⟨n, a, rest, l', hrun⟩ | ⟨-, e', -, hF⟩ | ⟨-, hF⟩
  · have hp := perform_cases hrun.perform
    cases a with
    | readLoad p => exact hp.1 ▸ hr
    | pickStateless =>
      obtain ⟨p, weight, hF⟩ := hp
      exact hr.step (e := .load p weight) hF
    | sendToProxy =>
      obtain ⟨-, r, -, hF⟩ := hp
      exact hr.step (e := .sendStateless n _ r) hF
    | insertStateless =>
      obtain ⟨-, r, -, hF⟩ := hp
      exact hr.step (e := .insertStateless r.digest _) hF
  · exact hr.step (e := e') hF
  · exact hF ▸ hr

/-- An action of the shared forwarder is an action of one of its tasks, or leaves the
table and the messages as they are. -/
theorem shared_cases {F F' : SharedObjTxnForwarder.State τ} {e : SharedObjTxnForwarder.Event}
    (he : enabled C U s e = true) (h : SharedObjTxnForwarder.step C F e = some F') :
    (∃ i a rest l', SharedObjTxnForwarder.RunStep C F F' i a rest l') ∨
    (F'.tasks = F.tasks ∧
      F'.context.statelessForwardingTable = F.context.statelessForwardingTable ∧
      F'.context.sent = F.context.sent) := by
  cases e with
  | sendTask =>
    simp only [SharedObjTxnForwarder.step] at h
    split_ifs at h
    obtain ⟨pool, -, rfl⟩ := Option.map_eq_some_iff.mp h
    exact Or.inr ⟨rfl, rfl, rfl⟩
  | recv w =>
    obtain ⟨pool, -, rfl⟩ := Option.map_eq_some_iff.mp h
    exact Or.inr ⟨rfl, rfl, rfl⟩
  | run w =>
    obtain ⟨i, -, hr⟩ := Option.bind_eq_some_iff.mp h
    exact Or.inl ⟨i, SharedObjTxnForwarder.runStep_of_runTask hr⟩
  | finish w =>
    obtain ⟨i, -, hr⟩ := Option.bind_eq_some_iff.mp h
    split_ifs at hr
    obtain ⟨pool, -, rfl⟩ := Option.map_eq_some_iff.mp hr
    exact Or.inr ⟨rfl, rfl, rfl⟩
  | plan d p =>
    obtain rfl := Option.some.inj h
    exact Or.inr ⟨rfl, rfl, rfl⟩
  | load p weight =>
    obtain rfl := Option.some.inj h
    exact Or.inr ⟨rfl, rfl, rfl⟩
  | sendStateless n p r => simp [enabled] at he
  | insertStateless d p => simp [enabled] at he

namespace RunStep

variable {n : ℕ} {a b : StatelessAction} {rest : List StatelessAction}
  {l' : StatelessForwardingTask} (h : RunStep C U s s' n a rest l')
include h

theorem task_self : s'.tasks n = { l' with todo := rest } := by
  rw [h.tasks, update_self]

theorem task_ne {m : ℕ} (hm : m ≠ n) : s'.tasks m = s.tasks m := by
  rw [h.tasks, update_of_ne hm]

theorem mem_todo_iff (hb : b ≠ a) (m : ℕ) : b ∈ (s'.tasks m).todo ↔ b ∈ (s.tasks m).todo := by
  rcases eq_or_ne m n with rfl | hm
  · simp [h.task_self, h.todo, hb]
  · rw [h.task_ne hm]

theorem mem_of_mem {m : ℕ} (hb : b ∈ (s'.tasks m).todo) : b ∈ (s.tasks m).todo := by
  rcases eq_or_ne m n with rfl | hm
  · rw [h.todo]
    exact List.mem_cons_of_mem _ (by simpa [h.task_self] using hb)
  · rwa [h.task_ne hm] at hb

theorem head_mem : a ∈ (s.tasks n).todo := by
  simp [h.todo]

/-- The stateless forwarder has no part in the shared forwarder's tasks, nor in the
transactions it sends. -/
theorem forwarder_eq : s'.forwarder.tasks = s.forwarder.tasks ∧
    ∀ i, s'.forwarder.context.sent (.stateful i) = s.forwarder.context.sent (.stateful i) := by
  have hp := perform_cases h.perform
  cases a with
  | readLoad p => rw [hp.1]; exact ⟨rfl, fun _ => rfl⟩
  | pickStateless =>
    obtain ⟨p, weight, hF⟩ := hp
    rw [← Option.some.inj hF]
    exact ⟨rfl, fun _ => rfl⟩
  | sendToProxy =>
    obtain ⟨-, r, -, hF⟩ := hp
    simp only [SharedObjTxnForwarder.step] at hF
    split_ifs at hF
    rw [← Option.some.inj hF]
    exact ⟨rfl, fun i => by simp⟩
  | insertStateless =>
    obtain ⟨-, r, -, hF⟩ := hp
    rw [← Option.some.inj hF]
    exact ⟨rfl, fun _ => rfl⟩

/-- Only `insertStateless` writes the table. -/
theorem table_eq : (a ≠ insertStateless ∧ s'.forwarder.context.statelessForwardingTable =
      s.forwarder.context.statelessForwardingTable) ∨
    (a = insertStateless ∧ ∃ r, U.request n = some r ∧
      s'.forwarder.context.statelessForwardingTable =
        update s.forwarder.context.statelessForwardingTable r.digest
          (some (s.tasks n).proxy)) := by
  have hp := perform_cases h.perform
  cases a with
  | readLoad p => rw [hp.1]; exact Or.inl ⟨by simp, rfl⟩
  | pickStateless =>
    obtain ⟨p, weight, hF⟩ := hp
    rw [← Option.some.inj hF]
    exact Or.inl ⟨by simp, rfl⟩
  | sendToProxy =>
    obtain ⟨-, r, -, hF⟩ := hp
    simp only [SharedObjTxnForwarder.step] at hF
    split_ifs at hF
    rw [← Option.some.inj hF]
    exact Or.inl ⟨by simp, rfl⟩
  | insertStateless =>
    obtain ⟨-, r, hr, hF⟩ := hp
    rw [← Option.some.inj hF]
    exact Or.inr ⟨rfl, r, hr, rfl⟩

/-- Only `sendToProxy` sends. -/
theorem sent_eq : (a ≠ sendToProxy ∧ ∀ m, s'.forwarder.context.sent (.stateless m) =
      s.forwarder.context.sent (.stateless m)) ∨
    (a = sendToProxy ∧ ∃ r, U.request n = some r ∧
      s'.forwarder.context.sent = update s.forwarder.context.sent (.stateless n)
        (some ((s.tasks n).proxy, .statelessTxn r))) := by
  have hp := perform_cases h.perform
  cases a with
  | readLoad p => rw [hp.1]; exact Or.inl ⟨by simp, fun _ => rfl⟩
  | pickStateless =>
    obtain ⟨p, weight, hF⟩ := hp
    rw [← Option.some.inj hF]
    exact Or.inl ⟨by simp, fun _ => rfl⟩
  | sendToProxy =>
    obtain ⟨-, r, hr, hF⟩ := hp
    simp only [SharedObjTxnForwarder.step] at hF
    split_ifs at hF
    rw [← Option.some.inj hF]
    exact Or.inr ⟨rfl, r, hr, rfl⟩
  | insertStateless =>
    obtain ⟨-, r, -, hF⟩ := hp
    rw [← Option.some.inj hF]
    exact Or.inl ⟨by simp, fun _ => rfl⟩

/-- A task that has picked its proxy keeps it. -/
theorem proxy_eq {m : ℕ} (hm : pickStateless ∉ (s.tasks m).todo) :
    (s'.tasks m).proxy = (s.tasks m).proxy := by
  rcases eq_or_ne m n with rfl | hmn
  · have hp := perform_cases h.perform
    rw [h.task_self]
    cases a with
    | readLoad p => exact hp.2
    | pickStateless => exact absurd h.head_mem hm
    | sendToProxy => rw [hp.1]
    | insertStateless => rw [hp.1]
  · rw [h.task_ne hmn]

theorem notMem_self (hsuffix : (s.tasks n).todo <:+ process C.connections) :
    a ∉ (s'.tasks n).todo := by
  simpa [h.task_self] using
    Program.notMem_of_cons_suffix (nodup_process C.nodup) (h.todo ▸ hsuffix)

end RunStep

/-! ## Digests -/

theorem exists_of_transaction {i : ℕ} {t : RemoraTransaction τ} (h : C.transaction i = some t) :
    ∃ t₀, C.txns[i]? = some t₀ ∧ t.digest = t₀.digest := by
  unfold Primary.transaction versioned at h
  rw [VersionAssignmentTask.processVersionAssignments_getElem?] at h
  cases ht : C.txns[i]? with
  | none => simp [ht] at h
  | some t₀ =>
    refine ⟨t₀, rfl, ?_⟩
    simp only [ht, Option.map_some, Option.some.injEq] at h
    rw [← h]
    unfold VersionAssignmentTask.assignSharedObjectVersions
    split_ifs <;> rfl

/-- The transactions have distinct digests. -/
def DistinctDigests (C : Primary τ) : Prop :=
  (C.txns.map RemoraTransaction.digest).Nodup

section Digests

variable (hd : DistinctDigests C)
include hd

theorem index_unique {i j : ℕ} {t t' : RemoraTransaction τ} (hi : C.txns[i]? = some t)
    (hj : C.txns[j]? = some t') (h : t.digest = t'.digest) : i = j := by
  have hi' : (C.txns.map RemoraTransaction.digest)[i]? = some t.digest := by simp [hi]
  have hj' : (C.txns.map RemoraTransaction.digest)[j]? = some t.digest := by simp [hj, h]
  obtain ⟨hlt, -⟩ := List.getElem?_eq_some_iff.mp hi'
  exact (List.getElem?_inj hlt hd).mp (hi'.trans hj'.symm)

theorem transaction_unique {i j : ℕ} {t t' : RemoraTransaction τ}
    (hi : C.transaction i = some t) (hj : C.transaction j = some t')
    (h : t.digest = t'.digest) : i = j := by
  obtain ⟨t₀, hi, ht⟩ := exists_of_transaction hi
  obtain ⟨t₀', hj, ht'⟩ := exists_of_transaction hj
  exact index_unique hd hi hj (by rw [← ht, ← ht', h])

theorem request_unique {n m : ℕ} {r r' : StatelessVerificationRequest}
    (hn : U.request n = some r) (hm : U.request m = some r') (h : r.digest = r'.digest) :
    n = m := by
  obtain ⟨t, htn, rfl⟩ := Option.map_eq_some_iff.mp hn
  obtain ⟨t', htm, rfl⟩ := Option.map_eq_some_iff.mp hm
  obtain ⟨i, hin, hi⟩ := Option.bind_eq_some_iff.mp htn
  obtain ⟨j, hjm, hj⟩ := Option.bind_eq_some_iff.mp htm
  obtain rfl := index_unique hd hi hj h
  have hnodup : U.order.Nodup := U.perm.nodup_iff.mpr List.nodup_range
  obtain ⟨hlt, -⟩ := List.getElem?_eq_some_iff.mp hin
  exact (List.getElem?_inj hlt hnodup).mp (hin.trans hjm.symm)

end Digests

/-! ## The invariant -/

/-- What the two forwarders know of each other. An entry is there from the record to the
lookup, if they come in this order. -/
structure Inv (C : Primary τ) (U : Submission C) (s : State τ) : Prop where
  suffix : ∀ n, (s.tasks n).todo <:+ process C.connections
  sent : ∀ n, sendToProxy ∉ (s.tasks n).todo → ∃ r, U.request n = some r ∧
    s.forwarder.context.sent (.stateless n) = some ((s.tasks n).proxy, .statelessTxn r)
  entry : ∀ d q, s.forwarder.context.statelessForwardingTable d = some q →
    ∃ n r, U.request n = some r ∧ r.digest = d ∧ insertStateless ∉ (s.tasks n).todo ∧
      (s.tasks n).proxy = q
  kept : ∀ n r i t, U.request n = some r → C.transaction i = some t → r.digest = t.digest →
    insertStateless ∉ (s.tasks n).todo →
    ForwardAction.removeStateless ∈ (s.forwarder.tasks i).todo →
    s.forwarder.context.statelessForwardingTable t.digest = some (s.tasks n).proxy

theorem sendToProxy_mem_process : sendToProxy ∈ process C.connections := by
  simp [process]

theorem insertStateless_mem_process : insertStateless ∈ process C.connections := by
  simp [process]

theorem Inv.init : Inv C U (State.init C) where
  suffix n := List.suffix_rfl
  sent n h := absurd sendToProxy_mem_process h
  entry d q h := by simp [State.init, SharedObjTxnForwarder.State.init] at h
  kept n r i t _ _ _ h := absurd insertStateless_mem_process h

/-- A task past a later action is past the earlier ones. -/
theorem Inv.done_of_done (hI : Inv C U s) {n : ℕ} {a b : StatelessAction}
    (hb : b ∈ process C.connections) (hdone : b ∉ (s.tasks n).todo) (hab : a.rank < b.rank) :
    a ∉ (s.tasks n).todo :=
  Program.done_of_done (ordered_process _) (hI.suffix n) hb hdone hab

section Step

variable (hmode : C.mode = .PrimaryPreSeparation) (hd : DistinctDigests C)
include hd

theorem Inv.run (hI : Inv C U s) {n : ℕ} {a : StatelessAction} {rest : List StatelessAction}
    {l' : StatelessForwardingTask} (h : RunStep C U s s' n a rest l') : Inv C U s' := by
  have hproxy : ∀ {m b}, b ∈ process C.connections → 1 < b.rank → b ∉ (s.tasks m).todo →
      (s'.tasks m).proxy = (s.tasks m).proxy := fun hb hrank hdone =>
    h.proxy_eq (hI.done_of_done hb hdone hrank)
  refine ⟨fun m => ?_, fun m hm => ?_, fun d q hq => ?_, fun m r i t hr ht hrt hm hi => ?_⟩
  · rcases eq_or_ne m n with rfl | hmn
    · simpa [h.task_self] using Program.suffix_of_cons (h.todo ▸ hI.suffix m)
    · simpa [h.task_ne hmn] using hI.suffix m
  · rcases h.sent_eq with ⟨ha, hsent⟩ | ⟨rfl, r, hr, hsent⟩
    · rw [h.mem_todo_iff ha.symm] at hm
      rw [hsent, hproxy sendToProxy_mem_process (by decide) hm]
      exact hI.sent m hm
    · rw [hsent]
      rcases eq_or_ne m n with rfl | hmn
      · refine ⟨r, hr, ?_⟩
        have hp := (perform_cases h.perform).1
        simp [h.task_self, hp]
      · rw [h.task_ne hmn] at hm ⊢
        simpa [hmn] using hI.sent m hm
  · rcases h.table_eq with ⟨ha, htable⟩ | ⟨rfl, r, hr, htable⟩
    · rw [htable] at hq
      obtain ⟨m, r, hr, hrd, hm, rfl⟩ := hI.entry d q hq
      exact ⟨m, r, hr, hrd, mt h.mem_of_mem hm,
        hproxy insertStateless_mem_process (by decide) hm⟩
    · have hp := (perform_cases h.perform).1
      rw [htable] at hq
      rcases eq_or_ne d r.digest with rfl | hdr
      · refine ⟨n, r, hr, rfl, h.notMem_self (hI.suffix n), ?_⟩
        simpa [h.task_self, hp] using hq
      · rw [update_of_ne hdr] at hq
        obtain ⟨m, r', hr', hrd, hm, rfl⟩ := hI.entry d q hq
        exact ⟨m, r', hr', hrd, mt h.mem_of_mem hm,
          hproxy insertStateless_mem_process (by decide) hm⟩
  · rw [h.forwarder_eq.1] at hi
    rcases h.table_eq with ⟨ha, htable⟩ | ⟨rfl, r', hr', htable⟩
    · rw [h.mem_todo_iff ha.symm] at hm
      rw [htable, hproxy insertStateless_mem_process (by decide) hm]
      exact hI.kept m r i t hr ht hrt hm hi
    · have hp := (perform_cases h.perform).1
      rw [htable]
      rcases eq_or_ne m n with rfl | hmn
      · obtain rfl := Option.some.inj (hr.symm.trans hr')
        simp [hrt, h.task_self, hp]
      · have hne : t.digest ≠ r'.digest := by
          rw [← hrt]
          exact fun heq => hmn (request_unique hd hr hr' heq)
        rw [h.task_ne hmn] at hm ⊢
        rw [update_of_ne hne]
        exact hI.kept m r i t hr ht hrt hm hi

include hmode

/-- A step of the shared forwarder. Only a lookup touches the table, and each task looks
up its own digest. -/
theorem Inv.shared (hI : Inv C U s) (hs : (system C U).Reachable s)
    {e' : SharedObjTxnForwarder.Event} (htasks : s'.tasks = s.tasks)
    (he : enabled C U s e' = true)
    (h : SharedObjTxnForwarder.step C s.forwarder e' = some s'.forwarder) : Inv C U s' := by
  have hF := SharedObjTxnForwarder.inv_of_reachable (forwarder_reachable hs)
  rcases shared_cases he h with ⟨i, a, rest, l', hrun⟩ | ⟨hft, htable, hsent⟩
  · have hsent : ∀ m, s'.forwarder.context.sent (.stateless m) =
        s.forwarder.context.sent (.stateless m) := by
      refine hrun.frame.sentStateless ?_
      rintro rfl
      have := mode_of_mem_processForwardingTask C i (Or.inr rfl)
        ((hF.suffix i).subset hrun.head_mem)
      simp [hmode] at this
    by_cases ha : a = .removeStateless
    · subst ha
      obtain ⟨t, ht, hperf⟩ := Option.map_eq_some_iff.mp hrun.perform
      obtain ⟨hctx, -⟩ := Prod.mk.inj hperf
      have htable : s'.forwarder.context.statelessForwardingTable =
          update s.forwarder.context.statelessForwardingTable t.digest none := by rw [← hctx]
      refine ⟨htasks ▸ hI.suffix, fun n hn => ?_, fun d q hq => ?_, ?_⟩
      · rw [htasks] at hn ⊢
        rw [hsent]
        exact hI.sent n hn
      · rw [htasks]
        rcases eq_or_ne d t.digest with rfl | hdt
        · simp [htable] at hq
        · exact hI.entry d q (by simpa [htable, hdt] using hq)
      · intro n r j t' hr ht' hrt hn hj
        have hji : j ≠ i := by
          rintro rfl
          exact hrun.notMem_self hF hj
        have hne : t'.digest ≠ t.digest := fun heq => hji (transaction_unique hd ht' ht heq)
        rw [htasks] at hn ⊢
        rw [htable, update_of_ne hne]
        exact hI.kept n r j t' hr ht' hrt hn (hrun.mem_of_mem hj)
    · have htable := hrun.frame.table ha
      refine ⟨htasks ▸ hI.suffix, ?_, ?_, ?_⟩
      · simpa only [htasks, hsent] using hI.sent
      · simpa only [htasks, htable] using hI.entry
      · intro n r j t' hr ht' hrt hn hj
        rw [htasks] at hn ⊢
        rw [htable]
        exact hI.kept n r j t' hr ht' hrt hn (hrun.mem_of_mem hj)
  · refine ⟨htasks ▸ hI.suffix, ?_, ?_, ?_⟩
    · simpa only [htasks, hsent] using hI.sent
    · simpa only [htasks, htable] using hI.entry
    · simpa only [htasks, htable, hft] using hI.kept

theorem inv_of_reachable (hs : (system C U).Reachable s) : Inv C U s := by
  refine Transition.System.Reachable.invariant (fun s hs => hs ▸ Inv.init)
    (fun s e s' hs hI hstep => ?_) hs
  rcases step_cases hstep with ⟨n, a, rest, l', hrun⟩ | ⟨ht, e', he, hF⟩ | ⟨ht, hF⟩
  · exact hI.run hd hrun
  · exact hI.shared hmode hd hs ht he hF
  · refine ⟨ht ▸ hI.suffix, ?_, ?_, ?_⟩
    · simpa only [ht, hF] using hI.sent
    · simpa only [ht, hF] using hI.entry
    · simpa only [ht, hF] using hI.kept

end Step

/-! ## Agreement -/

/-- The proxy named in the `Txn` of the `i`-th transaction is the one its verification
request, the `n`-th, was sent to, and the table has no entry for its digest `d`. -/
def RoutingAgrees (s : State τ) (n i : ℕ) (d : TransactionDigest) : Prop :=
  (∃ q, ((s.forwarder.context.sent (.stateful i)).bind fun m => m.2.statelessProxyId) = some q ∧
    (s.forwarder.context.sent (.stateless n)).map Prod.fst = some q) ∧
  s.forwarder.context.statelessForwardingTable d = none

section Agreement

variable {n i : ℕ} {r : StatelessVerificationRequest} {t : RemoraTransaction τ}
  (hmode : C.mode = .PrimaryPreSeparation) (hd : DistinctDigests C)
  (hr : U.request n = some r) (ht : C.transaction i = some t) (hrt : r.digest = t.digest)

/-- The lookup has come first : the entry is still to be written, or is there for good. -/
def Leaks (s : State τ) (n i : ℕ) (d : TransactionDigest) : Prop :=
  ForwardAction.removeStateless ∉ (s.forwarder.tasks i).todo ∧
  (insertStateless ∈ (s.tasks n).todo ∨
    s.forwarder.context.statelessForwardingTable d ≠ none)

include hd hr ht hrt in
theorem Leaks.step (hL : Leaks s n i t.digest)
    (h : step C U s e = some s') : Leaks s' n i t.digest := by
  obtain ⟨hi, hL⟩ := hL
  rcases step_cases h with ⟨m, a, rest, l', hrun⟩ | ⟨htasks, e', he, hF⟩ | ⟨htasks, hF⟩
  · refine ⟨by rwa [hrun.forwarder_eq.1], ?_⟩
    rcases hrun.table_eq with ⟨ha, htable⟩ | ⟨rfl, r', hr', htable⟩
    · rwa [hrun.mem_todo_iff ha.symm, htable]
    · rw [htable]
      rcases eq_or_ne t.digest r'.digest with heq | hne
      · exact Or.inr (by simp [heq])
      · have hmn : n ≠ m := by
          rintro rfl
          obtain rfl := Option.some.inj (hr.symm.trans hr')
          exact hne hrt.symm
        rwa [update_of_ne hne, hrun.task_ne hmn]
  · rcases shared_cases he hF with ⟨j, a, rest, l', hrun⟩ | ⟨hft, htable, -⟩
    · refine ⟨mt hrun.mem_of_mem hi, ?_⟩
      rw [htasks]
      by_cases ha : a = .removeStateless
      · subst ha
        obtain ⟨t', ht', hperf⟩ := Option.map_eq_some_iff.mp hrun.perform
        obtain ⟨hctx, -⟩ := Prod.mk.inj hperf
        have hne : t.digest ≠ t'.digest := by
          intro heq
          obtain rfl := transaction_unique hd ht ht' heq
          exact hi hrun.head_mem
        rw [← hctx]
        simpa [hne] using hL
      · rwa [hrun.frame.table ha]
    · exact ⟨by rwa [hft], by rwa [htasks, htable]⟩
  · exact ⟨by rwa [hF], by rwa [htasks, hF]⟩

/-- The lookup has found the entry of task `n`. -/
structure Found (s : State τ) (n i : ℕ) (d : TransactionDigest) (q : ProxyId) : Prop where
  inserted : insertStateless ∉ (s.tasks n).todo
  proxy : (s.tasks n).proxy = q
  lookedUp : ForwardAction.removeStateless ∉ (s.forwarder.tasks i).todo
  statelessProxyId : (s.forwarder.tasks i).statelessProxyId = q
  clean : s.forwarder.context.statelessForwardingTable d = none

include hmode hd hr hrt in
theorem Found.step {q : ProxyId} (hs : (system C U).Reachable s)
    (hL : Found s n i t.digest q) (h : step C U s e = some s') : Found s' n i t.digest q := by
  have hI := inv_of_reachable hmode hd hs
  rcases step_cases h with ⟨m, a, rest, l', hrun⟩ | ⟨htasks, e', he, hF⟩ | ⟨htasks, hF⟩
  · refine ⟨mt hrun.mem_of_mem hL.inserted, ?_, by rw [hrun.forwarder_eq.1]; exact hL.lookedUp,
      by rw [hrun.forwarder_eq.1]; exact hL.statelessProxyId, ?_⟩
    · rw [hrun.proxy_eq (hI.done_of_done insertStateless_mem_process hL.inserted (by decide))]
      exact hL.proxy
    · rcases hrun.table_eq with ⟨-, htable⟩ | ⟨rfl, r', hr', htable⟩
      · rw [htable]
        exact hL.clean
      · have hne : t.digest ≠ r'.digest := by
          intro heq
          obtain rfl := request_unique hd hr hr' (hrt.trans heq)
          exact hL.inserted hrun.head_mem
        rw [htable, update_of_ne hne]
        exact hL.clean
  · have hFI := SharedObjTxnForwarder.inv_of_reachable (forwarder_reachable hs)
    rcases shared_cases he hF with ⟨j, a, rest, l', hrun⟩ | ⟨hft, htable, -⟩
    · refine ⟨by rw [htasks]; exact hL.inserted, by rw [htasks]; exact hL.proxy,
        mt hrun.mem_of_mem hL.lookedUp, ?_, ?_⟩
      · rcases eq_or_ne i j with rfl | hij
        · rw [hrun.task_self]
          refine (hrun.frame.statelessProxyId ?_ ?_).trans hL.statelessProxyId
          · rintro rfl
            have := mode_of_mem_processForwardingTask C i (Or.inl rfl)
              ((hFI.suffix i).subset hrun.head_mem)
            simp [hmode] at this
          · rintro rfl
            exact hL.lookedUp hrun.head_mem
        · rw [hrun.task_ne hij]
          exact hL.statelessProxyId
      · by_cases ha : a = .removeStateless
        · subst ha
          obtain ⟨t', ht', hperf⟩ := Option.map_eq_some_iff.mp hrun.perform
          obtain ⟨hctx, -⟩ := Prod.mk.inj hperf
          rw [← hctx]
          rcases eq_or_ne t.digest t'.digest with heq | hne
          · simp [heq]
          · simpa [hne] using hL.clean
        · rw [hrun.frame.table ha]
          exact hL.clean
    · exact ⟨by rw [htasks]; exact hL.inserted, by rw [htasks]; exact hL.proxy,
        by rw [hft]; exact hL.lookedUp, by rw [hft]; exact hL.statelessProxyId,
        by rw [htable]; exact hL.clean⟩
  · exact ⟨by rw [htasks]; exact hL.inserted, by rw [htasks]; exact hL.proxy,
      by rw [hF]; exact hL.lookedUp, by rw [hF]; exact hL.statelessProxyId,
      by rw [hF]; exact hL.clean⟩

/-- Once both tasks are done, a lookup that has found the entry agrees. -/
theorem Found.agrees {q : ProxyId} (hmode : C.mode = .PrimaryPreSeparation)
    (hd : DistinctDigests C) (hs : (system C U).Reachable s) (hL : Found s n i t.digest q)
    (hi : (s.forwarder.tasks i).todo = []) (hn : (s.tasks n).todo = []) :
    RoutingAgrees s n i t.digest := by
  have hH := SharedObjTxnForwarder.hints_of_reachable (forwarder_reachable hs)
  obtain ⟨t', p, -, -, hsent⟩ := hH.sent i (by simp [hi])
  obtain ⟨r', -, hstateless⟩ := (inv_of_reachable hmode hd hs).sent n (by simp [hn])
  refine ⟨⟨q, ?_, by rw [hstateless, Option.map_some, hL.proxy]⟩, hL.clean⟩
  simp [hsent, statefulMessage, hmode, SeparationMode.isPrimarySeparation,
    PrimaryToProxyMessage.statelessProxyId, hL.statelessProxyId]

end Agreement

/-- Let the `i`-th transaction look up its stateless proxy in some reachable state. In
every later state in which the transaction and its verification request have both been
processed, the proxy named in its `Txn` is the one its `StatelessTxn` was sent to and
the table has no entry left, if and only if the entry was there at the lookup. -/
theorem stateless_routing_agreement_iff (C : Primary τ) (U : Submission C)
    (hmode : C.mode = .PrimaryPreSeparation) (hd : DistinctDigests C)
    {n i w : ℕ} {r : StatelessVerificationRequest} {t : RemoraTransaction τ}
    (hr : U.request n = some r) (ht : C.transaction i = some t) (hrt : r.digest = t.digest)
    {s₀ s₁ s₂ : State τ} (hs₀ : (system C U).Reachable s₀)
    (hw : s₀.forwarder.pool.running w = some i)
    (hnext : (s₀.forwarder.tasks i).todo.head? = some .removeStateless)
    (hlookup : step C U s₀ (.shared (.run w)) = some s₁) (hsteps : (system C U).Steps s₁ s₂)
    (hi : (s₂.forwarder.tasks i).todo = []) (hn : (s₂.tasks n).todo = []) :
    RoutingAgrees s₂ n i t.digest ↔
      ∃ q, s₀.forwarder.context.statelessForwardingTable t.digest = some q := by
  have hs₁ : (system C U).Reachable s₁ := hs₀.step (e := .shared (.run w)) hlookup
  have hI := inv_of_reachable hmode hd hs₀
  have hFI := SharedObjTxnForwarder.inv_of_reachable (forwarder_reachable hs₀)
  -- what the lookup does
  simp only [step, enabled, if_true] at hlookup
  obtain ⟨F, hF, rfl⟩ := Option.map_eq_some_iff.mp hlookup
  simp only [SharedObjTxnForwarder.step, hw, Option.bind_some] at hF
  obtain ⟨a, rest, l', hrun⟩ := SharedObjTxnForwarder.runStep_of_runTask hF
  obtain rfl : a = .removeStateless := by simpa [hrun.todo] using hnext
  obtain ⟨t', ht', hperf⟩ := Option.map_eq_some_iff.mp hrun.perform
  obtain rfl := Option.some.inj (ht.symm.trans ht')
  obtain ⟨hctx, rfl⟩ := Prod.mk.inj hperf
  cases hq : s₀.forwarder.context.statelessForwardingTable t.digest with
  | none =>
    refine iff_of_false (fun hagree => ?_) (by simp)
    have hleak : Leaks { s₀ with forwarder := F } n i t.digest := by
      refine ⟨hrun.notMem_self hFI, Or.inl ?_⟩
      by_contra hins
      have := hI.kept n r i t hr ht hrt hins hrun.head_mem
      simp [hq] at this
    have hend := Transition.System.Steps.preserves
      (I := fun s => (system C U).Reachable s ∧ Leaks s n i t.digest)
      (fun s e s' h hs => ⟨h.1.step hs, h.2.step hd hr ht hrt hs⟩) hsteps ⟨hs₁, hleak⟩
    rcases hend.2.2 with hleft | hleft
    · simp [hn] at hleft
    · exact hleft hagree.2
  | some q =>
    refine iff_of_true ?_ ⟨q, rfl⟩
    obtain ⟨n', r', hr', hd', hins, hproxy⟩ := hI.entry _ _ hq
    obtain rfl := request_unique hd hr hr' (hrt.trans hd'.symm)
    have hfound : Found { s₀ with forwarder := F } n i t.digest q := by
      refine ⟨hins, hproxy, hrun.notMem_self hFI, ?_, ?_⟩
      · show (F.tasks i).statelessProxyId = q
        rw [hrun.task_self]
        simp [hq]
      · show F.context.statelessForwardingTable t.digest = none
        rw [← hctx]
        simp
    have hend := Transition.System.Steps.preserves
      (I := fun s => (system C U).Reachable s ∧ Found s n i t.digest q)
      (fun s e s' h hs => ⟨h.1.step hs, h.2.step hmode hd hr hrt h.1 hs⟩) hsteps ⟨hs₁, hfound⟩
    exact hend.2.agrees hmode hd hend.1 hi hn

/-- One transaction on object 7, two proxies, one worker in each pool. -/
def onePending : Primary Unit where
  mode := .PrimaryPreSeparation
  policy := .RSDS
  connections := [0, 1]
  numWorkers := 1
  bufferSize := 1
  txns := [.new () 10 [.sharedMoveObject 7] 1 1]
  nodup := List.nodup_range (n := 2)

def onePendingSubmission : Submission onePending where
  order := [0]
  perm := by decide

/-- Proxy 0 is loaded, so that the request is sent to proxy 1. -/
def onePendingSend : List Event :=
  [.receive, .sendTask, .recv 0, .shared (.load 0 5)] ++ List.replicate 4 (.run 0)

/-- The transaction comes out of consensus, and its task is about to look up. -/
def onePendingForward : List Event :=
  [.shared .sendTask, .shared (.recv 0)] ++ List.replicate 7 (.shared (.run 0))

/-- The record made before the lookup. -/
theorem stateless_routing_agreement_recorded :
    ∃ s₀ s₂ : State Unit, (system onePending onePendingSubmission).Reachable s₀ ∧
      s₀.forwarder.context.statelessForwardingTable 10 = some 1 ∧
      (system onePending onePendingSubmission).Steps s₀ s₂ ∧ RoutingAgrees s₂ 0 0 10 := by
  have hview : (((system onePending onePendingSubmission).run (State.init onePending)
      (onePendingSend ++ [.run 0] ++ onePendingForward)).bind fun s₀ =>
      (step onePending onePendingSubmission s₀ (.shared (.run 0))).bind fun s₁ =>
      ((system onePending onePendingSubmission).run s₁
        [.shared (.run 0), .shared (.run 0)]).map fun s₂ =>
        (s₀.forwarder.pool.running 0, (s₀.forwarder.tasks 0).todo.head?,
          s₀.forwarder.context.statelessForwardingTable 10,
          (s₂.forwarder.tasks 0).todo.isEmpty, (s₂.tasks 0).todo.isEmpty)) =
      some (some 0, some .removeStateless, some 1, true, true) := by decide
  obtain ⟨s₀, hrun₀, hview⟩ := Option.bind_eq_some_iff.mp hview
  obtain ⟨s₁, hstep, hview⟩ := Option.bind_eq_some_iff.mp hview
  obtain ⟨s₂, hrun₂, hview⟩ := Option.map_eq_some_iff.mp hview
  simp only [Prod.mk.injEq] at hview
  obtain ⟨hw, hnext, htable, hi, hn⟩ := hview
  have hs₀ : (system onePending onePendingSubmission).Reachable s₀ :=
    Transition.System.reachable_run (.init rfl) hrun₀
  have hsteps := Transition.System.steps_of_run hrun₂
  refine ⟨s₀, s₂, hs₀, htable, hsteps.head (e := .shared (.run 0)) hstep, ?_⟩
  have hd : (onePending.txns.map RemoraTransaction.digest).Nodup := by decide
  exact (stateless_routing_agreement_iff onePending onePendingSubmission rfl hd
    (n := 0) (i := 0) (r := ⟨10, 1⟩) (t := (onePending.transaction 0).get rfl) rfl rfl rfl hs₀ hw
    hnext hstep hsteps (List.isEmpty_iff.mp hi) (List.isEmpty_iff.mp hn)).mpr ⟨1, htable⟩

/-- Nothing orders the record before the lookup. Here the lookup comes first : the `Txn`
names proxy 0 although the request went to proxy 1, and the entry stays in the table. -/
theorem stateless_routing_disagrees :
    ∃ s : State Unit, (system onePending onePendingSubmission).Reachable s ∧
      (s.forwarder.tasks 0).todo = [] ∧ (s.tasks 0).todo = [] ∧
      ((s.forwarder.context.sent (.stateful 0)).bind fun m => m.2.statelessProxyId) = some 0 ∧
      (s.forwarder.context.sent (.stateless 0)).map Prod.fst = some 1 ∧
      s.forwarder.context.statelessForwardingTable 10 = some 1 ∧ ¬RoutingAgrees s 0 0 10 := by
  have hview : (((system onePending onePendingSubmission).run (State.init onePending)
      (onePendingSend ++ onePendingForward ++ List.replicate 3 (.shared (.run 0)) ++
        [.run 0])).map fun s =>
      ((s.forwarder.tasks 0).todo, (s.tasks 0).todo,
        (s.forwarder.context.sent (.stateful 0)).bind fun m => m.2.statelessProxyId,
        (s.forwarder.context.sent (.stateless 0)).map Prod.fst,
        s.forwarder.context.statelessForwardingTable 10)) =
      some ([], [], some 0, some 1, some 1) := by decide
  obtain ⟨s, hrun, hview⟩ := Option.map_eq_some_iff.mp hview
  simp only [Prod.mk.injEq] at hview
  obtain ⟨hi, hn, htxn, hstateless, htable⟩ := hview
  refine ⟨s, Transition.System.reachable_run (.init rfl) hrun, hi, hn, htxn, hstateless, htable,
    fun hagree => ?_⟩
  simpa [htable] using hagree.2

end StatelessTxnForwarder

end Remora
