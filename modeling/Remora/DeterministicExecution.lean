import Remora.ObjectOrder
import Remora.SequentialExecution

/-!
# Deterministic execution

Whatever the interleaving, a transaction that is executed reads the shared objects as the
accessors before it in consensus order have left them, and so writes what it would write in a
sequential execution.

A value of a shared object always is the initial one, or the one some executed transaction
writes in the sequential execution (`Lineage`). The check of an input compares versions, and a
version has one producer, so an input that passes its check is the right one. It stays so until
the transaction has read it, because nobody else holds the object then.
-/

namespace Remora

open Function Rendezvous VersionedDependencyController Program

variable {τ ω : Type}

namespace Deployment

open ProxyAction
open Cluster (messageProgram RunStep Past spawned)

variable {D : Deployment τ ω} {s s' : State τ ω}

/-- The `i`-th transaction was executed. -/
def Executed (s : State τ ω) (i : ℕ) : Prop :=
  ∃ th, s.cluster.threads (.message (.stateful i)) = some th ∧ th.executed = true

/-! ## Who executes and who writes -/

/-- The actions of the execution belong to the tasks of transactions. -/
theorem Follows.message_of_rank (h : Follows D s) {t : ThreadId} {th : Thread τ ω}
    (ht : s.cluster.threads t = some th) {a : ProxyAction ω} (ha : a ∈ th.todo)
    (hlo : 11 ≤ Cluster.rank a) (hhi : Cluster.rank a < 16) : ∃ i, t = .message (.stateful i) := by
  by_cases hs : isStateful t = false
  · have hp := h.plain hs ht a ha
    cases a with
    | gate g => cases g <;> simp [Cluster.rank] at hlo
    | dep b => simp [isPlain] at hp
    | _ => simp_all [isPlain, Cluster.rank]
  · cases t with
    | message m =>
      cases m with
      | stateless n => simp [isStateful] at hs
      | stateful i => exact ⟨i, rfl⟩
    | request m k =>
      obtain ⟨j, p, -, hr⟩ := h.request ht
      have hm := hr.todo.2.subset ha
      simp only [List.mem_cons, List.not_mem_nil, or_false] at hm
      rcases hm with rfl | rfl | rfl | rfl | rfl | rfl | rfl <;> simp [Cluster.rank] at hlo hhi
    | reply m k =>
      obtain ⟨j, -, hr⟩ := h.reply ht
      rcases hr.todo with hsub | ⟨x, -, hsub⟩ <;> have hm := hsub.subset ha <;>
        simp only [List.mem_cons, List.not_mem_nil, or_false] at hm
      · rcases hm with rfl | rfl <;> simp [Cluster.rank] at hlo hhi
      · rcases hm with rfl | rfl | rfl | rfl | rfl <;> simp [Cluster.rank] at hlo hhi
    | verify m | statelessRequest m | statelessReply m => simp [isStateful] at hs

/-- Migrated objects are committed by replies, as their requests have read them. -/
theorem Follows.reply_of_commitNew (h : Follows D s) {t : ThreadId} {th : Thread τ ω}
    (ht : s.cluster.threads t = some th) {o : ObjectID} {x : ω} (ha : commitNew o x ∈ th.todo) :
    ∃ j k y, t = .reply (.stateful j) k ∧ k.1 = o ∧
      s.cluster.threads (.request (.stateful j) k) = some y ∧ y.objects = [(o, x)] ∧
      RequestOf D s j k th.proxy y := by
  by_cases hs : isStateful t = false
  · simpa [isPlain] using h.plain hs ht _ ha
  · cases t with
    | message m =>
      cases m with
      | stateless n => simp [isStateful] at hs
      | stateful i =>
        obtain ⟨t, stateless, states, hsent, -, -, hsub⟩ := h.message ht
        exact absurd (hsub.subset ha)
          (Cluster.notMem_messageProgram_of_rank hsent.initialVersion_le rfl)
    | request m k =>
      obtain ⟨j, p, -, hr⟩ := h.request ht
      simpa using hr.todo.2.subset ha
    | reply m k =>
      obtain ⟨j, rfl, y, hy, -, hreq, hsuffix⟩ := h.reply ht
      rcases hreq.objects with hnil | ⟨x', hx', hv⟩
      · rw [hnil, Cluster.handleStatefulReply_nil] at hsuffix
        simpa using hsuffix.subset ha
      · have h0 : 0 < D.executor.version x' := by
          rw [hv]
          exact (Nat.zero_le _).trans_lt hreq.todo.1
        rw [hx', Cluster.handleStatefulReply_singleton h0] at hsuffix
        obtain ⟨rfl, rfl⟩ : o = k.1 ∧ x = x' := by simpa using hsuffix.subset ha
        exact ⟨j, k, y, rfl, rfl, hy, hx', hreq⟩
    | verify m | statelessRequest m | statelessReply m => simp [isStateful] at hs

/-- A task with something left to execute holds its objects. -/
theorem holder_of_executing (hF : Follows D s) {i : ℕ} {th : Thread τ ω}
    (ht : s.cluster.threads (.message (.stateful i)) = some th)
    (hw : ∀ k, dep (.wait k) ∉ th.todo) {b : ProxyAction ω} (hb : b ∈ th.todo)
    (hrank : Cluster.rank b < 16) {o : ObjectID} (ho : o ∈ accessed D.primary.txns i) :
    Holder D s o (.message (.stateful i)) := by
  refine .message ⟨th, ht, hw⟩ ho ?_
  rintro ⟨th', ht', hnot⟩
  obtain rfl := Option.some.inj (ht.symm.trans ht')
  obtain ⟨t, stateless, states, hs, -, -, hsuffix⟩ := hF.message ht
  refine hnot (mem_of_mem (hs.staged D.primary.mode).ordered hsuffix ?_ hb
    (by simpa [Cluster.rank] using hrank))
  rw [Cluster.dep_mem_messageProgram, hs.keys,
    notify_mem_dependencyProgram (initialVersion_le_of_mem _ i), mem_map_fst_required]
  exact produces_iff.mpr ⟨ho, rfl⟩

/-- Nothing of an earlier phase is left. -/
theorem notMem_of_head (hF : Follows D s) {i : ℕ} {th : Thread τ ω}
    (ht : s.cluster.threads (.message (.stateful i)) = some th) {a b : ProxyAction ω}
    {rest : List (ProxyAction ω)} (htodo : th.todo = a :: rest)
    (hrank : Cluster.rank b < Cluster.rank a) : b ∉ th.todo := by
  obtain ⟨t, stateless, states, hs, -, -, hsuffix⟩ := hF.message ht
  intro hb
  have hord := (hs.staged D.primary.mode).ordered.suffix hsuffix
  rw [htodo] at hord hb
  have := hord.head_le hb
  omega

/-- Everything of a later phase is left. -/
theorem mem_of_head {txn : RemoraTransaction τ} {p stateless : ProxyId} {states : RequiredStates}
    {todo : List (ProxyAction ω)} {f : SharedObjTxnForwarder.State τ} {i : ℕ}
    (hs : Sent D f i p txn stateless states)
    (hsuffix : todo <:+ messageProgram D.primary.mode txn p stateless states)
    {a b : ProxyAction ω} {rest : List (ProxyAction ω)} (htodo : todo = a :: rest)
    (hb : b ∈ messageProgram D.primary.mode txn p stateless states)
    (hrank : Cluster.rank a < Cluster.rank b) : b ∈ rest := by
  have hmem : b ∈ todo := mem_of_mem (hs.staged D.primary.mode).ordered hsuffix hb
    (by rw [htodo]; exact List.mem_cons_self) hrank
  rw [htodo] at hmem
  rcases List.mem_cons.mp hmem with rfl | hmem
  · exact absurd hrank (Nat.lt_irrefl _)
  · exact hmem

/-! ## Stores -/

/-- A store changes by the commit of a task that is ready, or of a reply. -/
theorem stores_cases {t : ThreadId} {th th' : Thread τ ω} {a : ProxyAction ω}
    {rest : List (ProxyAction ω)} {c c' : Cluster.State τ ω}
    (hrun : RunStep D.cluster c c' t th th' a rest) (p : ProxyId) (o : ObjectID) :
    c'.resources.stores p o = c.resources.stores p o ∨
      (p = th.proxy ∧ a = commit o ∧ th.ready = true ∧ ∃ txn x, th.transaction = some txn ∧
        D.executor.output txn th.readings o = some x ∧ c'.resources.stores p o = some x) ∨
      (p = th.proxy ∧ ∃ x, a = commitNew o x ∧ c'.resources.stores p o = some x) := by
  have hperf := hrun.perform
  by_cases hw : Cluster.writes a = false
  · exact Or.inl (by rw [(Cluster.perform_frame hperf).stores hw])
  have hset (o' : ObjectID) (x : ω) : update c.resources.stores th.proxy
      (update (c.resources.stores th.proxy) o' (some x)) p o = c.resources.stores p o ∨
      p = th.proxy ∧ o = o' := by
    rcases eq_or_ne p th.proxy with rfl | hp
    · rcases eq_or_ne o o' with rfl | ho
      · exact Or.inr ⟨rfl, rfl⟩
      · exact Or.inl (by rw [update_self, update_of_ne ho])
    · exact Or.inl (by rw [update_of_ne hp])
  cases a with
  | commit o' =>
    simp only [Cluster.perform] at hperf
    split_ifs at hperf with hready
    · obtain ⟨txn, htxn, hperf⟩ := Option.bind_eq_some_iff.mp hperf
      obtain ⟨x, hx, hperf⟩ := Option.bind_eq_some_iff.mp hperf
      obtain ⟨hR, -⟩ := Prod.mk.inj (Option.some.inj hperf)
      rw [← hR]
      rcases hset o' x with hsame | ⟨rfl, rfl⟩
      · exact Or.inl hsame
      · exact Or.inr (Or.inl ⟨rfl, rfl, hready, txn, x, htxn, hx, by simp⟩)
    · obtain ⟨hR, -⟩ := Prod.mk.inj (Option.some.inj hperf)
      exact Or.inl (by rw [← hR])
  | commitNew o' x =>
    obtain ⟨hR, -⟩ := Prod.mk.inj (Option.some.inj hperf)
    rw [← hR]
    rcases hset o' x with hsame | ⟨rfl, rfl⟩
    · exact Or.inl hsame
    · exact Or.inr (Or.inr ⟨rfl, x, rfl, by simp⟩)
  | _ => simp [Cluster.writes] at hw

/-- Whoever changes a shared object holds it. -/
theorem holder_of_write (hr : (system D).Reachable s) (hC : D.primary.Consistent) {t : ThreadId}
    {th th' : Thread τ ω} {a : ProxyAction ω} {rest : List (ProxyAction ω)}
    (hrun : RunStep D.cluster s.cluster s'.cluster t th th' a rest) {p : ProxyId} {o : ObjectID}
    {l : ℕ} (ho : o ∈ accessed D.primary.txns l)
    (hne : s'.cluster.resources.stores p o ≠ s.cluster.resources.stores p o) :
    p = th.proxy ∧ Holder D s o t := by
  have hF := follows_of_reachable hr
  have hhead : a ∈ th.todo := hrun.head_mem
  rcases stores_cases hrun p o with hsame | ⟨rfl, rfl, -⟩ | ⟨rfl, x, rfl, -⟩
  · exact absurd hsame hne
  · obtain ⟨i, rfl⟩ := hF.message_of_rank hrun.thread hhead (by simp [Cluster.rank])
      (by simp [Cluster.rank])
    obtain ⟨txn, stateless, states, hs, -, -, hsuffix⟩ := hF.message hrun.thread
    refine ⟨rfl, holder_of_executing hF hrun.thread (fun k => notMem_of_head hF hrun.thread
      hrun.todo (by simp [Cluster.rank])) hhead (by simp [Cluster.rank]) ?_⟩
    exact hC.mem_accessed hs.transaction ho
      (Cluster.commit_mem_messageProgram.mp (hsuffix.subset hhead))
  · obtain ⟨j, k, y, rfl, rfl, -⟩ := hF.reply_of_commitNew hrun.thread hhead
    exact ⟨rfl, .reply rfl hrun.thread (by simp [hrun.todo])⟩

/-! ## What the values are -/

/-- The value is the initial one, or the one an executed transaction writes in the sequential
execution. -/
def Lineage (D : Deployment τ ω) (runs : ℕ → Bool) (s : State τ ω) (o : ObjectID) (x : ω) :
    Prop :=
  (D.genesis o = some x ∧ D.executor.version x = initialVersion) ∨
    ∃ i, o ∈ accessed D.primary.txns i ∧ Executed s i ∧
      sequential D.executor D.primary runs D.genesis (i + 1) o = some x ∧
      D.executor.version x = produced D.primary.txns i

structure Values (D : Deployment τ ω) (sim : ω → ω → Prop) (runs : ℕ → Bool) (s : State τ ω) :
    Prop where
  store : ∀ {p o x l}, o ∈ accessed D.primary.txns l →
    s.cluster.resources.stores p o = some x → Lineage D runs s o x
  request : ∀ {m k y o x}, s.cluster.threads (.request m k) = some y → (o, x) ∈ y.objects →
    Lineage D runs s o x
  same : ∀ p o, Executor.Same sim (D.genesis o) (s.cluster.resources.stores p o)
  executed : ∀ {i th}, s.cluster.threads (.message (.stateful i)) = some th →
    (execute ∉ th.todo → th.executed = th.ready) ∧
    (th.executed = true → th.ready = true ∧ ∀ b ∈ th.todo, 13 ≤ Cluster.rank b)
  /-- An input that has passed its check. -/
  checked : ∀ {i th o v b}, s.cluster.threads (.message (.stateful i)) = some th →
    th.ready = true → begin ∉ th.todo → (o, v) ∈ required D.primary.txns i →
    check (.sharedMoveObject o) ∉ th.todo → b ∈ th.todo → Cluster.rank b ≤ 14 →
    ∃ x, s.cluster.resources.stores th.proxy o = some x ∧
      sequential D.executor D.primary runs D.genesis i o = some x ∧ D.executor.version x = v
  /-- An input that has been read. -/
  readings : ∀ {i th txn o}, s.cluster.threads (.message (.stateful i)) = some th →
    th.transaction = some txn → th.ready = true → o ∈ txn.outputIds →
    ProxyAction.read o ∉ th.todo →
    (th.readings o).isSome ∧ Executor.Same sim (D.genesis o) (th.readings o) ∧
      (o ∈ accessed D.primary.txns i →
        th.readings o = sequential D.executor D.primary runs D.genesis i o)

/-- What is assumed of the deployment : the executor's transactions, no object that is both
shared and owned, and the initial store at version 2. -/
structure Sound (D : Deployment τ ω) (Valid : RemoraTransaction τ → Prop) (sim : ω → ω → Prop) :
    Prop where
  lawful : D.executor.Lawful Valid sim
  valid : ∀ {i t}, D.primary.transaction i = some t → Valid t
  consistent : D.primary.Consistent
  genesis : ∀ {o x}, D.genesis o = some x → D.executor.version x = initialVersion

theorem Lineage.mono {runs : ℕ → Bool} {o : ObjectID} {x : ω} (h : Lineage D runs s o x)
    (hex : ∀ i, Executed s i → Executed s' i) : Lineage D runs s' o x := by
  rcases h with h | ⟨i, ho, he, h⟩
  · exact Or.inl h
  · exact Or.inr ⟨i, ho, hex i he, h⟩

section Values

variable {Valid : RemoraTransaction τ → Prop} {sim : ω → ω → Prop} {runs : ℕ → Bool}

theorem Values.init (hD : Sound D Valid sim) : Values D sim runs (State.init D) where
  store _ h := Or.inl ⟨h, hD.genesis h⟩
  request h := by simp [State.init, Cluster.State.init] at h
  same _ _ := hD.lawful.same_refl _
  executed h := by simp [State.init, Cluster.State.init] at h
  checked h := by simp [State.init, Cluster.State.init] at h
  readings h := by simp [State.init, Cluster.State.init] at h

/-- The value of an object at the version a transaction requires is the one its last accessor
leaves. -/
theorem sequential_of_version (hD : Sound D Valid sim) {i : ℕ} {o : ObjectID}
    {v : SequenceNumber} {x : ω} (hv : (o, v) ∈ required D.primary.txns i)
    (hl : Lineage D runs s o x) (hx : D.executor.version x = v) :
    sequential D.executor D.primary runs D.genesis i o = some x := by
  have ho : o ∈ accessed D.primary.txns i := accessed_of_required hv
  rcases hl with ⟨hg, hinit⟩ | ⟨l, hol, -, hseq, hprod⟩
  · have hno : ∀ l < i, o ∉ accessed D.primary.txns l := by
      intro l hli hol
      obtain ⟨l', -, hl'⟩ := exists_lastAccess hli hol
      have := required_of_lastAccess hv hl'
      rw [← hx, hinit] at this
      exact absurd this (initialVersion_lt_produced l').ne
    rw [sequential_of_no_access hD.consistent ho hno, hg]
  · have hl : Produces D.primary.txns l (o, v) := produces_iff.mpr ⟨hol, hx.symm.trans hprod⟩
    rw [sequential_of_lastAccess hD.consistent (lastAccess_of_produces hv hl), hseq]

/-- A transaction that was executed and has read its inputs writes what it writes in the
sequential execution. -/
theorem Values.output_eq (hV : Values D sim runs s) (hD : Sound D Valid sim)
    (hruns : ∀ i, Executed s i → runs i = true) {i : ℕ} {th : Thread τ ω}
    {txn : RemoraTransaction τ} (ht : s.cluster.threads (.message (.stateful i)) = some th)
    (htxn : th.transaction = some txn) (hi : D.primary.transaction i = some txn)
    (hexec : th.executed = true) (hread : ∀ o ∈ txn.outputIds, ProxyAction.read o ∉ th.todo)
    {o : ObjectID} (ho : o ∈ txn.outputIds) :
    D.executor.output txn th.readings o =
        D.executor.output txn (sequential D.executor D.primary runs D.genesis i) o ∧
      D.executor.output txn th.readings o =
        sequential D.executor D.primary runs D.genesis (i + 1) o := by
  have hready := ((hV.executed ht).2 hexec).1
  have hreadings := fun o ho => hV.readings ht htxn hready ho (hread o ho)
  have hsame : ∀ o, Executor.Same sim (D.genesis o)
      (sequential D.executor D.primary runs D.genesis i o) := hD.lawful.same_sequential i
  have hcongr : D.executor.output txn th.readings o =
      D.executor.output txn (sequential D.executor D.primary runs D.genesis i) o := by
    refine hD.lawful.congr (hD.valid hi) (fun o' ho' => ?_) (fun o' ho' => ?_) o ho
    · exact (hreadings o' (txn.mem_outputIds.mpr ⟨_, ho', rfl⟩)).2.2
        ((Primary.mem_accessed hi).mpr ho')
    · exact hD.lawful.same_trans
        (hD.lawful.same_symm (hreadings o' (txn.mem_outputIds.mpr ⟨_, ho', rfl⟩)).2.1) (hsame o')
  refine ⟨hcongr, ?_⟩
  rw [sequential_succ hi (hruns i ⟨th, ht, hexec⟩) (fun o' ho' => ?_) ho, hcongr]
  rw [← isSome_of_same (hsame o'), isSome_of_same (hreadings o' ho').2.1]
  exact (hreadings o' ho').1

theorem executed_of_step {e : Event} (hs : step D s e = some s') {i : ℕ} (h : Executed s i)
    (hV : Values D sim runs s) : Executed s' i := by
  obtain ⟨x, hx, hex⟩ := h
  rcases step_cases hs with ⟨e', -, hc⟩ | ⟨m, p, msg, -, ha, -⟩ |
    ⟨t, th, th', a, rest, -, hrun, -⟩
  · exact ⟨x, hc ▸ hx, hex⟩
  · exact ⟨x, Cluster.threads_of_arrive ha hx, hex⟩
  · rcases eq_or_ne (.message (.stateful i)) t with rfl | hne
    · obtain rfl := Option.some.inj (hx.symm.trans hrun.thread)
      refine ⟨_, hrun.self, ?_⟩
      by_cases ha : a = execute
      · subst ha
        obtain ⟨-, rfl⟩ := Prod.mk.inj (Option.some.inj hrun.perform)
        exact ((hV.executed hx).2 hex).1
      · exact ((Cluster.perform_frame hrun.perform).executed ha).trans hex
    · exact ⟨x, (hrun.threads_of_ne hne fun y => Cluster.spawned_ne_message _ y).trans hx, hex⟩

/-- A store has the version that a transaction requires only if the last accessor was
executed. -/
theorem Values.executed_of_version (hV : Values D sim runs s) {p : ProxyId} {o : ObjectID} {x : ω}
    {i l : ℕ} {v : SequenceNumber} (hv : (o, v) ∈ required D.primary.txns i)
    (hl : LastAccess D.primary.txns o i l) (hx : s.cluster.resources.stores p o = some x)
    (hversion : D.executor.version x = v) : Executed s l := by
  rcases hV.store (accessed_of_required hv) hx with ⟨-, hinit⟩ | ⟨l', hol', hexec, -, hprod⟩
  · rw [required_of_lastAccess hv hl, hinit] at hversion
    exact absurd hversion (initialVersion_lt_produced l).ne
  · have hl' : Produces D.primary.txns l' (o, v) :=
      produces_iff.mpr ⟨hol', hversion.symm.trans hprod⟩
    rwa [← lastAccess_unique (lastAccess_of_produces hv hl') hl]

section Run

variable {t : ThreadId} {th th' : Thread τ ω} {a : ProxyAction ω} {rest : List (ProxyAction ω)}
  (hr : (system D).Reachable s) (hD : Sound D Valid sim) (hV : Values D sim runs s)
  (hruns : ∀ i, Executed s i → runs i = true)
  (hrun : RunStep D.cluster s.cluster s'.cluster t th th' a rest)
include hr hD hV hruns hrun

/-- What a ready task commits. -/
theorem lineage_of_commit {o : ObjectID} {txn : RemoraTransaction τ} {x : ω} (ha : a = commit o)
    (hready : th.ready = true) (htxn : th.transaction = some txn)
    (hx : D.executor.output txn th.readings o = some x) :
    ∃ i, t = .message (.stateful i) ∧ D.primary.transaction i = some txn ∧ o ∈ txn.outputIds ∧
      th.executed = true ∧ D.executor.version x = produced D.primary.txns i ∧
      sequential D.executor D.primary runs D.genesis (i + 1) o = some x := by
  have hF := follows_of_reachable hr
  have hhead : commit o ∈ th.todo := by
    rw [hrun.todo, ha]
    exact List.mem_cons_self
  obtain ⟨i, rfl⟩ := hF.message_of_rank hrun.thread hhead (by simp [Cluster.rank])
    (by simp [Cluster.rank])
  obtain ⟨txn', stateless, states, hs, -, htxn', hsuffix⟩ := hF.message hrun.thread
  obtain rfl := Option.some.inj (htxn.symm.trans htxn')
  have ho := Cluster.commit_mem_messageProgram.mp (hsuffix.subset hhead)
  have hpast : ∀ {b : ProxyAction ω}, Cluster.rank b < 15 → b ∉ th.todo := fun hb =>
    notMem_of_head hF hrun.thread hrun.todo (by simpa [ha, Cluster.rank] using hb)
  have hexec : th.executed = true := by
    rw [(hV.executed hrun.thread).1 (hpast (by simp [Cluster.rank])), hready]
  refine ⟨i, rfl, hs.transaction, ho, hexec, ?_, ?_⟩
  · rw [hD.lawful.version hx, Primary.nextVersion_eq_produced hs.transaction]
  · rw [← (hV.output_eq hD hruns hrun.thread htxn hs.transaction hexec
      (fun o' _ => hpast (by simp [Cluster.rank])) ho).2, hx]

omit hD hruns in
/-- What a reply commits. -/
theorem lineage_of_commitNew {o : ObjectID} {x : ω} (ha : a = commitNew o x) :
    Lineage D runs s o x := by
  obtain ⟨j, k, y, rfl, -, hy, hobj, -⟩ := (follows_of_reachable hr).reply_of_commitNew hrun.thread
    (by rw [hrun.todo, ha]; exact List.mem_cons_self)
  exact hV.request hy (by simp [hobj])

theorem run_store (hex : ∀ i, Executed s i → Executed s' i) {p : ProxyId} {o : ObjectID} {x : ω}
    {l : ℕ} (ho : o ∈ accessed D.primary.txns l)
    (hx : s'.cluster.resources.stores p o = some x) : Lineage D runs s' o x := by
  rcases stores_cases hrun p o with hsame | ⟨-, ha, hready, txn, x', htxn, hout, hset⟩ |
    ⟨-, x', ha, hset⟩
  · exact (hV.store ho (hsame ▸ hx)).mono hex
  · obtain rfl := Option.some.inj (hset.symm.trans hx)
    obtain ⟨i, rfl, hi, hmem, hexec, hv, hseq⟩ :=
      lineage_of_commit hr hD hV hruns hrun ha hready htxn hout
    exact Or.inr
      ⟨i, hD.consistent.mem_accessed hi ho hmem, hex i ⟨th, hrun.thread, hexec⟩, hseq, hv⟩
  · obtain rfl := Option.some.inj (hset.symm.trans hx)
    exact (lineage_of_commitNew hr hV hrun ha).mono hex

theorem run_same (p : ProxyId) (o : ObjectID) :
    Executor.Same sim (D.genesis o) (s'.cluster.resources.stores p o) := by
  have hseq : ∀ n, Executor.Same sim (D.genesis o)
      (sequential D.executor D.primary runs D.genesis n o) := fun n =>
    hD.lawful.same_sequential n o
  rcases stores_cases hrun p o with hsame | ⟨-, ha, hready, txn, x', htxn, hout, hset⟩ |
    ⟨-, x', ha, hset⟩
  · exact hsame ▸ hV.same p o
  · obtain ⟨i, -, -, -, -, -, hx⟩ := lineage_of_commit hr hD hV hruns hrun ha hready htxn hout
    rw [hset, ← hx]
    exact hseq _
  · rw [hset]
    rcases lineage_of_commitNew hr hV hrun ha with ⟨hg, -⟩ | ⟨i, -, -, hx, -⟩
    · rw [← hg]
      exact hD.lawful.same_refl _
    · rw [← hx]
      exact hseq _

omit hD hruns in
theorem run_objects (hex : ∀ i, Executed s i → Executed s' i) {m : MessageId} {k : ObjectVersion}
    {y : Thread τ ω} {o : ObjectID} {x : ω} (hy : s'.cluster.threads (.request m k) = some y)
    (hx : (o, x) ∈ y.objects) : Lineage D runs s' o x := by
  rcases hrun.cases hy with ⟨rfl, rfl⟩ | ⟨-, hsp⟩ | ⟨-, hold⟩
  · by_cases hold : (o, x) ∈ th.objects
    · exact (hV.request hrun.thread hold).mono hex
    · obtain ⟨j, p, rfl, hreq⟩ := (follows_of_reachable hr).request hrun.thread
      obtain ⟨k', rfl⟩ : ∃ k', a = readState k' := by
        by_contra hne
        rw [(Cluster.perform_frame hrun.perform).objects fun k' hk' => hne ⟨k', hk'⟩] at hx
        exact hold hx
      have hhead : readState k' ∈ th.todo := hrun.head_mem
      obtain rfl : k' = k := by simpa using hreq.todo.2.subset hhead
      have hempty := hreq.empty hhead
      have hperf := hrun.perform
      simp only [Cluster.perform] at hperf
      split at hperf
      · rename_i z hz
        split_ifs at hperf
        · obtain ⟨-, rfl⟩ := Prod.mk.inj (Option.some.inj hperf)
          obtain ⟨rfl, rfl⟩ : o = k'.1 ∧ x = z := by
            simpa [hempty, Cluster.insertObject] using hx
          exact (hV.store (accessed_of_required hreq.mem_required) hz).mono hex
        · obtain ⟨-, rfl⟩ := Prod.mk.inj (Option.some.inj hperf)
          exact absurd hx hold
      · obtain ⟨-, rfl⟩ := Prod.mk.inj (Option.some.inj hperf)
        exact absurd hx hold
  · obtain ⟨q, -, -, -, rfl⟩ := spawned_request hsp
    simp [Cluster.spawn] at hx
  · exact (hV.request hold hx).mono hex

omit hD hruns in
theorem run_executed {i : ℕ} {x : Thread τ ω}
    (hx : s'.cluster.threads (.message (.stateful i)) = some x) :
    (execute ∉ x.todo → x.executed = x.ready) ∧
      (x.executed = true → x.ready = true ∧ ∀ b ∈ x.todo, 13 ≤ Cluster.rank b) := by
  have hF := follows_of_reachable hr
  have hframe := Cluster.perform_frame hrun.perform
  rcases hrun.cases hx with ⟨rfl, rfl⟩ | ⟨-, hsp⟩ | ⟨-, hold⟩
  · obtain ⟨txn, stateless, states, hs, -, -, hsuffix⟩ := hF.message hrun.thread
    have hord := (hs.staged D.primary.mode).ordered.suffix hsuffix
    rw [hrun.todo] at hord
    by_cases ha : a = execute
    · subst ha
      obtain ⟨-, rfl⟩ := Prod.mk.inj (Option.some.inj hrun.perform)
      exact ⟨fun _ => rfl, fun h => ⟨h, fun b hb => hord.head_le (List.mem_cons_of_mem _ hb)⟩⟩
    · have hexec := hframe.executed ha
      obtain ⟨heq, htrue⟩ := hV.executed hrun.thread
      by_cases hr12 : Cluster.rank a < 13
      · -- the call is still to come
        refine ⟨fun hnot => absurd (mem_of_head hs hsuffix hrun.todo
          Cluster.execute_mem_messageProgram hr12) hnot, fun h => ?_⟩
        have := (htrue (hexec.symm.trans h)).2 a hrun.head_mem
        omega
      · have hready : th'.ready = th.ready := by
          refine hframe.ready ?_ ?_
          · rintro rfl
            simp [Cluster.rank] at hr12
          · rintro x rfl
            simp [Cluster.rank] at hr12
        refine ⟨fun hnot => ?_, fun h => ?_⟩
        · exact hexec.trans ((heq (hrun.notMem ha hnot)).trans hready.symm)
        · obtain ⟨h1, h2⟩ := htrue (hexec.symm.trans h)
          exact ⟨hready.trans h1, fun b hb => h2 b
            (by rw [hrun.todo]; exact List.mem_cons_of_mem _ hb)⟩
  · exact absurd hsp (Cluster.spawned_ne_message _ _)
  · exact hV.executed hold

omit hruns in
/-- An input that passes its check is the right one. -/
theorem checked_of_check {i : ℕ} {o : ObjectID} {v : SequenceNumber}
    (ht : t = .message (.stateful i)) (ha : a = check (.sharedMoveObject o))
    (hv : (o, v) ∈ required D.primary.txns i) (hready : th'.ready = true) :
    ∃ x, s'.cluster.resources.stores th'.proxy o = some x ∧
      sequential D.executor D.primary runs D.genesis i o = some x ∧ D.executor.version x = v := by
  subst ht ha
  obtain ⟨txn, stateless, states, hs, -, htxn, -⟩ := (follows_of_reachable hr).message hrun.thread
  have hperf := hrun.perform
  simp only [Cluster.perform] at hperf
  split_ifs at hperf with hr0
  · obtain ⟨txn', htxn', hperf⟩ := Option.bind_eq_some_iff.mp hperf
    obtain rfl := Option.some.inj (htxn.symm.trans htxn')
    obtain ⟨ok, hok, hperf⟩ := Option.bind_eq_some_iff.mp hperf
    obtain ⟨hR, rfl⟩ := Prod.mk.inj (Option.some.inj hperf)
    obtain rfl : ok = true := hready
    obtain ⟨x, hx, hversion⟩ := (Primary.checkInput_eq_true hs.transaction hv).mp hok
    refine ⟨x, by rw [← hR]; exact hx, ?_, hversion⟩
    exact sequential_of_version hD hv (hV.store (accessed_of_required hv) hx) hversion
  · obtain ⟨-, rfl⟩ := Prod.mk.inj (Option.some.inj hperf)
    exact absurd hready hr0

omit hruns in
theorem run_checked {i : ℕ} {x : Thread τ ω} {o : ObjectID} {v : SequenceNumber}
    {b : ProxyAction ω} (hx : s'.cluster.threads (.message (.stateful i)) = some x)
    (hready : x.ready = true) (hbegin : begin ∉ x.todo) (hv : (o, v) ∈ required D.primary.txns i)
    (hcheck : check (.sharedMoveObject o) ∉ x.todo) (hb : b ∈ x.todo)
    (hrank : Cluster.rank b ≤ 14) :
    ∃ y, s'.cluster.resources.stores x.proxy o = some y ∧
      sequential D.executor D.primary runs D.genesis i o = some y ∧ D.executor.version y = v := by
  have hF := follows_of_reachable hr
  have hframe := Cluster.perform_frame hrun.perform
  have ho := accessed_of_required hv
  rcases hrun.cases hx with ⟨rfl, rfl⟩ | ⟨-, hsp⟩ | ⟨hne, hold⟩
  · obtain ⟨txn, stateless, states, hs, -, -, hsuffix⟩ := hF.message hrun.thread
    have hinput : check (.sharedMoveObject o) ∈
        messageProgram (ω := ω) D.primary.mode txn th.proxy stateless states := by
      have hmem := (Primary.mem_accessed hs.transaction).mp ho
      exact Cluster.check_mem_messageProgram.mpr ⟨hmem, List.any_eq_true.mpr ⟨_, hmem, rfl⟩⟩
    by_cases ha : a = check (.sharedMoveObject o)
    · exact checked_of_check hr hD hV hrun rfl ha hv hready
    · have hbegin' : a ≠ begin := by
        rintro rfl
        exact hcheck (mem_of_head hs hsuffix hrun.todo hinput (by simp [Cluster.rank]))
      have hready' : th.ready = true := by
        by_cases hcheck' : ∃ x, a = check x
        · obtain ⟨x, rfl⟩ := hcheck'
          by_contra hfalse
          have hperf := hrun.perform
          simp only [Cluster.perform, hfalse] at hperf
          obtain ⟨-, rfl⟩ := Prod.mk.inj (Option.some.inj hperf)
          exact hfalse hready
        · exact (hframe.ready hbegin' fun x hx => hcheck' ⟨x, hx⟩).symm.trans hready
      have hwrites : Cluster.writes a = false := by
        have hle := ((hs.staged D.primary.mode).ordered.suffix (hrun.todo ▸ hsuffix)).head_le
          (List.mem_cons_of_mem _ hb)
        have hlt := (hs.staged D.primary.mode).lt a
          (hsuffix.subset hrun.head_mem)
        cases a with
        | commit o' =>
          have hle : 15 ≤ Cluster.rank b := hle
          omega
        | commitNew o' x => simp [Cluster.rank] at hlt
        | _ => rfl
      rw [hframe.stores hwrites]
      change ∃ y, s.cluster.resources.stores th'.proxy o = some y ∧ _
      rw [hframe.proxy]
      exact hV.checked hrun.thread hready' (hrun.notMem hbegin' hbegin) hv
        (hrun.notMem ha hcheck) (hrun.mem_of_mem hb) hrank
  · exact absurd hsp (Cluster.spawned_ne_message _ _)
  · -- nobody else writes what this task holds
    obtain ⟨txn, stateless, states, hs, -, -, hsuffix⟩ := hF.message hold
    have hholder : Holder D s o (.message (.stateful i)) :=
      holder_of_executing hF hold (fun k => done_of_done (hs.staged D.primary.mode).ordered hsuffix
        Cluster.begin_mem_messageProgram hbegin (by simp [Cluster.rank])) hb (by omega) ho
    have hsame : s'.cluster.resources.stores x.proxy o = s.cluster.resources.stores x.proxy o := by
      by_contra hne'
      exact hne (hholder.unique hr (holder_of_write hr hD.consistent hrun ho hne').2)
    rw [hsame]
    exact hV.checked hold hready hbegin hv hcheck hb hrank

omit hruns hD in
/-- An input is read as it was checked. -/
theorem readings_of_read {i : ℕ} {o : ObjectID} (ht : t = .message (.stateful i))
    (ha : a = ProxyAction.read o) (hready : th.ready = true) :
    (th'.readings o).isSome ∧ Executor.Same sim (D.genesis o) (th'.readings o) ∧
      (o ∈ accessed D.primary.txns i →
        th'.readings o = sequential D.executor D.primary runs D.genesis i o) := by
  subst ht ha
  have hF := follows_of_reachable hr
  have hperf := hrun.perform
  simp only [Cluster.perform, hready, if_true] at hperf
  obtain ⟨x, hx, hperf⟩ := Option.map_eq_some_iff.mp hperf
  obtain ⟨-, rfl⟩ := Prod.mk.inj hperf
  simp only [update_self]
  refine ⟨rfl, hx ▸ hV.same th.proxy o, fun ho => ?_⟩
  obtain ⟨v, hv⟩ := exists_required ho
  have hpast : ∀ {b : ProxyAction ω}, Cluster.rank b < 14 → b ∉ th.todo := fun hb =>
    notMem_of_head hF hrun.thread hrun.todo hb
  obtain ⟨y, hy, hseq, -⟩ := hV.checked hrun.thread hready (hpast (by simp [Cluster.rank])) hv
    (hpast (by simp [Cluster.rank])) (b := ProxyAction.read o)
    hrun.head_mem (by simp [Cluster.rank])
  rw [hseq, ← hy, hx]

omit hruns hD in
theorem run_readings {i : ℕ} {x : Thread τ ω} {o : ObjectID} {txn : RemoraTransaction τ}
    (hx : s'.cluster.threads (.message (.stateful i)) = some x) (htxn : x.transaction = some txn)
    (hready : x.ready = true) (ho : o ∈ txn.outputIds) (hread : ProxyAction.read o ∉ x.todo) :
    (x.readings o).isSome ∧ Executor.Same sim (D.genesis o) (x.readings o) ∧
      (o ∈ accessed D.primary.txns i →
        x.readings o = sequential D.executor D.primary runs D.genesis i o) := by
  have hF := follows_of_reachable hr
  have hframe := Cluster.perform_frame hrun.perform
  rcases hrun.cases hx with ⟨rfl, rfl⟩ | ⟨-, hsp⟩ | ⟨-, hold⟩
  · obtain ⟨txn', stateless, states, hs, -, htxn', hsuffix⟩ := hF.message hrun.thread
    obtain rfl : txn = txn' :=
      Option.some.inj (htxn.symm.trans (hframe.transaction.trans htxn'))
    have hlate : ¬Cluster.rank a < 14 := fun h => hread (mem_of_head hs hsuffix hrun.todo
      (Cluster.read_mem_messageProgram.mpr ho) h)
    have hready' : th.ready = true := by
      refine (hframe.ready ?_ ?_).symm.trans hready
      · rintro rfl
        simp [Cluster.rank] at hlate
      · rintro x rfl
        simp [Cluster.rank] at hlate
    by_cases ha : a = ProxyAction.read o
    · exact readings_of_read hr hV hrun rfl ha hready'
    · have hsame : th'.readings o = th.readings o := by
        by_cases hread' : ∃ o', a = ProxyAction.read o'
        · obtain ⟨o', rfl⟩ := hread'
          have hperf := hrun.perform
          simp only [Cluster.perform, hready', if_true] at hperf
          obtain ⟨x, -, hperf⟩ := Option.map_eq_some_iff.mp hperf
          obtain ⟨-, rfl⟩ := Prod.mk.inj hperf
          exact update_of_ne (fun h => ha (by rw [h])) _ _
        · rw [hframe.readings fun o' ho' => hread' ⟨o', ho'⟩]
      change (th'.readings o).isSome ∧ _ ∧ (_ → th'.readings o = _)
      rw [hsame]
      exact hV.readings hrun.thread htxn' hready' ho (hrun.notMem ha hread)
  · exact absurd hsp (Cluster.spawned_ne_message _ _)
  · exact hV.readings hold htxn hready ho hread

end Run

theorem Values.arrive {m : MessageId} {p : ProxyId} {msg : PrimaryToProxyMessage τ}
    (hr : (system D).Reachable s) (hV : Values D sim runs s)
    (hsent : s.forwarder.context.sent m = some (p, msg))
    (ha : Cluster.arrive D.cluster s.cluster m p msg = some s'.cluster)
    (hex : ∀ i, Executed s i → Executed s' i) : Values D sim runs s' := by
  obtain ⟨-, -, -, hres, -⟩ := Cluster.arrive_eq_some ha
  -- a new task has everything to do
  have hnew : ∀ {i x}, s'.cluster.threads (.message (.stateful i)) = some x →
      s.cluster.threads (.message (.stateful i)) = some x ∨
        (x.executed = false ∧ begin ∈ x.todo ∧ execute ∈ x.todo ∧
          ∀ txn, x.transaction = some txn → ∀ o ∈ txn.outputIds, ProxyAction.read o ∈ x.todo) := by
    intro i x hx
    rcases eq_or_ne m (.stateful i) with rfl | hm
    · obtain ⟨txn, stateless, states, -, hself⟩ :=
        Follows.spawn_of_arrive (reachable_forwarder hr) hsent ha
      obtain rfl := Option.some.inj (hself.symm.trans hx)
      refine Or.inr ⟨rfl, Cluster.begin_mem_messageProgram, Cluster.execute_mem_messageProgram,
        fun txn' htxn' o ho => Cluster.read_mem_messageProgram.mpr ?_⟩
      obtain rfl : txn = txn' := Option.some.inj htxn'
      exact ho
    · exact Or.inl (Cluster.thread_of_arrive ha (by simpa using hm.symm) hx)
  constructor
  · intro p o x l ho hx
    exact (hV.store ho (hres ▸ hx)).mono hex
  · intro m k y o x hy hx
    exact (hV.request (Cluster.thread_of_arrive ha (by simp) hy) hx).mono hex
  · rw [hres]
    exact hV.same
  · intro i x hx
    rcases hnew hx with hx | ⟨hfalse, -, hm, -⟩
    · exact hV.executed hx
    · exact ⟨fun hnot => absurd hm hnot, fun h => by simp [hfalse] at h⟩
  · intro i x o v b hx hready hbegin hv hcheck hb hrank
    rw [hres]
    rcases hnew hx with hx | ⟨-, hm, -⟩
    · exact hV.checked hx hready hbegin hv hcheck hb hrank
    · exact absurd hm hbegin
  · intro i x txn o hx htxn hready ho hread
    rcases hnew hx with hx | ⟨-, -, -, hm⟩
    · exact hV.readings hx htxn hready ho hread
    · exact absurd (hm txn htxn o ho) hread

theorem Values.step {e : Event} (hr : (system D).Reachable s) (hD : Sound D Valid sim)
    (hV : Values D sim runs s) (hruns : ∀ i, Executed s i → runs i = true)
    (hs : Deployment.step D s e = some s') : Values D sim runs s' := by
  have hex : ∀ i, Executed s i → Executed s' i := fun i h => executed_of_step hs h hV
  rcases step_cases hs with ⟨e', -, hc⟩ | ⟨m, p, msg, hsent, ha, -⟩ |
    ⟨t, th, th', a, rest, -, hrun, -⟩
  · constructor <;> rw [hc]
    · exact fun ho hx => (hV.store ho hx).mono hex
    · exact fun hy hx => (hV.request hy hx).mono hex
    · exact hV.same
    · exact hV.executed
    · exact hV.checked
    · exact hV.readings
  · exact hV.arrive hr hsent ha hex
  · exact ⟨run_store hr hD hV hruns hrun hex, run_objects hr hV hrun hex,
      run_same hr hD hV hruns hrun, run_executed hr hV hrun, run_checked hr hD hV hrun,
      run_readings hr hV hrun⟩

theorem values_of_reachable (hD : Sound D Valid sim) (hr : (system D).Reachable s)
    (hruns : ∀ i, Executed s i → runs i = true) : Values D sim runs s := by
  -- what is executed later is not executed yet
  have hI : Values D sim (fun _ => true) s ∧ ∀ runs : ℕ → Bool,
      (∀ i, Executed s i → runs i = true) → Values D sim runs s := by
    refine hr.invariant (I := fun s => Values D sim (fun _ => true) s ∧ ∀ runs : ℕ → Bool,
      (∀ i, Executed s i → runs i = true) → Values D sim runs s) ?_ ?_
    · rintro s rfl
      exact ⟨.init hD, fun runs _ => .init hD⟩
    · rintro s e s' hr ⟨hall, hI⟩ hs
      refine ⟨hall.step hr hD (fun _ _ => rfl) hs, fun runs hruns => ?_⟩
      have hruns' : ∀ i, Executed s i → runs i = true := fun i h =>
        hruns i (executed_of_step hs h hall)
      exact (hI runs hruns').step hr hD hruns' hs
  exact hI.2 runs hruns

end Values

/-! ## Deterministic execution -/

/-- At the call of the executor the store of the proxy has, for each shared input, what the
last earlier accessor has written, the initial object if there is none. What an executed
transaction writes is what it leaves in the sequential execution, of any transactions that
include the executed ones. -/
def Deterministic (D : Deployment τ ω) : Prop :=
  ∀ s, (system D).Reachable s →
    (∀ i th rest txn o, s.cluster.threads (.message (.stateful i)) = some th →
      th.todo = execute :: rest → th.ready = true → th.transaction = some txn →
      .sharedMoveObject o ∈ txn.inputs →
      (∀ l, LastAccess D.primary.txns o i l → ∃ y txn' x,
        s.cluster.threads (.message (.stateful l)) = some y ∧ y.executed = true ∧
        commit o ∉ y.todo ∧ y.transaction = some txn' ∧
        D.executor.output txn' y.readings o = some x ∧
        s.cluster.resources.stores th.proxy o = some x) ∧
      ((∀ l < i, o ∉ accessed D.primary.txns l) →
        s.cluster.resources.stores th.proxy o = D.genesis o)) ∧
    ∀ runs : ℕ → Bool, (∀ i, Executed s i → runs i = true) →
      ∀ i th txn, s.cluster.threads (.message (.stateful i)) = some th → th.executed = true →
        th.transaction = some txn → (∀ o, ProxyAction.read o ∉ th.todo) → ∀ o ∈ txn.outputIds,
        D.executor.output txn th.readings o =
          sequential D.executor D.primary runs D.genesis (i + 1) o

section Deterministic

variable {Valid : RemoraTransaction τ → Prop} {sim : ω → ω → Prop}

/-- The last accessor has left what its task has read and computed. -/
theorem written_of_lastAccess (runs : ℕ → Bool) (hD : Sound D Valid sim)
    (hr : (system D).Reachable s) (hruns : ∀ i, Executed s i → runs i = true) {i l : ℕ}
    {o : ObjectID} (hi : Entered s i) (ho : o ∈ accessed D.primary.txns i)
    (hl : LastAccess D.primary.txns o i l) (hexec : Executed s l) :
    ∃ y txn, s.cluster.threads (.message (.stateful l)) = some y ∧ y.executed = true ∧
      commit o ∉ y.todo ∧ y.transaction = some txn ∧ D.executor.output txn y.readings o =
        sequential D.executor D.primary runs D.genesis (l + 1) o := by
  have hV := values_of_reachable hD hr hruns
  obtain ⟨y, hy, hexec⟩ := hexec
  obtain ⟨z, hz, hclosed⟩ := closed_of_entered hr hi hl.1 hl.2.1 ho
  obtain rfl := Option.some.inj (hy.symm.trans hz)
  obtain ⟨txn, stateless, states, hs, -, htxn, hsuffix⟩ := (follows_of_reachable hr).message hy
  have hnotify : dep (.notify (o, produced D.primary.txns l)) ∈
      messageProgram (ω := ω) D.primary.mode txn y.proxy stateless states := by
    rw [Cluster.dep_mem_messageProgram, hs.keys,
      notify_mem_dependencyProgram (initialVersion_le_of_mem _ l), mem_map_fst_required]
    exact produces_iff.mpr ⟨hl.2.1, rfl⟩
  have hdone : ∀ {b : ProxyAction ω}, Cluster.rank b < 16 → b ∉ y.todo := fun hb =>
    done_of_done (hs.staged D.primary.mode).ordered hsuffix hnotify hclosed
      (by simpa [Cluster.rank] using hb)
  refine ⟨y, txn, hy, hexec, hdone (by simp [Cluster.rank]), htxn, ?_⟩
  exact (hV.output_eq hD hruns hy htxn hs.transaction hexec
    (fun _ _ => hdone (by simp [Cluster.rank]))
    (Primary.outputIds_of_accessed hs.transaction hl.2.1)).2

theorem Sound.deterministic (hD : Sound D Valid sim) : D.Deterministic := by
  refine fun s hr => ⟨fun i th rest txn o ht htodo hready htxn ho => ?_,
    fun runs hruns i th txn ht hexec htxn hread o ho => ?_⟩
  · have hF := follows_of_reachable hr
    have hV : Values D sim (fun _ => true) s := values_of_reachable hD hr fun _ _ => rfl
    obtain ⟨txn', stateless, states, hs, -, htxn', -⟩ := hF.message ht
    obtain rfl := Option.some.inj (htxn.symm.trans htxn')
    have hacc := (Primary.mem_accessed hs.transaction).mpr ho
    obtain ⟨v, hv⟩ := exists_required hacc
    have hpast : ∀ {b : ProxyAction ω}, Cluster.rank b < 13 → b ∉ th.todo := fun hb =>
      notMem_of_head hF ht htodo hb
    obtain ⟨x, hx, hseq, hversion⟩ := hV.checked ht hready (hpast (by simp [Cluster.rank])) hv
      (hpast (by simp [Cluster.rank])) (b := execute) (by rw [htodo]; exact List.mem_cons_self)
      (by simp [Cluster.rank])
    refine ⟨fun l hl => ?_, fun hno => ?_⟩
    · have hexec : Executed s l := hV.executed_of_version hv hl hx hversion
      have hentered : Entered s i := ⟨th, ht, fun k => hpast (by simp [Cluster.rank])⟩
      obtain ⟨y, txn', hy, hyexec, hdone, htxn', hout⟩ :=
        written_of_lastAccess (fun _ => true) hD hr (fun _ _ => rfl) hentered hacc hl hexec
      refine ⟨y, txn', x, hy, hyexec, hdone, htxn', ?_, hx⟩
      rw [hout, ← sequential_of_lastAccess hD.consistent hl, hseq]
    · rw [hx, ← hseq, sequential_of_no_access hD.consistent hacc hno]
  · obtain ⟨txn', stateless, states, hs, -, htxn', -⟩ := (follows_of_reachable hr).message ht
    obtain rfl := Option.some.inj (htxn.symm.trans htxn')
    exact ((values_of_reachable hD hr hruns).output_eq hD hruns ht htxn hs.transaction hexec
      (fun o _ => hread o) ho).2

end Deterministic

/-- The Fake executor's transactions, built from the store the proxies start with. -/
theorem sound_fake {D : Deployment τ FakeObject} (hE : D.executor = fakeExecutor τ)
    (hbuilt : ∀ t ∈ D.primary.txns, FakeExecutor.BuiltFrom D.genesis t)
    (hgenesis : ∀ o x, D.genesis o = some x → x.version = initialVersion) :
    Sound D (fun _ => True) FakeExecutor.Similar where
  lawful := hE ▸ lawful_fakeExecutor τ
  valid _ := trivial
  consistent t ht t' ht' o ho ho' := by
    obtain ⟨y, hy, hshared⟩ := (hbuilt t ht).isShared ho
    obtain ⟨y', hy', hshared'⟩ := (hbuilt t' ht').isShared ho'
    obtain rfl := Option.some.inj (hy.symm.trans hy')
    simp [← hshared', InputObjectKind.isShared] at hshared
  genesis {o x} h := by
    rw [hE]
    exact hgenesis o x h

/-- The TPC-C executor's transactions, with shared inputs only. -/
theorem sound_tpcc {δ : Type} {D : Deployment τ (TpccObject δ)}
    {logic : τ → (ObjectID → Option (TpccObject δ)) → ObjectID → Option δ}
    (hE : D.executor = tpccExecutor logic) (hshared : ∀ t ∈ D.primary.txns, AllShared t)
    (hgenesis : ∀ o x, D.genesis o = some x → x.version = initialVersion) :
    Sound D AllShared fun _ _ => True where
  lawful := hE ▸ lawful_tpccExecutor logic
  valid {i t} h := by
    obtain ⟨t₀, ht₀, hinputs, -⟩ := Primary.transaction_eq_some h
    intro x hx
    exact hshared t₀ (List.mem_of_getElem? ht₀) x (hinputs ▸ hx)
  consistent t ht t' ht' o ho ho' := by
    simpa [InputObjectKind.isShared] using hshared t' ht' _ ho'
  genesis {o x} h := by
    rw [hE]
    exact hgenesis o x h

/-- Execution is deterministic, with either executor, for every mode, routing, outcome of the
verifications and interleaving. -/
theorem deterministic_execution :
    (∀ D : Deployment τ FakeObject, D.executor = fakeExecutor τ →
      (∀ t ∈ D.primary.txns, FakeExecutor.BuiltFrom D.genesis t) →
      (∀ o x, D.genesis o = some x → x.version = 2) → D.Deterministic) ∧
    ∀ (δ : Type) (logic : τ → (ObjectID → Option (TpccObject δ)) → ObjectID → Option δ)
      (D : Deployment τ (TpccObject δ)), D.executor = tpccExecutor logic →
      (∀ t ∈ D.primary.txns, AllShared t) →
      (∀ o x, D.genesis o = some x → x.version = 2) → D.Deterministic :=
  ⟨fun _ hE hbuilt hgenesis => (sound_fake hE hbuilt hgenesis).deterministic,
    fun _ _ _ hE hshared hgenesis => (sound_tpcc hE hshared hgenesis).deterministic⟩

/-- Two transactions on one shared object, at two proxies. -/
def counter : Deployment Unit FakeObject where
  primary := SharedObjTxnForwarder.twoProxies
  executor := fakeExecutor Unit
  outcome := fun _ => true
  genesis := fun o => if o = 7 then some ⟨7, 2, 1, .shared 2⟩ else none

/-- Both arrive, the first one is executed, and its object moves to the proxy of the second
one, which comes to the call of the executor. -/
def counterRun : List Event :=
  SharedObjTxnForwarder.twoProxiesRun.map .forwarder ++
    [.arrive (.stateful 0), .arrive (.stateful 1)] ++
    List.replicate 11 (.run (.message (.stateful 0))) ++
    List.replicate 6 (.run (.message (.stateful 1))) ++
    List.replicate 7 (.run (.request (.stateful 1) (7, 3))) ++
    List.replicate 5 (.run (.reply (.stateful 1) (7, 3))) ++
    List.replicate 4 (.run (.message (.stateful 1)))

/-- The task is about to call the executor. -/
def calls (th : Thread τ ω) : Bool :=
  match th.todo with
  | .execute :: _ => th.ready
  | _ => false

/-- The second transaction finds at its proxy what the first one has written at another. -/
theorem deterministic_execution_counter : ∃ s th y x,
    (system counter).Reachable s ∧ s.cluster.threads (.message (.stateful 1)) = some th ∧
    calls th = true ∧ th.proxy = 1 ∧ s.cluster.threads (.message (.stateful 0)) = some y ∧
    y.executed = true ∧ s.cluster.resources.stores 1 7 = some x := by
  have hview : (((system counter).run (State.init counter) counterRun).bind fun s =>
      (s.cluster.threads (.message (.stateful 1))).map fun th =>
        (calls th, th.proxy, th.transaction.map RemoraTransaction.inputs)) =
      some (true, 1, some [.sharedMoveObject 7]) := by decide
  obtain ⟨s, hrun, hview⟩ := Option.bind_eq_some_iff.mp hview
  obtain ⟨th, hth, hview⟩ := Option.map_eq_some_iff.mp hview
  simp only [Prod.mk.injEq, Option.map_eq_some_iff] at hview
  obtain ⟨hcalls, hproxy, txn, htxn, hinputs⟩ := hview
  have hs : (system counter).Reachable s := Transition.System.reachable_run (.init rfl) hrun
  have hcalls' := hcalls
  unfold calls at hcalls'
  split at hcalls'
  · rename_i rest htodo
    have hlast : LastAccess counter.primary.txns 7 1 0 :=
      ⟨by decide, by decide, fun l h1 h2 => by omega⟩
    obtain ⟨y, -, x, hy, hexec, -, -, -, hx⟩ := (((deterministic_execution.1 counter rfl
      (by simp only [FakeExecutor.BuiltFrom]; decide) (fun o x h => by
        simp only [counter, Option.ite_none_right_eq_some] at h
        rw [← Option.some.inj h.2]) s hs).1 1 th rest txn 7 hth htodo hcalls' htxn
      (by simp [hinputs])).1 0 hlast)
    exact ⟨s, th, y, x, hs, hth, hcalls, hproxy, hy, hexec, hproxy ▸ hx⟩
  · simp at hcalls'

end Deployment

end Remora
