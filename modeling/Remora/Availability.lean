import Remora.DeterministicExecution

/-!
# What the good transactions find

The other half of determinism : not only is what a transaction finds the right object, it is
there. Some transactions are good. They verify, and they require what good ones produce
(`Supplied`, `Judged`).

A version that a good transaction has committed stays in the store of its proxy until the next
accessor commits, or until the request of a next accessor elsewhere has read it. There it stays
from the reply on (`Available`). A good transaction then finds all it requires once it is past
its waits (`Available.found`), so all its checks pass, and a request for a version of a good
transaction finds it too (`Available.supplied`).
-/

namespace Remora

open Function Rendezvous VersionedDependencyController Program

variable {τ ω : Type}

namespace Deployment

open ProxyAction
open Cluster (RunStep)

variable {D : Deployment τ ω} {s s' : State τ ω} {good : ℕ → Prop}

/-- The inputs of the transactions exist. -/
def Stocked (D : Deployment τ ω) : Prop :=
  ∀ {j t o}, D.primary.transaction j = some t → o ∈ t.outputIds → (D.genesis o).isSome

/-- Good transactions require what good ones produce. -/
def Supplied (D : Deployment τ ω) (good : ℕ → Prop) : Prop :=
  ∀ {i j k}, good j → k ∈ required D.primary.txns j → Produces D.primary.txns i k → good i

/-- The good transactions that have begun were verified. -/
def Judged (good : ℕ → Prop) (s : State τ ω) : Prop :=
  ∀ {j th}, good j → s.cluster.threads (.message (.stateful j)) = some th → begin ∉ th.todo →
    th.gate.verdict = true

/-! ## Who comes next -/

/-- The task of `j`, if it is there, has not committed `o`. -/
def Uncommitted (s : State τ ω) (j : ℕ) (o : ObjectID) : Prop :=
  ∀ x, s.cluster.threads (.message (.stateful j)) = some x → commit o ∈ x.todo

/-- The request of `j` for `k`, if there is one, has not read it. -/
def Unread (s : State τ ω) (j : ℕ) (k : ObjectVersion) : Prop :=
  ∀ y, s.cluster.threads (.request (.stateful j) k) = some y → readState k ∈ y.todo

/-- A thread stays, and does what it has to do. -/
theorem Follows.exists_suffix (hF : Follows D s) {e : Event}
    (hs : Deployment.step D s e = some s')
    {u : ThreadId} (hu : isStateful u = true) {x : Thread τ ω}
    (hx : s.cluster.threads u = some x) :
    ∃ x', s'.cluster.threads u = some x' ∧ x'.todo <:+ x.todo := by
  rcases step_cases hs with ⟨e', -, hc⟩ | ⟨m, p, msg, -, ha, -⟩ |
    ⟨t, th, th', a, rest, -, hrun, -⟩
  · exact ⟨x, hc ▸ hx, List.suffix_rfl⟩
  · exact ⟨x, Cluster.threads_of_arrive ha hx, List.suffix_rfl⟩
  · rcases eq_or_ne u t with rfl | hne
    · obtain rfl := Option.some.inj (hx.symm.trans hrun.thread)
      refine ⟨_, hrun.self, ?_⟩
      rw [hrun.todo]
      exact List.suffix_cons a rest
    · exact ⟨x, (hrun.threads_of_ne hne (hF.not_spawned hrun hu (by simp [hx]))).trans hx,
        List.suffix_rfl⟩

section Threads

variable (hF : Follows D s)
include hF

theorem uncommitted_of_step {e : Event} (hs : step D s e = some s') {j : ℕ} {o : ObjectID}
    (h : Uncommitted s' j o) : Uncommitted s j o := by
  intro x hx
  obtain ⟨x', hx', hsuffix⟩ := hF.exists_suffix hs rfl hx
  exact hsuffix.subset (h x' hx')

theorem unread_of_step {e : Event} (hs : step D s e = some s') {j : ℕ} {k : ObjectVersion}
    (h : Unread s' j k) : Unread s j k := by
  intro y hy
  obtain ⟨y', hy', hsuffix⟩ := hF.exists_suffix hs rfl hy
  exact hsuffix.subset (h y' hy')

/-- What the threads do before their last action is done once it is. -/
theorem notify_mem_of_mem {i : ℕ} {th : Thread τ ω} {o : ObjectID}
    (ht : s.cluster.threads (.message (.stateful i)) = some th)
    (ho : o ∈ accessed D.primary.txns i) {b : ProxyAction ω} (hb : b ∈ th.todo)
    (hrank : Cluster.rank b < 16) : dep (.notify (o, produced D.primary.txns i)) ∈ th.todo := by
  obtain ⟨t, stateless, states, hs, -, -, hsuffix⟩ := hF.message ht
  refine mem_of_mem (hs.staged D.primary.mode).ordered hsuffix ?_ hb
    (by simpa [Cluster.rank] using hrank)
  rw [Cluster.dep_mem_messageProgram, hs.keys,
    notify_mem_dependencyProgram (initialVersion_le_of_mem _ i), mem_map_fst_required]
  exact produces_iff.mpr ⟨ho, rfl⟩

theorem not_closed_of_uncommitted {j : ℕ} {o : ObjectID} (ho : o ∈ accessed D.primary.txns j)
    (h : Uncommitted s j o) : ¬Closed D s j o := by
  rintro ⟨x, hx, hnot⟩
  exact hnot (notify_mem_of_mem hF hx ho (h x hx) (by simp [Cluster.rank]))

theorem commit_notMem_of_closed {i : ℕ} {th : Thread τ ω} {o : ObjectID}
    (ht : s.cluster.threads (.message (.stateful i)) = some th)
    (ho : o ∈ accessed D.primary.txns i) (hc : Closed D s i o) : commit o ∉ th.todo := by
  obtain ⟨x, hx, hnot⟩ := hc
  obtain rfl := Option.some.inj (ht.symm.trans hx)
  exact fun hm => hnot (notify_mem_of_mem hF ht ho hm (by simp [Cluster.rank]))

/-- A task commits after its waits. -/
theorem uncommitted_of_not_entered {j : ℕ} {o : ObjectID} (ho : o ∈ accessed D.primary.txns j)
    (hj : ¬Entered s j) : Uncommitted s j o := by
  intro x hx
  obtain ⟨t, stateless, states, hs, -, -, hsuffix⟩ := hF.message hx
  obtain ⟨k, hk⟩ : ∃ k, dep (.wait k) ∈ x.todo := by
    by_contra hno
    exact hj ⟨x, hx, fun k hk => hno ⟨k, hk⟩⟩
  exact mem_of_mem (hs.staged D.primary.mode).ordered hsuffix
    (Cluster.commit_mem_messageProgram.mpr (Primary.outputIds_of_accessed hs.transaction ho)) hk
    (by simp [Cluster.rank])

theorem entered_of_commit_notMem {i : ℕ} {th : Thread τ ω} {o : ObjectID}
    (ht : s.cluster.threads (.message (.stateful i)) = some th)
    (ho : o ∈ accessed D.primary.txns i) (hc : commit o ∉ th.todo) : Entered s i := by
  by_contra hno
  exact hc (uncommitted_of_not_entered hF ho hno th ht)

theorem begin_notMem_of_entered {j : ℕ} {th : Thread τ ω} {b : ProxyAction ω}
    {rest : List (ProxyAction ω)} (ht : s.cluster.threads (.message (.stateful j)) = some th)
    (htodo : th.todo = b :: rest) (hrank : 11 < Cluster.rank b) : begin ∉ th.todo :=
  notMem_of_head hF ht htodo (by simpa [Cluster.rank] using hrank)

end Threads

section Writers

variable {t : ThreadId} {th th' : Thread τ ω} {a : ProxyAction ω} {rest : List (ProxyAction ω)}
  (hr : (system D).Reachable s) (hC : D.primary.Consistent)
  (hrun : RunStep D.cluster s.cluster s'.cluster t th th' a rest)
include hr hC hrun

/-- An object that `j` has not committed after its turn has come is written by its reply. -/
theorem reply_of_write {p : ProxyId} {o : ObjectID} {j : ℕ} (hj : Turn D s o j)
    (hunc : Uncommitted s' j o)
    (hne : s'.cluster.resources.stores p o ≠ s.cluster.resources.stores p o) :
    ∃ k x, t = .reply (.stateful j) k ∧ k.1 = o ∧ a = commitNew o x := by
  have hF := follows_of_reachable hr
  have hhead : a ∈ th.todo := hrun.head_mem
  obtain ⟨j', hm, hj'⟩ := (holder_of_write hr hC hrun hj.accessed hne).2.turn hr
  obtain rfl := hj.unique hj'
  rcases stores_cases hrun p o with hsame | ⟨-, rfl, -⟩ | ⟨-, x, rfl, -⟩
  · exact absurd hsame hne
  · obtain ⟨i, rfl⟩ := hF.message_of_rank hrun.thread hhead (by simp [Cluster.rank])
      (by simp [Cluster.rank])
    obtain rfl : i = j := MessageId.stateful.inj hm
    obtain ⟨txn, stateless, states, -, -, -, hsuffix⟩ := hF.message hrun.thread
    exact absurd (hunc _ hrun.self) (Cluster.commit_notMem_of_cons (hrun.todo ▸ hsuffix))
  · obtain ⟨i, k, y, rfl, hk, -⟩ := hF.reply_of_commitNew hrun.thread hhead
    obtain rfl : i = j := MessageId.stateful.inj hm
    exact ⟨k, x, rfl, hk, rfl⟩

/-- Nobody writes an object that nobody has accessed before `j`. -/
theorem stores_eq_of_initial {o : ObjectID} {j : ℕ}
    (hk : (o, initialVersion) ∈ required D.primary.txns j) (hunc : Uncommitted s j o)
    (hunc' : Uncommitted s' j o) (p : ProxyId) :
    s'.cluster.resources.stores p o = s.cluster.resources.stores p o := by
  have hF := follows_of_reachable hr
  have ho : o ∈ accessed D.primary.txns j := accessed_of_required hk
  by_contra hne
  have hturn : Turn D s o j := by
    refine ⟨ho, not_closed_of_uncommitted hF ho hunc, fun i hij hoi => ?_⟩
    obtain ⟨l, -, hl⟩ := exists_lastAccess hij hoi
    have hv : initialVersion = produced D.primary.txns l := required_of_lastAccess hk hl
    exact absurd hv (initialVersion_lt_produced l).ne
  obtain ⟨k, x, rfl, rfl, -⟩ := reply_of_write hr hC hrun hturn hunc' hne
  obtain ⟨j', hj', y, -, -, hreq, -⟩ := hF.reply hrun.thread
  obtain rfl : j = j' := MessageId.stateful.inj hj'
  have hlt : initialVersion < k.2 := hreq.todo.1
  exact absurd (required_unique hk hreq.mem_required) hlt.ne

/-- Nobody writes an object that `i` has committed until it is taken over. -/
theorem stores_eq_of_committed {i j : ℕ} {k : ObjectVersion} {x : Thread τ ω}
    (hi : Produces D.primary.txns i k) (hk : k ∈ required D.primary.txns j)
    (hx : s.cluster.threads (.message (.stateful i)) = some x) (hdone : commit k.1 ∉ x.todo)
    (hunc : Uncommitted s j k.1) (hunc' : Uncommitted s' j k.1) (hread : Unread s j k)
    (p : ProxyId) :
    s'.cluster.resources.stores p k.1 = s.cluster.resources.stores p k.1 := by
  have hF := follows_of_reachable hr
  have hoi : k.1 ∈ accessed D.primary.txns i := (produces_iff.mp hi).1
  have hoj : k.1 ∈ accessed D.primary.txns j := accessed_of_required hk
  have hentered : Entered s i := entered_of_commit_notMem hF hx hoi hdone
  by_contra hne
  by_cases hc : Closed D s i k.1
  · -- the next accessor has its turn
    have hturn : Turn D s k.1 j := ⟨hoj, not_closed_of_uncommitted hF hoj hunc,
      fun l hlj hol => closed_of_produces hr hk hi hc hlj hol⟩
    obtain ⟨k', y, rfl, hkk, -⟩ := reply_of_write hr hC hrun hturn hunc' hne
    obtain ⟨j', hj', z, hz, hnil, hreq, -⟩ := hF.reply hrun.thread
    obtain rfl : j = j' := MessageId.stateful.inj hj'
    obtain ⟨o, v⟩ := k
    obtain ⟨o', v'⟩ := k'
    obtain rfl : o' = o := hkk
    obtain rfl := required_unique hk hreq.mem_required
    have := hread z hz
    simp [hnil] at this
  · -- `i` itself has, and has nothing left to commit
    have hturn : Turn D s k.1 i := ⟨hoi, hc, fun l hli hol =>
      closed_of_entered hr hentered hli hol hoi⟩
    obtain ⟨i', hm, hturn'⟩ := (holder_of_write hr hC hrun hoi hne).2.turn hr
    obtain rfl := hturn.unique hturn'
    have hhead : a ∈ th.todo := hrun.head_mem
    rcases stores_cases hrun p k.1 with hsame | ⟨-, rfl, -⟩ | ⟨-, y, rfl, -⟩
    · exact hne hsame
    · obtain ⟨l, rfl⟩ := hF.message_of_rank hrun.thread hhead (by simp [Cluster.rank])
        (by simp [Cluster.rank])
      obtain rfl : l = i := MessageId.stateful.inj hm
      obtain rfl := Option.some.inj (hx.symm.trans hrun.thread)
      exact hdone hhead
    · obtain ⟨l, k', y', rfl, -, hy', -⟩ := hF.reply_of_commitNew hrun.thread hhead
      obtain rfl : l = i := MessageId.stateful.inj hm
      obtain ⟨-, z, hz, hnil⟩ := request_done hr hentered hy'
      obtain rfl := Option.some.inj (hz.symm.trans hrun.thread)
      simp [hnil] at hhead

end Writers

theorem isSome_stores {Valid : RemoraTransaction τ → Prop} {sim : ω → ω → Prop}
    (hr : (system D).Reachable s) (hD : Sound D Valid sim) (p : ProxyId) (o : ObjectID) :
    (s.cluster.resources.stores p o).isSome = (D.genesis o).isSome := by
  have hV : Values D sim (fun _ => true) s := values_of_reachable hD hr fun _ _ => rfl
  exact (isSome_of_same (hV.same p o)).symm

/-! ## What is in the stores -/

/-- What good transactions have committed is there until it is taken over. -/
structure Available (D : Deployment τ ω) (good : ℕ → Prop) (s : State τ ω) : Prop where
  /-- The checks a good task has made so far have passed. -/
  ready : ∀ {j th}, good j → s.cluster.threads (.message (.stateful j)) = some th →
    begin ∉ th.todo → th.ready = true
  initial : ∀ {j o}, (o, initialVersion) ∈ required D.primary.txns j → Uncommitted s j o →
    ∀ p, s.cluster.resources.stores p o = D.genesis o
  produced : ∀ {i j k th}, good i → Produces D.primary.txns i k → k ∈ required D.primary.txns j →
    s.cluster.threads (.message (.stateful i)) = some th → commit k.1 ∉ th.todo →
    Uncommitted s j k.1 → Unread s j k →
    ∃ x, s.cluster.resources.stores th.proxy k.1 = some x ∧ D.executor.version x = k.2
  fetched : ∀ {m k y i}, good i → Produces D.primary.txns i k →
    s.cluster.threads (.request m k) = some y → readState k ∉ y.todo → y.objects ≠ []
  moved : ∀ {j k z i}, good i → Produces D.primary.txns i k →
    s.cluster.threads (.reply (.stateful j) k) = some z → (∀ x, commitNew k.1 x ∉ z.todo) →
    Uncommitted s j k.1 →
    ∃ x, s.cluster.resources.stores z.proxy k.1 = some x ∧ D.executor.version x = k.2

namespace Available

theorem init : Available D good (State.init D) where
  ready _ h := by simp [State.init, Cluster.State.init] at h
  initial _ _ _ := rfl
  produced _ _ _ h := by simp [State.init, Cluster.State.init] at h
  fetched _ _ h := by simp [State.init, Cluster.State.init] at h
  moved _ _ h := by simp [State.init, Cluster.State.init] at h

section Found

variable (hA : Available D good s) (hr : (system D).Reachable s)
include hA hr

/-- A request for a version of a good transaction finds it. -/
theorem supplied {i j : ℕ} {k : ObjectVersion} {y : Thread τ ω} (hi : good i)
    (hprod : Produces D.primary.txns i k)
    (hy : s.cluster.threads (.request (.stateful j) k) = some y) (hw : dep (.wait k) ∉ y.todo)
    (hread : readState k ∈ y.todo) :
    ∃ x, s.cluster.resources.stores y.proxy k.1 = some x ∧ D.executor.version x = k.2 := by
  obtain ⟨loc, hloc⟩ := exists_places s.forwarder
  have hF := follows_of_reachable hr
  obtain ⟨j', p, hj', hreq⟩ := hF.request hy
  obtain rfl : j = j' := MessageId.stateful.inj hj'
  obtain ⟨-, i', hi', hl, -⟩ := source_eq_some.mp (hreq.source_eq hloc).1
  obtain rfl := producer_unique hprod hi'
  have hoi := (produces_iff.mp hprod).1
  obtain ⟨x, hx, hnot⟩ := closed_of_request hr hy hprod hw
  have hproxy : x.proxy = y.proxy := (hF.proxy_eq hloc hx).symm.trans hl
  rw [← hproxy]
  refine hA.produced hi hprod hreq.mem_required hx
    (commit_notMem_of_closed hF hx hoi ⟨x, hx, hnot⟩) ?_ fun y' hy' => ?_
  · refine uncommitted_of_not_entered hF (accessed_of_required hreq.mem_required) fun he => ?_
    simp [(request_done hr he hy).1] at hread
  · rwa [Option.some.inj (hy'.symm.trans hy)]

/-- So does a task past its waits. -/
theorem found_of_good {i j : ℕ} {k : ObjectVersion} {th : Thread τ ω} (hi : good i)
    (hprod : Produces D.primary.txns i k) (hk : k ∈ required D.primary.txns j)
    (ht : s.cluster.threads (.message (.stateful j)) = some th)
    (hw : ∀ k, dep (.wait k) ∉ th.todo) (hc : commit k.1 ∈ th.todo) :
    ∃ x, s.cluster.resources.stores th.proxy k.1 = some x ∧ D.executor.version x = k.2 := by
  obtain ⟨loc, hloc⟩ := exists_places s.forwarder
  have hF := follows_of_reachable hr
  have hunc : Uncommitted s j k.1 := fun x hx => by
    rwa [Option.some.inj (hx.symm.trans ht)]
  rcases woken_message hr hloc ht hk hprod (hw k) with ⟨hl, hclosed⟩ | ⟨-, z, hz, hnil⟩
  · -- the producer is here, and no request takes the version away
    obtain ⟨x, hx, hnot⟩ := hclosed
    have hproxy : x.proxy = th.proxy :=
      (hF.proxy_eq hloc hx).symm.trans (hl.trans (hF.proxy_eq hloc ht))
    rw [← hproxy]
    refine hA.produced hi hprod hk hx
      (commit_notMem_of_closed hF hx (produces_iff.mp hprod).1 ⟨x, hx, hnot⟩) hunc fun y hy => ?_
    obtain ⟨j', p, hj', hreq⟩ := hF.request hy
    obtain rfl : j = j' := MessageId.stateful.inj hj'
    obtain ⟨-, i', hi', hl', hne⟩ := source_eq_some.mp (hreq.source_eq hloc).1
    obtain rfl := producer_unique hprod hi'
    exact absurd (hl'.symm.trans hl) hne
  · obtain ⟨j', hj', y, -, -, hreq, -⟩ := hF.reply hz
    obtain rfl : j = j' := MessageId.stateful.inj hj'
    have hproxy : z.proxy = th.proxy :=
      (hreq.source_eq hloc).2.symm.trans (hF.proxy_eq hloc ht)
    rw [← hproxy]
    exact hA.moved hi hprod hz (by simp [hnil]) hunc

/-- A good task past its waits finds the versions it requires. -/
theorem found (hS : Supplied D good) (hI : Stocked D) {j : ℕ} {k : ObjectVersion}
    {th : Thread τ ω} (hj : good j)
    (hD : ∀ {o x}, D.genesis o = some x → D.executor.version x = initialVersion)
    (hk : k ∈ required D.primary.txns j)
    (ht : s.cluster.threads (.message (.stateful j)) = some th)
    (hw : ∀ k, dep (.wait k) ∉ th.todo) (hc : commit k.1 ∈ th.todo) :
    ∃ x, s.cluster.resources.stores th.proxy k.1 = some x ∧ D.executor.version x = k.2 := by
  have hF := follows_of_reachable hr
  rcases (initialVersion_le_of_required hk).lt_or_eq with hv | hv
  · obtain ⟨i, -, hi⟩ := exists_producer hk hv
    exact hA.found_of_good hr (hS hj hk hi) hi hk ht hw hc
  · obtain ⟨o, v⟩ := k
    obtain rfl : initialVersion = v := hv
    obtain ⟨t, stateless, states, hs, -⟩ := hF.message ht
    have hsome := hI hs.transaction
      (Primary.outputIds_of_accessed hs.transaction (accessed_of_required hk))
    obtain ⟨x, hx⟩ := Option.isSome_iff_exists.mp hsome
    have hgenesis := hA.initial hk (fun y hy => by rwa [Option.some.inj (hy.symm.trans ht)])
      th.proxy
    exact ⟨x, hgenesis.trans hx, hD hx⟩

end Found

section Run

variable {Valid : RemoraTransaction τ → Prop} {sim : ω → ω → Prop} {t : ThreadId}
  {th th' : Thread τ ω} {a : ProxyAction ω} {rest : List (ProxyAction ω)}
  (hA : Available D good s) (hr : (system D).Reachable s) (hD : Sound D Valid sim)
include hA hr hD

/-- The checks of a good task pass. -/
theorem checkInput_eq_true (hS : Supplied D good) (hI : Stocked D) {j : ℕ}
    {txn : RemoraTransaction τ} {x : InputObjectKind} (hj : good j)
    (ht : s.cluster.threads (.message (.stateful j)) = some th) (htodo : th.todo = check x :: rest)
    (htxn : th.transaction = some txn) :
    D.executor.checkInput txn x (s.cluster.resources.stores th.proxy x.objectId) = some true := by
  have hF := follows_of_reachable hr
  obtain ⟨txn', stateless, states, hs, -, htxn', hsuffix⟩ := hF.message ht
  obtain rfl := Option.some.inj (htxn.symm.trans htxn')
  have hx : x ∈ txn.inputs := (Cluster.check_mem_messageProgram.mp
    (hsuffix.subset (by rw [htodo]; exact List.mem_cons_self))).1
  cases x with
  | sharedMoveObject o =>
    have ho : o ∈ accessed D.primary.txns j := (Primary.mem_accessed hs.transaction).mpr hx
    obtain ⟨v, hv⟩ := exists_required ho
    have hc : commit o ∈ th.todo := by
      rw [htodo]
      exact List.mem_cons_of_mem _ (mem_of_head hs hsuffix htodo
        (Cluster.commit_mem_messageProgram.mpr (Primary.outputIds_of_accessed hs.transaction ho))
        (by simp [Cluster.rank]))
    exact (Primary.checkInput_eq_true hs.transaction hv).mpr (hA.found hr hS hI hj hD.genesis hv ht
      (fun k => notMem_of_head hF ht htodo (by simp [Cluster.rank])) hc)
  | immOrOwnedMoveObject o =>
    have hsome := hI hs.transaction (txn.mem_outputIds.mpr ⟨_, hx, rfl⟩)
    rw [InputObjectKind.objectId, ← isSome_stores hr hD th.proxy] at hsome
    obtain ⟨y, hy⟩ := Option.isSome_iff_exists.mp hsome
    simp [InputObjectKind.objectId, hy, Executor.checkInput]

section Step

variable (hrun : RunStep D.cluster s.cluster s'.cluster t th th' a rest)
include hrun

theorem run_ready (hS : Supplied D good) (hI : Stocked D) (hJ : Judged good s') {j : ℕ}
    {x : Thread τ ω} (hj : good j) (hx : s'.cluster.threads (.message (.stateful j)) = some x)
    (hbegin : begin ∉ x.todo) : x.ready = true := by
  have hF := follows_of_reachable hr
  rcases hrun.cases hx with ⟨rfl, rfl⟩ | ⟨-, hsp⟩ | ⟨-, hold⟩
  · by_cases ha : a = begin
    · subst ha
      have hv := hJ hj hx hbegin
      obtain ⟨-, rfl⟩ := Prod.mk.inj (Option.some.inj hrun.perform)
      exact hv
    · have hready : th.ready = true := hA.ready hj hrun.thread (hrun.notMem ha hbegin)
      by_cases hcheck : ∃ x, a = check x
      · obtain ⟨x, rfl⟩ := hcheck
        obtain ⟨txn, -, -, -, -, htxn, -⟩ := hF.message hrun.thread
        have hok := hA.checkInput_eq_true hr hD hS hI hj hrun.thread hrun.todo htxn
        have hperf := hrun.perform
        simp only [Cluster.perform, hready, if_true] at hperf
        obtain ⟨txn', htxn', hperf⟩ := Option.bind_eq_some_iff.mp hperf
        obtain rfl := Option.some.inj (htxn.symm.trans htxn')
        obtain ⟨ok, hok', hperf⟩ := Option.bind_eq_some_iff.mp hperf
        obtain ⟨-, rfl⟩ := Prod.mk.inj (Option.some.inj hperf)
        exact Option.some.inj (hok'.symm.trans hok)
      · exact ((Cluster.perform_frame hrun.perform).ready ha
          fun x hx => hcheck ⟨x, hx⟩).trans hready
  · exact absurd hsp (Cluster.spawned_ne_message _ _)
  · exact hA.ready hj hold hbegin

theorem run_produced {e : Event} (hs : Deployment.step D s e = some s') {i j : ℕ}
    {k : ObjectVersion} {x : Thread τ ω} (hi : good i) (hprod : Produces D.primary.txns i k)
    (hk : k ∈ required D.primary.txns j)
    (hx : s'.cluster.threads (.message (.stateful i)) = some x) (hdone : commit k.1 ∉ x.todo)
    (hunc : Uncommitted s' j k.1) (hread : Unread s' j k) :
    ∃ y, s'.cluster.resources.stores x.proxy k.1 = some y ∧ D.executor.version y = k.2 := by
  have hF := follows_of_reachable hr
  have hframe := Cluster.perform_frame hrun.perform
  -- what was committed before is still there
  have hkept : ∀ {z}, s.cluster.threads (.message (.stateful i)) = some z → commit k.1 ∉ z.todo →
      ∃ y, s'.cluster.resources.stores z.proxy k.1 = some y ∧ D.executor.version y = k.2 := by
    intro z hz hnot
    have hunc₀ := uncommitted_of_step hF hs hunc
    have hread₀ := unread_of_step hF hs hread
    rw [stores_eq_of_committed hr hD.consistent hrun hprod hk hz hnot hunc₀ hunc hread₀]
    exact hA.produced hi hprod hk hz hnot hunc₀ hread₀
  rcases hrun.cases hx with ⟨rfl, rfl⟩ | ⟨-, hsp⟩ | ⟨-, hold⟩
  · change ∃ y, s'.cluster.resources.stores th'.proxy k.1 = some y ∧ _
    rw [hframe.proxy]
    by_cases ha : a = commit k.1
    · subst ha
      have hready := hA.ready hi hrun.thread
        (begin_notMem_of_entered hF hrun.thread hrun.todo (by simp [Cluster.rank]))
      obtain ⟨txn, stateless, states, hsent, -, htxn, -⟩ := hF.message hrun.thread
      have hperf := hrun.perform
      simp only [Cluster.perform, hready, if_true] at hperf
      obtain ⟨txn', htxn', hperf⟩ := Option.bind_eq_some_iff.mp hperf
      obtain rfl := Option.some.inj (htxn.symm.trans htxn')
      obtain ⟨y, hy, hperf⟩ := Option.bind_eq_some_iff.mp hperf
      obtain ⟨hR, -⟩ := Prod.mk.inj (Option.some.inj hperf)
      refine ⟨y, by rw [← hR]; simp, ?_⟩
      rw [hD.lawful.version hy, Primary.nextVersion_eq_produced hsent.transaction]
      exact (produces_iff.mp hprod).2.symm
    · exact hkept hrun.thread (hrun.notMem ha hdone)
  · exact absurd hsp (Cluster.spawned_ne_message _ _)
  · exact hkept hold hdone

omit hD in
theorem run_fetched {m : MessageId} {k : ObjectVersion} {y : Thread τ ω} {i : ℕ} (hi : good i)
    (hprod : Produces D.primary.txns i k) (hy : s'.cluster.threads (.request m k) = some y)
    (hread : readState k ∉ y.todo) : y.objects ≠ [] := by
  have hF := follows_of_reachable hr
  rcases hrun.cases hy with ⟨rfl, rfl⟩ | ⟨-, hsp⟩ | ⟨-, hold⟩
  · obtain ⟨j, p, rfl, hreq⟩ := hF.request hrun.thread
    by_cases ha : a = readState k
    · subst ha
      have hhead : readState k ∈ th.todo := hrun.head_mem
      have hw : dep (.wait k) ∉ th.todo := by
        have hsuffix := hreq.todo.2
        intro hm
        simp only [List.suffix_cons_iff, List.suffix_nil] at hsuffix
        rcases hsuffix with h | h | h | h | h | h | h | h <;>
          simp_all [hrun.todo]
      obtain ⟨x, hx, hv⟩ := hA.supplied hr hi hprod hrun.thread hw hhead
      have hperf := hrun.perform
      simp only [Cluster.perform, hx] at hperf
      rw [if_pos (show D.cluster.executor.version x = k.2 from hv)] at hperf
      obtain ⟨-, rfl⟩ := Prod.mk.inj (Option.some.inj hperf)
      simp [hreq.empty hhead, Cluster.insertObject]
    · have hold := hA.fetched hi hprod hrun.thread (hrun.notMem ha hread)
      have hframe := Cluster.perform_frame hrun.perform
      change th'.objects ≠ []
      rwa [hframe.objects]
      rintro k' rfl
      have hhead : readState k' ∈ th.todo := hrun.head_mem
      obtain rfl : k' = k := by simpa using hreq.todo.2.subset hhead
      exact ha rfl
  · obtain ⟨q, -, -, -, rfl⟩ := spawned_request hsp
    have hv := initialVersion_lt_of_produces hprod
    simp [Cluster.spawn, Cluster.handleStatefulRequest_eq th.proxy hv] at hread
  · exact hA.fetched hi hprod hold hread

/-- It is the turn of `j`, and nobody but this reply writes. -/
theorem moved_kept {e : Event} (hs : Deployment.step D s e = some s') {i j : ℕ}
    {k : ObjectVersion} (hi : good i) (hprod : Produces D.primary.txns i k)
    (hunc : Uncommitted s' j k.1) {y : Thread τ ω}
    (hy : s.cluster.threads (.reply (.stateful j) k) = some y)
    (hnot : ∀ x, commitNew k.1 x ∉ y.todo) :
    ∃ x, s'.cluster.resources.stores y.proxy k.1 = some x ∧ D.executor.version x = k.2 := by
  have hF := follows_of_reachable hr
  have hunc₀ := uncommitted_of_step hF hs hunc
  obtain ⟨j', hj', w, -, -, hreq, -⟩ := hF.reply hy
  obtain rfl : j = j' := MessageId.stateful.inj hj'
  have hk := hreq.mem_required
  have hoj := accessed_of_required hk
  have hturn : Turn D s k.1 j := ⟨hoj, not_closed_of_uncommitted hF hoj hunc₀,
    fun l hlj hol => closed_of_produces hr hk hprod (closed_of_reply hr hy hprod) hlj hol⟩
  suffices hsame : s'.cluster.resources.stores y.proxy k.1 =
      s.cluster.resources.stores y.proxy k.1 by
    rw [hsame]
    exact hA.moved hi hprod hy hnot hunc₀
  by_contra hne
  obtain ⟨⟨o, v⟩, x, rfl, ho, rfl⟩ := reply_of_write hr hD.consistent hrun hturn hunc hne
  obtain ⟨j', hj', w', -, -, hreq', -⟩ := hF.reply hrun.thread
  obtain rfl : j = j' := MessageId.stateful.inj hj'
  obtain ⟨o', v'⟩ := k
  obtain rfl : o = o' := ho
  obtain rfl := required_unique hk hreq'.mem_required
  obtain rfl := Option.some.inj (hy.symm.trans hrun.thread)
  exact hnot x hrun.head_mem

theorem run_moved {e : Event} (hs : Deployment.step D s e = some s') {i j : ℕ}
    {k : ObjectVersion} {z : Thread τ ω} (hi : good i) (hprod : Produces D.primary.txns i k)
    (hz : s'.cluster.threads (.reply (.stateful j) k) = some z)
    (hdone : ∀ x, commitNew k.1 x ∉ z.todo) (hunc : Uncommitted s' j k.1) :
    ∃ x, s'.cluster.resources.stores z.proxy k.1 = some x ∧ D.executor.version x = k.2 := by
  have hF := follows_of_reachable hr
  have hframe := Cluster.perform_frame hrun.perform
  rcases hrun.cases hz with ⟨rfl, rfl⟩ | ⟨-, hsp⟩ | ⟨-, hold⟩
  · change ∃ x, s'.cluster.resources.stores th'.proxy k.1 = some x ∧ _
    rw [hframe.proxy]
    by_cases ha : ∃ x, a = commitNew k.1 x
    · obtain ⟨x, rfl⟩ := ha
      obtain ⟨j', k', y, ht, -, -, hobj, hreq⟩ := hF.reply_of_commitNew hrun.thread
        hrun.head_mem
      obtain ⟨-, rfl⟩ := ThreadId.reply.inj ht
      obtain ⟨hR, -⟩ := Prod.mk.inj (Option.some.inj hrun.perform)
      refine ⟨x, by rw [← hR]; simp, ?_⟩
      rcases hreq.objects with hnil | ⟨x', hx', hv⟩
      · simp [hnil] at hobj
      · obtain rfl : x = x' := by simpa [hx'] using hobj.symm
        exact hv
    · exact moved_kept hA hr hD hrun hs hi hprod hunc hrun.thread fun x =>
        hrun.notMem (fun h => ha ⟨x, h⟩) (hdone x)
  · obtain ⟨q, rfl, -, -, rfl⟩ := spawned_reply hsp
    obtain ⟨j', rfl, hreq⟩ := hF.sender_of_sendReply hrun.thread
      hrun.head_mem
    have hread : readState k ∉ th.todo := by
      have hsuffix := hreq.todo.2
      simp only [List.suffix_cons_iff, List.suffix_nil] at hsuffix
      rcases hsuffix with h | h | h | h | h | h | h | h <;> simp_all [hrun.todo]
    rcases hreq.objects with hnil | ⟨x, hx, hv⟩
    · exact absurd hnil (hA.fetched hi hprod hrun.thread hread)
    · have h0 : 0 < D.executor.version x := by
        rw [hv]
        exact (Nat.zero_le _).trans_lt hreq.todo.1
      refine absurd ?_ (hdone x)
      simp only [Cluster.spawn, hx]
      rw [show D.cluster.executor.version = D.executor.version from rfl,
        Cluster.handleStatefulReply_singleton h0]
      simp
  · exact moved_kept hA hr hD hrun hs hi hprod hunc hold hdone

end Step

end Run

variable {Valid : RemoraTransaction τ → Prop} {sim : ω → ω → Prop}

theorem step {e : Event} (hA : Available D good s) (hr : (system D).Reachable s)
    (hD : Sound D Valid sim) (hS : Supplied D good) (hI : Stocked D) (hJ : Judged good s')
    (hs : Deployment.step D s e = some s') : Available D good s' := by
  have hF := follows_of_reachable hr
  rcases step_cases hs with ⟨e', -, hc⟩ | ⟨m, p, msg, hsent, ha, -⟩ |
    ⟨t, th, th', a, rest, -, hrun, -⟩
  · -- the primary is elsewhere
    constructor <;> simp only [Uncommitted, Unread, hc]
    · exact hA.ready
    · exact hA.initial
    · exact hA.produced
    · exact hA.fetched
    · exact hA.moved
  · obtain ⟨-, -, -, hres, -⟩ := Cluster.arrive_eq_some ha
    -- a new task has everything to do
    have hnew : ∀ {i x}, s'.cluster.threads (.message (.stateful i)) = some x →
        s.cluster.threads (.message (.stateful i)) = some x ∨
          (begin ∈ x.todo ∧ ∀ o ∈ accessed D.primary.txns i, commit o ∈ x.todo) := by
      intro i x hx
      rcases eq_or_ne m (.stateful i) with rfl | hm
      · obtain ⟨txn, stateless, states, hs, hself⟩ :=
          Follows.spawn_of_arrive (reachable_forwarder hr) hsent ha
        obtain rfl := Option.some.inj (hself.symm.trans hx)
        exact Or.inr ⟨Cluster.begin_mem_messageProgram, fun o ho =>
          Cluster.commit_mem_messageProgram.mpr (Primary.outputIds_of_accessed hs.transaction ho)⟩
      · exact Or.inl (Cluster.thread_of_arrive ha (by simpa using hm.symm) hx)
    constructor
    · intro j x hj hx hbegin
      rcases hnew hx with hx | ⟨hm, -⟩
      · exact hA.ready hj hx hbegin
      · exact absurd hm hbegin
    · intro j o hk hunc p
      rw [hres]
      exact hA.initial hk (uncommitted_of_step hF hs hunc) p
    · intro i j k x hi hprod hk hx hdone hunc hread
      rw [hres]
      rcases hnew hx with hx | ⟨-, hm⟩
      · exact hA.produced hi hprod hk hx hdone (uncommitted_of_step hF hs hunc)
          (unread_of_step hF hs hread)
      · exact absurd (hm _ (produces_iff.mp hprod).1) hdone
    · exact fun hi hprod hy => hA.fetched hi hprod (Cluster.thread_of_arrive ha (by simp) hy)
    · intro j k z i hi hprod hz hdone hunc
      rw [hres]
      exact hA.moved hi hprod (Cluster.thread_of_arrive ha (by simp) hz) hdone
        (uncommitted_of_step hF hs hunc)
  · refine ⟨hA.run_ready hr hD hrun hS hI hJ, fun hk hunc p => ?_, hA.run_produced hr hD hrun hs,
      hA.run_fetched hr hrun, hA.run_moved hr hD hrun hs⟩
    have hunc₀ := uncommitted_of_step hF hs hunc
    rw [stores_eq_of_initial hr hD.consistent hrun hk hunc₀ hunc p]
    exact hA.initial hk hunc₀ p

end Available

/-- What a task has found out before it begins stays. -/
theorem Judged.of_step {e : Event} (hr : (system D).Reachable s) (hs : step D s e = some s')
    (hJ : Judged good s') : Judged good s := by
  intro j x hj hx hbegin
  have hF := follows_of_reachable hr
  rcases step_cases hs with ⟨e', -, hc⟩ | ⟨m, p, msg, -, ha, -⟩ |
    ⟨t, th, th', a, rest, -, hrun, -⟩
  · exact hJ hj (hc ▸ hx) hbegin
  · exact hJ hj (Cluster.threads_of_arrive ha hx) hbegin
  · rcases eq_or_ne (.message (.stateful j)) t with rfl | hne
    · obtain rfl := Option.some.inj (hx.symm.trans hrun.thread)
      obtain ⟨txn, stateless, states, hsent, -, -, hsuffix⟩ := hF.message hx
      have hlate : 11 ≤ Cluster.rank a := by
        by_contra hlt
        exact hbegin (hrun.mem_of_mem (mem_of_head hsent hsuffix hrun.todo
          Cluster.begin_mem_messageProgram (by simpa [Cluster.rank] using hlt)))
      have hframe := Cluster.perform_frame hrun.perform
      have hlocals : th'.gate = x.gate := by
        refine hframe.locals ?_ ?_
        · rintro g rfl
          cases g <;> simp [Cluster.rank] at hlate
        · rintro rfl
          simp [Cluster.rank] at hlate
      have hverdict := hJ hj hrun.self fun hm => hbegin (hrun.mem_of_mem hm)
      rwa [hlocals] at hverdict
    · exact hJ hj ((hrun.threads_of_ne hne fun y => Cluster.spawned_ne_message _ y).trans hx) hbegin

theorem available_of_reachable {Valid : RemoraTransaction τ → Prop} {sim : ω → ω → Prop}
    (hD : Sound D Valid sim) (hS : Supplied D good) (hI : Stocked D) (hr : (system D).Reachable s)
    (hJ : Judged good s) : Available D good s := by
  revert hJ
  refine hr.invariant (I := fun s => Judged good s → Available D good s) ?_ ?_
  · rintro s rfl -
    exact .init
  · intro s e s' hr ih hs hJ
    exact (ih (hJ.of_step hr hs)).step hr hD hS hI hJ hs

end Deployment

end Remora
