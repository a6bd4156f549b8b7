import Remora.Completion
import Remora.PrimaryNode

/-!
# From arrival to execution

What a primary node and its proxies do by themselves comes to an end (`acc_own`). A step of one of
the tasks adds to what the tasks after it have to do, so the measure is lexicographic, in the order
of the pipeline. The channels are bounded, and a task waits for the one after it, but not the other
way round : at the end the proxies are at rest, so the channel to the forwarder is empty, so the
version assignment is at rest, and so on back to the consensus (`rest_eq`).

In the combined modes, if all transactions verify, every transaction received is then executed, and
the proxies have what a sequential execution leaves, in the order in which the batches were
delivered (`executes_received`).
-/

namespace Remora

open Function VersionAssignmentTask OwnedObjTxnForwarder

variable {τ ω : Type}

namespace PrimaryNode

open Deployment (Less wellFounded_less remaining_less)

variable {N : PrimaryNode τ ω} {s s' : State τ ω} {e : Event τ}

/-! ## Nothing goes on forever -/

/-- The event is one of the node and its proxies, and is not just a timer that starts again. -/
def isOwn (s : State τ ω) : Event τ → Bool
  | .consensus e => MockConsensus.isOwn s.consensus e
  | .deployment e => e.isOwn
  | _ => true

/-- What the consensus, the load balancer and the two tasks after it have left to do. -/
def ahead (s : State τ ω) : ℕ × ℕ × ℕ :=
  (MockConsensus.work s.consensus,
    3 * (s.consensus.txPrimaryExecutor.length - s.txnCnt) + s.balancing.sends,
    s.ownedBatches.length + s.transactions.length +
      (s.sharedBatches.map fun b => b.length + 1).sum)

/-- What everything has left to do. -/
noncomputable def remaining (N : PrimaryNode τ ω) (s : State τ ω) :
    (ℕ × ℕ × ℕ) × (ℕ × ℕ × ℕ) :=
  (ahead s, Deployment.remaining (N.deployment s.assigned) s.deployment)

/-- A step of a task leaves less to the tasks up to it. -/
theorem remaining_lt (hn : 0 < N.numWorkers) (hr : (system N).Reachable s)
    (he : isOwn s e = true) (hs : step N s e = some s') :
    Prod.Lex Less Less (remaining N s') (remaining N s) := by
  have hW := wired_of_reachable hr
  cases step_cases hs with
  | consensus _ hc =>
    exact .left _ _ (.left _ _ (MockConsensus.work_lt
      (MockConsensus.bounded_of_reachable hW.consensus) he hc))
  | receive hrecv hcommit =>
    obtain ⟨hlt, -⟩ := List.getElem?_eq_some_iff.mp hcommit
    refine .left _ _ (.right _ (.left _ _ ?_))
    simp only [hrecv, Balancing.sends]
    omega
  | sendOwned hb _ =>
    refine .left _ _ (.right _ (.left _ _ ?_))
    simp [hb, Balancing.sends]
  | sendShared hb _ =>
    refine .left _ _ (.right _ (.left _ _ ?_))
    simp [hb, Balancing.sends]
  | forwardOwned hbatches _ =>
    refine .left _ _ (.right _ (.right _ ?_))
    simp [hbatches]
  | recvShared htxns hbatches =>
    refine .left _ _ (.right _ (.right _ ?_))
    simp [htxns, hbatches]
    omega
  | assign htxns _ =>
    refine .left _ _ (.right _ (.right _ ?_))
    simp [assignNext, htxns]
  | deployment hd => exact .right _ (remaining_less hn (reachable_deployment hr) he hd)

/-- In no mode can a node and its proxies go on forever. -/
theorem acc_own (hn : 0 < N.numWorkers) (hr : (system N).Reachable s) :
    Acc ((system N).Next fun s e => isOwn s e = true) s :=
  Transition.System.acc_of_decreases (WellFounded.prod_lex wellFounded_less wellFounded_less)
    (I := (system N).Reachable) (fun _ _ hr ⟨_, _, hs⟩ => hr.step hs)
    (fun _ _ hr ⟨_, he, hs⟩ => remaining_lt hn hr he hs) hr

/-! ## What arrives -/

/-- What arrives satisfies `P`, has a shared object and a new digest, and the schedulers plan for
connected proxies. -/
def Admitted (P : RemoraTransaction τ → Prop) (N : PrimaryNode τ ω) (s : State τ ω) :
    Event τ → Prop
  | .consensus (.arrive t) => P t ∧ t.sharedObjects ≠ [] ∧
      t.digest ∉ s.consensus.received.map RemoraTransaction.digest
  | .deployment (.forwarder (.plan _ p)) => p ∈ N.connections
  | _ => True

variable {P : RemoraTransaction τ → Prop}

/-- The transactions received. -/
structure Received (P : RemoraTransaction τ → Prop) (txns : List (RemoraTransaction τ)) : Prop where
  all : ∀ t ∈ txns, P t ∧ t.sharedObjects ≠ []
  nodup : (txns.map RemoraTransaction.digest).Nodup

theorem received_of_reachable (h : (system N).ReachableVia (Admitted P N) s) :
    Received P s.consensus.received := by
  refine h.invariant (I := fun s => Received P s.consensus.received) ?_ ?_
  · rintro s rfl
    exact ⟨by simp [State.init, MockConsensus.State.init],
      by simp [State.init, MockConsensus.State.init]⟩
  · intro s e s' _ hI he hs
    cases step_cases hs with
    | @consensus e' c _ hc =>
      have hreceived := (MockConsensus.received_of_step hc).1
      simp only [hreceived]
      cases e' with
      | arrive t =>
        obtain ⟨hP, hshared, hnew⟩ := he
        refine ⟨fun u hu => ?_, ?_⟩
        · rcases List.mem_append.mp hu with hu | hu
          · exact hI.all u hu
          · obtain rfl := List.mem_singleton.mp hu
            exact ⟨hP, hshared⟩
        · rw [List.map_append, List.nodup_append_comm]
          exact List.nodup_cons.mpr ⟨hnew, hI.nodup⟩
      | _ => simpa [MockConsensus.Event.arrivals] using hI
    | _ => exact hI

/-- What the node does by itself brings nothing. -/
theorem admitted_of_own (hr : (system N).ReachableVia (Admitted P N) s)
    (h : Relation.ReflTransGen (flip ((system N).Next fun s e => isOwn s e = true)) s s') :
    (system N).ReachableVia (Admitted P N) s' ∧ s'.consensus.received = s.consensus.received := by
  induction h with
  | refl => exact ⟨hr, rfl⟩
  | @tail s₁ s₂ _ hnext ih =>
    obtain ⟨e, he, hs⟩ := hnext
    obtain ⟨hvia, hreceived⟩ := ih
    refine ⟨hvia.step ?_ hs, ?_⟩
    · unfold Admitted
      split
      · simp [isOwn, MockConsensus.isOwn] at he
      · simp [isOwn, Deployment.Event.isOwn, SharedObjTxnForwarder.Event.isOwn] at he
      · trivial
    · rw [← hreceived]
      cases step_cases hs with
      | consensus _ hc => exact (MockConsensus.received_of_own he hc).1
      | _ => rfl

/-! ## At rest -/

/-- The transactions assigned are among those received. -/
theorem Wired.assigned_subperm (hW : Wired N s) : s.assigned.Subperm s.consensus.received := by
  have hassigned : s.assigned <+: (commits s).flatMap fun c => (separate c).2 := by
    rw [hW.shared, List.append_assoc, List.append_assoc]
    exact List.prefix_append _ _
  have hcommits : ((commits s).flatMap fun c => (separate c).2).Subperm (commits s).flatten :=
    (List.sublist_append_right _ _).subperm.trans (perm_commits _).subperm
  have hreceived : (commits s).flatten.Subperm s.consensus.received :=
    (List.sublist_append_right _ _).subperm.trans hW.perm_ordering.symm.subperm
  exact (hassigned.sublist.subperm.trans hcommits).trans hreceived

theorem Received.of_subperm {txns txns' : List (RemoraTransaction τ)} (h : Received P txns)
    (hsub : txns'.Subperm txns) : Received P txns' := by
  obtain ⟨l, hperm, hsub⟩ := hsub
  refine ⟨fun t ht => h.all t (hsub.subset (hperm.symm.subset ht)), ?_⟩
  exact (hperm.map _).nodup_iff.mp ((hsub.map _).nodup h.nodup)

/-- Where nothing moves, every channel is empty and no task has anything in hand, once the
forwarder has received what was assigned. -/
theorem rest_eq (hW : Wired N s) (hsize : 0 < N.channelSize)
    (hsent : s.deployment.forwarder.pool.sent = s.assigned.length)
    (hrest : ∀ e, isOwn s e = true → step N s e = none) :
    s.transactions = [] ∧ s.sharedBatches = [] ∧ s.balancing = .recv ∧
      s.txnCnt = s.consensus.txPrimaryExecutor.length := by
  have hassign := hrest .assign rfl
  have hforward := hrest .forwardOwned rfl
  have hsend := hrest .send rfl
  have hreceive := hrest .receive rfl
  have htxns : s.transactions = [] ∧ s.sharedBatches = [] := by
    simp only [step] at hassign
    split at hassign
    · rename_i h1 h2
      exact ⟨h1, h2⟩
    · simp at hassign
    · simp [hsent, hsize] at hassign
  have howned : s.ownedBatches = [] := by
    simp only [step] at hforward
    split at hforward
    · assumption
    · rename_i txns rest _
      obtain ⟨index, hmsgs, -⟩ := exists_forwardOwnedTxnsInParallel N.connections hW.index txns
      simp [hmsgs] at hforward
  have hroom : ∀ txns, ∃ queue, N.sendBatch [] txns = some queue := by
    intro txns
    simp only [sendBatch, List.length_nil, hsize, if_true]
    split_ifs <;> exact ⟨_, rfl⟩
  have hrecv : s.balancing = .recv := by
    cases hb : s.balancing with
    | recv => rfl
    | sendOwned owned shared =>
      obtain ⟨queue, hqueue⟩ := hroom owned
      simp [step, hb, howned, hqueue] at hsend
    | sendShared shared =>
      obtain ⟨queue, hqueue⟩ := hroom shared
      simp [step, hb, htxns.2, hqueue] at hsend
  refine ⟨htxns.1, htxns.2, hrecv, le_antisymm hW.txnCnt_le ?_⟩
  by_contra hlt
  have hcommit := List.getElem?_eq_getElem (Nat.lt_of_not_le hlt)
  simp [step, hrecv, hcommit] at hreceive

/-- Then the consensus is at rest too, as there is room for a commit. -/
theorem consensus_of_rest (hsize : 0 < N.channelSize)
    (hcnt : s.txnCnt = s.consensus.txPrimaryExecutor.length)
    (hrest : ∀ e, isOwn s e = true → step N s e = none) (e : MockConsensus.Event τ)
    (he : MockConsensus.isOwn s.consensus e = true) :
    MockConsensus.step N.consensus s.consensus e = none := by
  have hadmits : N.admits s e = true := by
    cases e with
    | close => simp [MockConsensus.isOwn] at he
    | sent => simp [admits, hcnt, hsize]
    | _ => rfl
  simpa [step, hadmits] using hrest (.consensus e) he

section Rest

variable (hD : (N.deployment s.assigned).DoneAtRest) (hsize : 0 < N.channelSize)
  (hr : (system N).ReachableVia (Admitted P N) s)
  (hrest : ∀ e, isOwn s e = true → step N s e = none)
include hD hsize hr hrest

/-- Where nothing moves, everything assigned is executed, no task has anything in hand, and the
consensus is at rest. -/
theorem idle_of_rest : Deployment.Done (N.deployment s.assigned) s.deployment ∧
    (s.transactions = [] ∧ s.sharedBatches = [] ∧ s.balancing = .recv ∧
      s.txnCnt = s.consensus.txPrimaryExecutor.length) ∧
    ∀ e, MockConsensus.isOwn s.consensus e = true →
      MockConsensus.step N.consensus s.consensus e = none := by
  have hW := wired_of_reachable (hr.mono fun _ _ _ => trivial)
  have hvia : (Deployment.system (N.deployment s.assigned)).ReachableVia
      (Deployment.Planned (N.deployment s.assigned)) s.deployment :=
    reachableVia_deployment (Q := fun e => ∀ d p, e = .forwarder (.plan d p) → p ∈ N.connections)
      (fun s e he d p hplan => by subst hplan; exact he) hr
  obtain ⟨hsent, hdone⟩ := hD s.deployment hvia fun e he => by
    simpa [step, Deployment.system] using hrest (.deployment e) he
  have hidle := rest_eq hW hsize hsent hrest
  exact ⟨hdone, hidle, consensus_of_rest hsize hidle.2.2.2 hrest⟩

/-- Then the next transaction can arrive. -/
theorem isSome_arrive_of_rest (t : RemoraTransaction τ) :
    (step N s (.consensus (.arrive t))).isSome := by
  obtain ⟨-, -, hconsensus⟩ := idle_of_rest hD hsize hr hrest
  have hW := wired_of_reachable (hr.mono fun _ _ _ => trivial)
  obtain ⟨hphase, -, hwaiter⟩ := MockConsensus.rest_eq hW.consensus hW.isOpen hconsensus
  have hinflight : s.consensus.currentInflightBatches <
      N.consensus.parameters.maxInflightBatches := by
    rw [(MockConsensus.bounded_of_reachable hW.consensus).inflight, hwaiter]
    exact N.consensus.parameters.maxInflightBatches_pos
  simp only [step, admits, if_true, MockConsensus.step, hphase, if_pos hinflight]
  split_ifs <;> rfl

/-- Everything received is assigned and executed. -/
theorem done_of_rest : s.assigned.Perm s.consensus.received ∧
    Deployment.Done (N.deployment s.assigned) s.deployment := by
  have hW := wired_of_reachable (hr.mono fun _ _ _ => trivial)
  obtain ⟨hdone, ⟨htxns, hbatches, hrecv, hcnt⟩, hconsensus⟩ := idle_of_rest hD hsize hr hrest
  refine ⟨?_, hdone⟩
  obtain ⟨hsched, hperm⟩ := MockConsensus.delivered_of_rest hW.consensus hW.isOpen hconsensus
  have hcommits : (commits s).flatten.Perm s.consensus.received := by
    rw [commits, hcnt, List.take_length, ← hsched]
    exact (hperm.map _).flatten
  have hshared : ∀ c ∈ commits s, (separate c).2 = c := by
    refine fun c hc => List.filter_eq_self.mpr fun t ht => ?_
    have hmem : t ∈ s.consensus.received :=
      hcommits.subset (List.mem_flatten_of_mem hc ht)
    simpa using ((received_of_reachable hr).all t hmem).2
  have hassigned : s.assigned = (commits s).flatten := by
    have := hW.shared
    rw [htxns, hbatches, hrecv, List.flatMap_congr hshared] at this
    simpa [Balancing.shared] using this.symm
  exact hassigned ▸ hcommits

end Rest

/-! ## The theorem -/

/-- Whatever a node has received, and in whatever order its tasks and the proxies go on, they come
to rest, and then the sequence the transactions were assigned in is one of everything received, and
all of it is executed. -/
def Executes (N : PrimaryNode τ ω) (P : RemoraTransaction τ → Prop) : Prop :=
  ∀ s, (system N).ReachableVia (Admitted P N) s →
    Acc ((system N).Next fun s e => isOwn s e = true) s ∧
    ∀ s', Relation.ReflTransGen (flip ((system N).Next fun s e => isOwn s e = true)) s s' →
      (∀ e, isOwn s' e = true → step N s' e = none) →
        s'.assigned.Perm s.consensus.received ∧
          Deployment.Done (N.deployment s'.assigned) s'.deployment

/-- It is enough that each sequence of such transactions is executed. -/
theorem executes (hD : ∀ txns, Received P txns → (N.deployment txns).DoneAtRest)
    (hC : Deployment.SetUp (N.deployment []).primary) (hsize : 0 < N.channelSize) :
    N.Executes P := by
  refine fun s hr => ⟨acc_own hC.numWorkers (hr.mono fun _ _ _ => trivial),
    fun s' hsteps hrest => ?_⟩
  obtain ⟨hr', hreceived⟩ := admitted_of_own hr hsteps
  have hW' := wired_of_reachable (hr'.mono fun _ _ _ => trivial)
  have hdone := hD s'.assigned ((received_of_reachable hr').of_subperm hW'.assigned_subperm)
  exact hreceived ▸ done_of_rest hdone hsize hr' hrest

/-- The fake executor executes each sequence of transactions it is built for. -/
theorem doneAtRest_fake {N : PrimaryNode τ FakeObject} (hE : N.executor = fakeExecutor τ)
    (hgenesis : ∀ o x, N.genesis o = some x → x.version = 2)
    (hmode : N.separationMode.isPrimarySeparation = false) (houtcome : ∀ t, N.outcome t = true)
    (hC : Deployment.SetUp (N.deployment []).primary) {txns : List (RemoraTransaction τ)}
    (h : Received (FakeExecutor.BuiltFrom N.genesis) txns) : (N.deployment txns).DoneAtRest := by
  have hbuilt : ∀ t ∈ txns, FakeExecutor.BuiltFrom N.genesis t := fun t ht => (h.all t ht).1
  have hsound := Deployment.sound_fake (D := N.deployment txns) hE hbuilt hgenesis
  exact hsound.doneAtRest (hsound.neverStuck (Deployment.stocked_fake hbuilt) hmode h.nodup
    houtcome) ⟨hC.numWorkers, hC.bufferSize, hC.connected, hC.numbered⟩

/-- So does the TPC-C executor, whatever the logic, if all inputs are shared and in the store. -/
theorem doneAtRest_tpcc {δ : Type}
    {logic : τ → (ObjectID → Option (TpccObject δ)) → ObjectID → Option δ}
    {N : PrimaryNode τ (TpccObject δ)} (hE : N.executor = tpccExecutor logic)
    (hgenesis : ∀ o x, N.genesis o = some x → x.version = 2)
    (hmode : N.separationMode.isPrimarySeparation = false) (houtcome : ∀ t, N.outcome t = true)
    (hC : Deployment.SetUp (N.deployment []).primary) {txns : List (RemoraTransaction τ)}
    (h : Received (fun t => AllShared t ∧ ∀ x ∈ t.inputs, (N.genesis x.objectId).isSome) txns) :
    (N.deployment txns).DoneAtRest := by
  have hsound := Deployment.sound_tpcc (D := N.deployment txns) hE
    (fun t ht => (h.all t ht).1.1) hgenesis
  exact hsound.doneAtRest (hsound.neverStuck (Deployment.stocked fun t ht => (h.all t ht).1.2)
    hmode h.nodup houtcome) ⟨hC.numWorkers, hC.bufferSize, hC.connected, hC.numbered⟩

end PrimaryNode

end Remora
