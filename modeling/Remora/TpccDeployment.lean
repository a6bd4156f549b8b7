import Remora.Completion
import Remora.TpccReplay

/-!
# TPC-C on the proxies

The executor of a proxy may panic, so it is not lawful. The one that never does has more runs and is
lawful, and what was executed and finished has not panicked (`isSome_apply_of_finished`). So once
everything forwarded is finished, the newest copies are what one node leaves that executes the same
transactions in consensus order, with the logic of TPC-C and not just any, and what is known of such
a store holds of the proxies together : its money and its counters (`proxies_conserve_money`).

Without overflow checks no transaction panics, both executors take the same steps (`agrees`), and
everything is done when nothing moves any more (`doneAtRest`).
-/

namespace Remora

namespace Tpcc

open Function Deployment Program Replication ProxyAction

variable {β : Type} {P : Platform β} {D : Deployment TpccTransaction (Object β)} {Dr : Draws}
  {W : ℕ} {s : State TpccTransaction (Object β)} {runs : ℕ → Bool}

/-- The proxies run TPC-C from the initial store. -/
structure RunsTpcc (P : Platform β) (Dr : Draws) (W : ℕ)
    (D : Deployment TpccTransaction (Object β)) : Prop where
  executor : D.executor = proxyExecutor P (initObjects P Dr W)
  genesis : D.genesis = initObjects P Dr W
  placed : ∀ t ∈ D.primary.txns, Placed P {k | k ∈ initialRows W} t
  spent : initialWYtdCents + spent D.primary.txns < 2 ^ 63

/-- The deployment, if nothing panicked. -/
def total (P : Platform β) (Dr : Draws) (W : ℕ) (D : Deployment TpccTransaction (Object β)) :
    Deployment TpccTransaction (Object β) :=
  D.withExecutor (totalExecutor P (initObjects P Dr W))

namespace RunsTpcc

variable (hD : RunsTpcc P Dr W D)
include hD

theorem withExecutor_eq : D.withExecutor (proxyExecutor P (initObjects P Dr W)) = D := by
  rw [← hD.executor]
  rfl

theorem isShared {i : ℕ} {t : RemoraTransaction TpccTransaction}
    (ht : D.primary.transaction i = some t) : AllShared t := fun _ hx =>
  (transaction_placed hD.placed ht).1.built.isShared hx

theorem mem_accessed {i : ℕ} {t : RemoraTransaction TpccTransaction}
    (ht : D.primary.transaction i = some t) {o : ObjectID} (ho : o ∈ t.outputIds) :
    o ∈ accessed D.primary.txns i := by
  obtain ⟨x, hx, rfl⟩ := t.mem_outputIds.mp ho
  rw [Primary.mem_accessed ht]
  cases x with
  | sharedMoveObject id => exact hx
  | immOrOwnedMoveObject id => simpa [InputObjectKind.isShared] using hD.isShared ht _ hx

theorem sound : Sound (total P Dr W D) AllShared fun _ _ => True where
  lawful := lawful_totalExecutor P _
  valid := hD.isShared
  consistent t ht t' ht' o ho ho' := by
    simpa [InputObjectKind.isShared] using (hD.placed t' ht').built.isShared ho'
  genesis {o x} h := version_initObjects (hD.genesis ▸ h)

theorem reachable_total {ok : State TpccTransaction (Object β) → Event → Prop}
    (hr : (system D).ReachableVia ok s) : (system (total P Dr W D)).ReachableVia ok s := by
  rw [← hD.withExecutor_eq] at hr
  exact reachableVia_of_refines (refines_totalExecutor P _) hr

variable (hrows : Set.InjOn P.objectId {k | k ∈ initialRows W})
include hrows

theorem sequential_total {n : ℕ} (hn : n ≤ D.primary.txns.length) {S : Objects β}
    (hS : replay P D.primary runs (initObjects P Dr W) n = some S) :
    sequential (total P Dr W D).executor D.primary runs D.genesis n = S := by
  rw [hD.genesis]
  exact sequential_of_replay hrows hD.placed hD.spent (refines_totalExecutor P _) hn hS

/-- A task that has read its inputs computes what one node does. -/
theorem output_eq (hr : (system (total P Dr W D)).Reachable s)
    (hruns : ∀ i, Executed s i → runs i = true) {i : ℕ} {th : Thread TpccTransaction (Object β)}
    (ht : s.cluster.threads (.message (.stateful i)) = some th) (hready : th.ready = true)
    {txn : RemoraTransaction TpccTransaction} (htxn : th.transaction = some txn)
    (hi : D.primary.transaction i = some txn)
    (hread : ∀ o, read o ∉ th.todo) {S : Objects β}
    (hS : replay P D.primary runs (initObjects P Dr W) i = some S) (o : ObjectID) :
    (proxyExecutor P (initObjects P Dr W)).output txn th.readings o =
      (Tpcc.executor P).output txn S o := by
  have hlt : i < D.primary.txns.length := by
    obtain ⟨-, t₀, ht₀, -⟩ := transaction_placed hD.placed hi
    exact (List.getElem?_eq_some_iff.mp ht₀).1
  have hV := values_of_reachable hD.sound hr hruns
  refine output_view hrows hD.placed hi
    (replayed hrows hD.placed hD.spent hlt.le hS).kept (fun o ho => ?_) o
  rw [← hD.sequential_total hrows hlt.le hS]
  exact (hV.readings ht htxn hready ho (hread o)).2.2 (hD.mem_accessed hi ho)

/-- A transaction that is executed and finished has not panicked on one node. -/
theorem isSome_apply_of_finished (hr : (system D).Reachable s)
    (hruns : ∀ i, Executed s i → runs i = true) {i : ℕ} (hexec : Executed s i)
    (hfin : Finished s i) {S : Objects β}
    (hS : replay P D.primary runs (initObjects P Dr W) i = some S) :
    ∃ t, D.primary.transaction i = some t ∧ (apply P t S).isSome := by
  have hr' := hD.reachable_total hr
  have hV := values_of_reachable hD.sound hr' hruns
  obtain ⟨th, ht, hexecuted⟩ := hexec
  obtain ⟨th', ht', hnot⟩ := hfin
  obtain rfl := Option.some.inj (ht.symm.trans ht')
  obtain ⟨t, stateless, states, hs, -, htxn, hsuffix⟩ := (follows_of_reachable hr).message ht
  have hdone : ∀ {b : ProxyAction (Object β)}, Cluster.rank b < 17 → b ∉ th.todo := fun hb =>
    done_of_done (hs.staged D.primary.mode).ordered hsuffix
      Cluster.sendResult_mem_messageProgram hnot (by simpa [Cluster.rank] using hb)
  have hready := ((hV.executed ht).2 hexecuted).1
  have hbuilt := (transaction_placed hD.placed hs.transaction).1.built
  obtain ⟨o, ho⟩ : ∃ o, o ∈ t.outputIds := by
    have hmem : ∃ o, o ∈ t.transaction.readSet P := by
      cases t.transaction <;> exact ⟨_, List.mem_cons_self⟩
    obtain ⟨o, ho⟩ := hmem
    exact ⟨o, hbuilt.mem_outputIds.mpr (TpccTransaction.mem_accessSet.mpr ho)⟩
  have hreturned := returned_of_reachable hr i th t o ht htxn hready ho
    (hdone (by simp [Cluster.rank]))
  rw [hD.executor, hD.output_eq hrows hr' hruns ht hready htxn hs.transaction
    (fun o => hdone (by simp [Cluster.rank])) hS] at hreturned
  refine ⟨t, hs.transaction, ?_⟩
  rw [apply, Option.isSome_map]
  exact Option.isSome_of_isSome_bind hreturned

/-- What was executed at the proxies can be executed on one node. -/
theorem isSome_replay_of_finished (hr : (system D).Reachable s) (hall : AllFinished s)
    (hruns : ∀ i, runs i = true ↔ Executed s i) {n : ℕ} (hn : n ≤ D.primary.txns.length) :
    (replay P D.primary runs (initObjects P Dr W) n).isSome := by
  induction n with
  | zero => rfl
  | succ n ih =>
    obtain ⟨S, hS⟩ := Option.isSome_iff_exists.mp (ih (Nat.le_of_succ_le hn))
    rw [replay, hS, Option.bind_some]
    split_ifs with hrun
    · have hexec := (hruns n).mp hrun
      obtain ⟨th, ht, -⟩ := (hruns n).mp hrun
      obtain ⟨t, hi, hsome⟩ := hD.isSome_apply_of_finished hrows hr (fun i => (hruns i).mpr) hexec
        (hall n ((follows_of_reachable hr).forwarded ht)) hS
      rwa [hi, Option.bind_some]
    · rfl

/-- The newest copies are the store of one node. -/
theorem newest_iff_replay (hr : (system D).Reachable s) (hall : AllFinished s)
    (hruns : ∀ i, runs i = true ↔ Executed s i) {S : Objects β}
    (hS : replay P D.primary runs (initObjects P Dr W) D.primary.txns.length = some S)
    (o : ObjectID) (x : Object β) :
    Newest Object.version (copies s o) x ↔ S o = some x := by
  have hr' := hD.reachable_total hr
  by_cases ho : ∃ l, o ∈ accessed D.primary.txns l
  · obtain ⟨l, ho⟩ := ho
    rw [← hD.sequential_total hrows le_rfl hS]
    exact hD.sound.endsSequential s hr' hall runs hruns o l ho x
  · have hno : ∀ i t, D.primary.transaction i = some t → o ∉ t.outputIds := fun i t ht hm =>
      ho ⟨i, hD.mem_accessed ht hm⟩
    rw [(replayed hrows hD.placed hD.spent le_rfl hS).kept o hno, ← hD.genesis]
    exact newest_const_iff fun p => copies_of_no_input hno hr p

/-- There is such a store. -/
theorem exists_replayed (hr : (system D).Reachable s) (hall : AllFinished s)
    (hruns : ∀ i, runs i = true ↔ Executed s i) :
    ∃ S, (∀ o x, Newest Object.version (copies s o) x ↔ S o = some x) ∧
      replay P D.primary runs (initObjects P Dr W) D.primary.txns.length = some S ∧
      Replayed P Dr W D.primary runs D.primary.txns.length S := by
  obtain ⟨S, hS⟩ := Option.isSome_iff_exists.mp
    (hD.isSome_replay_of_finished hrows hr hall hruns le_rfl)
  exact ⟨S, hD.newest_iff_replay hrows hr hall hruns hS, hS,
    replayed hrows hD.placed hD.spent le_rfl hS⟩

end RunsTpcc

/-! ## Without overflow checks -/

namespace RunsTpcc

variable (hrows : Set.InjOn P.objectId {k | k ∈ initialRows W}) (hD : RunsTpcc P Dr W D)
  (hb : P.build.overflowChecks = false)
include hrows hD hb

theorem exists_replay {n : ℕ} (hn : n ≤ D.primary.txns.length) :
    ∃ S, replay P D.primary (fun _ => true) (initObjects P Dr W) n = some S :=
  Option.isSome_iff_exists.mp (isSome_replay hrows hD.placed hD.spent hb hn)

/-- No task panics in its commits. -/
theorem agrees (hr : (system (total P Dr W D)).Reachable s) {t : ThreadId}
    {th : Thread TpccTransaction (Object β)} (ht : s.cluster.threads t = some th) :
    Agrees (totalExecutor P (initObjects P Dr W)) (proxyExecutor P (initObjects P Dr W)) th := by
  intro o rest txn x htodo hready htxn hx
  have hF := follows_of_reachable hr
  have hhead : ProxyAction.commit o ∈ th.todo := htodo ▸ List.mem_cons_self
  obtain ⟨i, rfl⟩ := hF.message_of_rank ht hhead (by simp [Cluster.rank]) (by simp [Cluster.rank])
  obtain ⟨txn', stateless, states, hs, -, htxn', hsuffix⟩ := hF.message ht
  obtain rfl := Option.some.inj (htxn.symm.trans htxn')
  have hi : D.primary.transaction i = some txn := hs.transaction
  obtain ⟨-, t₀, ht₀, -⟩ := transaction_placed hD.placed hi
  have hlt : i < D.primary.txns.length := (List.getElem?_eq_some_iff.mp ht₀).1
  obtain ⟨S', hS'⟩ := exists_replay hrows hD hb hlt
  obtain ⟨S, hS, hS'⟩ := Option.bind_eq_some_iff.mp hS'
  rw [if_pos rfl, hi, Option.bind_some] at hS'
  have ho : o ∈ txn.outputIds := Cluster.commit_mem_messageProgram.mp (hsuffix.subset hhead)
  obtain ⟨-, y, hy, -⟩ := (output_of_apply hD.placed hi hS').1 o ho
  have houtput := (hD.output_eq hrows hr (fun _ _ => rfl) ht hready htxn hi
    (fun o => notMem_of_head hF ht htodo (by simp [Cluster.rank])) hS o).trans hy
  rw [houtput, ← hx]
  exact ((refines_totalExecutor P _).output houtput).symm

/-- In the combined modes, if all transactions verify, everything is done when nothing moves. -/
theorem doneAtRest (hmode : D.primary.mode.isPrimarySeparation = false)
    (hdigests : D.primary.DistinctDigests) (houtcome : ∀ t, D.outcome t = true)
    (hC : SetUp D.primary) : D.DoneAtRest := by
  intro s hvia hrest
  have hvia' := hD.reachable_total hvia
  have hr' : (system (total P Dr W D)).Reachable s := hvia'.mono fun _ _ _ => trivial
  have hrefines := refines_totalExecutor P (initObjects P Dr W)
  have hstocked : Stocked (total P Dr W D) := stocked fun t ht x hx => by
    obtain ⟨hbuilt, hK, -⟩ := hD.placed t ht
    have ho := hbuilt.mem_outputIds.mp (t.mem_outputIds.mpr ⟨x, hx, rfl⟩)
    obtain ⟨k, hk, hkey⟩ := TpccTransaction.mem_accessSet_iff.mp ho
    change (D.genesis x.objectId).isSome
    rw [← hkey, hD.genesis]
    exact isSome_initObjects (hK k (List.mem_append_left _ hk))
  obtain ⟨hsent, hdone⟩ := hD.sound.doneAtRest
    (hD.sound.neverStuck hstocked hmode hdigests houtcome) hC s hvia' fun e he => by
      refine Option.eq_none_iff_forall_ne_some.mpr fun s' hs => ?_
      have hstep : step (D.withExecutor (proxyExecutor P (initObjects P Dr W))) s e = some s' :=
        step_of_agrees hrefines.version (fun t x o => (hrefines.checkInput t x o).symm)
          (fun t th _ ht => agrees hrows hD hb hr' ht) hs
      rw [hD.withExecutor_eq] at hstep
      exact Option.some_ne_none _ (hstep.symm.trans (hrest e he))
  refine ⟨hsent, hdone.finished, fun o l ho => ?_⟩
  obtain ⟨v, p, x, hp, hx, hv, hseq⟩ := hdone.states o l ho
  refine ⟨v, p, x, hp, hx, by rw [hD.executor]; exact hv, ?_⟩
  obtain ⟨S, hS⟩ := exists_replay hrows hD hb le_rfl
  have htotal := hD.sequential_total hrows le_rfl hS
  rw [hD.executor, hD.genesis, sequential_of_replay hrows hD.placed hD.spent ⟨rfl, rfl, id⟩
    le_rfl hS, ← htotal]
  exact hseq

end RunsTpcc

/-- Once what was forwarded is finished, for every build, mode, routing, outcome of the
verifications and interleaving, the newest copies at the proxies are a store in which one node has
executed the same transactions in consensus order. No money is lost in it, and its counters are
those of the transactions executed. -/
theorem proxies_conserve_money (hrows : Set.InjOn P.objectId {k | k ∈ initialRows W})
    (hD : RunsTpcc P Dr W D) (hr : (system D).Reachable s)
    (hall : ∀ i, Forwarded s i → Finished s i) (hruns : ∀ i, runs i = true ↔ Executed s i) :
    ∃ S, (∀ o x, Newest Object.version (copies s o) x ↔ S o = some x) ∧
      replay P D.primary runs (initObjects P Dr W) D.primary.txns.length = some S ∧
      MoneyConserved P W (initObjects P Dr W) S ∧
      Counted P W ⟨S, executedTxns runs D.primary.txns D.primary.txns.length⟩ := by
  obtain ⟨S, hnewest, hS, hreplayed⟩ := hD.exists_replayed hrows hr hall hruns
  exact ⟨S, hnewest, hS, hreplayed.moneyConserved hrows, hreplayed.counted hrows⟩

/-- The payment and the order, of one warehouse and two proxies. -/
def paymentAndOrder : Deployment TpccTransaction (Object (Σ kind, ObjectID × Record kind)) where
  primary := {
    mode := .NoSeparation
    policy := .RSDS
    connections := [0, 1]
    numWorkers := 2
    bufferSize := 1
    txns := [TpccExecutableTransaction.new (plainPlatform ⟨false, false⟩) remotePayment 7 0 0,
      TpccExecutableTransaction.new (plainPlatform ⟨false, false⟩) oneOrder 8 0 0]
    nodup := SharedObjTxnForwarder.twoProxies.nodup }
  executor := proxyExecutor (plainPlatform ⟨false, false⟩)
    (initObjects (plainPlatform ⟨false, false⟩) leastDraws 1)
  outcome := fun _ => true
  genesis := initObjects (plainPlatform ⟨false, false⟩) leastDraws 1

theorem runsTpcc_paymentAndOrder :
    RunsTpcc (plainPlatform ⟨false, false⟩) leastDraws 1 paymentAndOrder where
  executor := rfl
  genesis := rfl
  placed := by
    obtain ⟨hpayment, horder⟩ := List.forall_mem_append.mp rows_of_one_warehouse
    refine List.forall_mem_cons.mpr ⟨⟨built_new _ _ _ _, hpayment, ?_⟩,
      List.forall_mem_singleton.mpr ⟨built_new _ _ _ _, horder, ?_⟩⟩
    · simp [TpccExecutableTransaction.new, RemoraTransaction.new, remotePayment,
        TpccTransaction.lines]
    · simp [TpccExecutableTransaction.new, RemoraTransaction.new, oneOrder, TpccTransaction.lines,
        maxOlQuantity]
  spent := by
    simp [paymentAndOrder, TpccExecutableTransaction.new, RemoraTransaction.new, spent,
      remotePayment, oneOrder, TpccTransaction.amount, initialWYtdCents]

/-- Both are executed, wherever they are forwarded to. -/
theorem proxies_conserve_money_payment_and_order : ∃ s S, (system paymentAndOrder).Reachable s ∧
    Executed s 0 ∧ Executed s 1 ∧ (∀ o x, Newest Object.version (copies s o) x ↔ S o = some x) ∧
    MoneyConserved (plainPlatform ⟨false, false⟩) 1 paymentAndOrder.genesis S := by
  have hrows : Set.InjOn (plainPlatform ⟨false, false⟩).objectId {k | k ∈ initialRows 1} :=
    plainObjectId_injective.injOn
  have hD := runsTpcc_paymentAndOrder
  have hdigests : paymentAndOrder.primary.DistinctDigests := by
    simp only [Primary.DistinctDigests]
    decide
  have hrest := RunsTpcc.doneAtRest hrows hD rfl rfl hdigests (fun _ => rfl)
    ⟨by decide, by decide, by decide, by decide⟩
  obtain ⟨hacc, hdone⟩ := hrest.completes (by decide) _ (.init rfl)
  obtain ⟨s, hsteps, hnone⟩ := Transition.System.exists_rest hacc
  have hr : (system paymentAndOrder).Reachable s :=
    Transition.System.Reachable.steps (.init rfl) (Transition.System.steps_of_next hsteps)
  have hfin := (hdone s hsteps hnone).finished
  have hlt : ∀ {i}, Forwarded s i → i < 2 := fun hi => lt_length_of_forwarded hr hi
  have hruns : ∀ i, decide (i < 2) = true ↔ Executed s i := by
    refine fun i => ⟨fun hi => (hfin i (of_decide_eq_true hi)).2, ?_⟩
    rintro ⟨th, ht, -⟩
    exact decide_eq_true (hlt ((follows_of_reachable hr).forwarded ht))
  obtain ⟨S, hnewest, -, hmoney, -⟩ := proxies_conserve_money hrows hD hr
    (fun i hi => (hfin i (hlt hi)).1) hruns
  exact ⟨s, S, hr, (hfin 0 (by decide)).2, (hfin 1 (by decide)).2, hnewest, hmoney⟩

end Tpcc

end Remora
