import Remora.CombinedGate

/-!
# The combined modes without failures

If all transactions verify, all are good in the combined modes. Then no check fails, and every
reply has the version that was asked for (`Served`). So no handler dies, and as long as a
transaction is not finished a proxy can take a step (`never_stuck`).
-/

namespace Remora

namespace Deployment

open ProxyAction

variable {τ ω : Type} {D : Deployment τ ω} {s : State τ ω}

theorem stocked (h : ∀ t ∈ D.primary.txns, ∀ x ∈ t.inputs, (D.genesis x.objectId).isSome) :
    Stocked D := by
  intro j t o ht ho
  obtain ⟨t₀, ht₀, hinputs, -⟩ := Primary.transaction_eq_some ht
  obtain ⟨x, hx, rfl⟩ := t.mem_outputIds.mp ho
  exact h t₀ (List.mem_of_getElem? ht₀) x (hinputs ▸ hx)

/-- The objects a transaction was built from are there. -/
theorem stocked_fake {D : Deployment τ FakeObject}
    (hbuilt : ∀ t ∈ D.primary.txns, FakeExecutor.BuiltFrom D.genesis t) : Stocked D := by
  refine stocked fun t ht x hx => ?_
  obtain ⟨y, hy, -⟩ := (hbuilt t ht).isShared hx
  simp [hy]

/-- All checks pass, and all replies have what was asked for. -/
structure Served (D : Deployment τ ω) (s : State τ ω) : Prop where
  /-- The check of an input that is made. -/
  check : ∀ {i th x rest}, s.cluster.threads (.message (.stateful i)) = some th →
    th.todo = .check x :: rest → th.ready = true ∧ ∃ txn, th.transaction = some txn ∧
      D.executor.checkInput txn x (s.cluster.resources.stores th.proxy x.objectId) = some true
  /-- All those made so far. -/
  ready : ∀ {i th}, s.cluster.threads (.message (.stateful i)) = some th → begin ∉ th.todo →
    th.ready = true
  /-- The reply that is sent. -/
  reply : ∀ {t th q k rest}, s.cluster.threads t = some th → th.todo = sendReply q k :: rest →
    ∃ x, th.objects = [(k.1, x)] ∧ D.executor.version x = k.2

/-- No transaction that is not finished stops the proxies, if it was forwarded to a connected
one. -/
def NeverStuck (D : Deployment τ ω) : Prop :=
  ∀ s, (system D).Reachable s → Served D s ∧
    ((∀ i p, SharedObjTxnForwarder.forwardedTo s.forwarder i = some p →
      p ∈ D.primary.connections) → (∃ i, Forwarded s i ∧ ¬Finished s i) → Moves D s)

section NeverStuck

variable {Valid : RemoraTransaction τ → Prop} {sim : ω → ω → Prop}

/-- What a request of a good transaction's version has read. -/
theorem Available.objects {good : ℕ → Prop} (hA : Available D good s) (hF : Follows D s)
    (hgood : ∀ i, good i) {m : MessageId} {k : ObjectVersion} {y : Thread τ ω}
    (hy : s.cluster.threads (.request m k) = some y) (hread : readState k ∉ y.todo) :
    ∃ x, y.objects = [(k.1, x)] ∧ D.executor.version x = k.2 := by
  obtain ⟨j, p, -, hreq⟩ := hF.request hy
  obtain ⟨i, -, hi⟩ := exists_producer hreq.mem_required hreq.todo.1
  exact hreq.objects.resolve_left (hA.fetched (hgood i) hi hy hread)

theorem Sound.neverStuck (hD : Sound D Valid sim) (hI : Stocked D)
    (hmode : D.primary.mode.isPrimarySeparation = false)
    (hdistinct : D.primary.DistinctDigests) (houtcome : ∀ t, D.outcome t = true) :
    D.NeverStuck := by
  intro s hr
  have hF := follows_of_reachable hr
  have hS : Supplied D fun _ => True := fun _ _ _ => trivial
  have hJ : Judged (fun _ => True) s := fun _ ht hbegin =>
    (verdict_of_begun hdistinct hmode hr ht hbegin).trans (houtcome _)
  have hA := available_of_reachable hD hS hI hr hJ
  have hans : Answers s := by
    intro m k y hy hnil
    obtain ⟨x, hx, -⟩ := hA.objects hF (fun _ => trivial) hy (by simp [hnil])
    simp [hx]
  refine ⟨⟨fun {i th x rest} ht htodo => ?_, hA.ready trivial, fun {t th q k rest} ht htodo => ?_⟩,
    fun hconn hunfinished => ?_⟩
  · obtain ⟨txn, -, -, -, -, htxn, -⟩ := hF.message ht
    exact ⟨hA.ready trivial ht (notMem_of_head hF ht htodo (by simp [Cluster.rank])), txn, htxn,
      hA.checkInput_eq_true hr hD hS hI trivial ht htodo htxn⟩
  · obtain ⟨j, rfl, hreq⟩ := hF.sender_of_sendReply ht (htodo ▸ List.mem_cons_self)
    refine hA.objects hF (fun _ => trivial) ht ?_
    have hsuffix := hreq.todo.2
    rw [htodo] at hsuffix ⊢
    simp only [List.suffix_cons_iff, List.suffix_nil] at hsuffix
    rcases hsuffix with h | h | h | h | h | h | h | h <;> simp_all
  · exact (moves_of_unfinished hr hD hI hans (hconn _ _) hunfinished).elim id
      (moves_of_gateStuck hdistinct hmode hr)

end NeverStuck

/-- In the combined modes no proxy is stuck and no check of a version fails, with either
executor, if all transactions verify and their digests are different. -/
theorem never_stuck :
    (∀ D : Deployment τ FakeObject, D.executor = fakeExecutor τ →
      (∀ t ∈ D.primary.txns, FakeExecutor.BuiltFrom D.genesis t) →
      (∀ o x, D.genesis o = some x → x.version = 2) →
      D.primary.mode.isPrimarySeparation = false → D.primary.DistinctDigests →
      (∀ t, D.outcome t = true) → D.NeverStuck) ∧
    ∀ (δ : Type) (logic : τ → (ObjectID → Option (TpccObject δ)) → ObjectID → Option δ)
      (D : Deployment τ (TpccObject δ)), D.executor = tpccExecutor logic →
      (∀ t ∈ D.primary.txns, AllShared t) →
      (∀ t ∈ D.primary.txns, ∀ x ∈ t.inputs, (D.genesis x.objectId).isSome) →
      (∀ o x, D.genesis o = some x → x.version = 2) →
      D.primary.mode.isPrimarySeparation = false → D.primary.DistinctDigests →
      (∀ t, D.outcome t = true) → D.NeverStuck :=
  ⟨fun _ hE hbuilt hgenesis => (sound_fake hE hbuilt hgenesis).neverStuck (stocked_fake hbuilt),
    fun _ _ _ hE hshared hinputs hgenesis =>
      (sound_tpcc hE hshared hgenesis).neverStuck (stocked hinputs)⟩

/-- The second transaction of `counter` and its request come to their waits before the first one
has begun. -/
def waitingRun : List Event :=
  SharedObjTxnForwarder.twoProxiesRun.map .forwarder ++
    [.arrive (.stateful 0), .arrive (.stateful 1)] ++
    List.replicate 6 (.run (.message (.stateful 1))) ++
    List.replicate 3 (.run (.request (.stateful 1) (7, 3)))

/-- The task is at a wait. -/
def waits (th : Thread τ ω) : Bool :=
  match th.todo with
  | .dep (.wait _) :: _ => true
  | _ => false

/-- Neither of the two can move, but the proxies can. -/
theorem never_stuck_counter : ∃ s, (system counter).Reachable s ∧
    Cluster.runThread counter.cluster s.cluster (.message (.stateful 1)) = none ∧
    Cluster.runThread counter.cluster s.cluster (.request (.stateful 1) (7, 3)) = none ∧
    Moves counter s := by
  have hview : (((system counter).run (State.init counter) waitingRun).map fun s =>
      ((Cluster.runThread counter.cluster s.cluster (.message (.stateful 1))).isNone,
        (Cluster.runThread counter.cluster s.cluster (.request (.stateful 1) (7, 3))).isNone,
        (s.cluster.threads (.message (.stateful 1))).map waits,
        SharedObjTxnForwarder.forwardedTo s.forwarder 0,
        SharedObjTxnForwarder.forwardedTo s.forwarder 1)) =
      some (true, true, some true, some 0, some 1) := by decide
  obtain ⟨s, hrun, hview⟩ := Option.map_eq_some_iff.mp hview
  simp only [Prod.mk.injEq, Option.isNone_iff_eq_none, Option.map_eq_some_iff] at hview
  obtain ⟨hmessage, hrequest, ⟨th, ht, hwaits⟩, h0, h1⟩ := hview
  have hr : (system counter).Reachable s := Transition.System.reachable_run (.init rfl) hrun
  refine ⟨s, hr, hmessage, hrequest, (never_stuck.1 counter rfl
    (by simp only [FakeExecutor.BuiltFrom]; decide) (fun o x h => ?_) rfl
    (by simp only [Primary.DistinctDigests]; decide) (fun _ => rfl) s hr).2 (fun i p hp => ?_)
    ⟨1, by rw [Forwarded, h1]; rfl, ?_⟩⟩
  · simp only [counter, Option.ite_none_right_eq_some] at h
    rw [← Option.some.inj h.2]
  · obtain ⟨⟨p', msg⟩, hsent, rfl⟩ := Option.map_eq_some_iff.mp hp
    obtain ⟨t, stateless, states, hs, -⟩ := exists_sent (reachable_forwarder hr) hsent
    have hi : i < 2 := (List.getElem?_eq_some_iff.mp (Primary.getElem?_digest hs.transaction)).1
    obtain rfl | rfl : i = 0 ∨ i = 1 := by omega
    · rw [Option.some.inj (hp.symm.trans h0)]
      decide
    · rw [Option.some.inj (hp.symm.trans h1)]
      decide
  · rintro ⟨x, hx, hnot⟩
    obtain rfl := Option.some.inj (ht.symm.trans hx)
    unfold waits at hwaits
    split at hwaits
    · rename_i k rest htodo
      obtain ⟨txn, stateless, states, hs, -, -, hsuffix⟩ := (follows_of_reachable hr).message ht
      exact hnot (Program.mem_of_mem (hs.staged _).ordered hsuffix
        Cluster.sendResult_mem_messageProgram (htodo ▸ List.mem_cons_self) (by simp [Cluster.rank]))
    · simp at hwaits

end Deployment

end Remora
