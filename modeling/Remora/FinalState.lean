import Remora.CombinedExecution
import Remora.PrimaryLedgers
import Remora.StoreCoherence

/-!
# The final state

What is left when the transactions that were forwarded are finished. The newest copy of a shared
object is what the sequential execution leaves (`newest_iff`), and it is at the proxy of the
object's last accessor, the one that `states_to_proxy` names (`copy_of_owner`). The dependency
controllers of the proxies have no handle but those of the versions in `states_to_proxy`
(`entry_iff_owner`).

A copy that was written stays, or is replaced by a newer one, as the stores are coherent
(`kept_of_reachable`). So whatever happens after the last accessor has committed leaves its copy
as it is.
-/

namespace Remora

open Function Rendezvous VersionedDependencyController Program Replication

variable {τ ω : Type}

namespace Deployment

open ProxyAction
open Cluster (messageProgram RunStep tag)

variable {D : Deployment τ ω} {s s' : State τ ω} {Valid : RemoraTransaction τ → Prop}
  {sim : ω → ω → Prop}

/-- No transaction that was executed has something left to commit. -/
def Settled (s : State τ ω) : Prop :=
  ∀ i th o, s.cluster.threads (.message (.stateful i)) = some th → th.executed = true →
    commit o ∉ th.todo

/-- A proxy at which an accessor has written still has what it wrote, or something newer. -/
def Kept (D : Deployment τ ω) (s : State τ ω) : Prop :=
  ∀ i th o, s.cluster.threads (.message (.stateful i)) = some th → th.executed = true →
    commit o ∉ th.todo → o ∈ accessed D.primary.txns i →
      ∃ x, copies s o th.proxy = some x ∧ produced D.primary.txns i ≤ D.executor.version x

section Kept

variable (hr : (system D).Reachable s) (hD : Sound D Valid sim)
include hr hD

theorem Kept.run {t : ThreadId} {th th' : Thread τ ω} {a : ProxyAction ω}
    {rest : List (ProxyAction ω)} (h : Kept D s)
    (hrun : RunStep D.cluster s.cluster s'.cluster t th th' a rest)
    (hs : Deployment.step D s (.run t) = some s') : Kept D s' := by
  have hF := follows_of_reachable hr
  have hV : Values D sim (fun _ => true) s := values_of_reachable hD hr fun _ _ => rfl
  -- what was there is there, or something newer
  have hle : ∀ {i o p}, o ∈ accessed D.primary.txns i →
      (∃ x, copies s o p = some x ∧ produced D.primary.txns i ≤ D.executor.version x) →
      ∃ x, copies s' o p = some x ∧ produced D.primary.txns i ≤ D.executor.version x := by
    rintro i o p ho ⟨x, hx, hp⟩
    obtain ⟨y, hy, hxy⟩ := copy_le_of_step hD hr hs ho hx
    exact ⟨y, hy, hp.trans hxy⟩
  intro i y o hy hexec hc ho
  rcases hrun.cases hy with ⟨rfl, rfl⟩ | ⟨-, hsp⟩ | ⟨-, hold⟩
  · have hframe := Cluster.perform_frame hrun.perform
    obtain ⟨txn, stateless, states, hsent, -, htxn, hsuffix⟩ := hF.message hrun.thread
    have hne : a ≠ execute := by
      rintro rfl
      refine hc (mem_of_head hsent hsuffix hrun.todo ?_ (by simp [Cluster.rank]))
      exact Cluster.commit_mem_messageProgram.mpr
        (Primary.outputIds_of_accessed hsent.transaction ho)
    have hexec' : th.executed = true := (hframe.executed hne).symm.trans hexec
    change ∃ x, copies s' o th'.proxy = some x ∧ _
    rw [hframe.proxy]
    by_cases ha : a = commit o
    · have hready : th.ready = true := ((hV.executed hrun.thread).2 hexec').1
      have hperf := hrun.perform
      subst ha
      simp only [Cluster.perform, hready, if_true] at hperf
      obtain ⟨txn', htxn', hperf⟩ := Option.bind_eq_some_iff.mp hperf
      obtain ⟨x, hx, hperf⟩ := Option.bind_eq_some_iff.mp hperf
      obtain ⟨hR, -⟩ := Prod.mk.inj (Option.some.inj hperf)
      obtain ⟨l, hl, -, -, -, hver, -⟩ :=
        lineage_of_commit hr hD hV (fun _ _ => rfl) hrun rfl hready htxn' hx
      obtain rfl : i = l := MessageId.stateful.inj (ThreadId.message.inj hl)
      exact ⟨x, by simp [copies, ← hR], hver.ge⟩
    · exact hle ho (h i th o hrun.thread hexec' (hrun.notMem ha hc) ho)
  · exact absurd hsp (Cluster.spawned_ne_message _ _)
  · exact hle ho (h i y o hold hexec hc ho)

theorem kept_of_reachable : Kept D s := by
  refine hr.invariant (I := Kept D) ?_ ?_
  · rintro s rfl i th o ht
    simp [State.init, Cluster.State.init] at ht
  · intro s e s' hr h hs
    rcases step_cases hs with ⟨e', -, hc⟩ | ⟨m, p, msg, -, ha, -⟩ |
      ⟨t, th, th', a, rest, rfl, hrun, -⟩
    · intro i th o
      rw [copies, hc]
      exact h i th o
    · intro i th o ht hexec hc ho
      rw [copies, (Cluster.arrive_eq_some ha).2.2.2.1]
      rcases Cluster.arrive_cases ha ht with ⟨-, rfl⟩ | hold
      · simp [Cluster.spawn] at hexec
      · exact h i th o hold hexec hc ho
    · exact h.run hr hD hrun hs

end Kept

/-! ## The newest copy -/

section Newest

variable {runs : ℕ → Bool} (hr : (system D).Reachable s) (hD : Sound D Valid sim)
  (hset : Settled s) {n : ℕ} (hn : ∀ i, Executed s i → i < n)
  (hruns : ∀ i < n, runs i = true ↔ Executed s i)
include hr hD hset hn hruns

/-- The last accessor that was executed has left the newest copy at its proxy. -/
theorem newest_of_last {i : ℕ} {th : Thread τ ω} {o : ObjectID}
    (ht : s.cluster.threads (.message (.stateful i)) = some th) (hexec : th.executed = true)
    (ho : o ∈ accessed D.primary.txns i)
    (hlast : ∀ j, i < j → o ∈ accessed D.primary.txns j → ¬Executed s j) :
    ∃ x, copies s o th.proxy = some x ∧ D.executor.version x = produced D.primary.txns i ∧
      sequential D.executor D.primary runs D.genesis (i + 1) o = some x ∧
      Newest D.executor.version (copies s o) x := by
  have hV : Values D sim runs s :=
    values_of_reachable hD hr fun i hi => (hruns i (hn i hi)).mpr hi
  obtain ⟨x, hx, hle⟩ := kept_of_reachable hr hD i th o ht hexec (hset i th o ht hexec) ho
  -- nobody has produced a newer one
  have hbound : ∀ q y, copies s o q = some y →
      D.executor.version y ≤ produced D.primary.txns i := by
    intro q y hy
    rcases hV.store ho hy with ⟨-, hinit⟩ | ⟨j, hoj, hj, -, hprod⟩
    · rw [hinit]
      exact (initialVersion_lt_produced i).le
    · rw [hprod]
      rcases Nat.lt_trichotomy j i with hlt | rfl | hlt
      · exact (produced_lt hlt hoj ho).le
      · exact le_rfl
      · exact absurd hj (hlast j hlt hoj)
  have hver : D.executor.version x = produced D.primary.txns i :=
    le_antisymm (hbound _ x hx) hle
  refine ⟨x, hx, hver, ?_, ⟨⟨_, hx⟩, fun q y hy => hver ▸ hbound q y hy⟩⟩
  rcases hV.store ho hx with ⟨-, hinit⟩ | ⟨j, hoj, -, hseq, hprod⟩
  · exact absurd (hinit.symm.trans hver) (initialVersion_lt_produced i).ne
  · obtain rfl : j = i := producer_unique (k := (o, D.executor.version x))
      (produces_iff.mpr ⟨hoj, hprod⟩) (produces_iff.mpr ⟨ho, hver⟩)
    exact hseq

theorem newest_of_sequential {o : ObjectID} {l : ℕ} (ho : o ∈ accessed D.primary.txns l) {x : ω}
    (hx : sequential D.executor D.primary runs D.genesis n o = some x) :
    Newest D.executor.version (copies s o) x := by
  have hV : Values D sim runs s :=
    values_of_reachable hD hr fun i hi => (hruns i (hn i hi)).mpr hi
  rcases sequential_cases (E := D.executor) runs D.genesis hD.consistent ho n with
    ⟨hno, hseq⟩ | ⟨i, hi, hoi, hri, hno, hseq⟩
  · -- nobody was executed that accesses the object
    have hgen : D.genesis o = some x := hseq.symm.trans hx
    have hcopy : ∀ q y, copies s o q = some y → y = x := by
      intro q y hy
      rcases hV.store ho hy with ⟨hg, -⟩ | ⟨j, hoj, hj, -⟩
      · exact Option.some.inj (hg.symm.trans hgen)
      · have hrj := (hruns j (hn j hj)).mpr hj
        rw [hno j (hn j hj) hoj] at hrj
        simp at hrj
    obtain ⟨y, hy⟩ := Option.isSome_iff_exists.mp
      ((isSome_stores hr hD 0 o).trans (by simp [hgen]) : (copies s o 0).isSome = true)
    exact ⟨⟨0, hcopy 0 y hy ▸ hy⟩, fun q z hz => (hcopy q z hz ▸ le_rfl)⟩
  · obtain ⟨th, ht, hexec⟩ := (hruns i hi).mp hri
    obtain ⟨y, -, -, hy, hnew⟩ := newest_of_last hr hD hset hn hruns ht hexec hoi
      fun j hij hoj hj => by simpa [hno j hij (hn j hj) hoj] using (hruns j (hn j hj)).mpr hj
    obtain rfl : y = x := Option.some.inj (hy.symm.trans (hseq.symm.trans hx))
    exact hnew

/-- The newest copy of an object is what the sequential execution leaves. -/
theorem newest_iff {o : ObjectID} {l : ℕ} (ho : o ∈ accessed D.primary.txns l) {x : ω} :
    Newest D.executor.version (copies s o) x ↔
      sequential D.executor D.primary runs D.genesis n o = some x := by
  refine ⟨fun hx => ?_, newest_of_sequential hr hD hset hn hruns ho⟩
  obtain ⟨p, hp⟩ := hx.copy
  have hgen : (D.genesis o).isSome := by
    rw [← isSome_stores hr hD p o]
    exact Option.isSome_iff_exists.mpr ⟨x, hp⟩
  have hsome : (sequential D.executor D.primary runs D.genesis n o).isSome :=
    (isSome_of_same (hD.lawful.same_sequential n o)).symm.trans hgen
  obtain ⟨y, hy⟩ := Option.isSome_iff_exists.mp hsome
  rw [hy, hx.eq (hD.coherent.agree s hr o l ho)
    (newest_of_sequential hr hD hset hn hruns ho hy)]

end Newest

/-! ## The directory of the primary -/

/-- Every transaction that was forwarded is finished. -/
def AllFinished (s : State τ ω) : Prop :=
  ∀ i, Forwarded s i → Finished s i

theorem lt_length_of_forwarded (hr : (system D).Reachable s) {i : ℕ} (h : Forwarded s i) :
    i < D.primary.txns.length := by
  obtain ⟨p, hp⟩ := Option.isSome_iff_exists.mp h
  obtain ⟨⟨p, msg⟩, hmsg, -⟩ := Option.map_eq_some_iff.mp hp
  obtain ⟨t, _, _, hs, -⟩ := exists_sent (reachable_forwarder hr) hmsg
  obtain ⟨t₀, ht₀, -⟩ := Primary.transaction_eq_some hs.transaction
  exact (List.getElem?_eq_some_iff.mp ht₀).1

/-- A thread of a transaction was forwarded. -/
theorem Follows.forwarded (hF : Follows D s) {i : ℕ} {th : Thread τ ω}
    (ht : s.cluster.threads (.message (.stateful i)) = some th) : Forwarded s i := by
  obtain ⟨_, _, _, hs, -⟩ := hF.message ht
  simp [Forwarded, hs.forwardedTo]

theorem AllFinished.settled (h : AllFinished s) (hF : Follows D s) : Settled s := by
  intro i th o ht _ hm
  obtain ⟨x, hx, hnot⟩ := h i (hF.forwarded ht)
  obtain rfl := Option.some.inj (ht.symm.trans hx)
  obtain ⟨txn, stateless, states, hs, -, -, hsuffix⟩ := hF.message ht
  exact hnot (mem_of_mem (hs.staged D.primary.mode).ordered hsuffix
    Cluster.sendResult_mem_messageProgram hm (by simp [Cluster.rank]))

theorem entered_of_finished (hF : Follows D s) {i : ℕ} (h : Finished s i) : Entered s i := by
  obtain ⟨x, hx, hnot⟩ := h
  obtain ⟨txn, stateless, states, hs, -, -, hsuffix⟩ := hF.message hx
  exact ⟨x, hx, fun k => done_of_done (hs.staged D.primary.mode).ordered hsuffix
    Cluster.sendResult_mem_messageProgram hnot (by simp [Cluster.rank])⟩

section Directory

variable (hr : (system D).Reachable s) (hfin : SharedObjTxnForwarder.Finished s.forwarder)
include hr hfin

/-- Once the primary has returned, what was forwarded is what was dispatched. -/
theorem forwarded_iff {i : ℕ} : Forwarded s i ↔ i < s.forwarder.pool.sent := by
  have hrf := reachable_forwarder hr
  refine ⟨fun h => ?_, fun h => hfin.isSome_forwardedTo hrf h⟩
  by_contra hi
  obtain ⟨p, hp⟩ := Option.isSome_iff_exists.mp h
  obtain ⟨⟨p, msg⟩, hsent, rfl⟩ := Option.map_eq_some_iff.mp hp
  obtain ⟨hnot, -⟩ := (SharedObjTxnForwarder.hints_of_reachable hrf).sent_eq_some hsent
  rw [SharedObjTxnForwarder.unstarted_of_reachable hrf i (Nat.le_of_not_lt hi)] at hnot
  exact hnot (sendTxn_mem_processForwardingTask D.primary i)

/-- The proxy that `states_to_proxy` names has the newest copy, the result of the sequential
execution. -/
theorem copy_of_owner (hD : Sound D Valid sim) (hall : AllFinished s)
    (hexec : ∀ i < s.forwarder.pool.sent, Executed s i) {k : ObjectVersion} {q : ProxyId}
    (hq : s.forwarder.context.statesToProxy k = some q) :
    ∃ x, copies s k.1 q = some x ∧ D.executor.version x = k.2 ∧
      sequential D.executor D.primary (fun _ => true) D.genesis s.forwarder.pool.sent k.1 =
        some x := by
  have hF := follows_of_reachable hr
  have hn : ∀ i, Executed s i → i < s.forwarder.pool.sent := fun i ⟨th, ht, _⟩ =>
    (forwarded_iff hr hfin).mp (hF.forwarded ht)
  have hruns : ∀ i < s.forwarder.pool.sent, (fun _ => true) i = true ↔ Executed s i :=
    fun i hi => ⟨fun _ => hexec i hi, fun _ => rfl⟩
  obtain ⟨⟨i, hi, hprod, hto⟩, hno⟩ := (hfin.owner_eq_some (reachable_forwarder hr) k q).mp hq
  obtain ⟨ho, hk⟩ := produces_iff.mp hprod
  obtain ⟨th, ht, he⟩ := hexec i hi
  obtain ⟨_, _, _, hs, -⟩ := hF.message ht
  obtain rfl : th.proxy = q := Option.some.inj (hs.forwardedTo.symm.trans hto)
  -- a later accessor would require what this one has produced
  have hlast : ∀ j, i < j → k.1 ∈ accessed D.primary.txns j → ¬Executed s j := by
    intro j hij hoj hj
    obtain ⟨l, hl, -, hreq⟩ := exists_next hij ho hoj
    rw [← hk] at hreq
    exact hno l (hl.trans_lt (hn j hj)) hreq
  obtain ⟨x, hx, hver, -, hnew⟩ :=
    newest_of_last hr hD (hall.settled hF) hn hruns ht he ho hlast
  exact ⟨x, hx, hver.trans hk.symm,
    (newest_iff hr hD (hall.settled hF) hn hruns ho).mp hnew⟩

end Directory

/-! ## The controllers of the proxies -/

section Controllers

variable (hr : (system D).Reachable s) (hall : AllFinished s)
include hr hall

/-- A task that is finished has nothing left to do, nor have its requests and replies. -/
theorem AllFinished.agent_todo {loc : ℕ → ProxyId} {t : ThreadId} {th : Thread τ ω}
    (hst : isStateful t = true) (ht : s.cluster.threads t = some th)
    (b : Action ObjectVersion) :
    tag th.proxy b ∉ (agent D.primary.txns loc s.cluster t).todo := by
  have hF := follows_of_reachable hr
  cases t with
  | message m =>
    cases m with
    | stateless n => simp [isStateful] at hst
    | stateful i =>
      obtain ⟨x, hx, hnot⟩ := hall i (hF.forwarded ht)
      obtain rfl := Option.some.inj (ht.symm.trans hx)
      obtain ⟨txn, stateless, states, hs, -, -, hsuffix⟩ := hF.message ht
      refine notMem_agent rfl ht (hF.message ht).not_panic (done_of_done
        (hs.staged D.primary.mode).ordered hsuffix Cluster.sendResult_mem_messageProgram hnot ?_)
      cases b <;> simp [Cluster.rank]
  | request m k =>
    obtain ⟨j, p, rfl, hreq⟩ := hF.request ht
    obtain ⟨x, hx, -⟩ := hreq.asked
    have he : Entered s j := entered_of_finished hF (hall j (hF.forwarded hx))
    exact notMem_agent rfl ht hreq.not_panic (by simp [(request_done hr he ht).1])
  | reply m k =>
    obtain ⟨j, rfl, y, hy, -, hreq, -⟩ := hF.reply ht
    obtain ⟨x, hx, -⟩ := hreq.asked
    have he : Entered s j := entered_of_finished hF (hall j (hF.forwarded hx))
    obtain ⟨-, z, hz, hnil⟩ := request_done hr he hy
    obtain rfl := Option.some.inj (ht.symm.trans hz)
    exact notMem_agent rfl ht (by simp [hnil]) (by simp [hnil])
  | verify m | statelessRequest m | statelessReply m => simp [isStateful] at hst

/-- A consumer that is there has deleted its key. -/
theorem AllFinished.removed {loc : ℕ → ProxyId} (hloc : Places loc s.forwarder) {p : ProxyId}
    {k : ObjectVersion} {t : ThreadId} (ht : waiter D.primary.txns loc (p, k) = some t)
    (hsome : (s.cluster.threads t).isSome) :
    (protocol D.primary.txns loc).Removed (agent D.primary.txns loc s.cluster) (p, k) := by
  have hF := follows_of_reachable hr
  obtain ⟨th, hth⟩ := Option.isSome_iff_exists.mp hsome
  refine ⟨t, ht, ?_⟩
  rcases waiter_cases ht with ⟨j, rfl⟩ | ⟨j, rfl⟩
  · obtain ⟨-, rfl⟩ := waiter_eq_message.mp ht
    rw [hF.proxy_eq hloc hth]
    exact hall.agent_todo hr rfl hth (.remove k)
  · obtain ⟨-, j', hj, hs⟩ := waiter_eq_request.mp ht
    obtain rfl : j = j' := MessageId.stateful.inj hj
    obtain ⟨j', q, hj, hreq⟩ := hF.request hth
    obtain rfl : j = j' := MessageId.stateful.inj hj
    obtain rfl : p = th.proxy := Option.some.inj (hs.symm.trans (hreq.source_eq hloc).1)
    exact hall.agent_todo hr rfl hth (.remove k)

/-- A version that was required is deleted at the proxy of its producer. -/
theorem AllFinished.removed_of_required {loc : ℕ → ProxyId} (hloc : Places loc s.forwarder)
    {i j : ℕ} {k : ObjectVersion} (hi : Produces D.primary.txns i k)
    (hk : k ∈ required D.primary.txns j) (hj : Forwarded s j) :
    (protocol D.primary.txns loc).Removed (agent D.primary.txns loc s.cluster) (loc i, k) := by
  have hF := follows_of_reachable hr
  obtain ⟨x, hx, hnot⟩ := entered_of_finished hF (hall j hj)
  rcases woken_message hr hloc hx hk hi (hnot k) with ⟨hl, -⟩ | ⟨hne, y, hy, -⟩
  · exact hall.removed hr hloc
      (waiter_eq_message.mpr ⟨⟨hk, initialVersion_lt_of_produces hi⟩, hl.symm⟩) (by simp [hx])
  · obtain ⟨j', hj', z, hz, -⟩ := hF.reply hy
    obtain rfl : j = j' := MessageId.stateful.inj hj'
    exact hall.removed hr hloc
      (waiter_eq_request.mpr ⟨rfl, j, rfl, source_eq_some.mpr ⟨hk, i, hi, rfl, hne⟩⟩)
      (by simp [hz])

/-- The proxies keep the handles of the versions that are produced and not required. -/
theorem entry_isSome_iff (p : ProxyId) (k : ObjectVersion) :
    (s.cluster.resources.deps.entry (p, k)).isSome ↔
      (∃ i, Produces D.primary.txns i k ∧
        SharedObjTxnForwarder.forwardedTo s.forwarder i = some p) ∧
      ∀ j, Forwarded s j → k ∉ required D.primary.txns j := by
  have hF := follows_of_reachable hr
  obtain ⟨loc, hloc⟩ := exists_places s.forwarder
  have hI := protocol_inv hr hloc
  rw [Option.isSome_iff_exists]
  constructor
  · rintro ⟨h, he⟩
    obtain ⟨⟨t, hparty, hheld⟩, hrem⟩ := hI.entry.mp he
    obtain ⟨th, ht⟩ : ∃ th, s.cluster.threads t = some th := by
      cases hth : s.cluster.threads t with
      | none => simp [agent_of_none hth] at hheld
      | some th => exact ⟨th, rfl⟩
    rcases hparty with hp | hc
    · replace hp : notifier D.primary.txns loc (p, k) = some t := hp
      rcases notifier_cases hp with ⟨i, rfl⟩ | ⟨j, rfl⟩
      · obtain ⟨hi, rfl⟩ := notifier_eq_message.mp hp
        obtain ⟨_, _, _, hs, -⟩ := hF.message ht
        exact ⟨⟨i, hi, hF.proxy_eq hloc ht ▸ hs.forwardedTo⟩, fun j hj hk =>
          hrem (hall.removed_of_required hr hloc hi hk hj)⟩
      · -- the consumer of what a reply brings is at the same proxy
        obtain ⟨-, j', hj, rfl, hs⟩ := notifier_eq_reply.mp hp
        obtain rfl : j = j' := MessageId.stateful.inj hj
        obtain ⟨hk, i, hi, -⟩ := isSome_source.mp hs
        obtain ⟨j', hj, y, -, -, hreq, -⟩ := hF.reply ht
        obtain rfl : j = j' := MessageId.stateful.inj hj
        obtain ⟨x, hx, -⟩ := hreq.asked
        exact absurd (hall.removed hr hloc (waiter_eq_message.mpr
          ⟨⟨hk, initialVersion_lt_of_produces hi⟩, rfl⟩) (by simp [hx])) hrem
    · exact absurd (hall.removed hr hloc hc (by simp [ht])) hrem
  · rintro ⟨⟨i, hi, hto⟩, hno⟩
    obtain rfl : loc i = p := hloc hto
    have hp : notifier D.primary.txns loc (loc i, k) = some (.message (.stateful i)) :=
      notifier_eq_message.mpr ⟨hi, rfl⟩
    obtain ⟨x, hx, -⟩ := hall i (by simp [Forwarded, hto])
    have hnotified : (protocol D.primary.txns loc).Notified
        (agent D.primary.txns loc s.cluster) (loc i, k) := by
      refine ⟨_, hp, ?_⟩
      rw [hF.proxy_eq hloc hx]
      exact hall.agent_todo hr rfl hx (.notify k)
    obtain ⟨h, hh⟩ := hI.holds_of_notified hnotified
    refine ⟨h, hI.entry.mpr ⟨hh, ?_⟩⟩
    rintro ⟨t, hc, hrem⟩
    obtain ⟨y, hy, -⟩ := exists_thread_of_notMem
      ((protocol D.primary.txns loc).consumer_prog hc).2.2 hrem
    replace hc : waiter D.primary.txns loc (loc i, k) = some t := hc
    rcases waiter_cases hc with ⟨j, rfl⟩ | ⟨j, rfl⟩
    · exact hno j (hF.forwarded hy) (waiter_eq_message.mp hc).1.1
    · obtain ⟨-, j', hj, hs⟩ := waiter_eq_request.mp hc
      obtain rfl : j = j' := MessageId.stateful.inj hj
      obtain ⟨j', q, hj, hreq⟩ := hF.request hy
      obtain rfl : j = j' := MessageId.stateful.inj hj
      obtain ⟨x, hx, -⟩ := hreq.asked
      exact hno j (hF.forwarded hx) (source_eq_some.mp hs).1

/-- They are those that `states_to_proxy` names the proxy of. -/
theorem entry_iff_owner (hfin : SharedObjTxnForwarder.Finished s.forwarder) (p : ProxyId)
    (k : ObjectVersion) : (s.cluster.resources.deps.entry (p, k)).isSome ↔
      s.forwarder.context.statesToProxy k = some p := by
  rw [entry_isSome_iff hr hall, hfin.owner_eq_some (reachable_forwarder hr)]
  refine and_congr (exists_congr fun i => ⟨fun ⟨hi, hto⟩ => ⟨?_, hi, hto⟩, fun h => h.2⟩)
    (forall_congr' fun j => by rw [forwarded_iff hr hfin])
  exact (forwarded_iff hr hfin).mp (by simp [Forwarded, hto])

end Controllers

/-- If all checks have passed, what is finished was executed. -/
theorem Served.executed (hS : Served D s) (hr : (system D).Reachable s) (hD : Sound D Valid sim)
    {i : ℕ} (h : Finished s i) : Executed s i := by
  have hV : Values D sim (fun _ => true) s := values_of_reachable hD hr fun _ _ => rfl
  obtain ⟨th, ht, hnot⟩ := h
  obtain ⟨txn, stateless, states, hs, -, -, hsuffix⟩ := (follows_of_reachable hr).message ht
  have hdone : ∀ {b : ProxyAction ω}, Cluster.rank b < 17 → b ∉ th.todo := fun hb =>
    done_of_done (hs.staged D.primary.mode).ordered hsuffix
      Cluster.sendResult_mem_messageProgram hnot (by simpa [Cluster.rank] using hb)
  refine ⟨th, ht, ?_⟩
  rw [(hV.executed ht).1 (hdone (by simp [Cluster.rank])),
    hS.ready ht (hdone (by simp [Cluster.rank]))]

/-! ## What is left -/

/-- Once what was forwarded is finished, the newest copy of a shared object is what the executed
transactions leave one after the other, whichever of them were executed. -/
def EndsSequential (D : Deployment τ ω) : Prop :=
  ∀ s, (system D).Reachable s → (∀ i, Forwarded s i → Finished s i) →
    ∀ runs : ℕ → Bool, (∀ i, runs i = true ↔ Executed s i) →
      ∀ o l, o ∈ accessed D.primary.txns l → ∀ x,
        Newest D.executor.version (copies s o) x ↔
          sequential D.executor D.primary runs D.genesis D.primary.txns.length o = some x

theorem Sound.endsSequential (hD : Sound D Valid sim) : D.EndsSequential := by
  intro s hr hall runs hruns o l ho x
  have hF := follows_of_reachable hr
  refine newest_iff hr hD (AllFinished.settled hall hF) ?_ (fun i _ => hruns i) ho
  rintro i ⟨th, ht, -⟩
  exact lt_length_of_forwarded hr (hF.forwarded ht)

/-- With either executor, for every mode, routing, outcome of the verifications and
interleaving. -/
theorem ends_sequential :
    (∀ D : Deployment τ FakeObject, D.executor = fakeExecutor τ →
      (∀ t ∈ D.primary.txns, FakeExecutor.BuiltFrom D.genesis t) →
      (∀ o x, D.genesis o = some x → x.version = 2) → D.EndsSequential) ∧
    ∀ (δ : Type) (logic : τ → (ObjectID → Option (TpccObject δ)) → ObjectID → Option δ)
      (D : Deployment τ (TpccObject δ)), D.executor = tpccExecutor logic →
      (∀ t ∈ D.primary.txns, AllShared t) →
      (∀ o x, D.genesis o = some x → x.version = 2) → D.EndsSequential :=
  ⟨fun _ hE hbuilt hgenesis => (sound_fake hE hbuilt hgenesis).endsSequential,
    fun _ _ _ hE hshared hgenesis => (sound_tpcc hE hshared hgenesis).endsSequential⟩

/-- The end of `counterRun` : both tasks, and then the workers of the primary, are finished. -/
def counterEnd : List Event :=
  counterRun ++ [.run (.message (.stateful 0))] ++
    List.replicate 5 (.run (.message (.stateful 1))) ++
    [.forwarder (.run 1), .forwarder (.finish 0), .forwarder (.finish 1)]

/-- Two transactions are finished and no other was forwarded. -/
theorem exists_counterEnd : ∃ s, (system counter).Reachable s ∧ s.forwarder.pool.sent = 2 ∧
    (∀ i < s.forwarder.pool.sent, s.forwarder.pool.returned i = true) ∧ AllFinished s ∧
    ∀ i, decide (i < 2) = true ↔ Executed s i := by
  have hview : ((system counter).run (State.init counter) counterEnd).map (fun s =>
      (s.forwarder.pool.sent, s.forwarder.pool.returned 0, s.forwarder.pool.returned 1,
        (s.cluster.threads (.message (.stateful 0))).map fun th => th.todo.isEmpty && th.executed,
        (s.cluster.threads (.message (.stateful 1))).map fun th => th.todo.isEmpty && th.executed))
      = some (2, true, true, some true, some true) := by decide
  obtain ⟨s, hrun, hview⟩ := Option.map_eq_some_iff.mp hview
  simp only [Prod.mk.injEq, Option.map_eq_some_iff, Bool.and_eq_true, List.isEmpty_iff] at hview
  obtain ⟨hsent, h0, h1, ⟨th, ht, hnil, hexec⟩, ⟨th', ht', hnil', hexec'⟩⟩ := hview
  have hr : (system counter).Reachable s := Transition.System.reachable_run (.init rfl) hrun
  have hlt : ∀ {i}, Forwarded s i → i = 0 ∨ i = 1 := by
    intro i hi
    have : i < 2 := lt_length_of_forwarded hr hi
    omega
  refine ⟨s, hr, hsent, fun i hi => ?_, fun i hi => ?_, fun i => ⟨fun hi => ?_, ?_⟩⟩
  · obtain rfl | rfl : i = 0 ∨ i = 1 := by omega
    · exact h0
    · exact h1
  · rcases hlt hi with rfl | rfl
    · exact ⟨th, ht, by simp [hnil]⟩
    · exact ⟨th', ht', by simp [hnil']⟩
  · obtain rfl | rfl : i = 0 ∨ i = 1 := by
      have := of_decide_eq_true hi
      omega
    · exact ⟨th, ht, hexec⟩
    · exact ⟨th', ht', hexec'⟩
  · rintro ⟨x, hx, -⟩
    rcases hlt ((follows_of_reachable hr).forwarded hx) with rfl | rfl <;> decide

/-- The newest copy at the end is what the two transactions leave one after the other. -/
theorem ends_sequential_counter : ∃ s x, (system counter).Reachable s ∧
    Newest FakeObject.version (copies s 7) x ∧ x.version = 4 := by
  obtain ⟨s, hr, -, -, hall, hruns⟩ := exists_counterEnd
  obtain ⟨x, hx, hv⟩ : ∃ x, sequential counter.executor counter.primary
      (fun i => decide (i < 2)) counter.genesis 2 7 = some x ∧ x.version = 4 := ⟨_, rfl, rfl⟩
  have hend : counter.EndsSequential := ends_sequential.1 counter rfl
    (by simp only [FakeExecutor.BuiltFrom]; decide) fun o x h => by
      simp only [counter, Option.ite_none_right_eq_some] at h
      rw [← Option.some.inj h.2]
  exact ⟨s, x, hr, (hend s hr hall _ hruns 7 0 (by decide) x).mpr hx, hv⟩

/-- Once the primary and the proxies have finished what was dispatched, `states_to_proxy` and the
controllers of the proxies have the same keys, those of the last accessors, and the proxy of each
has what a sequential execution of all leaves. -/
def EndsInDirectory (D : Deployment τ ω) : Prop :=
  ∀ s, (system D).Reachable s → (∀ i < s.forwarder.pool.sent, s.forwarder.pool.returned i = true) →
    (∀ i, Forwarded s i → Finished s i) →
    (∀ p k, (s.cluster.resources.deps.entry (p, k)).isSome ↔
      s.forwarder.context.statesToProxy k = some p) ∧
    (∀ o i, LastAccess D.primary.txns o s.forwarder.pool.sent i → ∃ p,
      s.forwarder.context.statesToProxy (o, produced D.primary.txns i) = some p) ∧
    ∀ k p, s.forwarder.context.statesToProxy k = some p → ∃ x, copies s k.1 p = some x ∧
      D.executor.version x = k.2 ∧
      sequential D.executor D.primary (fun _ => true) D.genesis s.forwarder.pool.sent k.1 = some x

theorem Sound.endsInDirectory (hD : Sound D Valid sim) (hN : D.NeverStuck) :
    D.EndsInDirectory := by
  intro s hr hfin hall
  have hfin : SharedObjTxnForwarder.Finished s.forwarder := hfin
  have hexec : ∀ i < s.forwarder.pool.sent, Executed s i := fun i hi =>
    (hN s hr).1.executed hr hD (hall i ((forwarded_iff hr hfin).mpr hi))
  refine ⟨entry_iff_owner hr hall hfin, fun o i hi => ?_,
    fun k p hp => copy_of_owner hr hfin hD hall hexec hp⟩
  have hk := (versionsAt_eq_some (k := (o, produced D.primary.txns i))).mp
    (versionsAt_of_lastAccess hi)
  exact Option.isSome_iff_exists.mp
    ((hfin.owner_isSome (reachable_forwarder hr) (o, produced D.primary.txns i)).mpr hk)

/-- In the combined modes, with either executor, if all transactions verify. -/
theorem ends_in_directory :
    (∀ D : Deployment τ FakeObject, D.executor = fakeExecutor τ →
      (∀ t ∈ D.primary.txns, FakeExecutor.BuiltFrom D.genesis t) →
      (∀ o x, D.genesis o = some x → x.version = 2) →
      D.primary.mode.isPrimarySeparation = false → D.primary.DistinctDigests →
      (∀ t, D.outcome t = true) → D.EndsInDirectory) ∧
    ∀ (δ : Type) (logic : τ → (ObjectID → Option (TpccObject δ)) → ObjectID → Option δ)
      (D : Deployment τ (TpccObject δ)), D.executor = tpccExecutor logic →
      (∀ t ∈ D.primary.txns, AllShared t) →
      (∀ t ∈ D.primary.txns, ∀ x ∈ t.inputs, (D.genesis x.objectId).isSome) →
      (∀ o x, D.genesis o = some x → x.version = 2) →
      D.primary.mode.isPrimarySeparation = false → D.primary.DistinctDigests →
      (∀ t, D.outcome t = true) → D.EndsInDirectory :=
  ⟨fun _ hE hbuilt hgenesis hmode hdigests houtcome =>
    (sound_fake hE hbuilt hgenesis).endsInDirectory
      ((sound_fake hE hbuilt hgenesis).neverStuck (stocked_fake hbuilt) hmode hdigests houtcome),
    fun _ _ _ hE hshared hinputs hgenesis hmode hdigests houtcome =>
      (sound_tpcc hE hshared hgenesis).endsInDirectory
        ((sound_tpcc hE hshared hgenesis).neverStuck (stocked hinputs) hmode hdigests houtcome)⟩

/-- The object ends at the proxy of the second transaction, and so does the only handle. -/
theorem ends_in_directory_counter : ∃ s p x, (system counter).Reachable s ∧
    s.forwarder.context.statesToProxy (7, 4) = some p ∧
    (s.cluster.resources.deps.entry (p, (7, 4))).isSome ∧ copies s 7 p = some x ∧
    x.version = 4 := by
  obtain ⟨s, hr, hsent, hreturned, hall, -⟩ := exists_counterEnd
  have hlast : LastAccess counter.primary.txns 7 s.forwarder.pool.sent 1 := by
    rw [hsent]
    exact ⟨by decide, by decide, fun l h1 h2 => by omega⟩
  obtain ⟨htables, howner, hcopies⟩ := ends_in_directory.1 counter rfl
    (by simp only [FakeExecutor.BuiltFrom]; decide) (fun o x h => by
      simp only [counter, Option.ite_none_right_eq_some] at h
      rw [← Option.some.inj h.2]) rfl (by simp only [Primary.DistinctDigests]; decide)
    (fun _ => rfl) s hr hreturned hall
  obtain ⟨p, hp⟩ := howner 7 1 hlast
  obtain ⟨x, hx, hv, -⟩ := hcopies (7, 4) p hp
  exact ⟨s, p, x, hr, hp, (htables p (7, 4)).mpr hp, hx, hv⟩

end Deployment

end Remora
