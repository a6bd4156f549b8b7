import Remora.DeterministicExecution
import Remora.Replication

/-!
# Coherent stores

The stores of the proxies keep copies of the shared objects, and a copy may be old : a proxy
keeps what it has when an object moves on to another one. The copies of an object are
replicated values in the sense of `Replication` (`update_of_step`) : a task commits a version
newer than every copy, and a reply commits the newest copy, as the request that has read it
still finds it at its proxy (`InFlight`). So a proxy never goes back to an older version, and
proxies that have the same version have the same value.

A task that has passed its checks reads the newest copy there is anywhere (`newest_of_checked`).
-/

namespace Remora

open Function Rendezvous VersionedDependencyController Program Replication

variable {τ ω : Type}

namespace Deployment

open ProxyAction
open Cluster (messageProgram RunStep Past spawned)

variable {D : Deployment τ ω} {s s' : State τ ω} {Valid : RemoraTransaction τ → Prop}
  {sim : ω → ω → Prop}

/-- What the proxies have of an object. -/
def copies (s : State τ ω) (o : ObjectID) (p : ProxyId) : Option ω :=
  s.cluster.resources.stores p o

/-- The task of `i` has written `o`. -/
def Written (s : State τ ω) (i : ℕ) (o : ObjectID) : Prop :=
  ∃ th, s.cluster.threads (.message (.stateful i)) = some th ∧ th.executed = true ∧
    commit o ∉ th.todo

/-- A task that was executed is past its waits. -/
theorem Values.entered {runs : ℕ → Bool} (hV : Values D sim runs s) {i : ℕ}
    (h : Executed s i) : Entered s i := by
  obtain ⟨th, ht, hexec⟩ := h
  refine ⟨th, ht, fun k hk => ?_⟩
  have : 13 ≤ Cluster.rank (dep (ω := ω) (.wait k)) := ((hV.executed ht).2 hexec).2 _ hk
  simp [Cluster.rank] at this

/-- A version that an accessor produces is at most what a later one requires. -/
theorem produced_le_required {txns : List (RemoraTransaction τ)} {i j : ℕ} {o : ObjectID}
    {v : SequenceNumber} (hij : i < j) (hi : o ∈ accessed txns i) (hv : (o, v) ∈ required txns j) :
    produced txns i ≤ v := by
  obtain ⟨l, hil, hl⟩ := exists_lastAccess hij hi
  rw [required_of_lastAccess hv hl]
  rcases Nat.eq_or_lt_of_le hil with rfl | hlt
  · exact le_rfl
  · exact (produced_lt hlt hi hl.2.1).le

/-- A step changes the copies of an object at one place. -/
theorem copies_of_run {t : ThreadId} {th th' : Thread τ ω} {a : ProxyAction ω}
    {rest : List (ProxyAction ω)} (hrun : RunStep D.cluster s.cluster s'.cluster t th th' a rest)
    (o : ObjectID) :
    copies s' o = copies s o ∨
      (a = commit o ∧ th.ready = true ∧ ∃ txn x, th.transaction = some txn ∧
        D.executor.output txn th.readings o = some x ∧
        copies s' o = update (copies s o) th.proxy (some x)) ∨
      ∃ x, a = commitNew o x ∧ copies s' o = update (copies s o) th.proxy (some x) := by
  have hother : ∀ q, q ≠ th.proxy → copies s' o q = copies s o q := by
    intro q hq
    rcases stores_cases hrun q o with hsame | ⟨rfl, -⟩ | ⟨rfl, -⟩
    · exact hsame
    · exact absurd rfl hq
    · exact absurd rfl hq
  have hset : ∀ {x}, copies s' o th.proxy = some x →
      copies s' o = update (copies s o) th.proxy (some x) := by
    intro x hx
    refine funext fun q => ?_
    rcases eq_or_ne q th.proxy with rfl | hq
    · rw [hx, update_self]
    · rw [hother q hq, update_of_ne hq]
  rcases stores_cases hrun th.proxy o with hsame | ⟨-, ha, hready, txn, x, htxn, hout, hx⟩ |
    ⟨-, x, ha, hx⟩
  · refine Or.inl (funext fun q => ?_)
    rcases eq_or_ne q th.proxy with rfl | hq
    · exact hsame
    · exact hother q hq
  · exact Or.inr (Or.inl ⟨ha, hready, txn, x, htxn, hout, hset hx⟩)
  · exact Or.inr (Or.inr ⟨x, ha, hset hx⟩)

/-- An object that is no input of any transaction stays as it was everywhere. -/
theorem copies_of_no_input {o : ObjectID} (ho : ∀ i t, D.primary.transaction i = some t →
    o ∉ t.outputIds) (hr : (system D).Reachable s) (p : ProxyId) :
    copies s o p = D.genesis o := by
  refine hr.invariant (I := fun s => copies s o p = D.genesis o) ?_ ?_
  · rintro s rfl
    rfl
  · intro s e s' hr ih hs
    rcases step_cases hs with ⟨e', -, hc⟩ | ⟨m, q, msg, -, ha, -⟩ |
      ⟨t, th, th', a, rest, -, hrun, -⟩
    · rwa [copies, hc]
    · obtain ⟨-, -, -, hres, -⟩ := Cluster.arrive_eq_some ha
      rwa [copies, hres]
    · have hF := follows_of_reachable hr
      rcases copies_of_run hrun o with hsame | ⟨rfl, -⟩ | ⟨x, rfl, -⟩
      · rwa [hsame]
      · obtain ⟨i, rfl⟩ := hF.message_of_rank hrun.thread hrun.head_mem (by simp [Cluster.rank])
          (by simp [Cluster.rank])
        obtain ⟨txn, stateless, states, hsent, -, -, hsuffix⟩ := hF.message hrun.thread
        exact absurd (Cluster.commit_mem_messageProgram.mp (hsuffix.subset hrun.head_mem))
          (ho i txn hsent.transaction)
      · obtain ⟨j, k, y, -, rfl, -, -, hreq⟩ :=
          hF.reply_of_commitNew hrun.thread hrun.head_mem
        obtain ⟨z, hz, -⟩ := hreq.asked
        obtain ⟨txn, stateless, states, hsent, -⟩ := hF.message hz
        exact absurd (Primary.outputIds_of_accessed hsent.transaction
          (accessed_of_required hreq.mem_required)) (ho j txn hsent.transaction)

/-! ## What is written -/

/-- A task that is still to commit an object has not left its version anywhere. -/
def Fresh (D : Deployment τ ω) (s : State τ ω) : Prop :=
  ∀ i th o p x, s.cluster.threads (.message (.stateful i)) = some th → commit o ∈ th.todo →
    o ∈ accessed D.primary.txns i → copies s o p = some x →
    D.executor.version x ≠ produced D.primary.txns i

section Fresh

variable {runs : ℕ → Bool} (hr : (system D).Reachable s) (hD : Sound D Valid sim)
  (hV : Values D sim runs s) (hruns : ∀ i, Executed s i → runs i = true)
include hr hD hV

omit hr hD in
theorem Fresh.arrive {m : MessageId} {p : ProxyId} {msg : PrimaryToProxyMessage τ}
    (h : Fresh D s) (ha : Cluster.arrive D.cluster s.cluster m p msg = some s'.cluster) :
    Fresh D s' := by
  obtain ⟨hnone, -, -, hres, -⟩ := Cluster.arrive_eq_some ha
  intro i th o q x ht hc ho hx hv
  have hx : copies s o q = some x := by rwa [copies, ← hres]
  rcases Cluster.arrive_cases ha ht with ⟨hm, -⟩ | hold
  · -- the version has one producer, and its task was not there
    rcases hV.store ho hx with ⟨-, hinit⟩ | ⟨i', ho', ⟨y, hy, -⟩, -, hprod⟩
    · exact absurd (hinit.symm.trans hv) (initialVersion_lt_produced i).ne
    · obtain rfl : i' = i := producer_unique (k := (o, D.executor.version x))
        (produces_iff.mpr ⟨ho', hprod⟩) (produces_iff.mpr ⟨ho, hv⟩)
      rw [hm, hnone] at hy
      simp at hy
  · exact h i th o q x hold hc ho hx hv

include hruns in
theorem Fresh.run (h : Fresh D s) {t : ThreadId} {th th' : Thread τ ω} {a : ProxyAction ω}
    {rest : List (ProxyAction ω)}
    (hrun : RunStep D.cluster s.cluster s'.cluster t th th' a rest) : Fresh D s' := by
  have hF := follows_of_reachable hr
  intro i y o q x hy hc ho hx hv
  -- the task was there, and was to commit the object before
  obtain ⟨z, hz, hcz, hself⟩ : ∃ z, s.cluster.threads (.message (.stateful i)) = some z ∧
      commit o ∈ z.todo ∧ (t = .message (.stateful i) → a ≠ commit o) := by
    rcases hrun.cases hy with ⟨rfl, rfl⟩ | ⟨-, hsp⟩ | ⟨hne, hold⟩
    · refine ⟨th, hrun.thread, hrun.mem_of_mem hc, ?_⟩
      rintro - rfl
      obtain ⟨txn, stateless, states, hs, -, -, hsuffix⟩ := hF.message hrun.thread
      exact Cluster.commit_notMem_of_cons (hrun.todo ▸ hsuffix) hc
    · exact absurd hsp (Cluster.spawned_ne_message _ _)
    · exact ⟨y, hold, hc, fun he => absurd he.symm hne⟩
  rcases copies_of_run hrun o with hsame | ⟨ha, hready, txn, x', htxn, hout, hset⟩ |
    ⟨x', ha, hset⟩
  · exact h i z o q x hz hcz ho (hsame ▸ hx) hv
  · rcases update_cases (hset ▸ hx) with ⟨-, rfl⟩ | ⟨-, hold⟩
    · obtain ⟨l, rfl, hl, hmem, -, hver, -⟩ := lineage_of_commit hr hD hV hruns hrun ha hready
        htxn hout
      have hol := hD.consistent.mem_accessed hl ho hmem
      obtain rfl : l = i := producer_unique (k := (o, D.executor.version x))
        (produces_iff.mpr ⟨hol, hver⟩) (produces_iff.mpr ⟨ho, hv⟩)
      exact hself rfl ha
    · exact h i z o q x hz hcz ho hold hv
  · rcases update_cases (hset ▸ hx) with ⟨-, rfl⟩ | ⟨-, hold⟩
    · -- a state that is moved was produced by a task that is done with the object
      obtain ⟨j, k, w, rfl, rfl, -, hobj, hreq⟩ := hF.reply_of_commitNew hrun.thread
        (ha ▸ hrun.head_mem)
      have hk : D.executor.version x = k.2 := by
        rcases hreq.objects with hnil | ⟨x', hx', hver⟩
        · simp [hnil] at hobj
        · obtain rfl : x' = x := by simpa [hx'] using hobj
          exact hver
      have hclosed : Closed D s i k.1 := closed_of_reply hr hrun.thread
        (produces_iff.mpr ⟨ho, hk.symm.trans hv⟩)
      obtain ⟨z', hz', hnot⟩ := hclosed
      obtain rfl := Option.some.inj (hz.symm.trans hz')
      obtain ⟨txn, stateless, states, hs, -, -, hsuffix⟩ := hF.message hz
      refine done_of_done (hs.staged D.primary.mode).ordered hsuffix ?_ hnot
        (by simp [Cluster.rank]) hcz
      rw [Cluster.dep_mem_messageProgram, hs.keys,
        notify_mem_dependencyProgram (initialVersion_le_of_mem _ i), mem_map_fst_required]
      exact produces_iff.mpr ⟨ho, rfl⟩
    · exact h i z o q x hz hcz ho hold hv

end Fresh

theorem fresh_of_reachable (hD : Sound D Valid sim) (hr : (system D).Reachable s) :
    Fresh D s := by
  refine hr.invariant (I := Fresh D) ?_ ?_
  · rintro s rfl i th o p x ht
    simp [State.init, Cluster.State.init] at ht
  · intro s e s' hr h hs
    have hV : Values D sim (fun _ => true) s := values_of_reachable hD hr fun _ _ => rfl
    rcases step_cases hs with ⟨e', -, hc⟩ | ⟨m, p, msg, -, ha, -⟩ |
      ⟨t, th, th', a, rest, -, hrun, -⟩
    · intro i th o p x
      rw [copies, hc]
      exact h i th o p x
    · exact h.arrive hV ha
    · exact h.run hr hD hV (fun _ _ => rfl) hrun

section Versions

variable (hD : Sound D Valid sim) (hr : (system D).Reachable s)
include hD hr

/-- A copy is initial, or was written by the accessor that produces its version. -/
theorem written_of_copy {p : ProxyId} {o : ObjectID} {x : ω} {l : ℕ}
    (ho : o ∈ accessed D.primary.txns l) (hx : copies s o p = some x) :
    D.executor.version x = initialVersion ∨
      ∃ i, o ∈ accessed D.primary.txns i ∧ Written s i o ∧
        D.executor.version x = produced D.primary.txns i := by
  have hV : Values D sim (fun _ => true) s := values_of_reachable hD hr fun _ _ => rfl
  rcases hV.store ho hx with ⟨-, hinit⟩ | ⟨i, hoi, ⟨th, ht, hexec⟩, -, hprod⟩
  · exact Or.inl hinit
  · exact Or.inr ⟨i, hoi, ⟨th, ht, hexec, fun hc =>
      fresh_of_reachable hD hr i th o p x ht hc hoi hx hprod⟩, hprod⟩

/-- In its turn, an accessor finds no copy newer than the version it requires. -/
theorem Turn.version_le {o : ObjectID} {j : ℕ} {v : SequenceNumber} (hj : Turn D s o j)
    (hv : (o, v) ∈ required D.primary.txns j) (hw : ¬Written s j o) {p : ProxyId} {x : ω}
    (hx : copies s o p = some x) : D.executor.version x ≤ v := by
  have hV : Values D sim (fun _ => true) s := values_of_reachable hD hr fun _ _ => rfl
  rcases written_of_copy hD hr hj.accessed hx with hinit | ⟨i, hoi, hi, hprod⟩
  · rw [hinit]
    exact initialVersion_le_of_required hv
  · rw [hprod]
    rcases Nat.lt_trichotomy i j with hlt | rfl | hlt
    · exact produced_le_required hlt hoi hv
    · exact absurd hi hw
    · obtain ⟨th, ht, hexec, -⟩ := hi
      exact absurd (closed_of_entered hr (hV.entered ⟨th, ht, hexec⟩) hlt hj.accessed hoi)
        hj.not_closed

/-- A task that has passed its checks and is still to read has the newest copy. -/
theorem newest_of_checked {i : ℕ} {th : Thread τ ω} {o : ObjectID} {b : ProxyAction ω}
    (ht : s.cluster.threads (.message (.stateful i)) = some th) (hready : th.ready = true)
    (ho : o ∈ accessed D.primary.txns i) (hbegin : begin ∉ th.todo)
    (hcheck : check (.sharedMoveObject o) ∉ th.todo) (hb : b ∈ th.todo)
    (hrank : Cluster.rank b ≤ 14) :
    ∃ x, copies s o th.proxy = some x ∧ Newest D.executor.version (copies s o) x := by
  have hF := follows_of_reachable hr
  have hV : Values D sim (fun _ => true) s := values_of_reachable hD hr fun _ _ => rfl
  obtain ⟨v, hv⟩ := exists_required ho
  obtain ⟨x, hx, -, hversion⟩ := hV.checked ht hready hbegin hv hcheck hb hrank
  obtain ⟨txn, stateless, states, hs, -, -, hsuffix⟩ := hF.message ht
  have hholder : Holder D s o (.message (.stateful i)) :=
    holder_of_executing hF ht (fun k => done_of_done (hs.staged D.primary.mode).ordered hsuffix
      Cluster.begin_mem_messageProgram hbegin (by simp [Cluster.rank])) hb (by omega) ho
  obtain ⟨j, hj, hturn⟩ := hholder.turn hr
  obtain rfl : i = j := MessageId.stateful.inj hj
  have hw : ¬Written s i o := by
    rintro ⟨th', ht', -, hnot⟩
    obtain rfl := Option.some.inj (ht.symm.trans ht')
    refine hnot (mem_of_mem (hs.staged D.primary.mode).ordered hsuffix ?_ hb
      (by simpa [Cluster.rank] using Nat.lt_succ_of_le hrank))
    exact Cluster.commit_mem_messageProgram.mpr (Primary.outputIds_of_accessed hs.transaction ho)
  exact ⟨x, hx, ⟨_, hx⟩, fun q y hy => hversion ▸ hturn.version_le hD hr hv hw hy⟩

end Versions

/-! ## What is moved -/

/-- What a request has read is at its proxy until its task has entered. -/
def InFlight (s : State τ ω) : Prop :=
  ∀ j k y o x, s.cluster.threads (.request (.stateful j) k) = some y → (o, x) ∈ y.objects →
    ¬Entered s j → copies s o y.proxy = some x

theorem Entered.step {e : Event} {j : ℕ} (h : Entered s j) (hs : Deployment.step D s e = some s') :
    Entered s' j := by
  obtain ⟨y, hy, hnot⟩ := h
  rcases step_cases hs with ⟨e', -, hc⟩ | ⟨m, p, msg, -, ha, -⟩ |
    ⟨t, th, th', a, rest, -, hrun, -⟩
  · exact ⟨y, hc ▸ hy, hnot⟩
  · exact ⟨y, Cluster.threads_of_arrive ha hy, hnot⟩
  · rcases eq_or_ne (.message (.stateful j)) t with rfl | hne
    · obtain rfl := Option.some.inj (hy.symm.trans hrun.thread)
      exact ⟨_, hrun.self, fun k hk => hnot k (hrun.mem_of_mem hk)⟩
    · exact ⟨y, (hrun.threads_of_ne hne fun x => Cluster.spawned_ne_message _ x).trans hy, hnot⟩

/-- A request is about the object it has read. -/
theorem RequestOf.object_eq {j : ℕ} {k : ObjectVersion} {p : ProxyId} {th : Thread τ ω}
    (h : RequestOf D s j k p th) {o : ObjectID} {x : ω} (hx : (o, x) ∈ th.objects) :
    o = k.1 ∧ D.executor.version x = k.2 ∧ readState k ∉ th.todo := by
  refine ⟨?_, ?_, fun hm => by simp [h.empty hm] at hx⟩ <;>
    rcases h.objects with hnil | ⟨y, hy, hv⟩
  · simp [hnil] at hx
  · rw [hy] at hx
    exact (Prod.mk.inj (List.mem_singleton.mp hx)).1
  · simp [hnil] at hx
  · rw [hy] at hx
    obtain ⟨-, rfl⟩ := Prod.mk.inj (List.mem_singleton.mp hx)
    exact hv

section InFlight

variable (hr : (system D).Reachable s)
include hr

/-- It is the turn of a task whose request has read. -/
theorem turn_of_read {j : ℕ} {k : ObjectVersion} {y : Thread τ ω} {o : ObjectID} {x : ω}
    (hy : s.cluster.threads (.request (.stateful j) k) = some y) (hx : (o, x) ∈ y.objects)
    (he : ¬Entered s j) : Turn D s o j := by
  obtain ⟨j', p, hj, hreq⟩ := (follows_of_reachable hr).request hy
  obtain rfl : j = j' := MessageId.stateful.inj hj
  obtain ⟨rfl, -, hread⟩ := hreq.object_eq hx
  have hwait : dep (.wait k) ∉ y.todo := by
    intro hm
    have hsuffix := hreq.todo.2
    simp only [List.suffix_cons_iff, List.suffix_nil] at hsuffix
    rcases hsuffix with h | h | h | h | h | h | h | h <;> simp [h] at hm hread
  exact turn_of_not_entered hr hreq.mem_required he (fun i hi => closed_of_request hr hy hi hwait)
    hreq.todo.1

/-- Nobody writes what a request has read, where it has read it. -/
theorem copies_of_read {j : ℕ} {k : ObjectVersion} {y : Thread τ ω} {o : ObjectID} {x : ω}
    (hC : D.primary.Consistent) (hy : s.cluster.threads (.request (.stateful j) k) = some y)
    (hx : (o, x) ∈ y.objects) (he : ¬Entered s j) {t : ThreadId} {th th' : Thread τ ω}
    {a : ProxyAction ω} {rest : List (ProxyAction ω)}
    (hrun : RunStep D.cluster s.cluster s'.cluster t th th' a rest) :
    copies s' o y.proxy = copies s o y.proxy := by
  have hF := follows_of_reachable hr
  have hturn := turn_of_read hr hy hx he
  by_contra hne
  obtain ⟨hp, hholder⟩ := holder_of_write hr hC hrun hturn.accessed hne
  obtain ⟨j', hm, hturn'⟩ := hholder.turn hr
  obtain rfl := hturn.unique hturn'
  obtain ⟨j', p, hj, hreq⟩ := hF.request hy
  obtain rfl : j = j' := MessageId.stateful.inj hj
  obtain ⟨rfl, -⟩ := hreq.object_eq hx
  cases hholder with
  | message hentered => exact he (MessageId.stateful.inj hm ▸ hentered)
  | @request j' k' z hk hz =>
    -- a request writes nothing
    obtain ⟨_, _, _, hreq'⟩ := hF.request hrun.thread
    have hmem := hreq'.todo.2.subset hrun.head_mem
    rcases copies_of_run hrun k.1 with hsame | ⟨ha, -⟩ | ⟨x', ha, -⟩
    · exact hne (congrFun hsame y.proxy)
    · simp [ha] at hmem
    · simp [ha] at hmem
  | @reply j' k' z hk hz =>
    -- and the reply is at the proxy of the task
    obtain rfl : j' = j := MessageId.stateful.inj hm
    obtain ⟨j'', hj, w, hw, -, hreq', -⟩ := hF.reply hrun.thread
    obtain rfl : j' = j'' := MessageId.stateful.inj hj
    obtain rfl : k' = k := by
      obtain ⟨b, v⟩ := k
      obtain ⟨b', v'⟩ := k'
      obtain rfl : b' = b := hk
      rw [required_unique hreq'.mem_required hreq.mem_required]
    obtain rfl := Option.some.inj (hy.symm.trans hw)
    obtain ⟨_, _, _, hs, hmem⟩ := hreq'.sent
    exact (hs.producer_of_hint hmem).2.1 hp

end InFlight

theorem inFlight_of_reachable (hC : D.primary.Consistent) (hr : (system D).Reachable s) :
    InFlight s := by
  refine hr.invariant (I := InFlight) ?_ ?_
  · rintro s rfl j k y o x hy
    simp [State.init, Cluster.State.init] at hy
  · intro s e s' hr h hs j k y o x hy hx he
    have he : ¬Entered s j := fun h => he (h.step hs)
    rcases step_cases hs with ⟨e', -, hc⟩ | ⟨m, p, msg, -, ha, -⟩ |
      ⟨t, th, th', a, rest, -, hrun, -⟩
    · rw [copies, hc]
      exact h j k y o x (hc ▸ hy) hx he
    · rw [copies, (Cluster.arrive_eq_some ha).2.2.2.1]
      exact h j k y o x (Cluster.thread_of_arrive ha (by simp) hy) hx he
    · rcases hrun.cases hy with ⟨rfl, rfl⟩ | ⟨-, hsp⟩ | ⟨-, hold⟩
      · have hframe := Cluster.perform_frame hrun.perform
        change copies s' o th'.proxy = some x
        by_cases hold : (o, x) ∈ th.objects
        · rw [hframe.proxy, copies_of_read hr hC hrun.thread hold he hrun]
          exact h j k th o x hrun.thread hold he
        · -- the object is read in this step
          obtain ⟨k', rfl⟩ : ∃ k', a = readState k' := by
            by_contra hne
            rw [hframe.objects fun k' hk' => hne ⟨k', hk'⟩] at hx
            exact hold hx
          obtain ⟨j', p, -, hreq⟩ := (follows_of_reachable hr).request hrun.thread
          have hempty := hreq.empty (by
            have hhead : readState k' ∈ th.todo := hrun.head_mem
            obtain rfl : k' = k := by simpa using hreq.todo.2.subset hhead
            exact hhead)
          rw [copies, hframe.stores rfl, hframe.proxy]
          have hperf := hrun.perform
          simp only [Cluster.perform] at hperf
          split at hperf
          · rename_i z hz
            split_ifs at hperf
            · obtain ⟨-, rfl⟩ := Prod.mk.inj (Option.some.inj hperf)
              obtain ⟨rfl, rfl⟩ : o = k'.1 ∧ x = z := by
                simpa [hempty, Cluster.insertObject] using hx
              exact hz
            · obtain ⟨-, rfl⟩ := Prod.mk.inj (Option.some.inj hperf)
              exact absurd hx hold
          · obtain ⟨-, rfl⟩ := Prod.mk.inj (Option.some.inj hperf)
            exact absurd hx hold
      · obtain ⟨q, -, -, -, rfl⟩ := spawned_request hsp
        simp [Cluster.spawn] at hx
      · rw [copies_of_read hr hC hold hx he hrun]
        exact h j k y o x hold hx he

/-! ## The copies are replicated values -/

section Coherence

variable (hD : Sound D Valid sim)
include hD

/-- What a step does to the copies of a shared object. -/
theorem update_of_step {e : Event} (hr : (system D).Reachable s)
    (hs : Deployment.step D s e = some s') {o : ObjectID} {l : ℕ}
    (ho : o ∈ accessed D.primary.txns l) :
    copies s' o = copies s o ∨ Update D.executor.version (copies s o) (copies s' o) := by
  have hF := follows_of_reachable hr
  have hV : Values D sim (fun _ => true) s := values_of_reachable hD hr fun _ _ => rfl
  rcases step_cases hs with ⟨e', -, hc⟩ | ⟨m, p, msg, -, ha, -⟩ |
    ⟨t, th, th', a, rest, -, hrun, -⟩
  · exact Or.inl (by simp [copies, hc, funext_iff])
  · exact Or.inl (by simp [copies, (Cluster.arrive_eq_some ha).2.2.2.1, funext_iff])
  · rcases copies_of_run hrun o with hsame | ⟨rfl, hready, txn, x, htxn, hout, hset⟩ |
      ⟨x, rfl, hset⟩
    · exact Or.inl hsame
    · -- a task commits in its turn
      obtain ⟨i, rfl, hi, hmem, -, hver, -⟩ := lineage_of_commit hr hD hV (fun _ _ => rfl) hrun
        rfl hready htxn hout
      have hoi := hD.consistent.mem_accessed hi ho hmem
      obtain ⟨v, hv⟩ := exists_required hoi
      have hholder : Holder D s o (.message (.stateful i)) :=
        holder_of_executing hF hrun.thread (fun k => notMem_of_head hF hrun.thread hrun.todo
          (by simp [Cluster.rank])) hrun.head_mem (by simp [Cluster.rank]) hoi
      obtain ⟨j, hj, hturn⟩ := hholder.turn hr
      obtain rfl : i = j := MessageId.stateful.inj hj
      have hw : ¬Written s i o := by
        rintro ⟨th₀, ht₀, -, hnot⟩
        obtain rfl := Option.some.inj (ht₀.symm.trans hrun.thread)
        exact hnot hrun.head_mem
      rw [hset]
      exact Or.inr (.write fun q y hy => hver ▸
        (hturn.version_le hD hr hv hw hy).trans_lt (lt_produced hv))
    · -- a reply commits what its request has found, in the turn of its task
      obtain ⟨j, k, y, rfl, rfl, hy, hobj, hreq⟩ := hF.reply_of_commitNew hrun.thread hrun.head_mem
      have he : ¬Entered s j := not_entered_of_reply hr hrun.thread (by simp [hrun.todo])
      have hx : (k.1, x) ∈ y.objects := by simp [hobj]
      have hturn := turn_of_read hr hy hx he
      obtain ⟨-, hver, -⟩ := hreq.object_eq hx
      have hw : ¬Written s j k.1 := by
        rintro ⟨z, hz, hexec, -⟩
        exact he (hV.entered ⟨z, hz, hexec⟩)
      rw [hset]
      refine Or.inr (.fetch ⟨⟨y.proxy, inFlight_of_reachable hD.consistent hr j k y k.1 x hy hx he⟩,
        fun q z hz => ?_⟩)
      rw [hver]
      exact hturn.version_le hD hr (v := k.2) hreq.mem_required hw hz

/-- A step leaves a copy, or brings a newer one. -/
theorem copy_le_of_step {e : Event} (hr : (system D).Reachable s)
    (hs : Deployment.step D s e = some s') {o : ObjectID} {l : ℕ}
    (ho : o ∈ accessed D.primary.txns l) {p : ProxyId} {x : ω} (hx : copies s o p = some x) :
    ∃ y, copies s' o p = some y ∧ D.executor.version x ≤ D.executor.version y := by
  rcases update_of_step hD hr hs ho with hsame | hu
  · exact ⟨x, hsame ▸ hx, le_rfl⟩
  · exact hu.le hx

theorem updates_of_steps (hr : (system D).Reachable s) (hs : (system D).Steps s s')
    {o : ObjectID} {l : ℕ} (ho : o ∈ accessed D.primary.txns l) :
    Relation.ReflTransGen (Update D.executor.version) (copies s o) (copies s' o) := by
  induction hs with
  | refl => exact .refl
  | tail hsteps hstep ih =>
    rcases update_of_step hD (hr.steps hsteps) hstep ho with hsame | hu
    · exact hsame ▸ ih
    · exact ih.tail hu

end Coherence

/-- The stores of the proxies are coherent. -/
structure Coherent (D : Deployment τ ω) : Prop where
  /-- One version of an object has one value. -/
  agree : ∀ s, (system D).Reachable s → ∀ o l, o ∈ accessed D.primary.txns l →
    ∀ p q x y, copies s o p = some x → copies s o q = some y →
      D.executor.version x = D.executor.version y → x = y
  /-- No proxy goes back to an older version. -/
  le : ∀ s s', (system D).Reachable s → (system D).Steps s s' → ∀ o l,
    o ∈ accessed D.primary.txns l → ∀ p x, copies s o p = some x →
      ∃ y, copies s' o p = some y ∧ D.executor.version x ≤ D.executor.version y
  /-- What a task reads is the newest copy there is anywhere. -/
  newest : ∀ s, (system D).Reachable s → ∀ i th o rest, th.todo = read o :: rest →
    s.cluster.threads (.message (.stateful i)) = some th → th.ready = true →
      o ∈ accessed D.primary.txns i → ∃ x, copies s o th.proxy = some x ∧
        ∀ q y, copies s o q = some y → D.executor.version y ≤ D.executor.version x

theorem Sound.coherent (hD : Sound D Valid sim) : D.Coherent where
  agree s hr o l ho := by
    refine hr.invariant (I := fun s => Agree D.executor.version (copies s o)) ?_ ?_
    · rintro s rfl
      exact .const fun _ => rfl
    · intro s e s' hr h hs
      rcases update_of_step hD hr hs ho with hsame | hu
      · rw [hsame]
        exact h
      · exact hu.agree h
  le s s' hr hs o l ho p x hx := le_of_updates (updates_of_steps hD hr hs ho) hx
  newest s hr i th o rest htodo ht hready ho := by
    have hpast : ∀ {b : ProxyAction ω}, Cluster.rank b < 14 → b ∉ th.todo := fun hb =>
      notMem_of_head (follows_of_reachable hr) ht htodo hb
    obtain ⟨x, hx, hnew⟩ := newest_of_checked hD hr ht hready ho (hpast (by simp [Cluster.rank]))
      (hpast (by simp [Cluster.rank])) (b := ProxyAction.read o)
      (by rw [htodo]; exact List.mem_cons_self) (by simp [Cluster.rank])
    exact ⟨x, hx, hnew.le⟩

/-- The stores are coherent with either executor, for every mode, routing, outcome of the
verifications and interleaving. -/
theorem store_coherence :
    (∀ D : Deployment τ FakeObject, D.executor = fakeExecutor τ →
      (∀ t ∈ D.primary.txns, FakeExecutor.BuiltFrom D.genesis t) →
      (∀ o x, D.genesis o = some x → x.version = 2) → D.Coherent) ∧
    ∀ (δ : Type) (logic : τ → (ObjectID → Option (TpccObject δ)) → ObjectID → Option δ)
      (D : Deployment τ (TpccObject δ)), D.executor = tpccExecutor logic →
      (∀ t ∈ D.primary.txns, AllShared t) →
      (∀ o x, D.genesis o = some x → x.version = 2) → D.Coherent :=
  ⟨fun _ hE hbuilt hgenesis => (sound_fake hE hbuilt hgenesis).coherent,
    fun _ _ _ hE hshared hgenesis => (sound_tpcc hE hshared hgenesis).coherent⟩

/-- The object that has moved is the same at both proxies. -/
theorem store_coherence_counter : ∃ s x, (system counter).Reachable s ∧
    copies s 7 0 = some x ∧ copies s 7 1 = some x ∧ x.version = 3 := by
  have hview : (((system counter).run (State.init counter) counterRun).bind fun s =>
      (copies s 7 0).bind fun x => (copies s 7 1).map fun y => (x.version, y.version)) =
      some (3, 3) := by decide
  obtain ⟨s, hrun, hview⟩ := Option.bind_eq_some_iff.mp hview
  obtain ⟨x, hx, hview⟩ := Option.bind_eq_some_iff.mp hview
  obtain ⟨y, hy, hview⟩ := Option.map_eq_some_iff.mp hview
  obtain ⟨hx3, hy3⟩ := Prod.mk.inj hview
  have hs : (system counter).Reachable s := Transition.System.reachable_run (.init rfl) hrun
  have hcoherent : counter.Coherent := store_coherence.1 counter rfl
    (by simp only [FakeExecutor.BuiltFrom]; decide) fun o x h => by
      simp only [counter, Option.ite_none_right_eq_some] at h
      rw [← Option.some.inj h.2]
  obtain rfl : x = y := hcoherent.agree s hs 7 0 (by decide) 0 1 x y hx hy (hx3.trans hy3.symm)
  exact ⟨s, x, hs, hx, hy, hx3⟩

end Deployment

end Remora
