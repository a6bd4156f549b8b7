import Remora.MigrationProtocol

/-!
# The order of the tasks on an object

The tasks on an object come in the consensus order, wherever they run. A task that has entered,
past its waits, finds every earlier accessor of its objects closed, past its notification
(`closed_of_entered`) : at its own proxy by the rendezvous with the task before, and at another
one by the rendezvous of that task with the request, and of the reply with its own.

Of all threads that work on an object, the tasks, the requests and the replies, at most one
holds it at a time (`Holder.unique`).
-/

namespace Remora

open Function Rendezvous VersionedDependencyController Program

variable {τ ω : Type}

namespace Deployment

open ProxyAction
open Cluster (tag depOf Past)

variable {D : Deployment τ ω} {s : State τ ω} {loc : ℕ → ProxyId}

/-- The task of `j` is past its waits. -/
def Entered (s : State τ ω) (j : ℕ) : Prop :=
  ∃ th, s.cluster.threads (.message (.stateful j)) = some th ∧ ∀ k, dep (.wait k) ∉ th.todo

/-- The task of `i` has notified the next accessor of `o`. -/
def Closed (D : Deployment τ ω) (s : State τ ω) (i : ℕ) (o : ObjectID) : Prop :=
  Past s.cluster (.message (.stateful i)) (dep (.notify (o, produced D.primary.txns i)))

/-! ## From the agents to the threads -/

/-- An agent that is done with an action is a thread that is. -/
theorem exists_thread_of_notMem {t : ThreadId} {b : Action (ProxyId × ObjectVersion)}
    (hb : b ∈ dependencies D.primary.txns loc t)
    (hnot : b ∉ (agent D.primary.txns loc s.cluster t).todo) :
    ∃ th, s.cluster.threads t = some th ∧ th.todo.any isPanic = false ∧
      ∀ b', tag th.proxy b' = b → dep b' ∉ th.todo := by
  cases hth : s.cluster.threads t with
  | none =>
    rw [agent_of_none hth] at hnot
    exact absurd hb hnot
  | some th =>
    by_cases hs : isStateful t = true
    · by_cases hp : th.todo.any isPanic = true
      · simp only [agent, hs, hth, hp, if_true] at hnot
        exact absurd hb hnot
      · have hp : th.todo.any isPanic = false := by simpa using hp
        rw [agent_of_some hs hth hp] at hnot
        refine ⟨th, rfl, hp, ?_⟩
        rintro b' rfl hm
        exact hnot (List.mem_map_of_mem (List.mem_filterMap.mpr ⟨_, hm, rfl⟩))
    · rcases dependencies_cases hb with ⟨i, b', rfl, -⟩ | ⟨j, k, q, rfl, -⟩ | ⟨j, k, rfl, -⟩ <;>
        simp [isStateful] at hs

theorem notMem_agent {t : ThreadId} {th : Thread τ ω} (hs : isStateful t = true)
    (hth : s.cluster.threads t = some th) (hp : th.todo.any isPanic = false)
    {b : Action ObjectVersion} (hnot : dep b ∉ th.todo) :
    tag th.proxy b ∉ (agent D.primary.txns loc s.cluster t).todo := by
  rw [agent_of_some hs hth hp]
  intro hm
  obtain ⟨b', hb', hbb⟩ := List.mem_map.mp hm
  obtain rfl := Cluster.tag_injective _ hbb
  obtain ⟨a, ha, hab⟩ := List.mem_filterMap.mp hb'
  cases a with
  | dep b =>
    obtain rfl := Option.some.inj hab
    exact hnot ha
  | _ => simp [depOf] at hab

theorem Follows.proxy_eq (h : Follows D s) (hloc : Places loc s.forwarder) {i : ℕ}
    {th : Thread τ ω} (hth : s.cluster.threads (.message (.stateful i)) = some th) :
    loc i = th.proxy := by
  obtain ⟨_, _, _, hs, -⟩ := h.message hth
  exact hloc hs.forwardedTo

theorem RequestOf.source_eq (hloc : Places loc s.forwarder) {j : ℕ} {k : ObjectVersion}
    {p : ProxyId} {th : Thread τ ω} (h : RequestOf D s j k p th) :
    source D.primary.txns loc j k = some th.proxy ∧ loc j = p := by
  obtain ⟨_, _, _, hs, hk⟩ := h.sent
  exact ⟨source_of_hint hloc hs hk, hloc hs.forwardedTo⟩

theorem RequestOf.mem_required {j : ℕ} {k : ObjectVersion} {p : ProxyId} {th : Thread τ ω}
    (h : RequestOf D s j k p th) : k ∈ required D.primary.txns j := by
  obtain ⟨_, _, _, hs, hk⟩ := h.sent
  exact hs.mem_required hk

/-- A reply that has notified is done. -/
theorem ReplyOf.todo_eq_nil {j : ℕ} {k : ObjectVersion} {th : Thread τ ω}
    (h : ReplyOf D s j k th) (hp : th.todo.any isPanic = false)
    (hnot : dep (.notify k) ∉ th.todo) : th.todo = [] := by
  rcases h.todo with hsub | ⟨x, -, hsub⟩
  · simp only [List.suffix_cons_iff, List.suffix_nil] at hsub
    rcases hsub with hsub | hsub | hsub
    · simp [hsub, isPanic] at hp
    · simp [hsub, isPanic] at hp
    · exact hsub
  · simp only [List.suffix_cons_iff, List.suffix_nil] at hsub
    rcases hsub with hsub | hsub | hsub | hsub | hsub | hsub
    all_goals first | exact hsub | simp [hsub] at hnot

/-! ## Waking up -/

section Wake

variable (hr : (system D).Reachable s) (hloc : Places loc s.forwarder)
include hr hloc

/-- A task past a wait was woken by the task that produced the version, or by the reply. -/
theorem woken_message {i j : ℕ} {x : Thread τ ω} {k : ObjectVersion}
    (hx : s.cluster.threads (.message (.stateful j)) = some x)
    (hk : k ∈ required D.primary.txns j) (hi : Produces D.primary.txns i k)
    (hnot : dep (.wait k) ∉ x.todo) :
    (loc i = loc j ∧ Closed D s i k.1) ∨
      (loc i ≠ loc j ∧ ∃ y, s.cluster.threads (.reply (.stateful j) k) = some y ∧ y.todo = []) := by
  have hF := follows_of_reachable hr
  have hI := protocol_inv hr hloc
  have hp := hF.proxy_eq hloc hx
  have hwoken : (protocol D.primary.txns loc).Woken (agent D.primary.txns loc s.cluster)
      (loc j, k) := by
    refine ⟨_, waiter_eq_message.mpr ⟨⟨hk, initialVersion_lt_of_produces hi⟩, rfl⟩, ?_⟩
    rw [hp]
    exact notMem_agent rfl hx (hF.message hx).not_panic hnot
  obtain ⟨t, ht, hdone⟩ := hI.notified_of_woken hwoken
  obtain ⟨y, hy, hpanic, hpast⟩ := exists_thread_of_notMem
    ((protocol D.primary.txns loc).producer_prog ht).2 hdone
  replace ht : notifier D.primary.txns loc (loc j, k) = some t := ht
  rcases notifier_cases ht with ⟨i', rfl⟩ | ⟨j', rfl⟩
  · obtain ⟨hi', hl⟩ := notifier_eq_message.mp ht
    obtain rfl := producer_unique hi hi'
    refine Or.inl ⟨hl, y, hy, ?_⟩
    rw [show (k.1, produced D.primary.txns i) = k from Prod.ext rfl (produces_iff.mp hi).2.symm]
    exact hpast _ (by rw [← hF.proxy_eq hloc hy, hl]; rfl)
  · obtain ⟨-, j'', hj, hl, hs⟩ := notifier_eq_reply.mp ht
    obtain rfl : j' = j'' := MessageId.stateful.inj hj
    obtain ⟨hk', i', hi', hne⟩ := isSome_source.mp hs
    obtain rfl := consumer_unique hk hk'
    obtain rfl := producer_unique hi hi'
    obtain ⟨j'', hj, hrep⟩ := hF.reply hy
    obtain rfl : j = j'' := MessageId.stateful.inj hj
    obtain ⟨z, -, -, hreq, -⟩ := hrep.request
    refine Or.inr ⟨hne, y, hy, hrep.todo_eq_nil hpanic (hpast _ ?_)⟩
    rw [← (hreq.source_eq hloc).2]
    rfl

/-- A request past its wait was woken by the task that produced the version. -/
theorem woken_request {i j : ℕ} {y : Thread τ ω} {k : ObjectVersion}
    (hy : s.cluster.threads (.request (.stateful j) k) = some y)
    (hi : Produces D.primary.txns i k) (hnot : dep (.wait k) ∉ y.todo) : Closed D s i k.1 := by
  have hF := follows_of_reachable hr
  have hI := protocol_inv hr hloc
  obtain ⟨j', p, hj, hreq⟩ := hF.request hy
  obtain rfl : j = j' := MessageId.stateful.inj hj
  obtain ⟨hs, -⟩ := hreq.source_eq hloc
  have hwoken : (protocol D.primary.txns loc).Woken (agent D.primary.txns loc s.cluster)
      (y.proxy, k) :=
    ⟨_, waiter_eq_request.mpr ⟨rfl, j, rfl, hs⟩, notMem_agent rfl hy hreq.not_panic hnot⟩
  obtain ⟨t, ht, hdone⟩ := hI.notified_of_woken hwoken
  obtain ⟨x, hx, -, hpast⟩ := exists_thread_of_notMem
    ((protocol D.primary.txns loc).producer_prog ht).2 hdone
  obtain ⟨hk, -, -, -, hne⟩ := source_eq_some.mp hs
  replace ht : notifier D.primary.txns loc (y.proxy, k) = some t := ht
  rcases notifier_cases ht with ⟨i', rfl⟩ | ⟨j', rfl⟩
  · obtain ⟨hi', hl⟩ := notifier_eq_message.mp ht
    obtain rfl := producer_unique hi hi'
    refine ⟨x, hx, ?_⟩
    rw [show (k.1, produced D.primary.txns i) = k from Prod.ext rfl (produces_iff.mp hi).2.symm]
    exact hpast _ (by rw [← hF.proxy_eq hloc hx, hl]; rfl)
  · obtain ⟨-, j'', hj, hl, hs'⟩ := notifier_eq_reply.mp ht
    obtain rfl : j' = j'' := MessageId.stateful.inj hj
    obtain rfl := consumer_unique hk (isSome_source.mp hs').1
    exact absurd hl.symm hne

end Wake

/-! ## The order -/

section Order

variable (hr : (system D).Reachable s)
include hr

theorem closed_of_request {i j : ℕ} {y : Thread τ ω} {k : ObjectVersion}
    (hy : s.cluster.threads (.request (.stateful j) k) = some y)
    (hi : Produces D.primary.txns i k) (hnot : dep (.wait k) ∉ y.todo) : Closed D s i k.1 := by
  obtain ⟨loc, hloc⟩ := exists_places s.forwarder
  exact woken_request hr hloc hy hi hnot

theorem closed_of_reply {i j : ℕ} {y : Thread τ ω} {k : ObjectVersion}
    (hy : s.cluster.threads (.reply (.stateful j) k) = some y)
    (hi : Produces D.primary.txns i k) : Closed D s i k.1 := by
  obtain ⟨j', hj, z, hz, hnil, -⟩ := (follows_of_reachable hr).reply hy
  obtain rfl : j = j' := MessageId.stateful.inj hj
  exact closed_of_request hr hz hi (by simp [hnil])

theorem closed_of_message {i j : ℕ} {x : Thread τ ω} {k : ObjectVersion}
    (hx : s.cluster.threads (.message (.stateful j)) = some x)
    (hk : k ∈ required D.primary.txns j) (hi : Produces D.primary.txns i k)
    (hnot : dep (.wait k) ∉ x.todo) : Closed D s i k.1 := by
  obtain ⟨loc, hloc⟩ := exists_places s.forwarder
  rcases woken_message hr hloc hx hk hi hnot with ⟨-, hc⟩ | ⟨-, y, hy, -⟩
  · exact hc
  · exact closed_of_reply hr hy hi

/-- A task notifies after its waits. -/
theorem entered_of_closed {i : ℕ} {o : ObjectID} (ho : o ∈ accessed D.primary.txns i)
    (h : Closed D s i o) : Entered s i := by
  obtain ⟨th, hth, hnot⟩ := h
  obtain ⟨t, stateless, states, hs, -, -, hsuffix⟩ := (follows_of_reachable hr).message hth
  refine ⟨th, hth, fun k => ?_⟩
  refine done_of_done (hs.staged D.primary.mode).ordered hsuffix ?_ hnot (by simp [Cluster.rank])
  rw [Cluster.dep_mem_messageProgram, hs.keys,
    notify_mem_dependencyProgram (initialVersion_le_of_mem _ i), mem_map_fst_required]
  exact produces_iff.mpr ⟨ho, rfl⟩

/-- A task that has entered comes after every earlier accessor of its objects. -/
theorem closed_of_entered {i j : ℕ} {o : ObjectID} (hj : Entered s j) (hij : i < j)
    (hoi : o ∈ accessed D.primary.txns i) (hoj : o ∈ accessed D.primary.txns j) :
    Closed D s i o := by
  induction j using Nat.strong_induction_on with
  | _ j ih =>
    obtain ⟨l, hil, hl⟩ := exists_lastAccess hij hoi
    obtain ⟨v, hv⟩ := exists_required hoj
    obtain ⟨x, hx, hnot⟩ := hj
    have hprod : Produces D.primary.txns l (o, v) :=
      produces_iff.mpr ⟨hl.2.1, required_of_lastAccess hv hl⟩
    have hc : Closed D s l o := closed_of_message hr hx hv hprod (hnot _)
    rcases Nat.eq_or_lt_of_le hil with rfl | hlt
    · exact hc
    · exact ih l hl.1 (entered_of_closed hr hl.2.1 hc) hlt hl.2.1

/-- What comes after the producer of a version comes after every accessor before. -/
theorem closed_of_produces {i l j : ℕ} {k : ObjectVersion} (hk : k ∈ required D.primary.txns j)
    (hl : Produces D.primary.txns l k) (hc : Closed D s l k.1) (hij : i < j)
    (hoi : k.1 ∈ accessed D.primary.txns i) : Closed D s i k.1 := by
  have hlast := lastAccess_of_produces hk hl
  rcases Nat.lt_trichotomy i l with hlt | rfl | hlt
  · exact closed_of_entered hr (entered_of_closed hr hlast.2.1 hc) hlt hoi hlast.2.1
  · exact hc
  · exact absurd hoi (hlast.2.2 i hlt hij)

/-- A task that has entered is done with its requests and their replies. -/
theorem request_done {j : ℕ} (hj : Entered s j) {y : Thread τ ω} {k : ObjectVersion}
    (hy : s.cluster.threads (.request (.stateful j) k) = some y) :
    y.todo = [] ∧ ∃ z, s.cluster.threads (.reply (.stateful j) k) = some z ∧ z.todo = [] := by
  obtain ⟨loc, hloc⟩ := exists_places s.forwarder
  have hF := follows_of_reachable hr
  obtain ⟨x, hx, hnot⟩ := hj
  obtain ⟨j', p, hj', hreq⟩ := hF.request hy
  obtain rfl : j = j' := MessageId.stateful.inj hj'
  obtain ⟨hk, i, hi, hl, hne⟩ := source_eq_some.mp (hreq.source_eq hloc).1
  rcases woken_message hr hloc hx hk hi (hnot k) with ⟨hl', -⟩ | ⟨-, z, hz, hnil⟩
  · exact absurd (hl.symm.trans hl') hne
  · obtain ⟨j', hj', w, hw, hnil', -⟩ := hF.reply hz
    obtain rfl : j = j' := MessageId.stateful.inj hj'
    obtain rfl := Option.some.inj (hy.symm.trans hw)
    exact ⟨hnil', z, hz, hnil⟩

end Order

/-! ## Who holds an object -/

/-- The thread works on the object : a task from its waits to its notification, a request
from its wait to its reply, a reply to its end. -/
inductive Holder (D : Deployment τ ω) (s : State τ ω) (o : ObjectID) : ThreadId → Prop
  | message {j : ℕ} : Entered s j → o ∈ accessed D.primary.txns j → ¬Closed D s j o →
      Holder D s o (.message (.stateful j))
  | request {j : ℕ} {k : ObjectVersion} {y : Thread τ ω} : k.1 = o →
      s.cluster.threads (.request (.stateful j) k) = some y → dep (.wait k) ∉ y.todo →
      y.todo ≠ [] → Holder D s o (.request (.stateful j) k)
  | reply {j : ℕ} {k : ObjectVersion} {y : Thread τ ω} : k.1 = o →
      s.cluster.threads (.reply (.stateful j) k) = some y → y.todo ≠ [] →
      Holder D s o (.reply (.stateful j) k)

/-- `j` is the first accessor of `o` that is not closed. -/
structure Turn (D : Deployment τ ω) (s : State τ ω) (o : ObjectID) (j : ℕ) : Prop where
  accessed : o ∈ accessed D.primary.txns j
  not_closed : ¬Closed D s j o
  closed : ∀ i < j, o ∈ Remora.accessed D.primary.txns i → Closed D s i o

theorem Turn.unique {o : ObjectID} {i j : ℕ} (hi : Turn D s o i) (hj : Turn D s o j) : i = j := by
  rcases Nat.lt_trichotomy i j with hlt | heq | hlt
  · exact absurd (hj.closed i hlt hi.accessed) hi.not_closed
  · exact heq
  · exact absurd (hi.closed j hlt hj.accessed) hj.not_closed

section Holder

variable (hr : (system D).Reachable s) {o : ObjectID} {u : ThreadId}
include hr

/-- A request and its reply work before their task has entered. -/
theorem turn_of_not_entered {j : ℕ} {k : ObjectVersion} (hk : k ∈ required D.primary.txns j)
    (hj : ¬Entered s j) (hc : ∀ i, Produces D.primary.txns i k → Closed D s i k.1)
    (hv : initialVersion < k.2) : Turn D s k.1 j where
  accessed := accessed_of_required hk
  not_closed h := hj (entered_of_closed hr (accessed_of_required hk) h)
  closed i hij hoi := by
    obtain ⟨l, -, hl⟩ := exists_producer hk hv
    exact closed_of_produces hr hk hl (hc l hl) hij hoi

theorem not_entered_of_request {j : ℕ} {k : ObjectVersion} {y : Thread τ ω}
    (hy : s.cluster.threads (.request (.stateful j) k) = some y) (hne : y.todo ≠ []) :
    ¬Entered s j := fun he =>
  hne (request_done hr he hy).1

theorem not_entered_of_reply {j : ℕ} {k : ObjectVersion} {y : Thread τ ω}
    (hy : s.cluster.threads (.reply (.stateful j) k) = some y) (hne : y.todo ≠ []) :
    ¬Entered s j := by
  intro he
  obtain ⟨j', hj, z, hz, -⟩ := (follows_of_reachable hr).reply hy
  obtain rfl : j = j' := MessageId.stateful.inj hj
  obtain ⟨-, y', hy', hnil⟩ := request_done hr he hz
  obtain rfl := Option.some.inj (hy.symm.trans hy')
  exact hne hnil

/-- It is the turn of the holder's task. -/
theorem Holder.turn (h : Holder D s o u) : ∃ j, u.messageId = .stateful j ∧ Turn D s o j := by
  have hF := follows_of_reachable hr
  cases h with
  | message he ho hc => exact ⟨_, rfl, ho, hc, fun i hij hoi => closed_of_entered hr he hij hoi ho⟩
  | @request j k y hk hy hnot hne =>
    subst hk
    obtain ⟨j', p, hj, hreq⟩ := hF.request hy
    obtain rfl : j = j' := MessageId.stateful.inj hj
    exact ⟨j, rfl, turn_of_not_entered hr hreq.mem_required (not_entered_of_request hr hy hne)
      (fun i hi => closed_of_request hr hy hi hnot) hreq.todo.1⟩
  | @reply j k y hk hy hne =>
    subst hk
    obtain ⟨j', hj, z, hz, -, hreq, -⟩ := hF.reply hy
    obtain rfl : j = j' := MessageId.stateful.inj hj
    exact ⟨j, rfl, turn_of_not_entered hr hreq.mem_required (not_entered_of_reply hr hy hne)
      (fun i hi => closed_of_reply hr hy hi) hreq.todo.1⟩

/-- Who holds the object : the task once it has entered, before that the reply if the request
is done, and the request if it is not. -/
theorem Holder.stage (h : Holder D s o u) :
    (∃ j, Entered s j ∧ u = .message (.stateful j)) ∨
      ∃ j k y, ¬Entered s j ∧ k ∈ required D.primary.txns j ∧ k.1 = o ∧
        s.cluster.threads (.request (.stateful j) k) = some y ∧
        u = if y.todo.isEmpty then .reply (.stateful j) k else .request (.stateful j) k := by
  have hF := follows_of_reachable hr
  cases h with
  | @message j he _ _ => exact Or.inl ⟨j, he, rfl⟩
  | @request j k y hk hy _ hne =>
    obtain ⟨j', p, hj, hreq⟩ := hF.request hy
    obtain rfl : j = j' := MessageId.stateful.inj hj
    exact Or.inr ⟨j, k, y, not_entered_of_request hr hy hne, hreq.mem_required, hk, hy,
      by simp [hne]⟩
  | @reply j k y hk hy hne =>
    obtain ⟨j', hj, z, hz, hnil, hreq, -⟩ := hF.reply hy
    obtain rfl : j = j' := MessageId.stateful.inj hj
    exact Or.inr ⟨j, k, z, not_entered_of_reply hr hy hne, hreq.mem_required, hk, hz,
      by simp [hnil]⟩

/-- An object is held by one thread at a time. -/
theorem Holder.unique {v : ThreadId} (hu : Holder D s o u) (hv : Holder D s o v) : u = v := by
  obtain ⟨j, hju, hj⟩ := hu.turn hr
  obtain ⟨j', hjv, hj'⟩ := hv.turn hr
  obtain rfl := hj.unique hj'
  rcases hu.stage hr with ⟨i, he, rfl⟩ | ⟨i, k, y, hne, hk, hko, hy, rfl⟩ <;>
    rcases hv.stage hr with ⟨i', he', rfl⟩ | ⟨i', k', y', hne', hk', hko', hy', rfl⟩
  · exact congrArg ThreadId.message (hju.trans hjv.symm)
  · obtain rfl : i = j := MessageId.stateful.inj hju
    obtain rfl : i' = i := by split at hjv <;> exact MessageId.stateful.inj hjv
    exact absurd he hne'
  · obtain rfl : i' = j := MessageId.stateful.inj hjv
    obtain rfl : i = i' := by split at hju <;> exact MessageId.stateful.inj hju
    exact absurd he' hne
  · obtain rfl : i = j := by split at hju <;> exact MessageId.stateful.inj hju
    obtain rfl : i' = i := by split at hjv <;> exact MessageId.stateful.inj hjv
    -- the state that is moved is the one the task requires
    obtain rfl : k = k' := by
      obtain ⟨a, v⟩ := k
      obtain ⟨b, w⟩ := k'
      obtain rfl : a = b := hko.trans hko'.symm
      rw [required_unique hk hk']
    obtain rfl := Option.some.inj (hy.symm.trans hy')
    rfl

end Holder

end Deployment

end Remora
