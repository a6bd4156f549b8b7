import Remora.OwnershipHints
import Remora.StatefulProgram

/-!
# The primary and the proxies

The forwarding workers of the primary and the proxies together. A message that the primary
has sent to a connected proxy arrives at some time, in any order, and everything that
happens is an action of a worker or of a thread of a proxy.

`Follows` is what the threads of the transactions look like at every moment : each is
somewhere in its program, a request for a state has been sent by the transaction that
requires it, to the proxy its producer was forwarded to, and a reply has been sent by its
request.
-/

namespace Remora

open Function Rendezvous VersionedDependencyController Program

variable {τ ω : Type}

/-- What is deployed : the primary, the executor and the store the proxies start with. The
outcome of each verification is fixed by the thread that makes it. -/
structure Deployment (τ ω : Type) where
  primary : Primary τ
  executor : Executor τ ω
  outcome : ThreadId → Bool
  genesis : ObjectID → Option ω

namespace Deployment

/-- The proxies work in the mode of the primary. -/
def cluster (D : Deployment τ ω) : Cluster τ ω :=
  ⟨D.primary.mode, D.primary.connections, D.executor, D.outcome⟩

structure State (τ ω : Type) where
  forwarder : SharedObjTxnForwarder.State τ
  cluster : Cluster.State τ ω

inductive Event
  /-- The primary. -/
  | forwarder (e : SharedObjTxnForwarder.Event)
  /-- A message that was sent is delivered. -/
  | arrive (m : MessageId)
  /-- A thread of a proxy performs its next action. -/
  | run (t : ThreadId)

/-- The event is one of the proxies. -/
def Event.isProxy : Event → Bool
  | .forwarder _ => false
  | _ => true

variable (D : Deployment τ ω)

def State.init : State τ ω :=
  ⟨SharedObjTxnForwarder.State.init D.primary, Cluster.State.init D.genesis⟩

def step (s : State τ ω) : Event → Option (State τ ω)
  | .forwarder e => (SharedObjTxnForwarder.step D.primary s.forwarder e).map fun f =>
      { s with forwarder := f }
  | .arrive m => (s.forwarder.context.sent m).bind fun (p, msg) =>
      (Cluster.arrive D.cluster s.cluster m p msg).map fun c => { s with cluster := c }
  | .run t => (Cluster.runThread D.cluster s.cluster t).map fun c => { s with cluster := c }

def system : Transition.System (State τ ω) Event where
  init s := s = State.init D
  step := step D

variable {D} {s s' : State τ ω} {e : Event}

/-- A step is one of the primary, the arrival of a message that was sent, or an action of a
thread. -/
theorem step_cases (h : step D s e = some s') :
    (∃ e', SharedObjTxnForwarder.step D.primary s.forwarder e' = some s'.forwarder ∧
      s'.cluster = s.cluster) ∨
    (∃ m p msg, s.forwarder.context.sent m = some (p, msg) ∧
      Cluster.arrive D.cluster s.cluster m p msg = some s'.cluster ∧
      s'.forwarder = s.forwarder) ∨
    (∃ t th th' a rest, e = .run t ∧
      Cluster.RunStep D.cluster s.cluster s'.cluster t th th' a rest ∧
      s'.forwarder = s.forwarder) := by
  cases e with
  | forwarder e' =>
    obtain ⟨f, hf, rfl⟩ := Option.map_eq_some_iff.mp h
    exact Or.inl ⟨e', hf, rfl⟩
  | arrive m =>
    obtain ⟨⟨p, msg⟩, hsent, h⟩ := Option.bind_eq_some_iff.mp h
    obtain ⟨c, hc, rfl⟩ := Option.map_eq_some_iff.mp h
    exact Or.inr (Or.inl ⟨m, p, msg, hsent, hc, rfl⟩)
  | run t =>
    obtain ⟨c, hc, rfl⟩ := Option.map_eq_some_iff.mp h
    obtain ⟨th, th', a, rest, hstep⟩ := Cluster.runStep_of_runThread hc
    exact Or.inr (Or.inr ⟨t, th, th', a, rest, rfl, hstep, rfl⟩)

/-- The primary by itself. -/
theorem reachable_forwarder (h : (system D).Reachable s) :
    (SharedObjTxnForwarder.system D.primary).Reachable s.forwarder := by
  refine h.invariant
    (I := fun s => (SharedObjTxnForwarder.system D.primary).Reachable s.forwarder)
    (fun s hs => ?_) fun s e s' _ hI hs => ?_
  · obtain rfl : s = State.init D := hs
    exact .init rfl
  · rcases step_cases hs with ⟨e', hf, -⟩ | ⟨-, -, -, -, -, hf⟩ | ⟨-, -, -, -, -, -, -, hf⟩
    · exact hI.step hf
    · exact hf ▸ hI
    · exact hf ▸ hI

end Deployment

/-- What was sent stays sent. -/
theorem SharedObjTxnForwarder.sent_of_sent {C : Primary τ} {f f' : SharedObjTxnForwarder.State τ}
    {e : SharedObjTxnForwarder.Event} (hr : (SharedObjTxnForwarder.system C).Reachable f)
    (h : SharedObjTxnForwarder.step C f e = some f') {i : ℕ}
    {x : ProxyId × PrimaryToProxyMessage τ} (hx : f.context.sent (.stateful i) = some x) :
    f'.context.sent (.stateful i) = some x := by
  have hH := hints_of_reachable hr
  rcases SharedObjTxnForwarder.step_cases h with ⟨w, j, -, -, hrun⟩ | ⟨hidle, -⟩
  · obtain ⟨a, rest, l', htodo, hp, -, -⟩ := runTask_eq_some hrun
    by_cases ha : a = .sendTxn
    · subst ha
      rcases eq_or_ne i j with rfl | hij
      · have := hH.unsent i (by rw [htodo]; exact List.mem_cons_self)
        simp [this] at hx
      · obtain ⟨t, -, hp⟩ := Option.bind_eq_some_iff.mp hp
        obtain ⟨p, -, hp⟩ := Option.bind_eq_some_iff.mp hp
        obtain ⟨hX, -⟩ := Prod.mk.inj (Option.some.inj hp)
        rw [← hX]
        simpa [hij] using hx
    · rw [(perform_frame hp).sentStateful ha, hx]
  · rw [hidle.sent, hx]

namespace Deployment

open ProxyAction

variable {D : Deployment τ ω} {s s' : State τ ω}

/-! ## The messages -/

/-- The transaction `i` was sent to `p` as `t`, with the versions it requires and the proxies
their producers were forwarded to. -/
structure Sent (D : Deployment τ ω) (f : SharedObjTxnForwarder.State τ) (i : ℕ) (p : ProxyId)
    (t : RemoraTransaction τ) (stateless : ProxyId) (states : RequiredStates) : Prop where
  message : f.context.sent (.stateful i) =
    some (p, statefulMessage D.primary.mode t p stateless states)
  transaction : D.primary.transaction i = some t
  keys : states.map Prod.fst = required D.primary.txns i
  hint : ∀ {k q}, (k, q) ∈ states → (k.2 ≤ initialVersion → q = none) ∧
    ∀ j, Produces D.primary.txns j k → ∃ q', SharedObjTxnForwarder.forwardedTo f j = some q' ∧
      q = previousOwnerValue (some q') p

theorem exists_sent {f : SharedObjTxnForwarder.State τ}
    (hr : (SharedObjTxnForwarder.system D.primary).Reachable f) {i : ℕ} {p : ProxyId}
    {msg : PrimaryToProxyMessage τ} (h : f.context.sent (.stateful i) = some (p, msg)) :
    ∃ t stateless states, Sent D f i p t stateless states ∧
      msg = statefulMessage D.primary.mode t p stateless states := by
  have hI := SharedObjTxnForwarder.inv_of_reachable hr
  have hH := SharedObjTxnForwarder.hints_of_reachable hr
  obtain ⟨-, -, t, ht, rfl⟩ := hH.sent_eq_some h
  refine ⟨t, _, _, ⟨h, ht, ?_, fun {k q} hk => ?_⟩, rfl⟩
  · simpa [SharedObjTxnForwarder.requiredStates_statefulMessage] using hH.states_of_sent hI h
  · exact hH.hint_of_sent h (by rwa [SharedObjTxnForwarder.requiredStates_statefulMessage])

namespace Sent

variable {f f' : SharedObjTxnForwarder.State τ} {i : ℕ} {p : ProxyId} {t : RemoraTransaction τ}
  {stateless : ProxyId} {states : RequiredStates}

theorem forwardedTo (h : Sent D f i p t stateless states) :
    SharedObjTxnForwarder.forwardedTo f i = some p := by
  simp [SharedObjTxnForwarder.forwardedTo, h.message]

theorem unique {p' : ProxyId} {t' : RemoraTransaction τ} {stateless' : ProxyId}
    {states' : RequiredStates} (h : Sent D f i p t stateless states)
    (h' : Sent D f i p' t' stateless' states') : p = p' ∧ t = t' ∧ states = states' := by
  obtain ⟨rfl, hm⟩ := Prod.mk.inj (Option.some.inj (h.message.symm.trans h'.message))
  refine ⟨rfl, Option.some.inj (h.transaction.symm.trans h'.transaction), ?_⟩
  have := congrArg PrimaryToProxyMessage.requiredStates hm
  simpa [SharedObjTxnForwarder.requiredStates_statefulMessage] using this

theorem initialVersion_le (h : Sent D f i p t stateless states) :
    ∀ k ∈ states.map Prod.fst, initialVersion ≤ k.2 := by
  rw [h.keys]
  exact initialVersion_le_of_mem _ i

theorem nodup (h : Sent D f i p t stateless states) : (states.map Prod.fst).Nodup := by
  rw [h.keys]
  exact nodup_required i

theorem mem_required (h : Sent D f i p t stateless states) {k : ObjectVersion}
    {q : Option ProxyId} (hk : (k, q) ∈ states) : k ∈ required D.primary.txns i := by
  rw [← h.keys]
  exact List.mem_map.mpr ⟨_, hk, rfl⟩

/-- A state that is fetched was produced, at the proxy it is fetched from. -/
theorem producer_of_hint (h : Sent D f i p t stateless states) {k : ObjectVersion} {q : ProxyId}
    (hk : (k, some q) ∈ states) : initialVersion < k.2 ∧ q ≠ p ∧
      ∃ j, Produces D.primary.txns j k ∧ SharedObjTxnForwarder.forwardedTo f j = some q := by
  have hv : initialVersion < k.2 := by
    by_contra hle
    simpa using (h.hint hk).1 (Nat.not_lt.mp hle)
  obtain ⟨j, -, hj⟩ := exists_producer (h.mem_required hk) hv
  obtain ⟨q', hq', hq⟩ := (h.hint hk).2 j hj
  obtain ⟨rfl, hne⟩ := SharedObjTxnForwarder.previousOwnerValue_eq_some.mp hq.symm
  exact ⟨hv, hne, j, hj, hq'⟩

theorem staged (h : Sent D f i p t stateless states) (mode : SeparationMode) :
    Staged Cluster.rank 0 18 (Cluster.messageProgram (ω := ω) mode t p stateless states) :=
  Cluster.staged_messageProgram _ _ _ _ h.initialVersion_le

theorem of_step {e : SharedObjTxnForwarder.Event} (h : Sent D f i p t stateless states)
    (hr : (SharedObjTxnForwarder.system D.primary).Reachable f)
    (hs : SharedObjTxnForwarder.step D.primary f e = some f') :
    Sent D f' i p t stateless states where
  message := SharedObjTxnForwarder.sent_of_sent hr hs h.message
  transaction := h.transaction
  keys := h.keys
  hint {k q} hk := by
    refine ⟨(h.hint hk).1, fun j hj => ?_⟩
    obtain ⟨q', hq', hq⟩ := (h.hint hk).2 j hj
    obtain ⟨x, hx, rfl⟩ := Option.map_eq_some_iff.mp hq'
    exact ⟨_, by rw [SharedObjTxnForwarder.forwardedTo,
      SharedObjTxnForwarder.sent_of_sent hr hs hx]; rfl, hq⟩

end Sent

/-! ## The threads -/

open Cluster (messageProgram handleStatefulRequest handleStatefulReply spawned spawn RunStep)

/-- An action of a thread that neither touches the dependency controllers nor the stores. -/
def isPlain : ProxyAction ω → Bool
  | .take _ | .yield _ | .panic | .gate _ | .spawnVerify | .sendStatelessRequest _
  | .sendStatelessReply _ => true
  | _ => false

/-- A thread of a transaction's message, or one that moves a state. -/
def isStateful : ThreadId → Bool
  | .message (.stateful _) | .request _ _ | .reply _ _ => true
  | _ => false

/-- The thread of the `i`-th transaction. -/
def MessageOf (D : Deployment τ ω) (f : SharedObjTxnForwarder.State τ) (i : ℕ)
    (th : Thread τ ω) : Prop :=
  ∃ t stateless states, Sent D f i th.proxy t stateless states ∧
    th.proxy ∈ D.primary.connections ∧ th.transaction = some t ∧
    th.todo <:+ messageProgram D.primary.mode t th.proxy stateless states

/-- The request of the `j`-th transaction at `p` for the state `k`. -/
structure RequestOf (D : Deployment τ ω) (s : State τ ω) (j : ℕ) (k : ObjectVersion)
    (p : ProxyId) (th : Thread τ ω) : Prop where
  sent : ∃ t stateless states, Sent D s.forwarder j p t stateless states ∧
    (k, some th.proxy) ∈ states
  asked : ∃ x, s.cluster.threads (.message (.stateful j)) = some x ∧
    ∀ q, sendRequest q k ∉ x.todo
  suffix : th.todo <:+ handleStatefulRequest p k [k]
  empty : readState k ∈ th.todo → th.objects = []
  objects : th.objects = [] ∨ ∃ x, th.objects = [(k.1, x)] ∧ D.executor.version x = k.2

/-- The reply to it. -/
structure ReplyOf (D : Deployment τ ω) (s : State τ ω) (j : ℕ) (k : ObjectVersion)
    (th : Thread τ ω) : Prop where
  request : ∃ x, s.cluster.threads (.request (.stateful j) k) = some x ∧ x.todo = [] ∧
    RequestOf D s j k th.proxy x ∧
    th.todo <:+ handleStatefulReply D.executor.version x.objects

/-- A state that was asked for is on its way, and so is the answer. -/
structure Follows (D : Deployment τ ω) (s : State τ ω) : Prop where
  message : ∀ {i th}, s.cluster.threads (.message (.stateful i)) = some th →
    MessageOf D s.forwarder i th
  request : ∀ {m k th}, s.cluster.threads (.request m k) = some th →
    ∃ j p, m = .stateful j ∧ RequestOf D s j k p th
  reply : ∀ {m k th}, s.cluster.threads (.reply m k) = some th →
    ∃ j, m = .stateful j ∧ ReplyOf D s j k th
  plain : ∀ {u th}, isStateful u = false → s.cluster.threads u = some th →
    ∀ a ∈ th.todo, isPlain a = true
  asked : ∀ {j x t stateless states k q}, s.cluster.threads (.message (.stateful j)) = some x →
    Sent D s.forwarder j x.proxy t stateless states → (k, some q) ∈ states →
    q ∈ D.primary.connections → sendRequest q k ∉ x.todo →
    (s.cluster.threads (.request (.stateful j) k)).isSome
  answered : ∀ {m k x}, s.cluster.threads (.request m k) = some x → x.todo = [] →
    (s.cluster.threads (.reply m k)).isSome

theorem Follows.init : Follows D (State.init D) := by
  constructor <;> simp [State.init, Cluster.State.init]

section Spawned

variable {K : Cluster τ ω} {t : ThreadId} {th x : Thread τ ω} {a : ProxyAction ω}
  {m : MessageId} {k : ObjectVersion}

theorem spawned_request (h : spawned K t th a = some (.request m k, x)) :
    ∃ q, a = sendRequest q k ∧ m = t.messageId ∧ q ∈ K.connections ∧
      x = spawn q th.digest none ⟨none, none, false⟩ (handleStatefulRequest th.proxy k [k]) := by
  cases a with
  | sendRequest q k' =>
    simp only [spawned, Cluster.send] at h
    split_ifs at h with hq
    obtain ⟨hid, rfl⟩ := Prod.mk.inj (Option.some.inj h)
    obtain ⟨rfl, rfl⟩ := ThreadId.request.inj hid
    exact ⟨q, rfl, rfl, hq, rfl⟩
  | spawnVerify => simp [spawned] at h
  | sendStatelessRequest q | sendStatelessReply q | sendReply q k' =>
    simp only [spawned, Cluster.send] at h
    split_ifs at h
    simp at h
  | _ => simp [spawned] at h

theorem spawned_reply (h : spawned K t th a = some (.reply m k, x)) :
    ∃ q, a = sendReply q k ∧ m = t.messageId ∧ q ∈ K.connections ∧
      x = spawn q th.digest none ⟨none, none, false⟩
        (handleStatefulReply K.executor.version th.objects) := by
  cases a with
  | sendReply q k' =>
    simp only [spawned, Cluster.send] at h
    split_ifs at h with hq
    obtain ⟨hid, rfl⟩ := Prod.mk.inj (Option.some.inj h)
    obtain ⟨rfl, rfl⟩ := ThreadId.reply.inj hid
    exact ⟨q, rfl, rfl, hq, rfl⟩
  | spawnVerify => simp [spawned] at h
  | sendStatelessRequest q | sendStatelessReply q | sendRequest q k' =>
    simp only [spawned, Cluster.send] at h
    split_ifs at h
    simp at h
  | _ => simp [spawned] at h

/-- A new thread that moves no state is plain. -/
theorem spawned_plain {u : ThreadId} (h : spawned K t th a = some (u, x))
    (hu : isStateful u = false) : ∀ b ∈ x.todo, isPlain b = true := by
  cases a with
  | spawnVerify =>
    obtain ⟨-, rfl⟩ := Prod.mk.inj (Option.some.inj h)
    simp [spawn, Cluster.verifyTask, isPlain]
  | sendStatelessRequest q =>
    simp only [spawned, Cluster.send] at h
    split_ifs at h
    obtain ⟨-, rfl⟩ := Prod.mk.inj (Option.some.inj h)
    simp only [spawn, Cluster.handleStatelessRequest]
    split_ifs <;> simp [isPlain]
  | sendStatelessReply q =>
    simp only [spawned, Cluster.send] at h
    split_ifs at h
    obtain ⟨-, rfl⟩ := Prod.mk.inj (Option.some.inj h)
    simp [spawn, Cluster.handleStatelessReply, isPlain]
  | sendRequest q k | sendReply q k =>
    simp only [spawned, Cluster.send] at h
    split_ifs at h
    obtain ⟨rfl, -⟩ := Prod.mk.inj (Option.some.inj h)
    simp [isStateful] at hu
  | _ => simp [spawned] at h

end Spawned

theorem RequestOf.todo {j : ℕ} {k : ObjectVersion} {p : ProxyId} {th : Thread τ ω}
    (h : RequestOf D s j k p th) : initialVersion < k.2 ∧
      th.todo <:+ [take .proxy, dep (.get k), yield .proxy, dep (.wait k), dep (.remove k),
        readState k, sendReply p k] := by
  obtain ⟨t, stateless, states, hsent, hk⟩ := h.sent
  have hv := (hsent.producer_of_hint hk).1
  exact ⟨hv, Cluster.handleStatefulRequest_eq p hv ▸ h.suffix⟩

/-- A reply without the object kills the handler. -/
theorem ReplyOf.todo {j : ℕ} {k : ObjectVersion} {th : Thread τ ω} (h : ReplyOf D s j k th) :
    th.todo <:+ [take .proxy, panic] ∨ ∃ x, D.executor.version x = k.2 ∧
      th.todo <:+ [take .proxy, dep (.get k), yield .proxy, commitNew k.1 x, dep (.notify k)] := by
  obtain ⟨y, -, -, hy, hsuffix⟩ := h.request
  rcases hy.objects with hnil | ⟨x, hx, hv⟩
  · rw [hnil, Cluster.handleStatefulReply_nil] at hsuffix
    exact Or.inl hsuffix
  · have h0 : 0 < D.executor.version x := by
      rw [hv]
      exact (Nat.zero_le _).trans_lt hy.todo.1
    rw [hx, Cluster.handleStatefulReply_singleton h0, hv] at hsuffix
    exact Or.inr ⟨x, hv, hsuffix⟩

namespace Follows

variable {t : ThreadId} {th : Thread τ ω}

/-- Who asks for a state. -/
theorem sender_of_sendRequest (h : Follows D s) (ht : s.cluster.threads t = some th)
    {q : ProxyId} {k : ObjectVersion} (hm : sendRequest q k ∈ th.todo) :
    ∃ j, t = .message (.stateful j) := by
  by_cases hs : isStateful t = false
  · simpa [isPlain] using h.plain hs ht _ hm
  · cases t with
    | message m =>
      cases m with
      | stateless n => simp [isStateful] at hs
      | stateful j => exact ⟨j, rfl⟩
    | request m k' =>
      obtain ⟨j, p, -, hr⟩ := h.request ht
      have := hr.todo.2.subset hm
      simp at this
    | reply m k' =>
      obtain ⟨j, -, hr⟩ := h.reply ht
      rcases hr.todo with hsub | ⟨x, -, hsub⟩ <;> simpa using hsub.subset hm
    | verify m | statelessRequest m | statelessReply m => simp [isStateful] at hs

/-- Who answers. -/
theorem sender_of_sendReply (h : Follows D s) (ht : s.cluster.threads t = some th)
    {q : ProxyId} {k : ObjectVersion} (hm : sendReply q k ∈ th.todo) :
    ∃ j, t = .request (.stateful j) k ∧ RequestOf D s j k q th := by
  by_cases hs : isStateful t = false
  · simpa [isPlain] using h.plain hs ht _ hm
  · cases t with
    | message m =>
      cases m with
      | stateless n => simp [isStateful] at hs
      | stateful j =>
        obtain ⟨t, stateless, states, hsent, -, -, hsub⟩ := h.message ht
        exact absurd (hsub.subset hm)
          (Cluster.notMem_messageProgram_of_rank hsent.initialVersion_le rfl)
    | request m k' =>
      obtain ⟨j, p, rfl, hr⟩ := h.request ht
      obtain ⟨rfl, rfl⟩ : q = p ∧ k = k' := by simpa using hr.todo.2.subset hm
      exact ⟨j, rfl, hr⟩
    | reply m k' =>
      obtain ⟨j, -, hr⟩ := h.reply ht
      rcases hr.todo with hsub | ⟨x, -, hsub⟩ <;> simpa using hsub.subset hm
    | verify m | statelessRequest m | statelessReply m => simp [isStateful] at hs

variable {c : Cluster.State τ ω} {th' : Thread τ ω} {a : ProxyAction ω}
  {rest : List (ProxyAction ω)}

/-- A state is asked for once. -/
theorem not_spawned_request (h : Follows D s)
    (hrun : RunStep D.cluster s.cluster c t th th' a rest) {m : MessageId} {k : ObjectVersion}
    (hsome : (s.cluster.threads (.request m k)).isSome) (x : Thread τ ω) :
    spawned D.cluster t th a ≠ some (.request m k, x) := by
  intro hsp
  obtain ⟨y, hy⟩ := Option.isSome_iff_exists.mp hsome
  obtain ⟨q, rfl, rfl, -, -⟩ := spawned_request hsp
  have hmem : sendRequest q k ∈ th.todo := hrun.head_mem
  obtain ⟨j, rfl⟩ := h.sender_of_sendRequest hrun.thread hmem
  obtain ⟨j', p, hj, hr⟩ := h.request hy
  obtain rfl : j = j' := MessageId.stateful.inj hj
  obtain ⟨x, hx, hnot⟩ := hr.asked
  obtain rfl := Option.some.inj (hx.symm.trans hrun.thread)
  exact hnot q hmem

/-- And answered once. -/
theorem not_spawned_reply (h : Follows D s)
    (hrun : RunStep D.cluster s.cluster c t th th' a rest) {m : MessageId} {k : ObjectVersion}
    (hsome : (s.cluster.threads (.reply m k)).isSome) (x : Thread τ ω) :
    spawned D.cluster t th a ≠ some (.reply m k, x) := by
  intro hsp
  obtain ⟨y, hy⟩ := Option.isSome_iff_exists.mp hsome
  obtain ⟨q, rfl, rfl, -, -⟩ := spawned_reply hsp
  have hmem : sendReply q k ∈ th.todo := hrun.head_mem
  obtain ⟨j, rfl, -⟩ := h.sender_of_sendReply hrun.thread hmem
  obtain ⟨j', hj, hr⟩ := h.reply hy
  obtain rfl : j = j' := MessageId.stateful.inj hj
  obtain ⟨x, hx, hnil, -⟩ := hr.request
  obtain rfl := Option.some.inj (hx.symm.trans hrun.thread)
  rw [hnil] at hmem
  exact List.not_mem_nil hmem

/-- No step replaces a thread. -/
theorem not_spawned (h : Follows D s) (hrun : RunStep D.cluster s.cluster c t th th' a rest)
    {u : ThreadId} (hu : isStateful u = true) (hsome : (s.cluster.threads u).isSome)
    (x : Thread τ ω) : spawned D.cluster t th a ≠ some (u, x) := by
  cases u with
  | message m => exact Cluster.spawned_ne_message m x
  | request m k => exact h.not_spawned_request hrun hsome x
  | reply m k => exact h.not_spawned_reply hrun hsome x
  | verify m | statelessRequest m | statelessReply m => simp [isStateful] at hu

theorem forwarder {e : SharedObjTxnForwarder.Event} (h : Follows D s)
    (hr : (SharedObjTxnForwarder.system D.primary).Reachable s.forwarder)
    (hs : SharedObjTxnForwarder.step D.primary s.forwarder e = some s'.forwarder)
    (hc : s'.cluster = s.cluster) : Follows D s' := by
  have hrequest : ∀ {j k p x}, RequestOf D s j k p x → RequestOf D s' j k p x := by
    intro j k p x hx
    obtain ⟨t, stateless, states, hsent, hk⟩ := hx.sent
    exact ⟨⟨t, stateless, states, hsent.of_step hr hs, hk⟩, hc ▸ hx.asked, hx.suffix, hx.empty,
      hx.objects⟩
  constructor
  · intro i x hx
    obtain ⟨t, stateless, states, hsent, hx⟩ := h.message (hc ▸ hx)
    exact ⟨t, stateless, states, hsent.of_step hr hs, hx⟩
  · intro m k x hx
    obtain ⟨j, p, rfl, hreq⟩ := h.request (hc ▸ hx)
    exact ⟨j, p, rfl, hrequest hreq⟩
  · intro m k x hx
    obtain ⟨j, rfl, y, hy, hnil, hreq, hsuffix⟩ := h.reply (hc ▸ hx)
    exact ⟨j, rfl, y, hc ▸ hy, hnil, hrequest hreq, hsuffix⟩
  · rw [hc]
    exact h.plain
  · intro j x t stateless states k q hx hsent hk hq hnot
    rw [hc] at hx ⊢
    obtain ⟨t', stateless', states', hsent', -⟩ := h.message hx
    obtain ⟨-, -, rfl⟩ := hsent.unique (hsent'.of_step hr hs)
    exact h.asked hx hsent' hk hq hnot
  · rw [hc]
    exact h.answered

omit s' in
/-- The thread of a transaction that arrives. -/
theorem spawn_of_arrive {i : ℕ} {p : ProxyId} {msg : PrimaryToProxyMessage τ}
    (hr : (SharedObjTxnForwarder.system D.primary).Reachable s.forwarder)
    (hsent : s.forwarder.context.sent (.stateful i) = some (p, msg))
    (ha : Cluster.arrive D.cluster s.cluster (.stateful i) p msg = some c) :
    ∃ t stateless states, Sent D s.forwarder i p t stateless states ∧
      c.threads (.message (.stateful i)) = some (spawn p t.digest (some t) ⟨none, none, false⟩
        (messageProgram D.primary.mode t p stateless states)) := by
  obtain ⟨-, -, -, -, hthreads⟩ := Cluster.arrive_eq_some ha
  obtain ⟨t, stateless, states, hs, rfl⟩ := exists_sent hr hsent
  refine ⟨t, stateless, states, hs, ?_⟩
  rw [hthreads, update_self, ← Cluster.primaryMessage_statefulMessage]
  unfold statefulMessage
  split_ifs <;> rfl

theorem arrive {m : MessageId} {p : ProxyId} {msg : PrimaryToProxyMessage τ} (h : Follows D s)
    (hr : (SharedObjTxnForwarder.system D.primary).Reachable s.forwarder)
    (hsent : s.forwarder.context.sent m = some (p, msg))
    (ha : Cluster.arrive D.cluster s.cluster m p msg = some s'.cluster)
    (hf : s'.forwarder = s.forwarder) : Follows D s' := by
  obtain ⟨-, hp, -, -, hthreads⟩ := Cluster.arrive_eq_some ha
  have hnew : ∀ {u x}, s.cluster.threads u = some x → s'.cluster.threads u = some x :=
    Cluster.threads_of_arrive ha
  have hrequest : ∀ {j k p x}, RequestOf D s j k p x → RequestOf D s' j k p x := by
    intro j k p x hx
    obtain ⟨y, hy, hnot⟩ := hx.asked
    exact ⟨hf ▸ hx.sent, ⟨y, hnew hy, hnot⟩, hx.suffix, hx.empty, hx.objects⟩
  constructor
  · intro i x hx
    rcases eq_or_ne m (.stateful i) with rfl | hm
    · obtain ⟨t, stateless, states, hs, hself⟩ := spawn_of_arrive hr hsent ha
      obtain rfl := Option.some.inj (hself.symm.trans hx)
      exact ⟨t, stateless, states, hf ▸ hs, hp, rfl, List.suffix_rfl⟩
    · rw [hf]
      exact h.message (Cluster.thread_of_arrive ha (by simpa using hm.symm) hx)
  · intro m k x hx
    obtain ⟨j, p, rfl, hreq⟩ := h.request (Cluster.thread_of_arrive ha (by simp) hx)
    exact ⟨j, p, rfl, hrequest hreq⟩
  · intro m k x hx
    obtain ⟨j, rfl, y, hy, hnil, hreq, hsuffix⟩ :=
      h.reply (Cluster.thread_of_arrive ha (by simp) hx)
    exact ⟨j, rfl, y, hnew hy, hnil, hrequest hreq, hsuffix⟩
  · intro u x hu hx
    rcases eq_or_ne u (.message m) with rfl | hne
    · cases m with
      | stateful i => simp [isStateful] at hu
      | stateless n =>
        obtain ⟨hmode, r, rfl⟩ := SharedObjTxnForwarder.statelessTxn_of_sent hr hsent
        rw [hthreads, update_self] at hx
        obtain rfl := Option.some.inj hx
        simp [spawn, Cluster.primaryMessage, Cluster.handlePrimaryMessage, cluster, hmode,
          Cluster.processStatelessTransaction, isPlain]
    · exact h.plain hu (Cluster.thread_of_arrive ha hne hx)
  · intro j x t stateless states k q hx hs hk hq hnot
    rcases eq_or_ne m (.stateful j) with rfl | hm
    · obtain ⟨t', stateless', states', hs', hself⟩ := spawn_of_arrive hr hsent ha
      obtain rfl := Option.some.inj (hself.symm.trans hx)
      obtain ⟨-, rfl, rfl⟩ := (hf ▸ hs : Sent D s.forwarder j p t stateless states).unique hs'
      exact absurd (Cluster.sendRequest_mem_messageProgram.mpr hk) hnot
    · obtain ⟨y, hy⟩ := Option.isSome_iff_exists.mp
        (h.asked (Cluster.thread_of_arrive ha (by simpa using hm.symm) hx) (hf ▸ hs) hk hq hnot)
      simp [hnew hy]
  · intro m k x hx hnil
    obtain ⟨y, hy⟩ := Option.isSome_iff_exists.mp
      (h.answered (Cluster.thread_of_arrive ha (by simp) hx) hnil)
    simp [hnew hy]

section Run

variable (h : Follows D s) (hrun : RunStep D.cluster s.cluster s'.cluster t th th' a rest)
  (hf : s'.forwarder = s.forwarder)
include h hrun hf

omit h in
theorem request_other {j : ℕ} {k : ObjectVersion} {p : ProxyId} {x : Thread τ ω}
    (hx : RequestOf D s j k p x) : RequestOf D s' j k p x := by
  refine ⟨hf ▸ hx.sent, ?_, hx.suffix, hx.empty, hx.objects⟩
  obtain ⟨y, hy, hnot⟩ := hx.asked
  rcases eq_or_ne (.message (.stateful j)) t with rfl | hne
  · obtain rfl := Option.some.inj (hy.symm.trans hrun.thread)
    exact ⟨_, hrun.self, fun q hm => hnot q (hrun.mem_of_mem hm)⟩
  · exact ⟨y, (hrun.threads_of_ne hne fun x => Cluster.spawned_ne_message _ x).trans hy, hnot⟩

omit h in
theorem request_self {j : ℕ} {k : ObjectVersion} {p : ProxyId}
    (hx : RequestOf D s j k p th) : RequestOf D s' j k p { th' with todo := rest } := by
  have hframe := Cluster.perform_frame hrun.perform
  have hold := request_other hrun hf hx
  have hsuffix := hx.todo.2
  rw [hrun.todo] at hsuffix
  refine ⟨?_, hold.asked, suffix_of_cons (hrun.todo ▸ hx.suffix), fun hm => ?_, ?_⟩
  · obtain ⟨t, stateless, states, hs, hk⟩ := hold.sent
    exact ⟨t, stateless, states, hs, by rwa [hframe.proxy]⟩
  · have hempty := hx.empty (by rw [hrun.todo]; exact List.mem_cons_of_mem _ hm)
    by_cases hread : ∃ k', a = readState k'
    · obtain ⟨k', rfl⟩ := hread
      obtain rfl : k' = k := by simpa using hsuffix.subset List.mem_cons_self
      exact absurd hm (notMem_of_cons_suffix (by simp) hsuffix)
    · exact (hframe.objects fun k' hk' => hread ⟨k', hk'⟩).trans hempty
  · by_cases hread : ∃ k', a = readState k'
    · obtain ⟨k', rfl⟩ := hread
      obtain rfl : k' = k := by simpa using hsuffix.subset List.mem_cons_self
      have hempty := hx.empty hrun.head_mem
      have hperf := hrun.perform
      simp only [Cluster.perform] at hperf
      split at hperf
      · split_ifs at hperf with hv
        · obtain ⟨-, rfl⟩ := Prod.mk.inj (Option.some.inj hperf)
          exact Or.inr ⟨_, by rw [hempty]; rfl, hv⟩
        · obtain ⟨-, rfl⟩ := Prod.mk.inj (Option.some.inj hperf)
          exact Or.inl hempty
      · obtain ⟨-, rfl⟩ := Prod.mk.inj (Option.some.inj hperf)
        exact Or.inl hempty
    · rw [hframe.objects fun k' hk' => hread ⟨k', hk'⟩]
      exact hx.objects

theorem run_message {i : ℕ} {x : Thread τ ω}
    (hx : s'.cluster.threads (.message (.stateful i)) = some x) : MessageOf D s'.forwarder i x := by
  have hframe := Cluster.perform_frame hrun.perform
  rw [hf]
  rcases hrun.cases hx with ⟨rfl, rfl⟩ | ⟨-, hsp⟩ | ⟨-, hold⟩
  · obtain ⟨t, stateless, states, hs, hp, ht, hsuffix⟩ := h.message hrun.thread
    have hrest := suffix_of_cons (hrun.todo ▸ hsuffix)
    rw [← hframe.proxy] at hs hp hrest
    exact ⟨t, stateless, states, hs, hp, hframe.transaction.trans ht, hrest⟩
  · exact absurd hsp (Cluster.spawned_ne_message _ _)
  · exact h.message hold

theorem run_request {m : MessageId} {k : ObjectVersion} {x : Thread τ ω}
    (hx : s'.cluster.threads (.request m k) = some x) :
    ∃ j p, m = .stateful j ∧ RequestOf D s' j k p x := by
  rcases hrun.cases hx with ⟨rfl, rfl⟩ | ⟨-, hsp⟩ | ⟨-, hold⟩
  · obtain ⟨j, p, rfl, hreq⟩ := h.request hrun.thread
    exact ⟨j, p, rfl, request_self hrun hf hreq⟩
  · obtain ⟨q, rfl, rfl, -, rfl⟩ := spawned_request hsp
    have hmem : sendRequest q k ∈ th.todo := hrun.head_mem
    obtain ⟨j, rfl⟩ := h.sender_of_sendRequest hrun.thread hmem
    obtain ⟨t, stateless, states, hs, -, -, hsuffix⟩ := h.message hrun.thread
    refine ⟨j, th.proxy, rfl, ⟨t, stateless, states, hf ▸ hs, ?_⟩, ⟨_, hrun.self, ?_⟩,
      List.suffix_rfl, fun _ => rfl, Or.inl rfl⟩
    · exact Cluster.sendRequest_mem_messageProgram.mp (hsuffix.subset hmem)
    · exact Cluster.sendRequest_notMem_of_cons hs.nodup (hrun.todo ▸ hsuffix)
  · obtain ⟨j, p, rfl, hreq⟩ := h.request hold
    exact ⟨j, p, rfl, request_other hrun hf hreq⟩

theorem run_reply {m : MessageId} {k : ObjectVersion} {x : Thread τ ω}
    (hx : s'.cluster.threads (.reply m k) = some x) :
    ∃ j, m = .stateful j ∧ ReplyOf D s' j k x := by
  have hframe := Cluster.perform_frame hrun.perform
  -- a request that was answered does nothing more
  have hdone : ∀ {j y}, s.cluster.threads (.request (.stateful j) k) = some y → y.todo = [] →
      s'.cluster.threads (.request (.stateful j) k) = some y := by
    intro j y hy hnil
    refine (hrun.threads_of_ne ?_ (h.not_spawned_request hrun (by simp [hy]))).trans hy
    rintro rfl
    obtain rfl := Option.some.inj (hy.symm.trans hrun.thread)
    simp [hrun.todo] at hnil
  rcases hrun.cases hx with ⟨rfl, rfl⟩ | ⟨-, hsp⟩ | ⟨-, hold⟩
  · obtain ⟨j, rfl, y, hy, hnil, hreq, hsuffix⟩ := h.reply hrun.thread
    refine ⟨j, rfl, y, hdone hy hnil, hnil, ?_, suffix_of_cons (hrun.todo ▸ hsuffix)⟩
    rw [hframe.proxy]
    exact request_other hrun hf hreq
  · obtain ⟨q, rfl, rfl, -, rfl⟩ := spawned_reply hsp
    have hmem : sendReply q k ∈ th.todo := hrun.head_mem
    obtain ⟨j, rfl, hreq⟩ := h.sender_of_sendReply hrun.thread hmem
    have hrest : rest = [] := by
      have hsuffix := hreq.todo.2
      rw [hrun.todo] at hsuffix
      rcases List.suffix_cons_iff.mp hsuffix with heq | hsuffix
      · simp at heq
      · simpa [List.suffix_cons_iff] using hsuffix
    refine ⟨j, rfl, _, hrun.self, hrest, request_self hrun hf hreq, ?_⟩
    rw [hframe.objects (by simp)]
    exact List.suffix_rfl
  · obtain ⟨j, rfl, y, hy, hnil, hreq, hsuffix⟩ := h.reply hold
    exact ⟨j, rfl, y, hdone hy hnil, hnil, request_other hrun hf hreq, hsuffix⟩

theorem run_asked {j : ℕ} {x : Thread τ ω} {txn : RemoraTransaction τ} {stateless : ProxyId}
    {states : RequiredStates} {k : ObjectVersion} {q : ProxyId}
    (hx : s'.cluster.threads (.message (.stateful j)) = some x)
    (hs : Sent D s'.forwarder j x.proxy txn stateless states) (hk : (k, some q) ∈ states)
    (hq : q ∈ D.primary.connections) (hnot : sendRequest q k ∉ x.todo) :
    (s'.cluster.threads (.request (.stateful j) k)).isSome := by
  rw [hf] at hs
  rcases hrun.cases hx with ⟨rfl, rfl⟩ | ⟨-, hsp⟩ | ⟨-, hold⟩
  · by_cases ha : a = sendRequest q k
    · subst ha
      exact hrun.isSome_of_spawned (x := spawn q th.digest none ⟨none, none, false⟩
        (handleStatefulRequest th.proxy k [k])) (by simp [spawned, Cluster.send, cluster, hq,
          ThreadId.messageId])
    · rw [(Cluster.perform_frame hrun.perform).proxy] at hs
      exact hrun.isSome_of_isSome (h.asked hrun.thread hs hk hq (hrun.notMem ha hnot))
  · exact absurd hsp (Cluster.spawned_ne_message _ _)
  · exact hrun.isSome_of_isSome (h.asked hold hs hk hq hnot)

omit hf in
theorem run_answered {m : MessageId} {k : ObjectVersion} {x : Thread τ ω}
    (hx : s'.cluster.threads (.request m k) = some x) (hnil : x.todo = []) :
    (s'.cluster.threads (.reply m k)).isSome := by
  rcases hrun.cases hx with ⟨rfl, rfl⟩ | ⟨-, hsp⟩ | ⟨-, hold⟩
  · obtain ⟨j, p, rfl, hreq⟩ := h.request hrun.thread
    obtain ⟨y, hy, -⟩ := hreq.asked
    obtain ⟨_, _, _, hs, hp, -⟩ := h.message hy
    obtain ⟨_, _, _, hs', -⟩ := hreq.sent
    obtain ⟨rfl, -⟩ := hs.unique hs'
    have hlast : a = sendReply y.proxy k := by
      have hsuffix := hreq.todo.2
      rw [hrun.todo, show rest = [] from hnil] at hsuffix
      simpa [List.suffix_cons_iff] using hsuffix
    subst hlast
    exact hrun.isSome_of_spawned (x := spawn y.proxy th.digest none ⟨none, none, false⟩
      (handleStatefulReply D.executor.version th.objects))
      (by simp [spawned, Cluster.send, cluster, hp, ThreadId.messageId])
  · obtain ⟨q, -, -, -, rfl⟩ := spawned_request hsp
    have hne : handleStatefulRequest (ω := ω) th.proxy k [k] ≠ [] := by
      unfold handleStatefulRequest
      split <;> simp
    exact absurd hnil hne
  · exact hrun.isSome_of_isSome (h.answered hold hnil)

theorem run : Follows D s' where
  message := run_message h hrun hf
  request := run_request h hrun hf
  reply := run_reply h hrun hf
  plain {u x} hu hx := by
    rcases hrun.cases hx with ⟨rfl, rfl⟩ | ⟨-, hsp⟩ | ⟨-, hold⟩
    · intro b hb
      exact h.plain hu hrun.thread b (by rw [hrun.todo]; exact List.mem_cons_of_mem _ hb)
    · exact spawned_plain hsp hu
    · exact h.plain hu hold
  asked := run_asked h hrun hf
  answered := run_answered h hrun

end Run

theorem step {e : Event} (h : Follows D s) (hr : (system D).Reachable s)
    (hs : Deployment.step D s e = some s') : Follows D s' := by
  rcases step_cases hs with ⟨e', hf, hc⟩ | ⟨m, p, msg, hsent, ha, hf⟩ |
    ⟨t, th, th', a, rest, -, hrun, hf⟩
  · exact h.forwarder (reachable_forwarder hr) hf hc
  · exact h.arrive (reachable_forwarder hr) hsent ha hf
  · exact h.run hrun hf

end Follows

theorem follows_of_reachable (h : (system D).Reachable s) : Follows D s :=
  h.invariant (fun _ hs => hs ▸ Follows.init) fun _ _ _ hr hI hs => hI.step hr hs

end Deployment

end Remora
