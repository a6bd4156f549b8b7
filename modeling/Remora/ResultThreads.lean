import Remora.VerificationGate

/-!
# The threads of a digest

What the proxies do for one transaction in the primary-separation modes, as far as the
oneshot controllers are concerned : the verification's message and its task at one proxy,
the stateful transaction at the same or at another one, and then the request for the result
and the reply. A digest sent once has at most one thread of each kind (`Shape`), each follows
its program at the controllers, and the steps of all other threads leave the digest alone
(`Quiet`, `Still`).
-/

namespace Remora

namespace Cluster

open Function ProxyAction GateAction

variable {τ ω : Type} {K : Cluster τ ω} {s s' : State τ ω}

/-- A digest sent once as `StatelessTxn` and once as `Txn` : the numbers of the two
messages, and the proxies they go to. -/
structure Sending where
  digest : TransactionDigest
  stateless : ℕ
  stateful : ℕ
  verifier : ProxyId
  executor : ProxyId

namespace Sending

variable (D : Sending)

/-- The message is one of the two. -/
def IsSent (m : MessageId) (p : ProxyId) : PrimaryToProxyMessage τ → Prop
  | .statelessTxn r => m = .stateless D.stateless ∧ p = D.verifier ∧ r.digest = D.digest
  | .txn t q _ => m = .stateful D.stateful ∧ p = D.executor ∧ q = D.verifier ∧
      t.digest = D.digest
  | .combinedTxn _ _ _ => False

/-- Nothing else about the digest comes from the primary. -/
def SentOnce : Event τ → Prop
  | .arrive m p msg => digestOf msg = D.digest ∨ m = .stateless D.stateless ∨
      m = .stateful D.stateful → D.IsSent m p msg
  | .run _ => True

theorem IsSent.cases {D : Sending} {m : MessageId} {p : ProxyId} {msg : PrimaryToProxyMessage τ}
    (h : D.IsSent m p msg) :
    (m = .stateless D.stateless ∧ p = D.verifier ∧ ∃ r, msg = .statelessTxn r ∧
      r.digest = D.digest) ∨
    (m = .stateful D.stateful ∧ p = D.executor ∧ ∃ t states, msg = .txn t D.verifier states ∧
      t.digest = D.digest) := by
  cases msg with
  | statelessTxn r => exact Or.inl ⟨h.1, h.2.1, r, rfl, h.2.2⟩
  | txn t q states =>
    obtain ⟨hm, hp, rfl, hd⟩ := h
    exact Or.inr ⟨hm, hp, t, states, rfl, hd⟩
  | combinedTxn t q states => exact h.elim

/-- The threads of the digest : the verification's message and task, the stateful
transaction, the request for the result and the reply. -/
def verification : ThreadId := .message (.stateless D.stateless)

def verifyTask : ThreadId := .verify (.stateless D.stateless)

def execution : ThreadId := .message (.stateful D.stateful)

def request : ThreadId := .statelessRequest (.stateful D.stateful)

def reply : ThreadId := .statelessReply (.stateful D.stateful)

/-- The thread that meets the verification at its proxy. -/
def consumer : ThreadId :=
  if D.verifier = D.executor then D.execution else D.request

end Sending

/-! ## What a thread has to do with the oneshot controllers -/

/-- The action is on a oneshot controller or a channel, or creates a thread that is. -/
def isGate : ProxyAction ω → Bool
  | gate _ | spawnVerify | sendStatelessRequest _ | sendStatelessReply _ => true
  | _ => false

def gateView (todo : List (ProxyAction ω)) : List (ProxyAction ω) :=
  todo.filter isGate

theorem mem_gateView {a : ProxyAction ω} (ha : isGate a = true) {todo : List (ProxyAction ω)} :
    a ∈ gateView todo ↔ a ∈ todo := by
  simp [gateView, ha]

theorem gateView_append (l l' : List (ProxyAction ω)) :
    gateView (l ++ l') = gateView l ++ gateView l' :=
  List.filter_append l l'

theorem gateView_eq_nil {l : List (ProxyAction ω)} (h : ∀ a ∈ l, isGate a = false) :
    gateView l = [] :=
  List.filter_eq_nil_iff.mpr fun a ha => by simp [h a ha]

theorem gateView_statefulRequests (states : RequiredStates) :
    gateView (statefulRequests (ω := ω) states) = [] := by
  refine gateView_eq_nil fun a ha => ?_
  obtain ⟨x, -, hx⟩ := List.mem_filterMap.mp ha
  obtain ⟨q, -, rfl⟩ := Option.map_eq_some_iff.mp hx
  rfl

theorem gateView_executeTransaction (t : RemoraTransaction τ) :
    gateView (executeTransaction (ω := ω) t) = [] := by
  refine gateView_eq_nil fun a ha => ?_
  by_cases hs : t.inputs.any InputObjectKind.isShared <;>
    simp only [executeTransaction, hs, List.mem_append, List.mem_map, List.mem_singleton] at ha <;>
    grind [isGate]

theorem gateView_spawnStatefulTxn (mode : SeparationMode) (t : RemoraTransaction τ)
    (states : RequiredStates) :
    gateView (spawnStatefulTxn (ω := ω) mode t states) = statelessVerified mode := by
  have hverified : gateView (statelessVerified (ω := ω) mode) = statelessVerified mode := by
    unfold statelessVerified
    split_ifs <;> rfl
  have hmap : ∀ {α : Type} (f : α → ProxyAction ω) (l : List α), (∀ a, isGate (f a) = false) →
      gateView (l.map f) = [] := fun f l hf => gateView_eq_nil fun a ha => by
    obtain ⟨x, -, rfl⟩ := List.mem_map.mp ha
    exact hf x
  simp only [spawnStatefulTxn, gateView_append, hverified, gateView_executeTransaction,
    VersionedDependencyController.removeDependency]
  rw [hmap dep _ fun _ => rfl, hmap (dep ∘ .wait) _ fun _ => rfl,
    hmap dep _ fun _ => rfl, hmap (dep ∘ .notify) _ fun _ => rfl]
  simp [gateView, isGate]

/-! ## The threads of the digest -/

namespace Sending

variable (D : Sending)

/-- What each of them does at the controllers. -/
def program : ThreadId → List (ProxyAction ω)
  | .message (.stateless _) => [gate setLocalDependency, spawnVerify]
  | .verify (.stateless _) => [gate verifyTransaction, gate GateAction.send]
  | .message (.stateful _) =>
    if D.verifier = D.executor then [gate getDependency, gate await, gate removeAwaited]
    else [sendStatelessRequest D.verifier, gate setRemoteDependency, gate await,
      gate removeAwaited]
  | .statelessRequest (.stateful _) =>
    if D.verifier = D.executor then []
    else [gate getDependency, gate unwrapReceiver, gate await, gate GateAction.removeDependency,
      sendStatelessReply D.executor]
  | .statelessReply (.stateful _) =>
    if D.verifier = D.executor then []
    else [gate takeSignal, gate GateAction.send, gate GateAction.removeDependency]
  | _ => []

def proxyOf : ThreadId → ProxyId
  | .message (.stateful _) | .statelessReply _ => D.executor
  | _ => D.verifier

/-- The thread goes back to one of the two messages. -/
def Mine (t : ThreadId) : Prop :=
  t.messageId = .stateless D.stateless ∨ t.messageId = .stateful D.stateful

end Sending

/-- The threads of the digest follow their programs, and are created by one another. -/
structure Shape (K : Cluster τ ω) (D : Sending) (s : State τ ω) : Prop where
  digest : ∀ {t th}, s.threads t = some th → (th.digest = D.digest ↔ D.Mine t)
  view : ∀ {t th}, s.threads t = some th → D.Mine t → gateView th.todo <:+ D.program t
  proxy : ∀ {t th}, s.threads t = some th → D.Mine t → D.program (ω := ω) t ≠ [] →
    th.proxy = D.proxyOf t
  verify : (s.threads D.verifyTask).isSome → Past s D.verification spawnVerify
  request : D.verifier ≠ D.executor →
    ((s.threads D.request).isSome ↔ Past s D.execution (sendStatelessRequest D.verifier))
  reply : D.verifier ≠ D.executor →
    ((s.threads D.reply).isSome ↔ Past s D.request (sendStatelessReply D.executor))
  connected : (s.threads D.execution).isSome → D.executor ∈ K.connections

section Shape

variable {D : Sending}

theorem Shape.init (genesis : ObjectID → Option ω) :
    Shape K D (State.init genesis : State τ ω) := by
  constructor <;> simp [State.init, Past]

theorem gateView_primaryMessage_statelessTxn (hmode : K.mode.isPrimarySeparation = true)
    (p : ProxyId) (r : StatelessVerificationRequest) (n : ℕ) :
    gateView (primaryMessage (τ := τ) (ω := ω) K.mode p (.statelessTxn r)) =
      D.program (.message (.stateless n)) := by
  simp only [primaryMessage, handlePrimaryMessage, hmode, if_true]
  rfl

theorem isProxySeparation_of_isPrimarySeparation {mode : SeparationMode}
    (h : mode.isPrimarySeparation = true) : mode.isProxySeparation = true := by
  cases mode <;> simp_all [SeparationMode.isPrimarySeparation, SeparationMode.isProxySeparation]

theorem gateView_primaryMessage_txn (hmode : K.mode.isPrimarySeparation = true)
    (t : RemoraTransaction τ) (states : RequiredStates) (n : ℕ) :
    gateView (primaryMessage (ω := ω) K.mode D.executor (.txn t D.verifier states)) =
      D.program (.message (.stateful n)) := by
  have hp := isProxySeparation_of_isPrimarySeparation hmode
  have hcons : ∀ l : List (ProxyAction ω), gateView (take .primary :: l) = gateView l :=
    fun l => rfl
  simp only [primaryMessage, handlePrimaryMessage, hmode, if_true, Option.getD_some,
    processStatefulTransaction, hcons, gateView_append, gateView_statefulRequests,
    gateView_spawnStatefulTxn, statelessHandle, statelessVerified, hp, Sending.program]
  split_ifs <;> rfl

theorem gateView_handleStatefulRequest (requester : ProxyId) (k : ObjectVersion)
    (ks : List ObjectVersion) : gateView (handleStatefulRequest (ω := ω) requester k ks) = [] := by
  unfold handleStatefulRequest
  split
  · rfl
  · refine gateView_eq_nil fun a ha => ?_
    simp only [List.mem_append, List.mem_map, List.mem_singleton] at ha
    grind [isGate]

theorem gateView_handleStatefulReply (version : ω → SequenceNumber)
    (objects : List (ObjectID × ω)) : gateView (handleStatefulReply version objects) = [] := by
  unfold handleStatefulReply
  split
  · rfl
  · refine gateView_eq_nil fun a ha => ?_
    simp only [List.mem_append, List.mem_map, List.mem_singleton] at ha
    grind [isGate]

/-- The threads `T` keep what they have to do with the controllers, and the entry and the
channels of the digest at `p` are left alone. -/
structure Still (D : Sending) (δ : ℕ → ProxyId × TransactionDigest) (T : ThreadId → Prop)
    (p : ProxyId) (s s' : State τ ω) : Prop where
  old : ∀ {t th}, T t → s.threads t = some th → ∃ th', s'.threads t = some th' ∧
    gateView th'.todo = gateView th.todo ∧ th'.gate = th.gate
  new : ∀ {t th'}, T t → s.threads t = none → s'.threads t = some th' →
    gateView th'.todo = D.program t
  entry : s'.resources.gate.controllers p D.digest = s.resources.gate.controllers p D.digest
  values : ∀ c, δ c = (p, D.digest) → s'.resources.gate.values c = s.resources.gate.values c

theorem Still.past {δ : ℕ → ProxyId × TransactionDigest} {T : ThreadId → Prop} {p : ProxyId}
    (hQ : Still D δ T p s s') {t : ThreadId} (ht : T t) {a : ProxyAction ω}
    (hgate : isGate a = true) (ha : a ∈ D.program t) : Past s' t a ↔ Past s t a := by
  constructor
  · rintro ⟨th', ht', hnot⟩
    cases hth : s.threads t with
    | none =>
      rw [← mem_gateView hgate, hQ.new ht hth ht'] at hnot
      exact absurd ha hnot
    | some th =>
      obtain ⟨th'', ht'', hview, -⟩ := hQ.old ht hth
      obtain rfl := Option.some.inj (ht'.symm.trans ht'')
      exact ⟨th, hth, by rwa [← mem_gateView hgate, ← hview, mem_gateView hgate]⟩
  · rintro ⟨th, hth, hnot⟩
    obtain ⟨th', ht', hview, -⟩ := hQ.old ht hth
    exact ⟨th', ht', by rwa [← mem_gateView hgate, hview, mem_gateView hgate]⟩

/-- A step that is none of the digest's : its threads keep what they have to do with the
controllers, new ones are at their beginning, and the digest's entries and channels are
left alone. -/
structure Quiet (D : Sending) (δ : ℕ → ProxyId × TransactionDigest) (s s' : State τ ω) :
    Prop where
  old : ∀ {t th}, D.Mine t → D.program (ω := ω) t ≠ [] → s.threads t = some th →
    ∃ th', s'.threads t = some th' ∧ gateView th'.todo = gateView th.todo ∧
      th'.gate = th.gate ∧ th'.proxy = th.proxy
  new : ∀ {t th'}, D.Mine t → D.program (ω := ω) t ≠ [] → s.threads t = none →
    s'.threads t = some th' → gateView th'.todo = D.program t ∧ th'.proxy = D.proxyOf t ∧
      ∃ m, t = .message m
  other : ∀ {t th'}, D.Mine t → D.program (ω := ω) t = [] → s'.threads t = some th' →
    gateView th'.todo = []
  entry : ∀ p, s'.resources.gate.controllers p D.digest = s.resources.gate.controllers p D.digest
  values : ∀ c, (δ c).2 = D.digest → s'.resources.gate.values c = s.resources.gate.values c

section Quiet

variable {δ : ℕ → ProxyId × TransactionDigest}

theorem Quiet.still {T : ThreadId → Prop} {p : ProxyId}
    (hQ : Quiet D δ s s') (hT : ∀ t, T t → D.Mine t ∧ D.program (ω := ω) t ≠ []) :
    Still D δ T p s s' where
  old ht hth := by
    obtain ⟨x, hx, hv, hg, -⟩ := hQ.old (hT _ ht).1 (hT _ ht).2 hth
    exact ⟨x, hx, hv, hg⟩
  new ht hth hx := (hQ.new (hT _ ht).1 (hT _ ht).2 hth hx).1
  entry := hQ.entry p
  values c hc := hQ.values c (by rw [hc])

theorem Quiet.past (hQ : Quiet D δ s s') {t : ThreadId} (ht : D.Mine t) {a : ProxyAction ω}
    (hgate : isGate a = true) (ha : a ∈ D.program t) : Past s' t a ↔ Past s t a := by
  have hstill : Still D δ (· = t) 0 s s' := hQ.still fun u hu => by
    subst hu
    exact ⟨ht, List.ne_nil_of_mem ha⟩
  exact hstill.past rfl hgate ha

theorem Quiet.isSome (hQ : Quiet D δ s s') {t : ThreadId} (ht : D.Mine t)
    (hmsg : ∀ m, t ≠ .message m) (hprog : D.program (ω := ω) t ≠ []) :
    (s'.threads t).isSome ↔ (s.threads t).isSome := by
  constructor
  · intro h'
    obtain ⟨th', ht'⟩ := Option.isSome_iff_exists.mp h'
    cases hth : s.threads t with
    | none =>
      obtain ⟨-, -, m, hm⟩ := hQ.new ht hprog hth ht'
      exact absurd hm (hmsg m)
    | some th => rfl
  · intro h
    obtain ⟨th, hth⟩ := Option.isSome_iff_exists.mp h
    obtain ⟨th', ht', -⟩ := hQ.old ht hprog hth
    simp [ht']

theorem Shape.quiet (hS : Shape K D s) (hQ : Quiet D δ s s')
    (hdigest : ∀ {t th}, s'.threads t = some th → (th.digest = D.digest ↔ D.Mine t))
    (hconnected : (s'.threads D.execution).isSome → D.executor ∈ K.connections) :
    Shape K D s' where
  digest := hdigest
  view {t th} ht hmine := by
    by_cases hprog : D.program (ω := ω) t = []
    · rw [hQ.other hmine hprog ht]
      exact List.nil_suffix
    · cases hth : s.threads t with
      | none =>
        exact (hQ.new hmine hprog hth ht).1 ▸ List.suffix_rfl
      | some th₀ =>
        obtain ⟨th', ht', hview, -⟩ := hQ.old hmine hprog hth
        obtain rfl := Option.some.inj (ht.symm.trans ht')
        exact hview ▸ hS.view hth hmine
  proxy {t th} ht hmine hprog := by
    cases hth : s.threads t with
    | none => exact (hQ.new hmine hprog hth ht).2.1
    | some th₀ =>
      obtain ⟨th', ht', hview, -, hp⟩ := hQ.old hmine hprog hth
      obtain rfl := Option.some.inj (ht.symm.trans ht')
      rw [hp]
      exact hS.proxy hth hmine hprog
  verify h := by
    rw [hQ.isSome (Or.inl rfl) (by simp [Sending.verifyTask]) (by simp [Sending.verifyTask,
      Sending.program])] at h
    exact (hQ.past (Or.inl rfl) rfl (by simp [Sending.verification, Sending.program])).mpr
      (hS.verify h)
  request hne := by
    rw [hQ.isSome (Or.inr rfl) (by simp [Sending.request]) (by simp [Sending.request,
      Sending.program, hne]), hQ.past (Or.inr rfl) rfl (by simp [Sending.execution,
      Sending.program, hne])]
    exact hS.request hne
  reply hne := by
    rw [hQ.isSome (Or.inr rfl) (by simp [Sending.reply]) (by simp [Sending.reply,
      Sending.program, hne]), hQ.past (Or.inr rfl) rfl (by simp [Sending.request,
      Sending.program, hne])]
    exact hS.reply hne
  connected := hconnected

end Quiet

/-- A message of the primary arrives. -/
theorem Shape.quiet_arrive (hmode : K.mode.isPrimarySeparation = true) (hS : Shape K D s)
    (δ : ℕ → ProxyId × TransactionDigest) {m : MessageId} {p : ProxyId}
    {msg : PrimaryToProxyMessage τ} (hsent : D.SentOnce (.arrive m p msg))
    (h : arrive K s m p msg = some s') : Quiet D δ s s' := by
  obtain ⟨-, -, -, hR, hthreads⟩ := arrive_eq_some h
  have hmine' : ∀ {th'}, s'.threads (.message m) = some th' → D.Mine (.message m) →
      gateView th'.todo = D.program (.message m) ∧ th'.proxy = D.proxyOf (.message m) := by
    intro th' ht' hmine
    rw [hthreads, update_self] at ht'
    obtain rfl := Option.some.inj ht'
    rcases (hsent (Or.inr hmine)).cases with ⟨rfl, rfl, r, rfl, -⟩ | ⟨rfl, rfl, txn, states, rfl, -⟩
    · exact ⟨gateView_primaryMessage_statelessTxn hmode _ _ _, rfl⟩
    · exact ⟨gateView_primaryMessage_txn hmode _ _ _, rfl⟩
  refine ⟨fun {t th} _ _ ht => ?_, fun {t th'} hmine _ hold ht' => ?_,
    fun {t th'} hmine hprog ht' => ?_, fun p => by rw [hR], fun c _ => by rw [hR]⟩
  · exact ⟨th, threads_of_arrive h ht, rfl, rfl, rfl⟩
  · rcases eq_or_ne t (.message m) with rfl | hne
    · exact ⟨(hmine' ht' hmine).1, (hmine' ht' hmine).2, m, rfl⟩
    · rw [threads_of_arrive_of_ne h hne, hold] at ht'
      cases ht'
  · rcases eq_or_ne t (.message m) with rfl | hne
    · rw [(hmine' ht' hmine).1, hprog]
    · rw [threads_of_arrive_of_ne h hne] at ht'
      exact List.suffix_nil.mp (hprog ▸ hS.view ht' hmine)

theorem Shape.arrive (hmode : K.mode.isPrimarySeparation = true) (hS : Shape K D s)
    {m : MessageId} {p : ProxyId} {msg : PrimaryToProxyMessage τ}
    (hsent : D.SentOnce (.arrive m p msg)) (h : arrive K s m p msg = some s') :
    Shape K D s' := by
  obtain ⟨-, hp, -, -, hthreads⟩ := arrive_eq_some h
  refine hS.quiet (hS.quiet_arrive hmode (fun _ => (0, 0)) hsent h) (fun {t th} ht => ?_)
    fun hx => ?_
  · rw [hthreads] at ht
    rcases eq_or_ne t (.message m) with rfl | hne
    · rw [update_self] at ht
      obtain rfl := Option.some.inj ht
      constructor
      · intro hd
        rcases (hsent (Or.inl hd)).cases with ⟨rfl, -⟩ | ⟨rfl, -⟩
        · exact Or.inl rfl
        · exact Or.inr rfl
      · intro hmine
        rcases (hsent (Or.inr hmine)).cases with ⟨-, -, r, rfl, hr⟩ | ⟨-, -, txn, states, rfl, hr⟩
        · exact hr
        · exact hr
    · rw [update_of_ne hne] at ht
      exact hS.digest ht
  · rw [hthreads] at hx
    rcases eq_or_ne D.execution (.message m) with he | hne
    · obtain rfl : MessageId.stateful D.stateful = m := ThreadId.message.inj he
      rcases (hsent (Or.inr (Or.inr rfl))).cases with ⟨hm, -⟩ | ⟨-, rfl, -⟩
      · cases hm
      · exact hp
    · rw [update_of_ne hne] at hx
      exact hS.connected hx

/-! Steps of threads. -/

theorem spawned_of_not_isGate {t id : ThreadId} {th new : Thread τ ω} {a : ProxyAction ω}
    (ha : isGate a = false) (h : spawned K t th a = some (id, new)) :
    D.program (ω := ω) id = [] ∧ gateView new.todo = [] := by
  cases a with
  | sendRequest q k =>
    simp only [spawned, Cluster.send] at h
    split_ifs at h
    obtain ⟨rfl, rfl⟩ := Prod.mk.inj (Option.some.inj h)
    exact ⟨rfl, gateView_handleStatefulRequest th.proxy k [k]⟩
  | sendReply q k =>
    simp only [spawned, Cluster.send] at h
    split_ifs at h
    obtain ⟨rfl, rfl⟩ := Prod.mk.inj (Option.some.inj h)
    exact ⟨rfl, gateView_handleStatefulReply _ _⟩
  | spawnVerify | sendStatelessRequest q | sendStatelessReply q => simp [isGate] at ha
  | _ => simp [spawned] at h

variable {t : ThreadId} {th th' : Thread τ ω} {a : ProxyAction ω} {rest : List (ProxyAction ω)}

theorem Shape.quiet_run {δ : ℕ → ProxyId × TransactionDigest} (hS : Shape K D s)
    (hO : Owned δ s) (h : RunStep K s s' t th th' a rest)
    (hq : ¬D.Mine t ∨ isGate a = false) : Quiet D δ s s' := by
  by_cases hmine : D.Mine t
  · have ha := hq.resolve_left (not_not.mpr hmine)
    have hF := perform_frame h.perform
    have hgate : s'.resources.gate = s.resources.gate :=
      hF.gate (by rintro g rfl; simp [isGate] at ha)
    have hview : gateView rest = gateView th.todo := by rw [h.todo]; simp [gateView, ha]
    refine ⟨fun {u x} hu hprog hx => ?_, fun {u x'} hu hprog hx hx' => ?_,
      fun {u x'} hu hprog hx' => ?_, fun p => by rw [hgate], fun c _ => by rw [hgate]⟩
    · rcases eq_or_ne u t with rfl | hne
      · obtain rfl := Option.some.inj (hx.symm.trans h.thread)
        refine ⟨_, h.self, hview, hF.locals ?_ ?_, hF.proxy⟩
        · rintro g rfl; simp [isGate] at ha
        · rintro rfl; simp [isGate] at ha
      · have := h.threads_of_ne hne fun y hy => hprog (spawned_of_not_isGate ha hy).1
        exact ⟨x, this.trans hx, rfl, rfl, rfl⟩
    · rcases h.cases hx' with ⟨rfl, -⟩ | ⟨-, hs⟩ | ⟨-, hold⟩
      · simp [h.thread] at hx
      · exact absurd (spawned_of_not_isGate ha hs).1 hprog
      · simp [hx] at hold
    · rcases h.cases hx' with ⟨rfl, rfl⟩ | ⟨-, hs⟩ | ⟨-, hold⟩
      · exact hview.trans (List.suffix_nil.mp (hprog ▸ hS.view h.thread hu))
      · exact (spawned_of_not_isGate (D := D) ha hs).2
      · exact List.suffix_nil.mp (hprog ▸ hS.view hold hu)
  · have hd : th.digest ≠ D.digest := fun hd => hmine ((hS.digest h.thread).mp hd)
    have hsame : ∀ {u}, D.Mine u → s'.threads u = s.threads u := by
      intro u hu
      refine h.threads_of_ne (fun heq => hmine (heq ▸ hu)) fun x hx => hmine ?_
      rw [Sending.Mine, ← (spawned_eq_some hx).1]
      exact hu
    refine ⟨fun {u x} hu _ hx => ⟨x, (hsame hu).trans hx, rfl, rfl, rfl⟩,
      fun {u x'} hu _ hx hx' => ?_, fun {u x'} hu hprog hx' => ?_,
      fun p => h.entry_of_ne (Or.inr hd.symm), fun c hc => ?_⟩
    · rw [hsame hu, hx] at hx'
      cases hx'
    · rw [hsame hu] at hx'
      exact List.suffix_nil.mp (hprog ▸ hS.view hx' hu)
    · refine (h.values c).resolve_right fun hsend => hd ?_
      have := (hO.thread h.thread (Or.inr hsend.2.1)).2
      rw [← hc, this]

theorem Shape.digest_run (hS : Shape K D s) (h : RunStep K s s' t th th' a rest) {u : ThreadId}
    {x : Thread τ ω} (hx : s'.threads u = some x) : x.digest = D.digest ↔ D.Mine u := by
  rcases h.cases hx with ⟨rfl, rfl⟩ | ⟨-, hs⟩ | ⟨-, hx⟩
  · rw [← hS.digest h.thread]
    exact ⟨fun hd => (perform_frame h.perform).digest ▸ hd,
      fun hd => (perform_frame h.perform).digest.trans hd⟩
  · obtain ⟨hid, hd⟩ := spawned_eq_some hs
    rw [hd, hS.digest h.thread, Sending.Mine, Sending.Mine, hid]
  · exact hS.digest hx

/-- Which thread creates which. -/
theorem Sending.eq_of_spawnVerify (ht : D.Mine t) (h : spawnVerify ∈ D.program (ω := ω) t) :
    t = D.verification := by
  rcases t with (n | n) | (n | n) | _ | _ | (n | n) | (n | n) <;>
    simp [Sending.program, Sending.Mine, ThreadId.messageId, Sending.verification] at h ht ⊢
  · exact ht
  · split_ifs at h <;> simp at h

theorem Sending.eq_of_sendStatelessRequest {q : ProxyId} (ht : D.Mine t)
    (h : sendStatelessRequest q ∈ D.program (ω := ω) t) :
    t = D.execution ∧ q = D.verifier ∧ D.verifier ≠ D.executor := by
  rcases t with (n | n) | (n | n) | _ | _ | (n | n) | (n | n) <;>
    simp [Sending.program, Sending.Mine, ThreadId.messageId, Sending.execution] at h ht ⊢
  grind

theorem Sending.eq_of_sendStatelessReply {q : ProxyId} (ht : D.Mine t)
    (h : sendStatelessReply q ∈ D.program (ω := ω) t) :
    t = D.request ∧ q = D.executor ∧ D.verifier ≠ D.executor := by
  rcases t with (n | n) | (n | n) | _ | _ | (n | n) | (n | n) <;>
    simp [Sending.program, Sending.Mine, ThreadId.messageId, Sending.request] at h ht ⊢ <;>
    grind

theorem Sending.nodup_program (t : ThreadId) : (D.program (ω := ω) t).Nodup := by
  rcases t with (n | n) | (n | n) | _ | _ | (n | n) | (n | n) <;>
    simp only [Sending.program] <;> (try split_ifs) <;> simp

theorem Shape.cons_suffix (hS : Shape K D s) (h : RunStep K s s' t th th' a rest)
    (hmine : D.Mine t) (ha : isGate a = true) : a :: gateView rest <:+ D.program t := by
  have := hS.view h.thread hmine
  rwa [h.todo, gateView, List.filter_cons_of_pos ha] at this

/-- A thread of the digest creates another one by a step at its controllers. -/
theorem Shape.spawned (hmode : K.mode.isPrimarySeparation = true) (hS : Shape K D s)
    (h : RunStep K s s' t th th' a rest)
    (hmine : D.Mine t) (ha : isGate a = true) {u : ThreadId} {x : Thread τ ω}
    (hs : spawned K t th a = some (u, x)) :
    gateView x.todo = D.program u ∧ x.proxy = D.proxyOf u ∧
      ((a = spawnVerify ∧ t = D.verification ∧ u = D.verifyTask ∧ x.gate.tx = th.gate.tx) ∨
        (a = sendStatelessRequest D.verifier ∧ t = D.execution ∧ u = D.request) ∨
        (a = sendStatelessReply D.executor ∧ t = D.request ∧ u = D.reply)) := by
  have hmem : a ∈ D.program (ω := ω) t := (hS.cons_suffix h hmine ha).subset List.mem_cons_self
  have hproxy : th.proxy = D.proxyOf t := hS.proxy h.thread hmine (List.ne_nil_of_mem hmem)
  cases a with
  | spawnVerify =>
    obtain rfl := Sending.eq_of_spawnVerify hmine hmem
    obtain ⟨rfl, rfl⟩ := Prod.mk.inj (Option.some.inj hs)
    exact ⟨rfl, hproxy, Or.inl ⟨rfl, rfl, rfl, rfl⟩⟩
  | sendStatelessRequest q =>
    obtain ⟨rfl, rfl, hne⟩ := Sending.eq_of_sendStatelessRequest hmine hmem
    simp only [Cluster.spawned, Cluster.send] at hs
    split_ifs at hs
    obtain ⟨rfl, rfl⟩ := Prod.mk.inj (Option.some.inj hs)
    refine ⟨?_, rfl, Or.inr (Or.inl ⟨rfl, rfl, rfl⟩)⟩
    simp only [Sending.execution, ThreadId.messageId, Sending.program, if_neg hne, spawn,
      handleStatelessRequest, hmode, if_true, hproxy]
    rfl
  | sendStatelessReply q =>
    obtain ⟨rfl, rfl, hne⟩ := Sending.eq_of_sendStatelessReply hmine hmem
    simp only [Cluster.spawned, Cluster.send] at hs
    split_ifs at hs
    obtain ⟨rfl, rfl⟩ := Prod.mk.inj (Option.some.inj hs)
    refine ⟨?_, rfl, Or.inr (Or.inr ⟨rfl, rfl, rfl⟩)⟩
    simp only [Sending.request, ThreadId.messageId, Sending.program, if_neg hne]
    rfl
  | gate g => simp [Cluster.spawned] at hs
  | _ => simp [isGate] at ha

/-- The request is created once. -/
theorem Shape.request_of_spawned (hmode : K.mode.isPrimarySeparation = true) (hS : Shape K D s)
    (h : RunStep K s s' t th th' a rest) (hmine : D.Mine t) (ha : isGate a = true)
    (hne : D.verifier ≠ D.executor) {x : Thread τ ω}
    (hs : Cluster.spawned K t th a = some (D.request, x)) : s.threads D.request = none := by
  rcases (hS.spawned hmode h hmine ha hs).2.2 with ⟨-, -, hu, -⟩ | ⟨rfl, rfl, -⟩ | ⟨-, -, hu⟩
  · cases hu
  · by_contra hcon
    obtain ⟨y, hy, hnot⟩ := (hS.request hne).mp (Option.isSome_iff_ne_none.mpr hcon)
    obtain rfl := Option.some.inj (hy.symm.trans h.thread)
    exact hnot h.head_mem
  · cases hu

theorem Shape.run_gate (hmode : K.mode.isPrimarySeparation = true) (hS : Shape K D s)
    (h : RunStep K s s' t th th' a rest) (hmine : D.Mine t) (ha : isGate a = true) :
    Shape K D s' := by
  have hsuffix := hS.cons_suffix h hmine ha
  have hdone : a ∉ rest := fun hm =>
    Program.notMem_of_cons_suffix (Sending.nodup_program t) hsuffix ((mem_gateView ha).mpr hm)
  refine ⟨hS.digest_run h, fun {u x} hx hu => ?_, fun {u x} hx hu hne => ?_, fun hv => ?_,
    fun hne => ⟨fun hr => ?_, fun hp => ?_⟩, fun hne => ⟨fun hr => ?_, fun hp => ?_⟩, fun hx => ?_⟩
  · rcases h.cases hx with ⟨rfl, rfl⟩ | ⟨-, hs⟩ | ⟨-, hold⟩
    · exact Program.suffix_of_cons hsuffix
    · exact (hS.spawned hmode h hmine ha hs).1 ▸ List.suffix_rfl
    · exact hS.view hold hu
  · rcases h.cases hx with ⟨rfl, rfl⟩ | ⟨-, hs⟩ | ⟨-, hold⟩
    · rw [← hS.proxy h.thread hu hne]
      exact (perform_frame h.perform).proxy
    · exact (hS.spawned hmode h hmine ha hs).2.1
    · exact hS.proxy hold hu hne
  · rcases h.isSome_cases hv with hv | ⟨x, hs⟩
    · exact h.past_of_past (spawned_ne_message _) (hS.verify hv)
    · rcases (hS.spawned hmode h hmine ha hs).2.2 with ⟨rfl, rfl, -⟩ | ⟨-, -, hu⟩ | ⟨-, -, hu⟩
      · exact ⟨_, h.self, hdone⟩
      · cases hu
      · cases hu
  · rcases h.isSome_cases hr with hr | ⟨x, hs⟩
    · exact h.past_of_past (spawned_ne_message _) ((hS.request hne).mp hr)
    · rcases (hS.spawned hmode h hmine ha hs).2.2 with ⟨-, -, hu, -⟩ | ⟨rfl, rfl, -⟩ | ⟨-, -, hu⟩
      · cases hu
      · exact ⟨_, h.self, hdone⟩
      · cases hu
  · rcases h.past_cases (spawned_ne_message _) hp with hp | ⟨rfl, rfl⟩
    · exact h.isSome_of_isSome ((hS.request hne).mpr hp)
    · have hconn : D.verifier ∈ K.connections := by
        by_contra hcon
        have := h.perform
        simp [perform, hcon] at this
      exact h.isSome_of_spawned (by simp only [Cluster.spawned, Cluster.send, if_pos hconn]; rfl)
  · rcases h.isSome_cases hr with hr | ⟨x, hs⟩
    · have hpast := (hS.reply hne).mp hr
      refine h.past_of_past (fun x hs => ?_) hpast
      obtain ⟨y, hy, -⟩ := hpast
      simp [hS.request_of_spawned hmode h hmine ha hne hs] at hy
    · rcases (hS.spawned hmode h hmine ha hs).2.2 with ⟨-, -, hu, -⟩ | ⟨-, -, hu⟩ | ⟨rfl, rfl, -⟩
      · cases hu
      · cases hu
      · exact ⟨_, h.self, hdone⟩
  · by_cases hs : ∃ x, Cluster.spawned K t th a = some (D.request, x)
    · obtain ⟨x, hs⟩ := hs
      obtain ⟨y, hy, hnot⟩ := hp
      rcases h.cases hy with ⟨rfl, -⟩ | ⟨-, hs'⟩ | ⟨-, hold⟩
      · have := h.thread
        simp [hS.request_of_spawned hmode h hmine ha hne hs] at this
      · rw [← mem_gateView rfl, (hS.spawned hmode h hmine ha hs').1] at hnot
        simp [Sending.request, Sending.program, hne] at hnot
      · simp [hS.request_of_spawned hmode h hmine ha hne hs] at hold
    · rcases h.past_cases (fun x hx => hs ⟨x, hx⟩) hp with hp | ⟨rfl, rfl⟩
      · exact h.isSome_of_isSome ((hS.reply hne).mpr hp)
      · have hconn : D.executor ∈ K.connections := by
          obtain ⟨y, hy, -⟩ := (hS.request hne).mp (by simp [h.thread])
          exact hS.connected (by simp [hy])
        exact h.isSome_of_spawned (by simp only [Cluster.spawned, Cluster.send, if_pos hconn]; rfl)
  · rcases h.isSome_cases hx with hx | ⟨x, hs⟩
    · exact hS.connected hx
    · exact absurd hs (spawned_ne_message _ _)

theorem Shape.reply_of_spawned (hmode : K.mode.isPrimarySeparation = true) (hS : Shape K D s)
    (h : RunStep K s s' t th th' a rest) (hmine : D.Mine t) (ha : isGate a = true)
    (hne : D.verifier ≠ D.executor) {x : Thread τ ω}
    (hs : Cluster.spawned K t th a = some (D.reply, x)) : s.threads D.reply = none := by
  rcases (hS.spawned hmode h hmine ha hs).2.2 with ⟨-, -, hu, -⟩ | ⟨-, -, hu⟩ | ⟨rfl, rfl, -⟩
  · cases hu
  · cases hu
  · by_contra hcon
    obtain ⟨y, hy, hnot⟩ := (hS.reply hne).mp (Option.isSome_iff_ne_none.mpr hcon)
    obtain rfl := Option.some.inj (hy.symm.trans h.thread)
    exact hnot h.head_mem

end Shape

section Still

variable {D : Sending} {δ : ℕ → ProxyId × TransactionDigest} {T : ThreadId → Prop} {p : ProxyId}
  {t : ThreadId} {th th' : Thread τ ω} {a : ProxyAction ω} {rest : List (ProxyAction ω)}

theorem Shape.still (hmode : K.mode.isPrimarySeparation = true) (hS : Shape K D s)
    (hO : Owned δ s) (h : RunStep K s s' t th th' a rest) (hmine : D.Mine t)
    (ha : isGate a = true) (hT : ¬T t) (hp : th.proxy ≠ p)
    (hnew : ∀ u x, T u → Cluster.spawned K t th a = some (u, x) → s.threads u = none) :
    Still D δ T p s s' where
  old {u x} hu hx := by
    refine ⟨x, (h.threads_of_ne (fun heq => hT (heq ▸ hu)) fun y hy => ?_).trans hx, rfl, rfl⟩
    simp [hnew u y hu hy] at hx
  new {u x} hu hx hx' := by
    rcases h.cases hx' with ⟨rfl, -⟩ | ⟨-, hs⟩ | ⟨-, hold⟩
    · exact absurd hu hT
    · exact (hS.spawned hmode h hmine ha hs).1
    · simp [hx] at hold
  entry := h.entry_of_ne (Or.inl hp.symm)
  values c hc := by
    refine (h.values c).resolve_right fun hsend => hp ?_
    have := (hO.thread h.thread (Or.inr hsend.2.1)).2
    rw [hc] at this
    exact (Prod.mk.inj this).1.symm

end Still

end Cluster

end Remora
