import Remora.Transition
import Remora.DependencyController
import Remora.OneshotController
import Remora.Executor
import Remora.SharedObjTxnForwarder

/-!
# The proxies

A proxy has two message handlers, one for the primary's messages and one for those of
other proxies. Each takes one message at a time and spawns a task that outlives the
handling of the message. A message and the task it becomes are one thread here : it is in
flight until a handler takes it, holds the handler until it yields, and goes on as the
task. A thread is the list of atomic actions it still has to perform, with its local
variables, so that an order of delivery is an interleaving too.

Of the actions, some work on the proxy's dependency controller, some on the oneshot
controllers (`GateAction`), some on the proxy's store, and some send a message, which is
a new thread at another proxy. A thread that panics stays where it is for good, and with
it the handler, if it has not yielded.

The outcome of each verification is fixed by the thread that makes it, in `Cluster`.
-/

namespace Remora

open Function Rendezvous VersionedDependencyController

variable {τ ω : Type}

/-- The two message processors of a proxy. -/
inductive Handler
  /-- `PrimaryMessageProcessor`. -/
  | primary
  /-- `ProxyMessageProcessor`. -/
  | proxy
  deriving DecidableEq, Repr

/-- A message or a task, by the primary's message it goes back to. -/
inductive ThreadId
  /-- The message itself and the stateful task. -/
  | message (m : MessageId)
  /-- The verification task. -/
  | verify (m : MessageId)
  /-- The request for a state, and the reply. -/
  | request (m : MessageId) (k : ObjectVersion)
  | reply (m : MessageId) (k : ObjectVersion)
  /-- The request for the result of a verification, and the reply. -/
  | statelessRequest (m : MessageId)
  | statelessReply (m : MessageId)
  deriving DecidableEq, Repr

/-- The message a thread goes back to. -/
def ThreadId.messageId : ThreadId → MessageId
  | .message m | .verify m | .request m _ | .reply m _ | .statelessRequest m
  | .statelessReply m => m

/-- One atomic operation of a thread. -/
inductive ProxyAction (ω : Type)
  /-- The handler receives the message. -/
  | take (h : Handler)
  /-- The handler is done with the message. -/
  | yield (h : Handler)
  | panic
  | dep (a : Action ObjectVersion)
  | gate (g : GateAction)
  | spawnVerify
  | sendStatelessRequest (q : ProxyId)
  | sendStatelessReply (q : ProxyId)
  | sendRequest (q : ProxyId) (k : ObjectVersion)
  | sendReply (q : ProxyId) (k : ObjectVersion)
  /-- `ready_to_execute` starts as the result of the verification. -/
  | begin
  /-- The check of one input. -/
  | check (x : InputObjectKind)
  /-- The call of `E::execute`, if the transaction is ready. -/
  | execute
  | read (o : ObjectID)
  | commit (o : ObjectID)
  /-- A requested state is read for the reply. -/
  | readState (k : ObjectVersion)
  /-- A migrated object is committed. -/
  | commitNew (o : ObjectID) (x : ω)
  | sendResult

/-- A thread. -/
structure Thread (τ ω : Type) where
  proxy : ProxyId
  digest : TransactionDigest
  transaction : Option (RemoraTransaction τ)
  todo : List (ProxyAction ω)
  held : ProxyId × ObjectVersion → Option ℕ
  gate : Gate.Locals
  ready : Bool
  executed : Bool
  readings : ObjectID → Option ω
  objects : List (ObjectID × ω)

/-- What the proxies are configured with, and what each verification returns. -/
structure Cluster (τ ω : Type) where
  mode : SeparationMode
  connections : List ProxyId
  executor : Executor τ ω
  outcome : ThreadId → Bool

namespace Cluster

/-- What the threads share : the handlers that are taken, the dependency controllers, the
oneshot controllers, and the stores, of all proxies. -/
structure Resources (ω : Type) where
  busy : ProxyId → Handler → Bool
  deps : Table (ProxyId × ObjectVersion)
  gate : Gate
  stores : ProxyId → ObjectID → Option ω

structure State (τ ω : Type) where
  threads : ThreadId → Option (Thread τ ω)
  resources : Resources ω

/-- All proxies start from the same store. -/
def State.init (genesis : ObjectID → Option ω) : State τ ω where
  threads := fun _ => none
  resources := ⟨fun _ _ => false, Table.empty, Gate.empty, fun _ => genesis⟩

/-- A thread before its first action. -/
def spawn (p : ProxyId) (d : TransactionDigest) (t : Option (RemoraTransaction τ))
    (l : Gate.Locals) (todo : List (ProxyAction ω)) : Thread τ ω where
  proxy := p
  digest := d
  transaction := t
  todo := todo
  held := fun _ => none
  gate := l
  ready := false
  executed := false
  readings := fun _ => none
  objects := []

/-! ## Programs -/

section Programs

open ProxyAction GateAction

/-- `process_stateless_transaction`. -/
def processStatelessTransaction : List (ProxyAction ω) :=
  [gate setLocalDependency, spawnVerify]

/-- The task it spawns. -/
def verifyTask : List (ProxyAction ω) :=
  [gate verifyTransaction, gate send]

/-- How the stateful task gets its receiver. -/
def statelessHandle (mode : SeparationMode) (p statelessProxy : ProxyId) :
    List (ProxyAction ω) :=
  if mode.isProxySeparation then
    if statelessProxy = p then [gate getDependency]
    else [sendStatelessRequest statelessProxy, gate setRemoteDependency]
  else []

/-- `schedule_stateful_transaction` asks for the states other proxies have. -/
def statefulRequests (states : RequiredStates) : List (ProxyAction ω) :=
  states.filterMap fun s => s.2.map fun q => sendRequest q s.1

/-- How the stateful task comes to know whether the transaction is verified. -/
def statelessVerified (mode : SeparationMode) : List (ProxyAction ω) :=
  if mode.isProxySeparation then [gate await, gate removeAwaited] else [gate verifyTransaction]

/-- The execution of a transaction : the checks, if it has a shared input, the call of the
executor with its reads and writes, all skipped if the transaction is not ready. -/
def executeTransaction (t : RemoraTransaction τ) : List (ProxyAction ω) :=
  [begin] ++ (if t.inputs.any InputObjectKind.isShared then t.inputs.map check else []) ++
    [execute] ++ t.inputs.map (fun x => read x.objectId) ++ t.outputIds.map commit

/-- The task of `spawn_stateful_txn`. -/
def spawnStatefulTxn (mode : SeparationMode) (t : RemoraTransaction τ)
    (states : RequiredStates) : List (ProxyAction ω) :=
  let ks := states.map Prod.fst
  let handles := handlesOf ks
  handles.actions.map dep ++ statelessVerified mode ++ handles.prior.map (dep ∘ .wait) ++
    (removeDependency ks).map dep ++ executeTransaction t ++
    handles.next.map (dep ∘ .notify) ++ [sendResult]

/-- `process_stateful_transaction` and the task it spawns. -/
def processStatefulTransaction (mode : SeparationMode) (p : ProxyId) (t : RemoraTransaction τ)
    (statelessProxy : ProxyId) (states : RequiredStates) : List (ProxyAction ω) :=
  statelessHandle mode p statelessProxy ++ statefulRequests states ++ [yield .primary] ++
    spawnStatefulTxn mode t states

/-- `handle_primary_message`. `none` : the panic on an unexpected message. -/
def handlePrimaryMessage (mode : SeparationMode) (p : ProxyId) :
    PrimaryToProxyMessage τ → Option (List (ProxyAction ω))
  | .statelessTxn _ =>
    if mode.isPrimarySeparation then some (processStatelessTransaction ++ [yield .primary])
    else none
  | .txn t statelessProxy states =>
    if mode.isPrimarySeparation then some (processStatefulTransaction mode p t statelessProxy states)
    else none
  | .combinedTxn t statelessProxy states =>
    if mode.isPrimarySeparation then none
    else if mode.isProxySeparation then
      some (processStatelessTransaction ++ processStatefulTransaction mode p t statelessProxy states)
    else some (processStatefulTransaction mode p t statelessProxy states)

/-- A message of the primary, from its arrival on. -/
def primaryMessage (mode : SeparationMode) (p : ProxyId) (msg : PrimaryToProxyMessage τ) :
    List (ProxyAction ω) :=
  take .primary :: (handlePrimaryMessage mode p msg).getD [panic]

/-- `handle_stateful_request` and its task. -/
def handleStatefulRequest (requester : ProxyId) (k : ObjectVersion)
    (states : List ObjectVersion) : List (ProxyAction ω) :=
  match getPriorDependencyAndUpdate states false true with
  | none => [take .proxy, panic]
  | some handles => [take .proxy] ++ handles.actions.map dep ++ [yield .proxy] ++
      handles.prior.map (dep ∘ .wait) ++ (removeDependency states).map dep ++
      states.map readState ++ [sendReply requester k]

/-- `one_before`. `none` : nothing is before version 0. -/
def oneBefore (v : SequenceNumber) : Option SequenceNumber :=
  if v = 0 then none else some (v - 1)

/-- The states of a reply are mocked as the output of a transaction on the versions before
them. -/
def mockedStates (version : ω → SequenceNumber) (objects : List (ObjectID × ω)) :
    Option (List ObjectVersion) :=
  objects.mapM fun o => (oneBefore (version o.2)).map fun v => (o.1, v)

/-- `handle_stateful_reply` and its task. -/
def handleStatefulReply (version : ω → SequenceNumber) (objects : List (ObjectID × ω)) :
    List (ProxyAction ω) :=
  match (mockedStates version objects).bind fun ks => getPriorDependencyAndUpdate ks true false with
  | none => [take .proxy, panic]
  | some handles => [take .proxy] ++ handles.actions.map dep ++ [yield .proxy] ++
      objects.map (fun o => commitNew o.1 o.2) ++ handles.next.map (dep ∘ .notify)

/-- `handle_stateless_request` and its task. -/
def handleStatelessRequest (mode : SeparationMode) (requester : ProxyId) :
    List (ProxyAction ω) :=
  if mode.isPrimarySeparation then
    [take .proxy, gate getDependency, gate unwrapReceiver, yield .proxy, gate await,
      gate GateAction.removeDependency, sendStatelessReply requester]
  else [take .proxy, yield .proxy]

/-- `handle_stateless_reply`. -/
def handleStatelessReply : List (ProxyAction ω) :=
  [take .proxy, gate takeSignal, gate send, gate GateAction.removeDependency, yield .proxy]

end Programs

/-- The digest a message is about, and the transaction it carries. -/
def digestOf : PrimaryToProxyMessage τ → TransactionDigest
  | .statelessTxn r => r.digest
  | .txn t _ _ | .combinedTxn t _ _ => t.digest

def transactionOf : PrimaryToProxyMessage τ → Option (RemoraTransaction τ)
  | .statelessTxn _ => none
  | .txn t _ _ | .combinedTxn t _ _ => some t

/-- An object inserted into a map. -/
def insertObject (o : ObjectID) (x : ω) : List (ObjectID × ω) → List (ObjectID × ω)
  | [] => [(o, x)]
  | (o', x') :: l =>
    if o < o' then (o, x) :: (o', x') :: l
    else if o = o' then (o, x) :: l
    else (o', x') :: insertObject o x l

/-! ## Actions -/

/-- An action of the dependency controller of `p`. -/
def tag (p : ProxyId) : Action ObjectVersion → Action (ProxyId × ObjectVersion)
  | .get k => .get (p, k)
  | .wait k => .wait (p, k)
  | .remove k => .remove (p, k)
  | .notify k => .notify (p, k)

variable (K : Cluster τ ω)

/-- A message on its way to `q`. Without a connection it is lost. -/
def send (q : ProxyId) (id : ThreadId) (th : Thread τ ω) : Option (ThreadId × Thread τ ω) :=
  if q ∈ K.connections then some (id, th) else none

/-- The thread that an action of `t` creates. -/
def spawned (t : ThreadId) (th : Thread τ ω) : ProxyAction ω → Option (ThreadId × Thread τ ω)
  | .spawnVerify => some (.verify t.messageId,
      spawn th.proxy th.digest none ⟨none, th.gate.tx, false⟩ verifyTask)
  | .sendStatelessRequest q => K.send q (.statelessRequest t.messageId)
      (spawn q th.digest none ⟨none, none, false⟩ (handleStatelessRequest K.mode th.proxy))
  | .sendStatelessReply q => K.send q (.statelessReply t.messageId)
      (spawn q th.digest none ⟨none, none, th.gate.verdict⟩ handleStatelessReply)
  | .sendRequest q k => K.send q (.request t.messageId k)
      (spawn q th.digest none ⟨none, none, false⟩ (handleStatefulRequest th.proxy k [k]))
  | .sendReply q k => K.send q (.reply t.messageId k)
      (spawn q th.digest none ⟨none, none, false⟩
        (handleStatefulReply K.executor.version th.objects))
  | _ => none

/-- What an action of `t` does to the shared resources and to the thread. -/
def perform (t : ThreadId) (R : Resources ω) (th : Thread τ ω) :
    ProxyAction ω → Option (Resources ω × Thread τ ω)
  | .take h =>
    if R.busy th.proxy h then none
    else some ({ R with busy := update R.busy th.proxy (update (R.busy th.proxy) h true) }, th)
  | .yield h =>
    some ({ R with busy := update R.busy th.proxy (update (R.busy th.proxy) h false) }, th)
  | .panic => none
  | .dep a => ((tag th.proxy a).perform R.deps th.held).map fun (T, held) =>
      ({ R with deps := T }, { th with held := held })
  | .gate g => (g.perform th.proxy th.digest (K.outcome t) R.gate th.gate).map fun (G, l) =>
      ({ R with gate := G }, { th with gate := l })
  | .spawnVerify => some (R, { th with gate := { th.gate with tx := none } })
  | .sendStatelessRequest q => if q ∈ K.connections then some (R, th) else none
  | .sendStatelessReply _ => some (R, th)
  | .sendRequest q _ => if q = th.proxy then none else some (R, th)
  | .sendReply _ _ => some (R, th)
  | .begin => some (R, { th with ready := th.gate.verdict })
  | .check x =>
    if th.ready then do
      let txn ← th.transaction
      let ok ← K.executor.checkInput txn x (R.stores th.proxy x.objectId)
      some (R, { th with ready := ok })
    else some (R, th)
  | .execute => some (R, { th with executed := th.ready })
  | .read o =>
    if th.ready then
      (R.stores th.proxy o).map fun x => (R, { th with readings := update th.readings o (some x) })
    else some (R, th)
  | .commit o =>
    if th.ready then do
      let txn ← th.transaction
      let x ← K.executor.output txn th.readings o
      some ({ R with
        stores := update R.stores th.proxy (update (R.stores th.proxy) o (some x)) }, th)
    else some (R, th)
  | .readState k =>
    match R.stores th.proxy k.1 with
    | some x =>
      if K.executor.version x = k.2 then
        some (R, { th with objects := insertObject k.1 x th.objects })
      else some (R, th)
    | none => some (R, th)
  | .commitNew o x =>
    some ({ R with stores := update R.stores th.proxy (update (R.stores th.proxy) o (some x)) },
      th)
  | .sendResult => some (R, th)

/-- The threads with a new one. -/
def addThread (threads : ThreadId → Option (Thread τ ω)) :
    Option (ThreadId × Thread τ ω) → ThreadId → Option (Thread τ ω)
  | some (id, th) => update threads id (some th)
  | none => threads

/-- The thread `t` performs its next action. -/
def runThread (s : State τ ω) (t : ThreadId) : Option (State τ ω) :=
  (s.threads t).bind fun th =>
    match th.todo with
    | [] => none
    | a :: rest => (perform K t s.resources th a).map fun (R, th') =>
        ⟨update (addThread s.threads (spawned K t th a)) t (some { th' with todo := rest }), R⟩

/-- A message of the primary reaches the proxy `p`. -/
def arrive (s : State τ ω) (m : MessageId) (p : ProxyId) (msg : PrimaryToProxyMessage τ) :
    Option (State τ ω) :=
  if (s.threads (.message m)).isNone ∧ p ∈ K.connections ∧
      (msg.requiredStates.map Prod.fst).Nodup then
    some { s with
      threads := update s.threads (.message m)
        (some (spawn p (digestOf msg) (transactionOf msg) ⟨none, none, false⟩
          (primaryMessage K.mode p msg))) }
  else none

/-! ## The proxies by themselves

Any messages may come from the primary, in any order. A required state is listed once. -/

inductive Event (τ : Type)
  | arrive (m : MessageId) (p : ProxyId) (msg : PrimaryToProxyMessage τ)
  | run (t : ThreadId)

def step (s : State τ ω) : Event τ → Option (State τ ω)
  | .arrive m p msg => arrive K s m p msg
  | .run t => runThread K s t

def system (genesis : ObjectID → Option ω) : Transition.System (State τ ω) (Event τ) where
  init s := s = State.init genesis
  step := step K

/-! ## Steps -/

/-- The thread `t` performs its action `a`. -/
structure RunStep (s s' : State τ ω) (t : ThreadId) (th th' : Thread τ ω) (a : ProxyAction ω)
    (rest : List (ProxyAction ω)) : Prop where
  thread : s.threads t = some th
  todo : th.todo = a :: rest
  perform : perform K t s.resources th a = some (s'.resources, th')
  threads : s'.threads =
    update (addThread s.threads (spawned K t th a)) t (some { th' with todo := rest })

variable {K} {s s' : State τ ω}

theorem runStep_of_runThread {t : ThreadId} (h : runThread K s t = some s') :
    ∃ th th' a rest, RunStep K s s' t th th' a rest := by
  obtain ⟨th, ht, h⟩ := Option.bind_eq_some_iff.mp h
  split at h
  · simp at h
  · rename_i a rest htodo
    obtain ⟨⟨R, th'⟩, hp, rfl⟩ := Option.map_eq_some_iff.mp h
    exact ⟨th, th', a, rest, ht, htodo, hp, rfl⟩

/-- Where a thread comes from. -/
theorem RunStep.cases {t : ThreadId} {th th' : Thread τ ω} {a : ProxyAction ω}
    {rest : List (ProxyAction ω)} (h : RunStep K s s' t th th' a rest) {u : ThreadId}
    {x : Thread τ ω} (hx : s'.threads u = some x) :
    (u = t ∧ x = { th' with todo := rest }) ∨
      (u ≠ t ∧ spawned K t th a = some (u, x)) ∨ (u ≠ t ∧ s.threads u = some x) := by
  rw [h.threads] at hx
  rcases eq_or_ne u t with rfl | hu
  · exact Or.inl ⟨rfl, by simpa using hx.symm⟩
  · rw [update_of_ne hu] at hx
    cases hs : spawned K t th a with
    | none => exact Or.inr (Or.inr ⟨hu, by simpa [hs, addThread] using hx⟩)
    | some new =>
      obtain ⟨id, new⟩ := new
      rw [hs, addThread] at hx
      rcases eq_or_ne u id with rfl | hid
      · exact Or.inr (Or.inl ⟨hu, by simpa using hx⟩)
      · exact Or.inr (Or.inr ⟨hu, by simpa [hid] using hx⟩)

theorem RunStep.threads_of_ne {t : ThreadId} {th th' : Thread τ ω} {a : ProxyAction ω}
    {rest : List (ProxyAction ω)} (h : RunStep K s s' t th th' a rest) {u : ThreadId}
    (hu : u ≠ t) (hs : ∀ x, spawned K t th a ≠ some (u, x)) : s'.threads u = s.threads u := by
  rw [h.threads, update_of_ne hu]
  cases hspawn : spawned K t th a with
  | none => rfl
  | some new =>
    obtain ⟨id, new⟩ := new
    refine update_of_ne ?_ _ _
    rintro rfl
    exact hs new hspawn

theorem RunStep.self {t : ThreadId} {th th' : Thread τ ω} {a : ProxyAction ω}
    {rest : List (ProxyAction ω)} (h : RunStep K s s' t th th' a rest) :
    s'.threads t = some { th' with todo := rest } := by
  rw [h.threads, update_self]

theorem RunStep.head_mem {t : ThreadId} {th th' : Thread τ ω} {a : ProxyAction ω}
    {rest : List (ProxyAction ω)} (h : RunStep K s s' t th th' a rest) : a ∈ th.todo := by
  rw [h.todo]
  exact List.mem_cons_self

theorem RunStep.mem_of_mem {t : ThreadId} {th th' : Thread τ ω} {a b : ProxyAction ω}
    {rest : List (ProxyAction ω)} (h : RunStep K s s' t th th' a rest) (hb : b ∈ rest) :
    b ∈ th.todo := by
  rw [h.todo]
  exact List.mem_cons_of_mem _ hb

theorem RunStep.notMem {t : ThreadId} {th th' : Thread τ ω} {a b : ProxyAction ω}
    {rest : List (ProxyAction ω)} (h : RunStep K s s' t th th' a rest) (hab : a ≠ b)
    (hb : b ∉ rest) : b ∉ th.todo := by
  rw [h.todo]
  exact fun hm => (List.mem_cons.mp hm).elim (fun h => hab h.symm) hb

theorem RunStep.gate {t : ThreadId} {th th' : Thread τ ω} {g : GateAction}
    {rest : List (ProxyAction ω)} (h : RunStep K s s' t th th' (.gate g) rest) :
    ∃ l, g.perform th.proxy th.digest (K.outcome t) s.resources.gate th.gate =
      some (s'.resources.gate, l) ∧ th' = { th with gate := l } := by
  obtain ⟨⟨G, l⟩, hg, hX⟩ := Option.map_eq_some_iff.mp h.perform
  obtain ⟨hR, rfl⟩ := Prod.mk.inj hX
  exact ⟨l, by rw [hg, ← hR], rfl⟩

/-! What is there, and what is done. -/

section Past

variable {t : ThreadId} {th th' : Thread τ ω} {a : ProxyAction ω} {rest : List (ProxyAction ω)}

/-- The thread is there, and has done `a`. -/
def Past (s : State τ ω) (t : ThreadId) (a : ProxyAction ω) : Prop :=
  ∃ th, s.threads t = some th ∧ a ∉ th.todo

/-- What is done stays done, and what is new is done by this step. -/
theorem RunStep.past_of_past (h : RunStep K s s' t th th' a rest) {u : ThreadId}
    {b : ProxyAction ω} (hs : ∀ x, spawned K t th a ≠ some (u, x)) (hp : Past s u b) :
    Past s' u b := by
  obtain ⟨x, hx, hb⟩ := hp
  rcases eq_or_ne u t with rfl | hu
  · obtain rfl := Option.some.inj (hx.symm.trans h.thread)
    rw [h.todo] at hb
    exact ⟨_, h.self, List.not_mem_of_not_mem_cons hb⟩
  · exact ⟨x, (h.threads_of_ne hu hs).trans hx, hb⟩

theorem RunStep.past_cases (h : RunStep K s s' t th th' a rest) {u : ThreadId}
    {b : ProxyAction ω} (hs : ∀ x, spawned K t th a ≠ some (u, x)) (hp : Past s' u b) :
    Past s u b ∨ (u = t ∧ a = b) := by
  obtain ⟨x, hx, hb⟩ := hp
  rcases eq_or_ne u t with rfl | hu
  · obtain rfl := Option.some.inj (hx.symm.trans h.self)
    by_cases hab : a = b
    · exact Or.inr ⟨rfl, hab⟩
    · exact Or.inl ⟨th, h.thread, h.notMem hab hb⟩
  · exact Or.inl ⟨x, (h.threads_of_ne hu hs).symm.trans hx, hb⟩

theorem RunStep.isSome_of_isSome (h : RunStep K s s' t th th' a rest) {u : ThreadId}
    (hu : (s.threads u).isSome) : (s'.threads u).isSome := by
  rcases eq_or_ne u t with rfl | hne
  · simp [h.self]
  · by_cases hs : ∃ x, spawned K t th a = some (u, x)
    · obtain ⟨x, hx⟩ := hs
      rw [h.threads, update_of_ne hne, hx]
      simp [addThread]
    · rw [h.threads_of_ne hne fun x hx => hs ⟨x, hx⟩]
      exact hu

/-- A thread that is created by no action but `b`. -/
theorem RunStep.isSome_cases (h : RunStep K s s' t th th' a rest) {u : ThreadId}
    (hu : (s'.threads u).isSome) :
    (s.threads u).isSome ∨ ∃ x, spawned K t th a = some (u, x) := by
  obtain ⟨x, hx⟩ := Option.isSome_iff_exists.mp hu
  rcases h.cases hx with ⟨rfl, -⟩ | ⟨-, hs⟩ | ⟨-, hold⟩
  · exact Or.inl (by simp [h.thread])
  · exact Or.inr ⟨x, hs⟩
  · exact Or.inl (by simp [hold])

theorem spawned_ne_message {th : Thread τ ω} (m : MessageId) (x : Thread τ ω) :
    spawned K t th a ≠ some (.message m, x) := by
  cases a <;> simp only [spawned, send] <;> (try split_ifs) <;> simp

theorem RunStep.isSome_of_spawned (h : RunStep K s s' t th th' a rest) {u : ThreadId}
    {x : Thread τ ω} (hs : spawned K t th a = some (u, x)) : (s'.threads u).isSome := by
  rcases eq_or_ne u t with rfl | hne
  · simp [h.self]
  · rw [h.threads, update_of_ne hne, hs]
    simp [addThread]

theorem RunStep.threads_of_ne_gate {g : GateAction} (h : RunStep K s s' t th th' (.gate g) rest)
    {u : ThreadId} (hu : u ≠ t) : s'.threads u = s.threads u :=
  h.threads_of_ne hu fun x hx => by simp [spawned] at hx

theorem past_congr {u : ThreadId} (h : s'.threads u = s.threads u) : Past s' u a ↔ Past s u a := by
  simp [Past, h]

theorem RunStep.not_past (h : RunStep K s s' t th th' a rest) : ¬Past s t a := by
  rintro ⟨x, hx, hnot⟩
  obtain rfl := Option.some.inj (hx.symm.trans h.thread)
  exact hnot h.head_mem

theorem runThread_eq_none {t : ThreadId} {th : Thread τ ω} {a : ProxyAction ω}
    {rest : List (ProxyAction ω)} (ht : s.threads t = some th) (htodo : th.todo = a :: rest) :
    runThread K s t = none ↔ perform K t s.resources th a = none := by
  simp [runThread, ht, htodo]

end Past

theorem arrive_eq_some {m : MessageId} {p : ProxyId} {msg : PrimaryToProxyMessage τ}
    (h : arrive K s m p msg = some s') :
    s.threads (.message m) = none ∧ p ∈ K.connections ∧
      (msg.requiredStates.map Prod.fst).Nodup ∧ s'.resources = s.resources ∧
      s'.threads = update s.threads (.message m) (some (spawn p (digestOf msg)
        (transactionOf msg) ⟨none, none, false⟩ (primaryMessage K.mode p msg))) := by
  simp only [arrive] at h
  split_ifs at h with hc
  obtain rfl := Option.some.inj h
  exact ⟨by simpa using hc.1, hc.2.1, hc.2.2, rfl, rfl⟩

section Arrive

variable {m : MessageId} {p : ProxyId} {msg : PrimaryToProxyMessage τ}
  (h : arrive K s m p msg = some s')
include h

/-- A message is a new thread. -/
theorem threads_of_arrive {u : ThreadId} {x : Thread τ ω} (hx : s.threads u = some x) :
    s'.threads u = some x := by
  obtain ⟨hnone, -, -, -, hthreads⟩ := arrive_eq_some h
  rw [hthreads, update_of_ne]
  · exact hx
  · rintro rfl
    simp [hnone] at hx

theorem threads_of_arrive_of_ne {u : ThreadId} (hu : u ≠ .message m) :
    s'.threads u = s.threads u := by
  obtain ⟨-, -, -, -, hthreads⟩ := arrive_eq_some h
  rw [hthreads, update_of_ne hu]

/-- Every other thread was there before. -/
theorem thread_of_arrive {u : ThreadId} {x : Thread τ ω} (hu : u ≠ .message m)
    (hx : s'.threads u = some x) : s.threads u = some x :=
  (threads_of_arrive_of_ne h hu).symm.trans hx

theorem arrive_cases {u : ThreadId} {x : Thread τ ω} (hx : s'.threads u = some x) :
    (u = .message m ∧ x = spawn p (digestOf msg) (transactionOf msg) ⟨none, none, false⟩
      (primaryMessage K.mode p msg)) ∨ s.threads u = some x := by
  rcases eq_or_ne u (.message m) with rfl | hu
  · obtain ⟨-, -, -, -, hthreads⟩ := arrive_eq_some h
    rw [hthreads, update_self] at hx
    exact Or.inl ⟨rfl, (Option.some.inj hx).symm⟩
  · exact Or.inr (thread_of_arrive h hu hx)

end Arrive

/-- The action writes the store. -/
def writes : ProxyAction ω → Bool
  | .commit _ | .commitNew _ _ => true
  | _ => false

/-- Each resource and each variable changes only by the actions that are about it. -/
structure Frame (a : ProxyAction ω) (R R' : Resources ω) (th th' : Thread τ ω) : Prop where
  proxy : th'.proxy = th.proxy
  digest : th'.digest = th.digest
  transaction : th'.transaction = th.transaction
  todo : th'.todo = th.todo
  busy : (∀ h, a ≠ .take h) → (∀ h, a ≠ .yield h) → R'.busy = R.busy
  deps : (∀ b, a ≠ .dep b) → R'.deps = R.deps ∧ th'.held = th.held
  gate : (∀ g, a ≠ .gate g) → R'.gate = R.gate
  locals : (∀ g, a ≠ .gate g) → a ≠ .spawnVerify → th'.gate = th.gate
  stores : writes a = false → R'.stores = R.stores
  ready : a ≠ .begin → (∀ x, a ≠ .check x) → th'.ready = th.ready
  executed : a ≠ .execute → th'.executed = th.executed
  readings : (∀ o, a ≠ .read o) → th'.readings = th.readings
  objects : (∀ k, a ≠ .readState k) → th'.objects = th.objects

theorem Frame.refl (a : ProxyAction ω) (R : Resources ω) (th : Thread τ ω) :
    Frame a R R th th := by
  constructor <;> simp

theorem perform_frame {t : ThreadId} {R R' : Resources ω} {th th' : Thread τ ω}
    {a : ProxyAction ω} (h : perform K t R th a = some (R', th')) : Frame a R R' th th' := by
  cases a with
  | take h' =>
    simp only [perform] at h
    split_ifs at h
    obtain ⟨rfl, rfl⟩ := Prod.mk.inj (Option.some.inj h)
    constructor <;> simp
  | yield h' =>
    obtain ⟨rfl, rfl⟩ := Prod.mk.inj (Option.some.inj h)
    constructor <;> simp
  | panic => simp [perform] at h
  | dep b =>
    obtain ⟨⟨T, held⟩, -, h⟩ := Option.map_eq_some_iff.mp h
    obtain ⟨rfl, rfl⟩ := Prod.mk.inj h
    constructor <;> simp
  | gate g =>
    obtain ⟨⟨G, l⟩, -, h⟩ := Option.map_eq_some_iff.mp h
    obtain ⟨rfl, rfl⟩ := Prod.mk.inj h
    constructor <;> simp
  | check x =>
    simp only [perform] at h
    split_ifs at h
    · obtain ⟨txn, -, h⟩ := Option.bind_eq_some_iff.mp h
      obtain ⟨ok, -, h⟩ := Option.bind_eq_some_iff.mp h
      obtain ⟨rfl, rfl⟩ := Prod.mk.inj (Option.some.inj h)
      constructor <;> simp
    · obtain ⟨rfl, rfl⟩ := Prod.mk.inj (Option.some.inj h)
      exact Frame.refl _ _ _
  | read o =>
    simp only [perform] at h
    split_ifs at h
    · obtain ⟨x, -, h⟩ := Option.map_eq_some_iff.mp h
      obtain ⟨rfl, rfl⟩ := Prod.mk.inj h
      constructor <;> simp
    · obtain ⟨rfl, rfl⟩ := Prod.mk.inj (Option.some.inj h)
      exact Frame.refl _ _ _
  | commit o =>
    simp only [perform] at h
    split_ifs at h
    · obtain ⟨txn, -, h⟩ := Option.bind_eq_some_iff.mp h
      obtain ⟨x, -, h⟩ := Option.bind_eq_some_iff.mp h
      obtain ⟨rfl, rfl⟩ := Prod.mk.inj (Option.some.inj h)
      constructor <;> simp [writes]
    · obtain ⟨rfl, rfl⟩ := Prod.mk.inj (Option.some.inj h)
      exact Frame.refl _ _ _
  | readState k =>
    simp only [perform] at h
    split at h
    · split_ifs at h <;> obtain ⟨rfl, rfl⟩ := Prod.mk.inj (Option.some.inj h)
      · constructor <;> simp
      · exact Frame.refl _ _ _
    · obtain ⟨rfl, rfl⟩ := Prod.mk.inj (Option.some.inj h)
      exact Frame.refl _ _ _
  | sendStatelessRequest q =>
    simp only [perform] at h
    split_ifs at h
    obtain ⟨rfl, rfl⟩ := Prod.mk.inj (Option.some.inj h)
    exact Frame.refl _ _ _
  | sendRequest q k =>
    simp only [perform] at h
    split_ifs at h
    obtain ⟨rfl, rfl⟩ := Prod.mk.inj (Option.some.inj h)
    exact Frame.refl _ _ _
  | spawnVerify | begin | execute | commitNew o x =>
    obtain ⟨rfl, rfl⟩ := Prod.mk.inj (Option.some.inj h)
    constructor <;> simp [writes]
  | sendStatelessReply q | sendReply q k | sendResult =>
    obtain ⟨rfl, rfl⟩ := Prod.mk.inj (Option.some.inj h)
    exact Frame.refl _ _ _

/-- A new thread carries on the message and the digest of the one that creates it. -/
theorem spawned_eq_some {t id : ThreadId} {th new : Thread τ ω} {a : ProxyAction ω}
    (h : spawned K t th a = some (id, new)) :
    id.messageId = t.messageId ∧ new.digest = th.digest := by
  cases a with
  | spawnVerify =>
    obtain ⟨rfl, rfl⟩ := Prod.mk.inj (Option.some.inj h)
    exact ⟨rfl, rfl⟩
  | sendStatelessRequest q | sendStatelessReply q | sendRequest q k | sendReply q k =>
    simp only [spawned, send] at h
    split_ifs at h
    obtain ⟨rfl, rfl⟩ := Prod.mk.inj (Option.some.inj h)
    exact ⟨rfl, rfl⟩
  | _ => simp [spawned] at h

end Cluster

end Remora
