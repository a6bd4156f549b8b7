import Remora.ResultRendezvous

/-!
# The result of a verification

In the primary-separation modes a transaction goes to one proxy for verification and to
one for execution. If they are the same, the two meet at the proxy's controller, in either
order. If not, the executing proxy asks the other one for the result, the request meets the
verification there, and the reply meets the stateful task at home.

At home the two may miss each other. The request is sent before the entry for the reply
is made, and a reply that finds no entry is dropped (`takeSignal`), after which the entry is
made and waited on for good. The stateful path has no such window : there the reply makes
the entry itself if it comes first. `no_lost_stateless_result` shows that a result is lost
in no other way.
-/

namespace Remora

namespace Cluster

open Function ProxyAction GateAction

variable {τ ω : Type} {K : Cluster τ ω} {s s' : State τ ω}

/-! ## Requests and replies in full -/

/-- The requests for results, and the replies, follow their programs. -/
structure Handled (K : Cluster τ ω) (s : State τ ω) : Prop where
  request : ∀ {m th}, s.threads (.statelessRequest m) = some th →
    ∃ p, th.todo <:+ handleStatelessRequest K.mode p
  reply : ∀ {m th}, s.threads (.statelessReply m) = some th → th.todo <:+ handleStatelessReply

theorem Handled.init (genesis : ObjectID → Option ω) :
    Handled K (State.init genesis : State τ ω) := by
  constructor <;> simp [State.init]

theorem Handled.arrive (hH : Handled K s) {m : MessageId} {p : ProxyId}
    {msg : PrimaryToProxyMessage τ} (h : arrive K s m p msg = some s') : Handled K s' := by
  refine ⟨fun ht => ?_, fun ht => ?_⟩
  · exact hH.request (thread_of_arrive h (by simp) ht)
  · exact hH.reply (thread_of_arrive h (by simp) ht)

theorem Handled.run {t : ThreadId} {th th' : Thread τ ω} {a : ProxyAction ω}
    {rest : List (ProxyAction ω)} (hH : Handled K s) (h : RunStep K s s' t th th' a rest) :
    Handled K s' := by
  refine ⟨fun ht => ?_, fun ht => ?_⟩
  · rcases h.cases ht with ⟨rfl, rfl⟩ | ⟨-, hs⟩ | ⟨-, hold⟩
    · obtain ⟨p, hp⟩ := hH.request h.thread
      exact ⟨p, Program.suffix_of_cons (h.todo ▸ hp)⟩
    · cases a <;> simp only [spawned, Cluster.send] at hs <;> (try split_ifs at hs) <;> cases hs
      exact ⟨_, List.suffix_rfl⟩
    · exact hH.request hold
  · rcases h.cases ht with ⟨rfl, rfl⟩ | ⟨-, hs⟩ | ⟨-, hold⟩
    · exact Program.suffix_of_cons (h.todo ▸ hH.reply h.thread)
    · cases a <;> simp only [spawned, Cluster.send] at hs <;> (try split_ifs at hs) <;> cases hs
      exact List.suffix_rfl
    · exact hH.reply hold

/-! ## No result is lost -/

section Lost

variable (D : Sending)

/-- The thread is about to take a sender out of the controller. -/
def takesSignal (th : Thread τ ω) : Bool :=
  match th.todo with
  | .gate .takeSignal :: _ => true
  | _ => false

/-- A reply about the digest is handled only when there is an entry for the digest. -/
def RegisteredFirst (s : State τ ω) : Event τ → Prop
  | .run (.statelessReply m) => ∀ th ∈ s.threads (.statelessReply m), takesSignal th = true →
      th.digest = D.digest → (s.resources.gate.controllers th.proxy th.digest).isSome
  | _ => True

/-- The thread, if it is there, is not in flight, and has stopped for good or can not go on
in this state. -/
def Stopped (K : Cluster τ ω) (s : State τ ω) (t : ThreadId) : Prop :=
  ∀ th, s.threads t = some th → (∀ h rest, th.todo ≠ take h :: rest) ∧ runThread K s t = none

/-- The verification is complete, no message about the digest is in flight or unprocessed,
and the stateful task still waits for the result, or has panicked on it. -/
structure Lost (K : Cluster τ ω) (s : State τ ω) : Prop where
  complete : ∃ th, s.threads D.verifyTask = some th ∧ th.todo = []
  verification : Stopped K s D.verification
  request : Stopped K s D.request
  reply : Stopped K s D.reply
  execution : ∃ th rest, s.threads D.execution = some th ∧ th.todo = gate await :: rest ∧
    runThread K s D.execution = none

structure ResultInv (K : Cluster τ ω) (s : State τ ω) : Prop where
  owned : ∃ δ, Owned δ s
  shape : Shape K D s
  handled : Handled K s
  meeting : Meeting D s
  homecoming : D.verifier ≠ D.executor → Homecoming D s

variable {D}

theorem ResultInv.init (genesis : ObjectID → Option ω) :
    ResultInv D K (State.init genesis : State τ ω) where
  owned := ⟨fun _ => (0, 0), Owned.init _ _⟩
  shape := Shape.init _
  handled := Handled.init _
  meeting := .idle (by simp [Past, State.init]) (by simp [Past, State.init]) rfl
  homecoming _ := .idle (by simp [Past, State.init]) (by simp [Past, State.init]) rfl

theorem ResultInv.step (hmode : K.mode.isPrimarySeparation = true) (hI : ResultInv D K s)
    {e : Event τ} (hsent : D.SentOnce e) (hreg : RegisteredFirst D s e)
    (h : step K s e = some s') : ResultInv D K s' := by
  obtain ⟨δ, hO⟩ := hI.owned
  cases e with
  | arrive m p msg =>
    have hQ := hI.shape.quiet_arrive hmode δ hsent h
    exact ⟨⟨δ, hO.arrive h⟩, hI.shape.arrive hmode hsent h, hI.handled.arrive h,
      hI.meeting.still hI.shape hO (hQ.still fun _ ht => ⟨ht.mine, ht.program_ne_nil⟩),
      fun hne => (hI.homecoming hne).still hne hI.shape hO
        (hQ.still fun _ ht => ⟨ht.mine, ht.program_ne_nil hne⟩)⟩
  | run t =>
    obtain ⟨th, th', a, rest, hstep⟩ := runStep_of_runThread h
    refine ⟨⟨_, hO.run hstep⟩, ?_, hI.handled.run hstep,
      hI.meeting.run hmode hI.shape hO hstep, fun hne =>
        (hI.homecoming hne).run hmode hne hI.shape hO hstep ?_⟩
    · by_cases hq : ¬D.Mine t ∨ isGate a = false
      · refine hI.shape.quiet (hI.shape.quiet_run hO hstep hq) (hI.shape.digest_run hstep)
          fun hx => ?_
        rcases hstep.isSome_cases hx with hx | ⟨x, hs⟩
        · exact hI.shape.connected hx
        · exact absurd hs (spawned_ne_message _ _)
      · obtain ⟨hmine, ha⟩ : D.Mine t ∧ isGate a = true := by simpa using hq
        exact hI.shape.run_gate hmode hstep hmine ha
    · rintro rfl rfl
      exact hreg th hstep.thread (by simp [takesSignal, hstep.todo])
        ((hI.shape.digest hstep.thread).mpr (Or.inr rfl))

/-- When the verification is complete, the result it was to send is there. -/
theorem ResultInv.value (hI : ResultInv D K s) {c : ℕ} (hp : Pending D s c)
    (hdone : ∃ th, s.threads D.verifyTask = some th ∧ th.todo = []) :
    s.resources.gate.values c ≠ none := by
  obtain ⟨v, hv, htodo⟩ := hdone
  rcases hp with ⟨x, hx, -, hm⟩ | ⟨x, hx, -, hm⟩ | hv
  · obtain ⟨y, hy, hnot⟩ := hI.shape.verify (by simp [hv])
    obtain rfl := Option.some.inj (hx.symm.trans hy)
    exact absurd hm hnot
  · obtain rfl := Option.some.inj (hx.symm.trans hv)
    simp [htodo] at hm
  · exact hv

/-- So the consumer has a receiver with a value. -/
theorem ResultInv.consumer (hI : ResultInv D K s) {x : Thread τ ω}
    (hx : s.threads D.consumer = some x) (hget : gate getDependency ∉ x.todo)
    (hdone : ∃ th, s.threads D.verifyTask = some th ∧ th.todo = []) :
    ∃ c, x.gate.rx = some c ∧ s.resources.gate.values c ≠ none := by
  have hpast : Past s D.verification (gate setLocalDependency) := by
    obtain ⟨v, hv, -⟩ := hdone
    obtain ⟨y, hy, hnot⟩ := hI.shape.verify (by simp [hv])
    have hview := hI.shape.view hy (Or.inl rfl)
    refine ⟨y, hy, fun hm => hnot ?_⟩
    rw [← mem_gateView rfl] at hm ⊢
    simp only [Sending.verification, Sending.program, List.suffix_cons_iff,
      List.suffix_nil] at hview
    rcases hview with hview | hview | hview <;> simp_all
  cases hI.meeting with
  | idle verification => exact absurd hpast verification
  | made _ _ consumer => exact absurd ⟨x, hx, hget⟩ consumer
  | asked _ _ verification => exact absurd hpast verification
  | met c y _ consumer _ rx pending =>
    obtain rfl := Option.some.inj (hx.symm.trans consumer)
    exact ⟨c, rx, hI.value pending hdone⟩

theorem perform_await {t : ThreadId} {th : Thread τ ω} {R : Resources ω} {c : ℕ}
    (hrx : th.gate.rx = some c) (hv : R.gate.values c ≠ none) :
    perform K t R th (gate await) ≠ none := by
  simp [perform, GateAction.perform, hrx, hv]

/-- A request that has stopped is done. -/
theorem ResultInv.request_done (hmode : K.mode.isPrimarySeparation = true)
    (hI : ResultInv D K s) (hne : D.verifier ≠ D.executor) {x : Thread τ ω}
    (hx : s.threads D.request = some x)
    (hdone : ∃ th, s.threads D.verifyTask = some th ∧ th.todo = [])
    (hstopped : Stopped K s D.request) : x.todo = [] := by
  obtain ⟨htake, hnone⟩ := hstopped x hx
  obtain ⟨p, hsuffix⟩ := hI.handled.request hx
  have hconsumer : s.threads D.consumer = some x := by rwa [Sending.consumer, if_neg hne]
  have hreceiver := fun hget => hI.consumer hconsumer hget hdone
  simp only [handleStatelessRequest, hmode, if_true, List.suffix_cons_iff,
    List.suffix_nil] at hsuffix
  rcases hsuffix with h | h | h | h | h | h | h | h
  · exact absurd h (htake _ _)
  · simp [runThread_eq_none hx h, perform, GateAction.perform] at hnone
  · obtain ⟨c, hrx, -⟩ := hreceiver (by simp [h])
    simp [runThread_eq_none hx h, perform, GateAction.perform, hrx] at hnone
  · simp [runThread_eq_none hx h, perform] at hnone
  · obtain ⟨c, hrx, hv⟩ := hreceiver (by simp [h])
    exact absurd ((runThread_eq_none hx h).mp hnone) (perform_await hrx hv)
  · simp [runThread_eq_none hx h, perform, GateAction.perform] at hnone
  · simp [runThread_eq_none hx h, perform] at hnone
  · exact h

theorem ResultInv.reply_done (hI : ResultInv D K s) {x : Thread τ ω}
    (hx : s.threads D.reply = some x) (hstopped : Stopped K s D.reply) : x.todo = [] := by
  obtain ⟨htake, hnone⟩ := hstopped x hx
  have hsuffix := hI.handled.reply hx
  simp only [handleStatelessReply, List.suffix_cons_iff, List.suffix_nil] at hsuffix
  rcases hsuffix with h | h | h | h | h | h
  · exact absurd h (htake _ _)
  · simp [runThread_eq_none hx h, perform, GateAction.perform] at hnone
  · rw [runThread_eq_none hx h] at hnone
    simp only [perform, GateAction.perform, Option.map_eq_none_iff] at hnone
    split at hnone <;> cases hnone
  · simp [runThread_eq_none hx h, perform, GateAction.perform] at hnone
  · simp [runThread_eq_none hx h, perform] at hnone
  · exact h

theorem ResultInv.not_lost (hmode : K.mode.isPrimarySeparation = true) (hI : ResultInv D K s) :
    ¬Lost D K s := by
  rintro ⟨hdone, -, hrequest, hreply, x, rest, hx, htodo, hnone⟩
  rw [runThread_eq_none hx htodo] at hnone
  have hview := hI.shape.view hx (Or.inr rfl)
  rw [htodo, gateView, List.filter_cons_of_pos rfl, ← gateView] at hview
  by_cases hne : D.verifier = D.executor
  · have hget : gate getDependency ∉ x.todo := by
      simp only [Sending.execution, Sending.program, if_pos hne, List.suffix_cons_iff,
        List.suffix_nil, List.cons.injEq, ProxyAction.gate.injEq, reduceCtorEq, false_and,
        false_or, or_false, true_and] at hview
      rw [htodo, List.mem_cons, ← mem_gateView rfl, hview]
      simp
    obtain ⟨c, hrx, hv⟩ := hI.consumer (by rwa [Sending.consumer, if_pos hne]) hget hdone
    exact perform_await hrx hv hnone
  · have hrest : gateView rest = [gate removeAwaited] := by
      simpa [Sending.execution, Sending.program, if_neg hne, List.suffix_cons_iff] using hview
    have hpast : ∀ {b}, isGate b = true → b ≠ gate await → b ≠ gate removeAwaited → b ∉ x.todo := by
      intro b hb h1 h2
      rw [htodo, List.mem_cons, ← mem_gateView hb, hrest]
      simp [h1, h2]
    obtain ⟨q, hq⟩ := Option.isSome_iff_exists.mp
      ((hI.shape.request hne).mpr ⟨x, hx, hpast rfl (by simp) (by simp)⟩)
    have hqdone := hI.request_done hmode hne hq hdone hrequest
    obtain ⟨y, hy⟩ := Option.isSome_iff_exists.mp
      ((hI.shape.reply hne).mpr ⟨q, hq, by simp [hqdone]⟩)
    have hydone := hI.reply_done hy hreply
    cases hI.homecoming hne with
    | idle execution => exact execution ⟨x, hx, hpast rfl (by simp) (by simp)⟩
    | waiting _ _ _ _ _ _ reply => exact reply ⟨y, hy, by simp [hydone]⟩
    | taken _ _ z _ _ _ reply _ _ send =>
      obtain rfl := Option.some.inj (hy.symm.trans reply)
      simp [hydone] at send
    | sent c z execution _ rx value =>
      obtain rfl := Option.some.inj (hx.symm.trans execution)
      exact perform_await rx value hnone

/-- In the primary-separation modes, a digest sent once for verification and once for
execution. In every run in which a reply with its result is handled only after the
executing proxy has made the entry for it, no state is reached in which the result is
lost. If the two proxies are the same there are no such replies. -/
theorem no_lost_stateless_result (hmode : K.mode.isPrimarySeparation = true)
    {genesis : ObjectID → Option ω}
    (h : (system K genesis).ReachableVia (fun s e => D.SentOnce e ∧ RegisteredFirst D s e) s) :
    ¬Lost D K s := by
  have hI : ResultInv D K s := by
    refine h.invariant (fun s hs => ?_) fun s e s' _ hI hok hs => hI.step hmode hok.1 hok.2 hs
    obtain rfl : s = State.init genesis := hs
    exact ResultInv.init genesis
  exact hI.not_lost hmode

/-! ## A lost result -/

instance (D : Sending) (m : MessageId) (p : ProxyId) :
    ∀ msg : PrimaryToProxyMessage τ, Decidable (D.IsSent m p msg)
  | .statelessTxn r => inferInstanceAs (Decidable (m = .stateless D.stateless ∧
      p = D.verifier ∧ r.digest = D.digest))
  | .txn t q _ => inferInstanceAs (Decidable (m = .stateful D.stateful ∧ p = D.executor ∧
      q = D.verifier ∧ t.digest = D.digest))
  | .combinedTxn _ _ _ => isFalse id

instance (D : Sending) : ∀ e : Event τ, Decidable (D.SentOnce e)
  | .arrive m p msg => inferInstanceAs (Decidable (digestOf msg = D.digest ∨
      m = .stateless D.stateless ∨ m = .stateful D.stateful → D.IsSent m p msg))
  | .run _ => isTrue trivial

instance (D : Sending) (s : State τ ω) : ∀ e : Event τ, Decidable (RegisteredFirst D s e)
  | .run (.statelessReply m) => inferInstanceAs (Decidable (∀ th ∈ s.threads (.statelessReply m),
      takesSignal th = true → th.digest = D.digest →
        (s.resources.gate.controllers th.proxy th.digest).isSome))
  | .arrive _ _ _ | .run (.verify _) | .run (.request _ _) | .run (.reply _ _)
  | .run (.statelessRequest _) | .run (.message _) => isTrue trivial

/-- Two proxies, of which 0 verifies the transaction and 1 executes it. -/
def twoProxies : Cluster Unit FakeObject where
  mode := .PrimaryPostSeparation
  connections := [0, 1]
  executor := fakeExecutor Unit
  outcome := fun _ => true

def spendApart : Sending where
  digest := 10
  stateless := 0
  stateful := 0
  verifier := 0
  executor := 1

/-- The transaction is verified, and the executing proxy has asked for the result. -/
def askForResult : List (Event Unit) :=
  statelessCopy 0 ++ verifyCopy 0 ++ [.arrive (.stateful 0) 1 (.txn spend 0 [])] ++
    List.replicate 2 (.run spendApart.execution)

/-- The result is sent back and handled. -/
def answerRequest : List (Event Unit) :=
  List.replicate 7 (.run spendApart.request) ++ List.replicate 5 (.run spendApart.reply)

/-- The entry is made, and the task gets to where it awaits the result. -/
def awaitResult : List (Event Unit) :=
  List.replicate 2 (.run spendApart.execution)

/-- The task has nothing left to do. -/
def isDone (th : Thread τ ω) : Bool :=
  th.todo.isEmpty

def awaits (th : Thread τ ω) : Bool :=
  match th.todo with
  | .gate .await :: _ => true
  | _ => false

/-- The entry is made before the reply is handled, and the transaction is executed. -/
theorem no_lost_stateless_result_apart : ∃ s : State Unit FakeObject,
    (system twoProxies oneCoin).ReachableVia
      (fun s e => spendApart.SentOnce e ∧ RegisteredFirst spendApart s e) s ∧
    (s.threads spendApart.reply).map isDone = some true ∧
    (s.threads spendApart.execution).map Thread.executed = some true ∧
    ¬Lost spendApart twoProxies s := by
  have hview : (((system twoProxies oneCoin).runVia
      (fun s e => spendApart.SentOnce e ∧ RegisteredFirst spendApart s e) (State.init oneCoin)
      (askForResult ++ awaitResult ++ answerRequest ++
        List.replicate 4 (.run spendApart.execution))).map fun s =>
      ((s.threads spendApart.reply).map isDone,
        (s.threads spendApart.execution).map Thread.executed)) = some (some true, some true) := by
    decide
  obtain ⟨s, hrun, hview⟩ := Option.map_eq_some_iff.mp hview
  obtain ⟨hreply, hexec⟩ := Prod.mk.inj hview
  have hs := Transition.System.reachableVia_runVia (.init rfl) hrun
  exact ⟨s, hs, hreply, hexec, no_lost_stateless_result rfl hs⟩

theorem stopped_of_isDone {t : ThreadId} (h : (s.threads t).map isDone = some true) :
    Stopped K s t := by
  intro th ht
  have htodo : th.todo = [] := by simpa [ht, isDone] using h
  exact ⟨by simp [htodo], by simp [runThread, ht, htodo]⟩

/-- The reply comes back between the request and the entry. It finds none and is dropped,
and the task waits for good. -/
theorem stateless_result_lost : ∃ s : State Unit FakeObject,
    (system twoProxies oneCoin).ReachableVia (fun _ e => spendApart.SentOnce e) s ∧
      Lost spendApart twoProxies s := by
  have hview : (((system twoProxies oneCoin).runVia (fun _ e => spendApart.SentOnce e)
      (State.init oneCoin) (askForResult ++ answerRequest ++ awaitResult)).map fun s =>
      ([spendApart.verifyTask, spendApart.verification, spendApart.request,
          spendApart.reply].map fun t => (s.threads t).map isDone,
        (s.threads spendApart.execution).map awaits,
        (runThread twoProxies s spendApart.execution).isNone)) =
      some ([some true, some true, some true, some true], some true, true) := by decide
  obtain ⟨s, hrun, hview⟩ := Option.map_eq_some_iff.mp hview
  simp only [List.map_cons, List.map_nil, Prod.mk.injEq, List.cons.injEq, and_true] at hview
  obtain ⟨⟨htask, hverification, hrequest, hreply⟩, hawaits, hnone⟩ := hview
  refine ⟨s, Transition.System.reachableVia_runVia (.init rfl) hrun, ?_,
    stopped_of_isDone hverification, stopped_of_isDone hrequest, stopped_of_isDone hreply, ?_⟩
  · obtain ⟨th, ht, hdone⟩ := Option.map_eq_some_iff.mp htask
    exact ⟨th, ht, List.isEmpty_iff.mp hdone⟩
  · obtain ⟨th, ht, hawait⟩ := Option.map_eq_some_iff.mp hawaits
    unfold awaits at hawait
    split at hawait
    · rename_i rest htodo
      exact ⟨th, rest, ht, htodo, Option.isNone_iff_eq_none.mp hnone⟩
    · cases hawait

end Lost

end Cluster

end Remora
