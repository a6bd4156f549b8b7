import Remora.Proxy

/-!
# The verification gate

A transaction is executed only if it was verified : some call of `verify_transaction` on
its digest has returned true before. The stateful task learns the result through a oneshot
channel, and every channel stays with the proxy that created it and with one digest
(`Owned`), so that a receiver of `d` gets the result of a verification of `d`.

The gate has a hole. `get_dependency` returns nothing when the entry it finds has lost both
its ends, and in the separation modes a task without a receiver takes the transaction as
verified. This takes three copies of one transaction. `verification_gate` shows that it
is the only hole : as long as no stateful task finds such an entry, nothing is executed
without verification.
-/

namespace Remora

namespace Cluster

open Function

variable {τ ω : Type} {K : Cluster τ ω} {s s' : State τ ω}

/-! ## Channels -/

/-- Each channel has a proxy and a digest, and both of its ends stay with them. -/
structure Owned (δ : ℕ → ProxyId × TransactionDigest) (s : State τ ω) : Prop where
  map : ∀ {p d c}, (s.resources.gate.controllers p).Holds d c →
    c < s.resources.gate.fresh ∧ δ c = (p, d)
  thread : ∀ {t th c}, s.threads t = some th → th.gate.Holds c →
    c < s.resources.gate.fresh ∧ δ c = (th.proxy, th.digest)
  value : ∀ {c}, s.resources.gate.values c ≠ none → c < s.resources.gate.fresh

theorem Owned.init (δ : ℕ → ProxyId × TransactionDigest) (genesis : ObjectID → Option ω) :
    Owned δ (State.init genesis : State τ ω) where
  map h := by simp [State.init, Gate.empty, ObjectTaskMap.Holds] at h
  thread h := by simp [State.init] at h
  value h := by simp [State.init, Gate.empty] at h

theorem Owned.arrive {δ : ℕ → ProxyId × TransactionDigest} (hO : Owned δ s) {m : MessageId}
    {p : ProxyId} {msg : PrimaryToProxyMessage τ} (h : arrive K s m p msg = some s') :
    Owned δ s' := by
  obtain ⟨-, -, -, hR, -⟩ := arrive_eq_some h
  refine ⟨fun h => hR ▸ hO.map (hR ▸ h), fun {u x c} hx hc => ?_, fun h => hR ▸ hO.value (hR ▸ h)⟩
  rcases arrive_cases h hx with ⟨-, rfl⟩ | hx
  · simp [spawn, Gate.Locals.Holds] at hc
  · exact hR ▸ hO.thread hx hc

/-- A new thread has at most the sender of the one that creates it. -/
theorem holds_of_spawned {t id : ThreadId} {th new : Thread τ ω} {a : ProxyAction ω} {c : ℕ}
    (h : spawned K t th a = some (id, new)) (hc : new.gate.Holds c) :
    th.gate.Holds c ∧ new.proxy = th.proxy := by
  cases a with
  | spawnVerify =>
    obtain ⟨rfl, rfl⟩ := Prod.mk.inj (Option.some.inj h)
    exact ⟨Or.inr (by simpa [spawn, Gate.Locals.Holds] using hc), rfl⟩
  | sendStatelessRequest q | sendStatelessReply q | sendRequest q k | sendReply q k =>
    simp only [spawned, send] at h
    split_ifs at h
    obtain ⟨rfl, rfl⟩ := Prod.mk.inj (Option.some.inj h)
    simp [spawn, Gate.Locals.Holds] at hc
  | _ => simp [spawned] at h

/-- It knows at most the result that one knows, and has not started to execute. -/
theorem locals_of_spawned {t id : ThreadId} {th new : Thread τ ω} {a : ProxyAction ω}
    (h : spawned K t th a = some (id, new)) :
    (new.gate.verdict = true → th.gate.verdict = true) ∧ new.ready = false ∧
      new.executed = false := by
  cases a with
  | spawnVerify =>
    obtain ⟨rfl, rfl⟩ := Prod.mk.inj (Option.some.inj h)
    exact ⟨by simp [spawn], rfl, rfl⟩
  | sendStatelessRequest q | sendStatelessReply q | sendRequest q k | sendReply q k =>
    simp only [spawned, send] at h
    split_ifs at h
    obtain ⟨rfl, rfl⟩ := Prod.mk.inj (Option.some.inj h)
    exact ⟨by simp [spawn], rfl, rfl⟩
  | _ => simp [spawned] at h

/-- What a step of a thread does to the ends of channels. -/
theorem RunStep.ends {t : ThreadId} {th th' : Thread τ ω} {a : ProxyAction ω}
    {rest : List (ProxyAction ω)} (h : RunStep K s s' t th th' a rest) :
    GateAction.Ends th.proxy th.digest s.resources.gate s'.resources.gate th.gate th'.gate := by
  by_cases ha : ∃ g, a = .gate g
  · obtain ⟨g, rfl⟩ := ha
    obtain ⟨l, hg, rfl⟩ := h.gate
    exact GateAction.ends_of_perform hg
  · have hne : ∀ g, a ≠ .gate g := fun g hg => ha ⟨g, hg⟩
    have hF := perform_frame h.perform
    refine GateAction.Ends.of_controllers (by rw [hF.gate hne]) (by rw [hF.gate hne]) fun c hc => ?_
    by_cases hv : a = .spawnVerify
    · subst hv
      obtain ⟨-, rfl⟩ := Prod.mk.inj (Option.some.inj h.perform)
      exact Or.inl (by simpa [Gate.Locals.Holds] using hc)
    · exact hF.locals hne hv ▸ hc

theorem RunStep.entry_of_ne {t : ThreadId} {th th' : Thread τ ω} {a : ProxyAction ω}
    {rest : List (ProxyAction ω)} (h : RunStep K s s' t th th' a rest) {p : ProxyId}
    {d : TransactionDigest} (hne : p ≠ th.proxy ∨ d ≠ th.digest) :
    s'.resources.gate.controllers p d = s.resources.gate.controllers p d := by
  by_cases ha : ∃ g, a = .gate g
  · obtain ⟨g, rfl⟩ := ha
    obtain ⟨l, hg, -⟩ := h.gate
    exact GateAction.controllers_of_perform hg hne
  · rw [(perform_frame h.perform).gate fun g hg => ha ⟨g, hg⟩]

theorem RunStep.values {t : ThreadId} {th th' : Thread τ ω} {a : ProxyAction ω}
    {rest : List (ProxyAction ω)} (h : RunStep K s s' t th th' a rest) (c : ℕ) :
    s'.resources.gate.values c = s.resources.gate.values c ∨
      (a = .gate .send ∧ th.gate.tx = some c ∧
        s'.resources.gate.values c = some th.gate.verdict) := by
  by_cases ha : ∃ g, a = .gate g
  · obtain ⟨g, rfl⟩ := ha
    obtain ⟨l, hg, -⟩ := h.gate
    exact (GateAction.values_of_perform hg c).imp id fun h => ⟨by rw [h.1], h.2⟩
  · rw [(perform_frame h.perform).gate fun g hg => ha ⟨g, hg⟩]
    exact Or.inl rfl

/-- A new channel belongs to the thread that creates it. -/
theorem Owned.run {δ : ℕ → ProxyId × TransactionDigest} (hO : Owned δ s) {t : ThreadId}
    {th th' : Thread τ ω} {a : ProxyAction ω} {rest : List (ProxyAction ω)}
    (h : RunStep K s s' t th th' a rest) :
    Owned (update δ s.resources.gate.fresh (th.proxy, th.digest)) s' := by
  have hE := h.ends
  have hF := perform_frame h.perform
  have hold : ∀ {c q}, c < s.resources.gate.fresh ∧ δ c = q → c < s'.resources.gate.fresh ∧
      update δ s.resources.gate.fresh (th.proxy, th.digest) c = q := by
    rintro c q ⟨hlt, hq⟩
    exact ⟨hlt.trans_le hE.le, by rw [update_of_ne hlt.ne, hq]⟩
  have hmine : ∀ {c}, th.gate.Holds c ∨ (s.resources.gate.controllers th.proxy).Holds th.digest c ∨
      (c = s.resources.gate.fresh ∧ s.resources.gate.fresh < s'.resources.gate.fresh) →
      c < s'.resources.gate.fresh ∧
        update δ s.resources.gate.fresh (th.proxy, th.digest) c = (th.proxy, th.digest) := by
    rintro c (hc | hc | ⟨rfl, hlt⟩)
    · exact hold (hO.thread h.thread hc)
    · exact hold (hO.map hc)
    · exact ⟨hlt, by simp⟩
  refine ⟨fun hc => ?_, fun {u x c} hx hc => ?_, fun {c} hc => ?_⟩
  · rcases hE.map hc with hc | ⟨rfl, rfl, hnew⟩
    · exact hold (hO.map hc)
    · exact hmine (Or.inr (Or.inr hnew))
  · rcases h.cases hx with ⟨rfl, rfl⟩ | ⟨-, hs⟩ | ⟨-, hx⟩
    · rw [hF.proxy, hF.digest]
      exact hmine (hE.thread hc)
    · obtain ⟨hc, hp⟩ := holds_of_spawned hs hc
      rw [hp, (spawned_eq_some hs).2]
      exact hmine (Or.inl hc)
    · exact hold (hO.thread hx hc)
  · rcases h.values c with hv | ⟨-, htx, -⟩
    · exact (hO.value (hv ▸ hc)).trans_le hE.le
    · exact (hmine (Or.inl (Or.inr htx))).1

/-! ## Results -/

/-- Where results come from : what a channel holds was sent by a thread that knew it, and
a thread knows the result of its own verification or of a channel, unless it awaits
nothing. -/
structure Results (a : ProxyAction ω) (G G' : Gate) (th th' : Thread τ ω) : Prop where
  verified : ∀ {d}, G.verified d = true → G'.verified d = true
  value : ∀ {c}, G'.values c = some true →
    G.values c = some true ∨ (th.gate.tx = some c ∧ th.gate.verdict = true)
  verdict : th'.gate.verdict = true → th.gate.verdict = true ∨ G'.verified th.digest = true ∨
    (∃ c, th.gate.rx = some c ∧ G.values c = some true) ∨ (a = .gate .await ∧ th.gate.rx = none)
  rx : a ≠ .gate .getDependency → a ≠ .gate .setRemoteDependency → th'.gate.rx = th.gate.rx

theorem Results.refl (a : ProxyAction ω) (G : Gate) (th th' : Thread τ ω)
    (hv : th'.gate.verdict = th.gate.verdict) (hrx : th'.gate.rx = th.gate.rx) :
    Results a G G th th' where
  verified := id
  value := Or.inl
  verdict h := Or.inl (hv ▸ h)
  rx _ _ := hrx

theorem RunStep.results {t : ThreadId} {th th' : Thread τ ω} {a : ProxyAction ω}
    {rest : List (ProxyAction ω)} (h : RunStep K s s' t th th' a rest) :
    Results a s.resources.gate s'.resources.gate th th' := by
  by_cases ha : ∃ g, a = .gate g
  · obtain ⟨g, rfl⟩ := ha
    obtain ⟨l, hg, rfl⟩ := h.gate
    generalize s'.resources.gate = G at hg
    cases g with
    | setLocalDependency | setRemoteDependency | getDependency | takeSignal | removeDependency =>
      obtain ⟨rfl, rfl⟩ := Prod.mk.inj (Option.some.inj hg)
      exact ⟨id, Or.inl, Or.inl, by simp⟩
    | unwrapReceiver | removeAwaited =>
      simp only [GateAction.perform] at hg
      split_ifs at hg <;> obtain ⟨rfl, rfl⟩ := Prod.mk.inj (Option.some.inj hg) <;>
        exact ⟨id, Or.inl, Or.inl, by simp⟩
    | verifyTransaction =>
      obtain ⟨rfl, rfl⟩ := Prod.mk.inj (Option.some.inj hg)
      refine ⟨fun {d} hd => ?_, Or.inl, fun hv => Or.inr (Or.inl (by simp_all)), by simp⟩
      rcases eq_or_ne d th.digest with rfl | hne
      · simp [hd]
      · simpa [hne] using hd
    | send =>
      simp only [GateAction.perform] at hg
      split at hg <;> obtain ⟨rfl, rfl⟩ := Prod.mk.inj (Option.some.inj hg)
      · rename_i c htx
        refine ⟨id, fun {c'} hc' => ?_, Or.inl, by simp⟩
        rcases eq_or_ne c' c with rfl | hne
        · exact Or.inr ⟨htx, by simpa using hc'⟩
        · exact Or.inl (by simpa [hne] using hc')
      · exact ⟨id, Or.inl, Or.inl, by simp⟩
    | await =>
      simp only [GateAction.perform] at hg
      split at hg
      · rename_i c hrx
        obtain ⟨v, hv, hg⟩ := Option.map_eq_some_iff.mp hg
        obtain ⟨rfl, rfl⟩ := Prod.mk.inj hg
        refine ⟨id, Or.inl, fun htrue => Or.inr (Or.inr (Or.inl ⟨c, hrx, ?_⟩)), by simp⟩
        obtain rfl : v = true := htrue
        exact hv
      · rename_i hrx
        obtain ⟨rfl, rfl⟩ := Prod.mk.inj (Option.some.inj hg)
        exact ⟨id, Or.inl, fun _ => Or.inr (Or.inr (Or.inr ⟨rfl, hrx⟩)), by simp⟩
  · have hne : ∀ g, a ≠ .gate g := fun g hg => ha ⟨g, hg⟩
    have hF := perform_frame h.perform
    rw [hF.gate hne]
    by_cases hv : a = .spawnVerify
    · subst hv
      obtain ⟨-, rfl⟩ := Prod.mk.inj (Option.some.inj h.perform)
      exact Results.refl _ _ _ _ rfl rfl
    · exact Results.refl _ _ _ _ (by rw [hF.locals hne hv]) (by rw [hF.locals hne hv])

/-! ## Receivers -/

/-- The next action on a receiver awaits it. -/
def needsReceiver : List (ProxyAction ω) → Bool
  | [] => false
  | .gate .await :: _ => true
  | .gate .getDependency :: _ | .gate .setRemoteDependency :: _
  | .gate .unwrapReceiver :: _ => false
  | _ :: todo => needsReceiver todo

theorem needsReceiver_of_notMem : ∀ {todo : List (ProxyAction ω)}, .gate .await ∉ todo →
    needsReceiver todo = false
  | [], _ => rfl
  | a :: todo, h => by
    have ih := needsReceiver_of_notMem (List.not_mem_of_not_mem_cons h)
    unfold needsReceiver
    split <;> simp_all

/-- The task looks up its receiver, gets one for a remote result, or verifies by itself. -/
theorem needsReceiver_processStatefulTransaction (mode : SeparationMode) (p : ProxyId)
    (txn : RemoraTransaction τ) (q : ProxyId) (states : RequiredStates) :
    needsReceiver (processStatefulTransaction (ω := ω) mode p txn q states) = false := by
  cases hm : mode.isProxySeparation with
  | true =>
    by_cases hq : q = p <;>
      simp [processStatefulTransaction, statelessHandle, hm, hq, needsReceiver]
  | false =>
    apply needsReceiver_of_notMem
    by_cases hshared : txn.inputs.any InputObjectKind.isShared <;>
      simp [processStatefulTransaction, statelessHandle, statefulRequests, spawnStatefulTxn,
        statelessVerified, executeTransaction, hm, hshared]

theorem needsReceiver_primaryMessage (mode : SeparationMode) (p : ProxyId)
    (msg : PrimaryToProxyMessage τ) :
    needsReceiver (primaryMessage (ω := ω) mode p msg) = false := by
  have h := needsReceiver_processStatefulTransaction (τ := τ) (ω := ω) mode p
  cases msg <;> simp only [primaryMessage, handlePrimaryMessage, needsReceiver] <;>
    split_ifs <;>
    simp_all [processStatelessTransaction, needsReceiver]

/-- Every receiver that is looked up is unwrapped at once. -/
def Unwraps (todo : List (ProxyAction ω)) : Prop :=
  ∀ rest, .gate .getDependency :: rest <:+ todo → ∃ rest', rest = .gate .unwrapReceiver :: rest'

theorem unwraps_of_notMem {todo : List (ProxyAction ω)} (h : .gate .getDependency ∉ todo) :
    Unwraps todo :=
  fun _ hs => absurd (hs.subset List.mem_cons_self) h

theorem Unwraps.tail {a : ProxyAction ω} {todo : List (ProxyAction ω)}
    (h : Unwraps (a :: todo)) : Unwraps todo :=
  fun rest hs => h rest (hs.trans (List.suffix_cons a todo))

theorem unwraps_handleStatelessRequest (mode : SeparationMode) (requester : ProxyId) :
    Unwraps (handleStatelessRequest (ω := ω) mode requester) := by
  unfold handleStatelessRequest
  split_ifs
  · intro rest hs
    simp only [List.suffix_cons_iff, List.suffix_nil] at hs
    rcases hs with hs | hs | hs | hs | hs | hs | hs | hs <;> simp_all
  · exact unwraps_of_notMem (by simp)

theorem spawned_receiver {t id : ThreadId} {th new : Thread τ ω} {a : ProxyAction ω}
    (h : spawned K t th a = some (id, new)) :
    needsReceiver new.todo = false ∧ Unwraps new.todo := by
  cases a with
  | spawnVerify =>
    obtain ⟨rfl, rfl⟩ := Prod.mk.inj (Option.some.inj h)
    exact ⟨rfl, unwraps_of_notMem (by simp [spawn, verifyTask])⟩
  | sendStatelessRequest q =>
    simp only [spawned, send] at h
    split_ifs at h
    obtain ⟨rfl, rfl⟩ := Prod.mk.inj (Option.some.inj h)
    refine ⟨?_, unwraps_handleStatelessRequest _ _⟩
    simp only [spawn, handleStatelessRequest]
    split_ifs <;> rfl
  | sendStatelessReply q =>
    simp only [spawned, send] at h
    split_ifs at h
    obtain ⟨rfl, rfl⟩ := Prod.mk.inj (Option.some.inj h)
    exact ⟨rfl, unwraps_of_notMem (by simp [spawn, handleStatelessReply])⟩
  | sendRequest q k =>
    simp only [spawned, send] at h
    split_ifs at h
    obtain ⟨rfl, rfl⟩ := Prod.mk.inj (Option.some.inj h)
    simp only [spawn, handleStatefulRequest]
    split
    · exact ⟨rfl, unwraps_of_notMem (by simp)⟩
    · exact ⟨needsReceiver_of_notMem (by simp), unwraps_of_notMem (by simp)⟩
  | sendReply q k =>
    simp only [spawned, send] at h
    split_ifs at h
    obtain ⟨rfl, rfl⟩ := Prod.mk.inj (Option.some.inj h)
    simp only [spawn, handleStatefulReply]
    split
    · exact ⟨rfl, unwraps_of_notMem (by simp)⟩
    · exact ⟨needsReceiver_of_notMem (by simp), unwraps_of_notMem (by simp)⟩
  | _ => simp [spawned] at h

/-! ## The gate -/

/-- A transaction is executed only if a verification of its digest has returned true. -/
def Gated (s : State τ ω) : Prop :=
  ∀ t th, s.threads t = some th → th.executed = true →
    s.resources.gate.verified th.digest = true

/-- There is no entry for the digest, or it has a receiver. -/
def HasReceiver (M : ObjectTaskMap) (d : TransactionDigest) : Prop :=
  ∀ e ∈ M d, ∃ h ∈ e, h.rx.isSome

/-- The thread is about to call `get_dependency`. -/
def looksUp (th : Thread τ ω) : Bool :=
  match th.todo with
  | .gate .getDependency :: _ => true
  | _ => false

/-- `get_dependency` of a stateful task is called on such an entry. -/
def FindsReceiver (s : State τ ω) : Event τ → Prop
  | .run (.message m) => ∀ th ∈ s.threads (.message m), looksUp th = true →
      HasReceiver (s.resources.gate.controllers th.proxy) th.digest
  | _ => True

/-- The lookup returns a receiver. -/
theorem isSome_getDependency {M : ObjectTaskMap} {d : TransactionDigest} (channel : ℕ)
    (h : HasReceiver M d) : (OneshotDependencyController.getDependency M channel d).2.isSome := by
  unfold OneshotDependencyController.getDependency
  split
  · rename_i hM
    obtain ⟨x, hx, hrx⟩ := h _ hM
    obtain rfl := Option.some.inj hx
    exact hrx
  · rename_i hM
    obtain ⟨x, hx, hrx⟩ := h _ hM
    obtain rfl := Option.some.inj hx
    exact hrx
  · rename_i hM
    obtain ⟨x, hx, -⟩ := h _ hM
    simp at hx
  · rfl

/-- What holds of one thread. -/
structure ThreadGated (G : Gate) (t : ThreadId) (th : Thread τ ω) : Prop where
  verdict : th.gate.verdict = true → G.verified th.digest = true
  ready : th.ready = true → G.verified th.digest = true
  executed : th.executed = true → G.verified th.digest = true
  receiver : needsReceiver th.todo = true → th.gate.rx.isSome = true
  unwraps : (∀ m, t ≠ .message m) → Unwraps th.todo

structure GateInv (δ : ℕ → ProxyId × TransactionDigest) (s : State τ ω) : Prop where
  owned : Owned δ s
  value : ∀ {c}, s.resources.gate.values c = some true →
    s.resources.gate.verified (δ c).2 = true
  thread : ∀ {t th}, s.threads t = some th → ThreadGated s.resources.gate t th

theorem GateInv.init (δ : ℕ → ProxyId × TransactionDigest) (genesis : ObjectID → Option ω) :
    GateInv δ (State.init genesis : State τ ω) where
  owned := Owned.init δ genesis
  value h := by simp [State.init, Gate.empty] at h
  thread h := by simp [State.init] at h

theorem GateInv.arrive {δ : ℕ → ProxyId × TransactionDigest} (hI : GateInv δ s) {m : MessageId}
    {p : ProxyId} {msg : PrimaryToProxyMessage τ} (h : arrive K s m p msg = some s') :
    GateInv δ s' := by
  obtain ⟨-, -, -, hR, -⟩ := arrive_eq_some h
  refine ⟨hI.owned.arrive h, by rw [hR]; exact hI.value, fun {t th} ht => ?_⟩
  rw [hR]
  rcases arrive_cases h ht with ⟨rfl, rfl⟩ | ht
  · exact ⟨by simp [spawn], by simp [spawn], by simp [spawn],
      by simp [spawn, needsReceiver_primaryMessage], fun h => absurd rfl (h m)⟩
  · exact hI.thread ht

/-- The result a thread comes to know is that of a verification. -/
theorem GateInv.verdict {δ : ℕ → ProxyId × TransactionDigest} (hI : GateInv δ s) {t : ThreadId}
    {th th' : Thread τ ω} {a : ProxyAction ω} {rest : List (ProxyAction ω)}
    (h : RunStep K s s' t th th' a rest) (hv : th'.gate.verdict = true) :
    s'.resources.gate.verified th.digest = true := by
  have hT := hI.thread h.thread
  have hres := h.results
  rcases hres.verdict hv with hv | hv | ⟨c, hrx, hc⟩ | ⟨rfl, hrx⟩
  · exact hres.verified (hT.verdict hv)
  · exact hv
  · have hδ := (hI.owned.thread h.thread (Or.inl hrx)).2
    have := hI.value hc
    rw [hδ] at this
    exact hres.verified this
  · have := hT.receiver (by rw [h.todo]; rfl)
    simp [hrx] at this

/-- Nothing but `begin` makes a thread ready to execute. -/
theorem ready_of_perform_of_ne {t : ThreadId} {R R' : Resources ω} {th th' : Thread τ ω}
    {a : ProxyAction ω} (h : perform K t R th a = some (R', th')) (ha : a ≠ .begin)
    (hr : th'.ready = true) : th.ready = true := by
  by_cases hc : ∃ x, a = .check x
  · obtain ⟨x, rfl⟩ := hc
    simp only [perform] at h
    split_ifs at h with hready
    · exact hready
    · obtain ⟨-, rfl⟩ := Prod.mk.inj (Option.some.inj h)
      exact hr
  · rwa [(perform_frame h).ready ha fun x hx => hc ⟨x, hx⟩] at hr

/-- A thread that is ready to execute was so before, or knows the result. -/
theorem ready_of_perform {t : ThreadId} {R R' : Resources ω} {th th' : Thread τ ω}
    {a : ProxyAction ω} (h : perform K t R th a = some (R', th')) (hr : th'.ready = true) :
    th.ready = true ∨ th.gate.verdict = true := by
  by_cases hb : a = .begin
  · subst hb
    obtain ⟨-, rfl⟩ := Prod.mk.inj (Option.some.inj h)
    exact Or.inr hr
  · exact Or.inl (ready_of_perform_of_ne h hb hr)

theorem executed_of_perform {t : ThreadId} {R R' : Resources ω} {th th' : Thread τ ω}
    {a : ProxyAction ω} (h : perform K t R th a = some (R', th')) (he : th'.executed = true) :
    th.executed = true ∨ th.ready = true := by
  by_cases ha : a = .execute
  · subst ha
    obtain ⟨-, rfl⟩ := Prod.mk.inj (Option.some.inj h)
    exact Or.inr he
  · rw [(perform_frame h).executed ha] at he
    exact Or.inl he

/-- After an action on a receiver the thread has one, if the lookup finds one or the
thread is about to unwrap it. -/
theorem GateInv.receiver {δ : ℕ → ProxyId × TransactionDigest} (hI : GateInv δ s) {t : ThreadId}
    {th th' : Thread τ ω} {a : ProxyAction ω} {rest : List (ProxyAction ω)}
    (h : RunStep K s s' t th th' a rest) (hok : FindsReceiver s (.run t))
    (hn : needsReceiver rest = true) : th'.gate.rx.isSome = true := by
  have hT := hI.thread h.thread
  by_cases hset : a = .gate .setRemoteDependency
  · subst hset
    obtain ⟨l, hg, rfl⟩ := h.gate
    obtain ⟨-, rfl⟩ := Prod.mk.inj (Option.some.inj hg)
    rfl
  · by_cases hget : a = .gate .getDependency
    · subst hget
      obtain ⟨l, hg, rfl⟩ := h.gate
      obtain ⟨-, rfl⟩ := Prod.mk.inj (Option.some.inj hg)
      by_cases hm : ∃ m, t = .message m
      · obtain ⟨m, rfl⟩ := hm
        exact isSome_getDependency _ (hok th h.thread (by simp [looksUp, h.todo]))
      · obtain ⟨rest', rfl⟩ := hT.unwraps (fun m hm' => hm ⟨m, hm'⟩) rest
          (h.todo ▸ List.suffix_rfl)
        simp [needsReceiver] at hn
    · rw [h.results.rx hget hset]
      by_cases hunwrap : a = .gate .unwrapReceiver
      · subst hunwrap
        obtain ⟨l, hg, -⟩ := h.gate
        simp only [GateAction.perform] at hg
        split_ifs at hg with hrx
        exact hrx
      · refine hT.receiver ?_
        rw [h.todo]
        unfold needsReceiver
        split <;> simp_all

theorem GateInv.run {δ : ℕ → ProxyId × TransactionDigest} (hI : GateInv δ s) {t : ThreadId}
    {th th' : Thread τ ω} {a : ProxyAction ω} {rest : List (ProxyAction ω)}
    (h : RunStep K s s' t th th' a rest) (hok : FindsReceiver s (.run t)) :
    GateInv (update δ s.resources.gate.fresh (th.proxy, th.digest)) s' := by
  have hT := hI.thread h.thread
  have hF := perform_frame h.perform
  have hres := h.results
  refine ⟨hI.owned.run h, fun {c} hc => ?_, fun {u x} hx => ?_⟩
  · have hold : c < s.resources.gate.fresh ∧ s.resources.gate.verified (δ c).2 = true := by
      rcases hres.value hc with hc | ⟨htx, hv⟩
      · exact ⟨hI.owned.value (by simp [hc]), hI.value hc⟩
      · obtain ⟨hlt, hδ⟩ := hI.owned.thread h.thread (Or.inr htx)
        exact ⟨hlt, by rw [hδ]; exact hT.verdict hv⟩
    rw [update_of_ne hold.1.ne]
    exact hres.verified hold.2
  · rcases h.cases hx with ⟨rfl, rfl⟩ | ⟨hne, hs⟩ | ⟨-, hx⟩
    · have hreceiver := hI.receiver h hok
      refine ⟨fun hv => ?_, fun hr => ?_, fun he => ?_, hreceiver,
        fun hm => (h.todo ▸ hT.unwraps hm).tail⟩
      · rw [hF.digest]
        exact hI.verdict h hv
      · rw [hF.digest]
        rcases ready_of_perform h.perform hr with hr | hv
        · exact hres.verified (hT.ready hr)
        · exact hres.verified (hT.verdict hv)
      · rw [hF.digest]
        rcases executed_of_perform h.perform he with he | hr
        · exact hres.verified (hT.executed he)
        · exact hres.verified (hT.ready hr)
    · obtain ⟨hn, hu⟩ := spawned_receiver hs
      obtain ⟨hl, hready, hexec⟩ := locals_of_spawned hs
      refine ⟨fun hv => ?_, by simp [hready], by simp [hexec], by simp [hn], fun _ => hu⟩
      rw [(spawned_eq_some hs).2]
      exact hres.verified (hT.verdict (hl hv))
    · have hX := hI.thread hx
      exact ⟨fun hv => hres.verified (hX.verdict hv), fun hr => hres.verified (hX.ready hr),
        fun he => hres.verified (hX.executed he), hX.receiver, hX.unwraps⟩

/-- In every run in which the stateful tasks that look up a receiver find no entry or one
that has it, only verified transactions are executed. -/
theorem verification_gate {genesis : ObjectID → Option ω}
    (h : (system K genesis).ReachableVia FindsReceiver s) : Gated s := by
  have hI : ∃ δ, GateInv δ s := by
    refine h.invariant (I := fun s => ∃ δ, GateInv δ s) (fun s hs => ?_)
      fun s e s' _ hI hok hs => ?_
    · obtain rfl : s = State.init genesis := hs
      exact ⟨fun _ => (0, 0), GateInv.init _ _⟩
    · obtain ⟨δ, hI⟩ := hI
      cases e with
      | arrive m p msg => exact ⟨δ, hI.arrive hs⟩
      | run t =>
        obtain ⟨th, th', a, rest, hstep⟩ := runStep_of_runThread hs
        exact ⟨_, hI.run hstep hok⟩
  obtain ⟨δ, hI⟩ := hI
  exact fun t th ht => (hI.thread ht).executed

/-! ## The hole -/

/-- One proxy in a mode of separation, and a store with one owned object. -/
def oneProxy (outcome : ThreadId → Bool) : Cluster Unit FakeObject where
  mode := .PrimaryPostSeparation
  connections := [0]
  executor := fakeExecutor Unit
  outcome := outcome

def oneCoin : ObjectID → Option FakeObject
  | 7 => some ⟨7, 2, 10, .address 1⟩
  | _ => none

/-- A transaction on the owned object. -/
def spend : RemoraTransaction Unit :=
  .new () 10 [.immOrOwnedMoveObject 7] 1 1

/-- The copy `n` of the transaction, as the owned forwarder sends it : the request for
verification, which the handler processes, and the stateful part, whose task gets to
where it awaits the result. -/
def statelessCopy (n : ℕ) : List (Event Unit) :=
  .arrive (.stateless n) 0 (.statelessTxn ⟨10, 1⟩) ::
    List.replicate 4 (.run (.message (.stateless n)))

def statefulCopy (n : ℕ) : List (Event Unit) :=
  .arrive (.stateful n) 0 (.txn spend 0 []) :: List.replicate 3 (.run (.message (.stateful n)))

/-- The result of copy `n` comes in, and its task goes on until it executes. -/
def verifyCopy (n : ℕ) : List (Event Unit) :=
  List.replicate 2 (.run (.verify (.stateless n)))

def executeCopy (n : ℕ) : List (Event Unit) :=
  List.replicate 4 (.run (.message (.stateful n)))

instance (M : ObjectTaskMap) (d : TransactionDigest) : Decidable (HasReceiver M d) :=
  inferInstanceAs (Decidable (∀ e ∈ M d, ∃ h ∈ e, h.rx.isSome))

instance (s : State τ ω) : ∀ e : Event τ, Decidable (FindsReceiver s e)
  | .run (.message m) => inferInstanceAs (Decidable (∀ th ∈ s.threads (.message m),
      looksUp th = true → HasReceiver (s.resources.gate.controllers th.proxy) th.digest))
  | .arrive _ _ _ | .run (.verify _) | .run (.request _ _) | .run (.reply _ _)
  | .run (.statelessRequest _) | .run (.statelessReply _) => isTrue trivial

/-- A transaction that verifies is executed behind the gate. -/
theorem verification_gate_one_copy : ∃ s : State Unit FakeObject,
    (system (oneProxy fun _ => true) oneCoin).ReachableVia FindsReceiver s ∧
      (s.threads (.message (.stateful 0))).map Thread.executed = some true ∧ Gated s := by
  have hview : (((system (oneProxy fun _ => true) oneCoin).runVia FindsReceiver
      (State.init oneCoin)
      (statelessCopy 0 ++ statefulCopy 0 ++ verifyCopy 0 ++ executeCopy 0)).map fun s =>
      (s.threads (.message (.stateful 0))).map Thread.executed) = some (some true) := by decide
  obtain ⟨s, hrun, hview⟩ := Option.map_eq_some_iff.mp hview
  have hs : (system (oneProxy fun _ => true) oneCoin).ReachableVia FindsReceiver s :=
    Transition.System.reachableVia_runVia (.init rfl) hrun
  exact ⟨s, hs, hview, verification_gate hs⟩

/-- Three copies of a transaction that does not verify. The first task, done with its
result, deletes the entry the second request has made. The second task makes one anew, and
the third request takes the sender out of it. The third task finds nothing in it and
executes. -/
theorem executed_unverified : ∃ s : State Unit FakeObject,
    (system (oneProxy fun _ => false) oneCoin).Reachable s ∧
      s.resources.gate.verified spend.digest = false ∧ ¬Gated s := by
  have hview : (((system (oneProxy fun _ => false) oneCoin).run (State.init oneCoin)
      (statelessCopy 0 ++ statefulCopy 0 ++ verifyCopy 0 ++ statelessCopy 1 ++
        executeCopy 0 ++ statefulCopy 1 ++ statelessCopy 2 ++ statefulCopy 2 ++
        executeCopy 2)).map fun s =>
      ((s.threads (.message (.stateful 2))).map fun th => (th.digest, th.executed),
        s.resources.gate.verified 10)) = some (some (10, true), false) := by decide
  obtain ⟨s, hrun, hview⟩ := Option.map_eq_some_iff.mp hview
  obtain ⟨hth, hv⟩ := Prod.mk.inj hview
  refine ⟨s, Transition.System.reachable_run (.init rfl) hrun, hv, fun hgated => ?_⟩
  obtain ⟨th, ht, hth⟩ := Option.map_eq_some_iff.mp hth
  obtain ⟨hd, hexec⟩ := Prod.mk.inj hth
  have := hgated _ th ht hexec
  rw [hd, hv] at this
  cases this

end Cluster

end Remora
