import Remora.ProxyProgress
import Remora.ResultRendezvous

/-!
# The gate of a combined message

A combined message brings both parts of a transaction to one proxy. Without separation its task
verifies by itself. With separation at the proxy the handler registers the verification and
spawns its task first, so that the stateful task finds a receiver in the entry of the digest
(`Verifying`). No other transaction touches the entry, as long as all digests are different. So
the result of its own verification is what each task comes to know (`verdict_of_begun`), and the
gate stops nobody for good (`moves_of_gateStuck`).
-/

namespace Remora

open Function Rendezvous VersionedDependencyController Program

variable {τ ω : Type}

namespace Primary

variable {C : Primary τ} {i j : ℕ} {t t' : RemoraTransaction τ}

/-- No two transactions have the same digest. -/
def DistinctDigests (C : Primary τ) : Prop :=
  (C.txns.map RemoraTransaction.digest).Nodup

theorem getElem?_digest (h : C.transaction i = some t) :
    (C.txns.map RemoraTransaction.digest)[i]? = some t.digest := by
  rw [transaction, versioned, VersionAssignmentTask.processVersionAssignments_getElem?,
    Option.map_map] at h
  obtain ⟨t₀, ht₀, rfl⟩ := Option.map_eq_some_iff.mp h
  rw [List.getElem?_map, ht₀]
  simp only [Function.comp_apply, VersionAssignmentTask.assignSharedObjectVersions]
  split_ifs <;> rfl

theorem DistinctDigests.eq (hC : C.DistinctDigests) (h : C.transaction i = some t)
    (h' : C.transaction j = some t') (hd : t.digest = t'.digest) : i = j := by
  have hi := getElem?_digest h
  have hlt := (List.getElem?_eq_some_iff.mp hi).1
  refine (List.getElem?_inj hlt hC).mp ?_
  rw [hi, getElem?_digest h', hd]

end Primary

namespace Cluster

open ProxyAction GateAction

/-- What the task of a combined message has to do with the verification. -/
theorem gateView_combined {mode : SeparationMode} (hmode : mode.isPrimarySeparation = false)
    (txn : RemoraTransaction τ) (p stateless : ProxyId) (states : RequiredStates) :
    gateView (messageProgram (ω := ω) mode txn p stateless states) =
      if mode.isProxySeparation then [gate setLocalDependency, spawnVerify, gate getDependency,
        gate await, gate removeAwaited]
      else [gate verifyTransaction] := by
  rw [gateView_messageProgram]
  cases mode <;> simp_all [statelessPart, statelessHandle, statelessVerified,
    processStatelessTransaction, SeparationMode.isProxySeparation,
    SeparationMode.isPrimarySeparation]

end Cluster

namespace Deployment

open ProxyAction GateAction
open Cluster (RunStep spawned isGate gateView mem_gateView)

variable {D : Deployment τ ω} {s s' : State τ ω}

/-! ## Who is there -/

/-- In the combined modes all threads go back to a transaction, and none asks another proxy for
a result. -/
structure Combined (D : Deployment τ ω) (s : State τ ω) : Prop where
  digest : ∀ {u th}, s.cluster.threads u = some th → ∃ i t, u.messageId = .stateful i ∧
    D.primary.transaction i = some t ∧ th.digest = t.digest
  request : ∀ {m th}, s.cluster.threads (.statelessRequest m) ≠ some th
  reply : ∀ {m th}, s.cluster.threads (.statelessReply m) ≠ some th
  verify : ∀ {m th}, s.cluster.threads (.verify m) = some th →
    D.primary.mode.isProxySeparation = true

/-- The two steps of the task of a verification. -/
theorem Aside.verify_cases (hA : Aside D s) {m : MessageId} {th : Thread τ ω} {a : ProxyAction ω}
    {rest : List (ProxyAction ω)} (ht : s.cluster.threads (.verify m) = some th)
    (htodo : th.todo = a :: rest) : (a = gate verifyTransaction ∧ rest = [gate send]) ∨
      (a = gate send ∧ rest = []) := by
  have hsuffix := hA.verify ht
  rw [htodo] at hsuffix
  simpa only [Cluster.verifyTask, List.suffix_cons_iff, List.suffix_nil, List.cons.injEq,
    reduceCtorEq, or_false] using hsuffix

namespace Combined

variable {t : ThreadId} {th th' : Thread τ ω} {a : ProxyAction ω} {rest : List (ProxyAction ω)}

theorem init : Combined D (State.init D) := by
  constructor <;> simp [State.init, Cluster.State.init]

theorem arrive {m : MessageId} {p : ProxyId} {msg : PrimaryToProxyMessage τ} (hC : Combined D s)
    (hmode : D.primary.mode.isPrimarySeparation = false) (hr : (system D).Reachable s)
    (hsent : s.forwarder.context.sent m = some (p, msg))
    (ha : Cluster.arrive D.cluster s.cluster m p msg = some s'.cluster) : Combined D s' := by
  refine ⟨fun {u x} hx => ?_, fun hx => hC.request (Cluster.thread_of_arrive ha (by simp) hx),
    fun hx => hC.reply (Cluster.thread_of_arrive ha (by simp) hx),
    fun hx => hC.verify (Cluster.thread_of_arrive ha (by simp) hx)⟩
  by_cases hu : u = .message m
  · subst hu
    cases m with
    | stateless n =>
      have := (SharedObjTxnForwarder.statelessTxn_of_sent (reachable_forwarder hr) hsent).1
      simp [hmode] at this
    | stateful i =>
      obtain ⟨txn, stateless, states, hs, hself⟩ :=
        Follows.spawn_of_arrive (reachable_forwarder hr) hsent ha
      obtain rfl := Option.some.inj (hself.symm.trans hx)
      exact ⟨i, txn, rfl, hs.transaction, rfl⟩
  · exact hC.digest (Cluster.thread_of_arrive ha hu hx)

/-- Who works at the controllers : a message, and the task of a verification. -/
theorem gate_cases (hC : Combined D s) (hF : Follows D s) (hA : Aside D s)
    (ht : s.cluster.threads t = some th) (htodo : th.todo = a :: rest) (ha : isGate a = true) :
    (∃ i, t = .message (.stateful i)) ∨
      ∃ i, t = .verify (.stateful i) ∧ ((a = gate verifyTransaction ∧ rest = [gate send]) ∨
        (a = gate send ∧ rest = [])) := by
  obtain ⟨i, -, hi, -⟩ := hC.digest ht
  have hview : a ∈ gateView th.todo := by
    rw [mem_gateView ha, htodo]
    exact List.mem_cons_self
  cases t with
  | message m => exact Or.inl ⟨i, congrArg _ hi⟩
  | verify m => exact Or.inr ⟨i, congrArg _ hi, hA.verify_cases ht htodo⟩
  | request m k =>
    obtain ⟨j, p, -, hreq⟩ := hF.request ht
    have := (hreq.suffix.filter isGate).subset hview
    rw [← gateView, Cluster.gateView_handleStatefulRequest] at this
    simp at this
  | reply m k =>
    obtain ⟨j, -, y, -, -, -, hsuffix⟩ := hF.reply ht
    have := (hsuffix.filter isGate).subset hview
    rw [← gateView, Cluster.gateView_handleStatefulReply] at this
    simp at this
  | statelessRequest m => exact absurd ht hC.request
  | statelessReply m => exact absurd ht hC.reply

/-- What is left to do of it in a message. -/
theorem view_suffix (hmode : D.primary.mode.isPrimarySeparation = false) (hF : Follows D s)
    {i : ℕ} (ht : s.cluster.threads (.message (.stateful i)) = some th) :
    gateView th.todo <:+ if D.primary.mode.isProxySeparation then [gate setLocalDependency,
      spawnVerify, gate getDependency, gate await, gate removeAwaited]
      else [gate verifyTransaction] := by
  obtain ⟨txn, stateless, states, -, -, -, hsuffix⟩ := hF.message ht
  rw [← Cluster.gateView_combined hmode txn th.proxy stateless states]
  exact hsuffix.filter isGate

theorem run (hC : Combined D s) (hmode : D.primary.mode.isPrimarySeparation = false)
    (hF : Follows D s) (hA : Aside D s)
    (hrun : RunStep D.cluster s.cluster s'.cluster t th th' a rest) : Combined D s' := by
  -- a message starts no other thread than the verification
  have hspawned : isGate a = true → ∀ {u x}, spawned D.cluster t th a = some (u, x) →
      a = spawnVerify ∧ D.primary.mode.isProxySeparation = true := by
    intro ha u x hsp
    have hhead : a ∈ gateView th.todo := by
      rw [mem_gateView ha, hrun.todo]
      exact List.mem_cons_self
    rcases hC.gate_cases hF hA hrun.thread hrun.todo ha with ⟨i, rfl⟩ | ⟨i, rfl, hverify⟩
    · have hmem := (view_suffix hmode hF hrun.thread).subset hhead
      split_ifs at hmem with hproxy <;>
        simp only [List.mem_cons, List.not_mem_nil, or_false] at hmem
      · rcases hmem with rfl | rfl | rfl | rfl | rfl <;> simp_all [spawned]
      · subst hmem
        simp [spawned] at hsp
    · rcases hverify with ⟨rfl, -⟩ | ⟨rfl, -⟩ <;> simp [spawned] at hsp
  refine ⟨fun {u x} hx => ?_, fun {m x} hx => ?_, fun {m x} hx => ?_, fun {m x} hx => ?_⟩
  · rcases hrun.cases hx with ⟨rfl, rfl⟩ | ⟨-, hsp⟩ | ⟨-, hold⟩
    · obtain ⟨i, txn, hi, htxn, hd⟩ := hC.digest hrun.thread
      exact ⟨i, txn, hi, htxn, (Cluster.perform_frame hrun.perform).digest.trans hd⟩
    · obtain ⟨i, txn, hi, htxn, hd⟩ := hC.digest hrun.thread
      obtain ⟨hm, hd'⟩ := Cluster.spawned_eq_some hsp
      exact ⟨i, txn, hm.trans hi, htxn, hd'.trans hd⟩
    · exact hC.digest hold
  · rcases hrun.cases hx with ⟨rfl, rfl⟩ | ⟨-, hsp⟩ | ⟨-, hold⟩
    · exact hC.request hrun.thread
    · rcases Cluster.spawned_aside hsp rfl with ⟨h, -⟩ | ⟨-, ⟨q, rfl⟩, -⟩ | ⟨h, -⟩
      · cases h
      · cases (hspawned rfl hsp).1
      · cases h
    · exact hC.request hold
  · rcases hrun.cases hx with ⟨rfl, rfl⟩ | ⟨-, hsp⟩ | ⟨-, hold⟩
    · exact hC.reply hrun.thread
    · rcases Cluster.spawned_aside hsp rfl with ⟨h, -⟩ | ⟨h, -⟩ | ⟨-, ⟨q, rfl⟩, -⟩
      · cases h
      · cases h
      · cases (hspawned rfl hsp).1
    · exact hC.reply hold
  · rcases hrun.cases hx with ⟨rfl, rfl⟩ | ⟨-, hsp⟩ | ⟨-, hold⟩
    · exact hC.verify hrun.thread
    · rcases Cluster.spawned_aside hsp rfl with ⟨-, rfl, -⟩ | ⟨h, -⟩ | ⟨h, -⟩
      · exact (hspawned rfl hsp).2
      · cases h
      · cases h
    · exact hC.verify hold

end Combined

theorem combined_of_reachable (hmode : D.primary.mode.isPrimarySeparation = false)
    (hr : (system D).Reachable s) : Combined D s := by
  refine hr.invariant (fun s hs => hs ▸ Combined.init) fun s e s' hr hC hs => ?_
  rcases step_cases hs with ⟨e', -, hc⟩ | ⟨m, p, msg, hsent, ha, -⟩ |
    ⟨t, th, th', a, rest, -, hrun, -⟩
  · constructor <;> rw [hc]
    · exact hC.digest
    · exact hC.request
    · exact hC.reply
    · exact hC.verify
  · exact hC.arrive hmode hr hsent ha
  · exact hC.run hmode (follows_of_reachable hr) (aside_of_reachable hr) hrun

/-! ## How far a verification is -/

/-- The thread that verifies the `i`-th transaction. -/
def verifier (D : Deployment τ ω) (i : ℕ) : ThreadId :=
  if D.primary.mode.isProxySeparation then .verify (.stateful i) else .message (.stateful i)

/-- The result is on its way into the channel `c`, or there. -/
def Coming (s : State τ ω) (i c : ℕ) : Prop :=
  (∃ v, s.cluster.threads (.verify (.stateful i)) = some v ∧ v.gate.tx = some c ∧
    gate send ∈ v.todo) ∨
  s.cluster.resources.gate.values c ≠ none

/-- How far the verification of the `i`-th transaction is, seen from its task `th`. -/
inductive Verifying (D : Deployment τ ω) (s : State τ ω) (i : ℕ) (th : Thread τ ω) : Prop
  | alone (mode : D.primary.mode.isProxySeparation = false)
      (view : gateView th.todo = [gate verifyTransaction])
  | start (view : gateView th.todo = [gate setLocalDependency, spawnVerify, gate getDependency,
        gate await, gate removeAwaited])
      (entry : s.cluster.resources.gate.controllers th.proxy th.digest = none)
  | registered (c : ℕ)
      (view : gateView th.todo = [spawnVerify, gate getDependency, gate await, gate removeAwaited])
      (entry : s.cluster.resources.gate.controllers th.proxy th.digest =
        some (some ⟨some c, none⟩)) (tx : th.gate.tx = some c)
  | spawned (c : ℕ) (view : gateView th.todo = [gate getDependency, gate await, gate removeAwaited])
      (entry : s.cluster.resources.gate.controllers th.proxy th.digest =
        some (some ⟨some c, none⟩)) (coming : Coming s i c)
  | waiting (c : ℕ) (view : gateView th.todo = [gate await, gate removeAwaited])
      (rx : th.gate.rx = some c) (coming : Coming s i c)
  | known (view : gateView th.todo <:+ [gate removeAwaited])
      (verdict : th.gate.verdict = D.outcome (verifier D i))

/-- All verifications, by the owners `δ` of the channels. -/
structure Gating (D : Deployment τ ω) (δ : ℕ → ProxyId × TransactionDigest) (s : State τ ω) :
    Prop where
  owned : Cluster.Owned δ s.cluster
  verified : ∀ {i v}, s.cluster.threads (.verify (.stateful i)) = some v →
    gate verifyTransaction ∉ v.todo → v.gate.verdict = D.outcome (verifier D i)
  value : ∀ {c v}, s.cluster.resources.gate.values c = some v → ∃ i txn,
    D.primary.transaction i = some txn ∧ (δ c).2 = txn.digest ∧ v = D.outcome (verifier D i)
  /-- The entries are those of the messages that are there. -/
  entry : ∀ {p d}, s.cluster.resources.gate.controllers p d ≠ none →
    ∃ i th, s.cluster.threads (.message (.stateful i)) = some th ∧ th.proxy = p ∧ th.digest = d
  verifying : ∀ {i th}, s.cluster.threads (.message (.stateful i)) = some th →
    Verifying D s i th

/-- A task that goes on with something else. -/
theorem Verifying.congr {i : ℕ} {th th' : Thread τ ω} (hV : Verifying D s i th)
    (hview : gateView th'.todo = gateView th.todo) (hgate : th'.gate = th.gate)
    (hentry : s'.cluster.resources.gate.controllers th'.proxy th'.digest =
      s.cluster.resources.gate.controllers th.proxy th.digest)
    (hcoming : ∀ {c}, spawnVerify ∉ gateView th.todo → Coming s i c → Coming s' i c) :
    Verifying D s' i th' := by
  cases hV with
  | alone mode view => exact .alone mode (hview.trans view)
  | start view entry => exact .start (hview.trans view) (hentry.trans entry)
  | registered c view entry tx =>
    exact .registered c (hview.trans view) (hentry.trans entry) (hgate ▸ tx)
  | spawned c view entry coming =>
    exact .spawned c (hview.trans view) (hentry.trans entry) (hcoming (by simp [view]) coming)
  | waiting c view rx coming =>
    exact .waiting c (hview.trans view) (hgate ▸ rx) (hcoming (by simp [view]) coming)
  | known view verdict => exact .known (hview ▸ view) (hgate ▸ verdict)

theorem Gating.init (δ : ℕ → ProxyId × TransactionDigest) : Gating D δ (State.init D) where
  owned := Cluster.Owned.init δ D.genesis
  verified h := by simp [State.init, Cluster.State.init] at h
  value h := by simp [State.init, Cluster.State.init, Gate.empty] at h
  entry h := by simp [State.init, Cluster.State.init, Gate.empty] at h
  verifying h := by simp [State.init, Cluster.State.init] at h

section Run

variable {δ : ℕ → ProxyId × TransactionDigest} {t : ThreadId} {th th' : Thread τ ω}
  {a : ProxyAction ω} {rest : List (ProxyAction ω)} (hG : Gating D δ s) (hC : Combined D s)
  (hF : Follows D s) (hA : Aside D s)
  (hdistinct : D.primary.DistinctDigests) (hmode : D.primary.mode.isPrimarySeparation = false)

include hC hdistinct in
/-- The messages of two transactions have different digests. -/
theorem Combined.eq_of_digest {i j : ℕ} {txn : RemoraTransaction τ} {x : Thread τ ω}
    (hx : s.cluster.threads (.message (.stateful i)) = some x)
    (htxn : D.primary.transaction j = some txn) (hd : x.digest = txn.digest) : i = j := by
  obtain ⟨i', txn', hi, htxn', hd'⟩ := hC.digest hx
  obtain rfl : i = i' := MessageId.stateful.inj hi
  exact hdistinct.eq htxn' htxn (by rw [← hd', hd])

variable (hrun : RunStep D.cluster s.cluster s'.cluster t th th' a rest)

include hC hF hA hrun in
/-- Only a message touches an entry, and only its own. -/
theorem Combined.message_of_entry {p : ProxyId} {d : TransactionDigest}
    (hne : s'.cluster.resources.gate.controllers p d ≠ s.cluster.resources.gate.controllers p d) :
    ∃ i, t = .message (.stateful i) ∧ th.proxy = p ∧ th.digest = d := by
  have hself : th.proxy = p ∧ th.digest = d := by
    by_contra hno
    refine hne (hrun.entry_of_ne ?_)
    by_cases hp : p = th.proxy
    · exact Or.inr fun hd => hno ⟨hp.symm, hd.symm⟩
    · exact Or.inl hp
  by_cases ha : isGate a = true
  · rcases hC.gate_cases hF hA hrun.thread hrun.todo ha with ⟨i, rfl⟩ | ⟨i, rfl, hverify⟩
    · exact ⟨i, rfl, hself⟩
    · refine absurd ?_ hne
      rcases hverify with ⟨rfl, -⟩ | ⟨rfl, -⟩ <;> obtain ⟨l, hg, -⟩ := hrun.gate
      · obtain ⟨hgate, -⟩ := Prod.mk.inj (Option.some.inj hg)
        rw [← hgate]
      · simp only [GateAction.perform] at hg
        split at hg <;> obtain ⟨hgate, -⟩ := Prod.mk.inj (Option.some.inj hg) <;> rw [← hgate]
  · refine absurd ?_ hne
    rw [(Cluster.perform_frame hrun.perform).gate]
    rintro g rfl
    exact ha rfl

include hG hC hmode hF hA hrun in
/-- Only a verification sends, and it sends its result. -/
theorem Gating.value_of_run (c : ℕ) :
    s'.cluster.resources.gate.values c = s.cluster.resources.gate.values c ∨
      ∃ i, t = .verify (.stateful i) ∧ th.gate.tx = some c ∧
        s'.cluster.resources.gate.values c = some (D.outcome (verifier D i)) := by
  refine (hrun.values c).imp_right ?_
  rintro ⟨rfl, htx, hv⟩
  rcases hC.gate_cases hF hA hrun.thread hrun.todo rfl with ⟨i, rfl⟩ | ⟨i, rfl, hverify⟩
  · have hhead : gate send ∈ gateView th.todo := by
      rw [mem_gateView rfl, hrun.todo]
      exact List.mem_cons_self
    have hmem := (Combined.view_suffix hmode hF hrun.thread).subset hhead
    split_ifs at hmem <;> simp at hmem
  · refine ⟨i, rfl, htx, ?_⟩
    obtain rfl : rest = [] := by simpa using hverify
    rw [hv, hG.verified hrun.thread (by simp [hrun.todo])]

include hA hrun in
/-- A result that is coming goes on coming. -/
theorem coming_of_run {i c : ℕ}
    (hsp : ∀ v, spawned D.cluster t th a ≠ some (.verify (.stateful i), v))
    (h : Coming s i c) : Coming s' i c := by
  rcases h with ⟨v, hv, htx, hm⟩ | hv
  · by_cases ht : t = .verify (.stateful i)
    · subst ht
      obtain rfl := Option.some.inj (hv.symm.trans hrun.thread)
      rcases hA.verify_cases hrun.thread hrun.todo with ⟨rfl, rfl⟩ | ⟨rfl, rfl⟩ <;>
        obtain ⟨l, hg, rfl⟩ := hrun.gate
      · obtain ⟨-, rfl⟩ := Prod.mk.inj (Option.some.inj hg)
        exact Or.inl ⟨_, hrun.self, htx, List.mem_singleton_self _⟩
      · simp only [GateAction.perform, htx] at hg
        obtain ⟨hgate, -⟩ := Prod.mk.inj (Option.some.inj hg)
        exact Or.inr (by simp [← hgate])
    · exact Or.inl ⟨v, (hrun.threads_of_ne (Ne.symm ht) hsp).trans hv, htx, hm⟩
  · exact Or.inr (hrun.values_ne_none hv)

include hC hF hA hrun in
/-- The verification is spawned by its message. -/
theorem Combined.message_of_spawned {i : ℕ} {v : Thread τ ω}
    (hsp : spawned D.cluster t th a = some (.verify (.stateful i), v)) :
    t = .message (.stateful i) ∧ a = spawnVerify := by
  rcases Cluster.spawned_aside hsp rfl with ⟨hi, rfl, -⟩ | ⟨h, -⟩ | ⟨h, -⟩
  · rcases hC.gate_cases hF hA hrun.thread hrun.todo rfl with ⟨j, rfl⟩ | ⟨j, rfl, hverify⟩
    · exact ⟨by simpa [ThreadId.messageId] using hi.symm, rfl⟩
    · simp at hverify
  · cases h
  · cases h

include hG hC hF hA hdistinct hrun in
/-- A task goes on with its verification. -/
theorem Gating.advance {i : ℕ} (hi : t = .message (.stateful i)) (ha : isGate a = true) :
    Verifying D s' i { th' with todo := rest } := by
  subst hi
  have hview : gateView th.todo = a :: gateView rest := by
    rw [hrun.todo, gateView, List.filter_cons_of_pos ha, gateView]
  have hframe := Cluster.perform_frame hrun.perform
  have hcoming : ∀ {c}, a ≠ spawnVerify → Coming s i c → Coming s' i c := fun hne =>
    coming_of_run hA hrun fun v hv => hne (hC.message_of_spawned hF hA hrun hv).2
  cases hG.verifying hrun.thread with
  | alone mode view =>
    obtain ⟨rfl, hrest⟩ := List.cons.inj (hview.symm.trans view)
    obtain ⟨l, hg, rfl⟩ := hrun.gate
    obtain ⟨-, rfl⟩ := Prod.mk.inj (Option.some.inj hg)
    refine .known (hrest ▸ List.nil_suffix) ?_
    rw [verifier, mode]
    rfl
  | start view entry =>
    obtain ⟨rfl, hrest⟩ := List.cons.inj (hview.symm.trans view)
    obtain ⟨l, hg, rfl⟩ := hrun.gate
    obtain ⟨hgate, rfl⟩ := Prod.mk.inj (Option.some.inj hg)
    refine .registered s.cluster.resources.gate.fresh hrest ?_ ?_
    · simp [← hgate, entry]
    · simp [entry]
  | registered c view entry tx =>
    obtain ⟨rfl, hrest⟩ := List.cons.inj (hview.symm.trans view)
    have hverify : s'.cluster.threads (.verify (.stateful i)) = some (Cluster.spawn th.proxy
        th.digest none ⟨none, th.gate.tx, false⟩ Cluster.verifyTask) := by
      rw [hrun.threads, update_of_ne (by simp)]
      exact update_self _ _ _
    refine .spawned c hrest ?_
      (Or.inl ⟨_, hverify, tx, by simp [Cluster.spawn, Cluster.verifyTask]⟩)
    rw [hframe.gate (by simp), hframe.proxy, hframe.digest]
    exact entry
  | spawned c view entry coming =>
    obtain ⟨rfl, hrest⟩ := List.cons.inj (hview.symm.trans view)
    obtain ⟨l, hg, rfl⟩ := hrun.gate
    obtain ⟨hgate, rfl⟩ := Prod.mk.inj (Option.some.inj hg)
    refine .waiting c hrest ?_ (hcoming (by simp) coming)
    simp [entry]
  | waiting c view rx coming =>
    obtain ⟨rfl, hrest⟩ := List.cons.inj (hview.symm.trans view)
    obtain ⟨l, hg, rfl⟩ := hrun.gate
    simp only [GateAction.perform, rx] at hg
    obtain ⟨v, hv, hg⟩ := Option.map_eq_some_iff.mp hg
    obtain ⟨-, rfl⟩ := Prod.mk.inj hg
    -- the value comes from a verification of this digest
    obtain ⟨j, txn, htxn, hd, rfl⟩ := hG.value hv
    rw [(hG.owned.thread hrun.thread (Or.inl rx)).2] at hd
    obtain rfl := hC.eq_of_digest hdistinct hrun.thread htxn hd
    exact .known (hrest ▸ List.suffix_rfl) rfl
  | known view verdict =>
    rw [hview] at view
    simp only [List.suffix_cons_iff, List.suffix_nil, List.cons.injEq, reduceCtorEq, or_false]
      at view
    obtain ⟨rfl, hrest⟩ := view
    refine .known (hrest ▸ List.nil_suffix) ?_
    obtain ⟨l, hg, rfl⟩ := hrun.gate
    simp only [GateAction.perform] at hg
    split_ifs at hg <;> obtain ⟨-, rfl⟩ := Prod.mk.inj (Option.some.inj hg) <;> exact verdict

include hG hC hA hrun in
/-- The verdict is the one of the thread that verifies. -/
theorem Gating.verified_run {i : ℕ} {v : Thread τ ω}
    (hv : s'.cluster.threads (.verify (.stateful i)) = some v)
    (hdone : gate verifyTransaction ∉ v.todo) : v.gate.verdict = D.outcome (verifier D i) := by
  rcases hrun.cases hv with ⟨rfl, rfl⟩ | ⟨-, hsp⟩ | ⟨-, hold⟩
  · have hproxy := hC.verify hrun.thread
    have hold := hG.verified hrun.thread
    rw [hrun.todo] at hold
    rcases hA.verify_cases hrun.thread hrun.todo with ⟨rfl, rfl⟩ | ⟨rfl, rfl⟩ <;>
      obtain ⟨l, hg, rfl⟩ := hrun.gate
    · obtain ⟨-, rfl⟩ := Prod.mk.inj (Option.some.inj hg)
      rw [verifier, hproxy]
      rfl
    · have hverdict := hold (by simp)
      simp only [GateAction.perform] at hg
      split at hg <;> obtain ⟨-, rfl⟩ := Prod.mk.inj (Option.some.inj hg) <;> exact hverdict
  · rcases Cluster.spawned_aside hsp rfl with ⟨-, -, htodo⟩ | ⟨h, -⟩ | ⟨h, -⟩
    · simp [htodo, Cluster.verifyTask] at hdone
    · cases h
    · cases h
  · exact hG.verified hold hdone

include hrun in
/-- A message that is there stays, with its proxy and its digest. -/
theorem exists_message_of_run {i : ℕ} {x : Thread τ ω}
    (hx : s.cluster.threads (.message (.stateful i)) = some x) :
    ∃ x', s'.cluster.threads (.message (.stateful i)) = some x' ∧ x'.proxy = x.proxy ∧
      x'.digest = x.digest := by
  have hframe := Cluster.perform_frame hrun.perform
  rcases eq_or_ne t (.message (.stateful i)) with rfl | hne
  · obtain rfl := Option.some.inj (hx.symm.trans hrun.thread)
    exact ⟨_, hrun.self, hframe.proxy, hframe.digest⟩
  · exact ⟨x, (hrun.threads_of_ne (Ne.symm hne) fun y =>
      Cluster.spawned_ne_message _ y).trans hx, rfl, rfl⟩

include hG hC hF hA hrun in
theorem Gating.entry_run {p : ProxyId} {d : TransactionDigest}
    (hne : s'.cluster.resources.gate.controllers p d ≠ none) :
    ∃ i th, s'.cluster.threads (.message (.stateful i)) = some th ∧ th.proxy = p ∧
      th.digest = d := by
  have hframe := Cluster.perform_frame hrun.perform
  by_cases hsame : s'.cluster.resources.gate.controllers p d =
      s.cluster.resources.gate.controllers p d
  · obtain ⟨i, x, hx, rfl, rfl⟩ := hG.entry (hsame ▸ hne)
    obtain ⟨x', hx', hp, hd⟩ := exists_message_of_run hrun hx
    exact ⟨i, x', hx', hp, hd⟩
  · obtain ⟨i, rfl, rfl, rfl⟩ := hC.message_of_entry hF hA hrun hsame
    exact ⟨i, _, hrun.self, hframe.proxy, hframe.digest⟩

include hG hC hF hA hdistinct hrun in
/-- The step is the message's own, of its gate or another one, or it leaves the entry alone. -/
theorem Gating.verifying_run {i : ℕ} {x : Thread τ ω}
    (hx : s'.cluster.threads (.message (.stateful i)) = some x) : Verifying D s' i x := by
  have hframe := Cluster.perform_frame hrun.perform
  by_cases hi : t = .message (.stateful i)
  · subst hi
    obtain rfl := Option.some.inj (hrun.self.symm.trans hx)
    by_cases ha : isGate a = true
    · exact hG.advance hC hF hA hdistinct hrun rfl ha
    · have hne : ∀ g, a ≠ gate g := fun g hg => ha (by rw [hg]; rfl)
      have hspawn : a ≠ spawnVerify := fun h => ha (by rw [h]; rfl)
      refine (hG.verifying hrun.thread).congr ?_ (hframe.locals hne hspawn) ?_ fun _ =>
        coming_of_run hA hrun fun v hv => hspawn (hC.message_of_spawned hF hA hrun hv).2
      · rw [hrun.todo, gateView, gateView, List.filter_cons_of_neg ha]
      · change s'.cluster.resources.gate.controllers th'.proxy th'.digest = _
        rw [hframe.gate hne, hframe.proxy, hframe.digest]
  · have hx₀ : s.cluster.threads (.message (.stateful i)) = some x :=
      (hrun.threads_of_ne (Ne.symm hi) fun y => Cluster.spawned_ne_message _ y).symm.trans hx
    refine (hG.verifying hx₀).congr rfl rfl ?_ fun _ =>
      coming_of_run hA hrun fun v hv => hi (hC.message_of_spawned hF hA hrun hv).1
    by_contra hne
    obtain ⟨j, rfl, -, hd⟩ := hC.message_of_entry hF hA hrun hne
    obtain ⟨j', txn, hj, htxn, hd'⟩ := hC.digest hrun.thread
    obtain rfl : j = j' := MessageId.stateful.inj hj
    exact hi (by rw [hC.eq_of_digest hdistinct hx₀ htxn (by rw [← hd, hd'])])

include hG hC hF hA hdistinct hmode hrun in
theorem Gating.run : ∃ δ', Gating D δ' s' := by
  refine ⟨_, hG.owned.run hrun, hG.verified_run hC hA hrun, fun {c v} hv => ?_,
    hG.entry_run hC hF hA hrun, hG.verifying_run hC hF hA hdistinct hrun⟩
  rcases hG.value_of_run hC hF hA hmode hrun c with hsame | ⟨i, rfl, htx, hv'⟩
  · rw [hsame] at hv
    rw [update_of_ne (hG.owned.value (by simp [hv])).ne]
    exact hG.value hv
  · obtain rfl := Option.some.inj (hv.symm.trans hv')
    obtain ⟨j, txn, hj, htxn, hd⟩ := hC.digest hrun.thread
    obtain rfl : i = j := MessageId.stateful.inj hj
    obtain ⟨hlt, hδ⟩ := hG.owned.thread hrun.thread (Or.inr htx)
    rw [update_of_ne hlt.ne]
    exact ⟨i, txn, htxn, by rw [hδ, hd], rfl⟩

end Run

/-- A message that arrives finds no entry : it would be one of its own. -/
theorem Gating.arrive {δ : ℕ → ProxyId × TransactionDigest} {m : MessageId} {p : ProxyId}
    {msg : PrimaryToProxyMessage τ} (hG : Gating D δ s) (hC : Combined D s)
    (hdistinct : D.primary.DistinctDigests)
    (hmode : D.primary.mode.isPrimarySeparation = false) (hr : (system D).Reachable s)
    (hsent : s.forwarder.context.sent m = some (p, msg))
    (ha : Cluster.arrive D.cluster s.cluster m p msg = some s'.cluster) : Gating D δ s' := by
  obtain ⟨hnone, -, -, hres, -⟩ := Cluster.arrive_eq_some ha
  have hnew : ∀ {u x}, s.cluster.threads u = some x → s'.cluster.threads u = some x :=
    Cluster.threads_of_arrive ha
  have hcoming : ∀ {i c}, Coming s i c → Coming s' i c := by
    rintro i c (⟨v, hv, htx, hm⟩ | hv)
    · exact Or.inl ⟨v, hnew hv, htx, hm⟩
    · exact Or.inr (hres ▸ hv)
  refine ⟨hG.owned.arrive ha, fun hv => hG.verified (Cluster.thread_of_arrive ha (by simp) hv),
    ?_, fun hne => ?_, fun {i x} hx => ?_⟩
  · rw [hres]
    exact hG.value
  · obtain ⟨i, x, hx, hd⟩ := hG.entry (hres ▸ hne)
    exact ⟨i, x, hnew hx, hd⟩
  · by_cases hi : m = .stateful i
    · subst hi
      obtain ⟨txn, stateless, states, hs, hself⟩ :=
        Follows.spawn_of_arrive (reachable_forwarder hr) hsent ha
      obtain rfl := Option.some.inj (hself.symm.trans hx)
      have hview := Cluster.gateView_combined (ω := ω) hmode txn p stateless states
      cases hproxy : D.primary.mode.isProxySeparation with
      | false => exact .alone hproxy (by simpa [Cluster.spawn, hproxy] using hview)
      | true =>
        refine .start (by simpa [Cluster.spawn, hproxy] using hview) ?_
        rw [hres]
        by_contra hne
        obtain ⟨j, y, hy, -, hd⟩ := hG.entry hne
        obtain rfl := hC.eq_of_digest hdistinct hy hs.transaction hd
        simp [hnone] at hy
    · have hold := Cluster.thread_of_arrive ha (by simpa using Ne.symm hi) hx
      refine (hG.verifying hold).congr rfl rfl ?_ fun _ => hcoming
      rw [hres]

theorem gating_of_reachable (hdistinct : D.primary.DistinctDigests)
    (hmode : D.primary.mode.isPrimarySeparation = false) (hr : (system D).Reachable s) :
    ∃ δ, Gating D δ s := by
  refine hr.invariant (I := fun s => ∃ δ, Gating D δ s) ?_ ?_
  · rintro s rfl
    exact ⟨fun _ => (0, 0), .init _⟩
  · rintro s e s' hr ⟨δ, hG⟩ hs
    have hC := combined_of_reachable hmode hr
    rcases step_cases hs with ⟨e', -, hc⟩ | ⟨m, p, msg, hsent, ha, -⟩ |
      ⟨t, th, th', a, rest, -, hrun, -⟩
    · refine ⟨δ, ?_⟩
      constructor <;> rw [hc]
      · exact hG.owned
      · exact hG.verified
      · exact hG.value
      · exact hG.entry
      · refine fun hx => (hG.verifying hx).congr rfl rfl (by rw [hc]) fun _ h => ?_
        simpa only [Coming, hc] using h
    · exact ⟨δ, hG.arrive hC hdistinct hmode hr hsent ha⟩
    · exact hG.run hC (follows_of_reachable hr) (aside_of_reachable hr) hdistinct hmode hrun

/-! ## What comes of it -/

section Reachable

variable (hdistinct : D.primary.DistinctDigests)
  (hmode : D.primary.mode.isPrimarySeparation = false) (hr : (system D).Reachable s)
include hdistinct hmode hr

/-- A task that has begun knows the result of its own verification. -/
theorem verdict_of_begun {i : ℕ} {th : Thread τ ω}
    (ht : s.cluster.threads (.message (.stateful i)) = some th) (hbegin : begin ∉ th.todo) :
    th.gate.verdict = D.outcome (verifier D i) := by
  obtain ⟨txn, stateless, states, hs, -, -, hsuffix⟩ := (follows_of_reachable hr).message ht
  have hdone : ∀ {b}, isGate b = true → Cluster.rank b < 11 → b ∉ gateView th.todo := by
    intro b hb hrank
    rw [mem_gateView hb]
    exact done_of_done (hs.staged D.primary.mode).ordered hsuffix Cluster.begin_mem_messageProgram
      hbegin (by simpa [Cluster.rank] using hrank)
  obtain ⟨δ, hG⟩ := gating_of_reachable hdistinct hmode hr
  cases hG.verifying ht with
  | known view verdict => exact verdict
  | alone mode view =>
    exact absurd (by simp [view]) (hdone (b := gate verifyTransaction) rfl (by simp [Cluster.rank]))
  | start view | registered c view | spawned c view | waiting c view =>
    exact absurd (by simp [view]) (hdone (b := gate await) rfl (by simp [Cluster.rank]))

/-- A task that awaits a result gets it from a verification that goes on. -/
theorem moves_of_gateStuck (h : GateStuck D s) : Moves D s := by
  have hF := follows_of_reachable hr
  have hA := aside_of_reachable hr
  obtain ⟨t, th, a, rest, ht, htodo, ha, hperf⟩ := h
  have hverify : ∀ {i v b rest'}, s.cluster.threads (.verify (.stateful i)) = some v →
      v.todo = b :: rest' → Moves D s := by
    intro i v b rest' hv hvtodo
    refine moves_of_perform hv hvtodo ?_
    rcases hA.verify_cases hv hvtodo with ⟨rfl, -⟩ | ⟨rfl, -⟩
    · rfl
    · simp only [Cluster.perform, GateAction.perform]
      split <;> rfl
  rcases (combined_of_reachable hmode hr).gate_cases hF hA ht htodo ha with ⟨i, rfl⟩ | ⟨i, rfl, -⟩
  · have hview : gateView th.todo = a :: gateView rest := by
      rw [htodo, gateView, List.filter_cons_of_pos ha, gateView]
    obtain ⟨δ, hG⟩ := gating_of_reachable hdistinct hmode hr
    cases hG.verifying ht with
    | alone mode view | start view | registered c view | spawned c view =>
      obtain ⟨rfl, -⟩ := List.cons.inj (hview.symm.trans view)
      simp [Cluster.perform, GateAction.perform] at hperf
    | waiting c view rx coming =>
      obtain ⟨rfl, -⟩ := List.cons.inj (hview.symm.trans view)
      rcases coming with ⟨v, hv, -, hm⟩ | hv
      · obtain ⟨b, rest', hvtodo⟩ := List.exists_cons_of_ne_nil (List.ne_nil_of_mem hm)
        exact hverify hv hvtodo
      · simp [Cluster.perform, GateAction.perform, rx, hv] at hperf
    | known view verdict =>
      rw [hview] at view
      simp only [List.suffix_cons_iff, List.suffix_nil, List.cons.injEq, reduceCtorEq, or_false]
        at view
      obtain ⟨rfl, -⟩ := view
      simp only [Cluster.perform, GateAction.perform] at hperf
      split_ifs at hperf <;> simp at hperf
  · exact hverify ht htodo

end Reachable

end Deployment

end Remora
