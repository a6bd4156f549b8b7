import Remora.Availability
import Remora.ResultThreads

/-!
# The proxies never stop

As long as a transaction that was forwarded has not sent its result, a proxy can take a step
(`moves_of_unfinished`). The first such transaction waits only for transactions before it, which
have notified, or for the state of one that is at another proxy. A handler that is taken is
yielded, as nothing between the two blocks (`Handlers`). Two things can stop a proxy. One is a
reply without its object, which kills the handler. The other one is the result of a
verification, which comes from outside the order of the transactions (`GateStuck`).
-/

namespace Remora

open Function Rendezvous VersionedDependencyController Program

variable {τ ω : Type}

namespace Cluster

open ProxyAction GateAction

variable {K : Cluster τ ω} {t : ThreadId} {th x : Thread τ ω} {a : ProxyAction ω}

/-! ## The threads of the verification -/

/-- What the stateful task has to do with the verification. -/
theorem gateView_messageProgram (mode : SeparationMode) (txn : RemoraTransaction τ)
    (p stateless : ProxyId) (states : RequiredStates) :
    gateView (messageProgram (ω := ω) mode txn p stateless states) =
      statelessPart mode ++ statelessHandle mode p (if mode.isPrimarySeparation then stateless
        else p) ++ statelessVerified mode := by
  have hpart : gateView (statelessPart (ω := ω) mode) = statelessPart mode := by
    cases mode <;> rfl
  have hhandle : ∀ q, gateView (statelessHandle (ω := ω) mode p q) = statelessHandle mode p q := by
    intro q
    unfold statelessHandle
    split_ifs <;> rfl
  have htake : gateView [take (ω := ω) .primary] = [] := rfl
  have hyield : gateView [yield (ω := ω) .primary] = [] := rfl
  simp only [messageProgram, processStatefulTransaction, gateView_append, hpart, hhandle, htake,
    hyield, gateView_statefulRequests, gateView_spawnStatefulTxn, List.nil_append,
    List.append_assoc]

/-- It asks for a result once. -/
theorem sendStatelessRequest_notMem_of_cons {mode : SeparationMode} {txn : RemoraTransaction τ}
    {p stateless q : ProxyId} {states : RequiredStates} {rest : List (ProxyAction ω)}
    (hs : sendStatelessRequest q :: rest <:+ messageProgram mode txn p stateless states)
    (q' : ProxyId) : sendStatelessRequest q' ∉ rest := by
  intro hm
  have hm' : sendStatelessRequest q' ∈ gateView rest := (mem_gateView rfl).mpr hm
  have hview : sendStatelessRequest q :: gateView rest <:+ gateView _ := hs.filter isGate
  rw [gateView_messageProgram] at hview
  by_cases hq : stateless = p <;> cases mode <;>
    simp_all [statelessPart, statelessHandle, statelessVerified, processStatelessTransaction,
      SeparationMode.isProxySeparation, SeparationMode.isPrimarySeparation, List.suffix_cons_iff]

/-- What a new thread has to do that moves no state. -/
theorem spawned_aside {u : ThreadId} (h : spawned K t th a = some (u, x))
    (hu : Deployment.isStateful u = false) :
    (u = .verify t.messageId ∧ a = spawnVerify ∧ x.todo = verifyTask) ∨
    (u = .statelessRequest t.messageId ∧ (∃ q, a = sendStatelessRequest q) ∧
      x.todo = handleStatelessRequest K.mode th.proxy) ∨
    (u = .statelessReply t.messageId ∧ (∃ q, a = sendStatelessReply q) ∧
      x.todo = handleStatelessReply) := by
  cases a with
  | spawnVerify =>
    obtain ⟨rfl, rfl⟩ := Prod.mk.inj (Option.some.inj h)
    exact Or.inl ⟨rfl, rfl, rfl⟩
  | sendStatelessRequest q =>
    obtain ⟨-, h⟩ := Option.ite_none_right_eq_some.mp h
    obtain ⟨rfl, rfl⟩ := Prod.mk.inj (Option.some.inj h)
    exact Or.inr (Or.inl ⟨rfl, ⟨q, rfl⟩, rfl⟩)
  | sendStatelessReply q =>
    obtain ⟨-, h⟩ := Option.ite_none_right_eq_some.mp h
    obtain ⟨rfl, rfl⟩ := Prod.mk.inj (Option.some.inj h)
    exact Or.inr (Or.inr ⟨rfl, ⟨q, rfl⟩, rfl⟩)
  | sendRequest q k | sendReply q k =>
    obtain ⟨-, h⟩ := Option.ite_none_right_eq_some.mp h
    obtain ⟨rfl, rfl⟩ := Prod.mk.inj (Option.some.inj h)
    simp [Deployment.isStateful] at hu
  | _ => simp [spawned] at h

/-- A handler that is busy after an action has been taken by it, or was busy before and is not the
one it yields. -/
theorem busy_of_perform {R R' : Resources ω} {th' : Thread τ ω} {p : ProxyId} {h : Handler}
    (hperf : perform K t R th a = some (R', th')) (hbusy : R'.busy p h = true) :
    (a = take h ∧ p = th.proxy) ∨ (R.busy p h = true ∧ (a = yield h → p ≠ th.proxy)) := by
  cases a with
  | take h' =>
    simp only [perform] at hperf
    split_ifs at hperf
    obtain ⟨rfl, -⟩ := Prod.mk.inj (Option.some.inj hperf)
    rcases eq_or_ne p th.proxy with rfl | hp
    · rcases eq_or_ne h h' with rfl | hh
      · exact Or.inl ⟨rfl, rfl⟩
      · exact Or.inr ⟨by simpa [hh] using hbusy, by simp⟩
    · exact Or.inr ⟨by simpa [hp] using hbusy, by simp⟩
  | yield h' =>
    obtain ⟨rfl, -⟩ := Prod.mk.inj (Option.some.inj hperf)
    refine Or.inr ?_
    rcases eq_or_ne p th.proxy with rfl | hp
    · have hh : h ≠ h' := by
        rintro rfl
        simp at hbusy
      exact ⟨by simpa [hh] using hbusy, fun hy => absurd (yield.inj hy).symm hh⟩
    · exact ⟨by simpa [hp] using hbusy, fun _ => hp⟩
  | _ =>
    have hsame := (perform_frame hperf).busy (by simp) (by simp)
    exact Or.inr ⟨hsame ▸ hbusy, by simp⟩

end Cluster

namespace Deployment

open ProxyAction GateAction
open Cluster (RunStep Past spawned isGate)

variable {D : Deployment τ ω} {s s' : State τ ω}

/-- The message of a verification. -/
def verificationMessage : List (ProxyAction ω) :=
  [take .primary, gate setLocalDependency, spawnVerify, yield .primary]

/-- The threads that verify, ask for the result and answer. -/
structure Aside (D : Deployment τ ω) (s : State τ ω) : Prop where
  message : ∀ {n th}, s.cluster.threads (.message (.stateless n)) = some th →
    th.todo <:+ verificationMessage
  verify : ∀ {m th}, s.cluster.threads (.verify m) = some th → th.todo <:+ Cluster.verifyTask
  request : ∀ {m th}, s.cluster.threads (.statelessRequest m) = some th →
    (∃ p, th.todo <:+ Cluster.handleStatelessRequest D.primary.mode p) ∧
      ∃ x, s.cluster.threads (.message m) = some x ∧ ∀ q, sendStatelessRequest q ∉ x.todo
  reply : ∀ {m th}, s.cluster.threads (.statelessReply m) = some th →
    th.todo <:+ Cluster.handleStatelessReply ∧
      ∃ x, s.cluster.threads (.statelessRequest m) = some x ∧ ∀ q, sendStatelessReply q ∉ x.todo

namespace Aside

theorem init : Aside D (State.init D) := by
  constructor <;> simp [State.init, Cluster.State.init]

section Run

variable {t : ThreadId} {th th' : Thread τ ω} {a : ProxyAction ω} {rest : List (ProxyAction ω)}
  (hA : Aside D s) (hF : Follows D s)
include hA hF

/-- Who asks for a result, and who answers. -/
theorem sender {b : ProxyAction ω} (ht : s.cluster.threads t = some th) (hb : b ∈ th.todo) :
    ((∃ q, b = sendStatelessRequest q) → ∃ i, t = .message (.stateful i)) ∧
      ((∃ q, b = sendStatelessReply q) → ∃ m, t = .statelessRequest m) := by
  cases t with
  | message m =>
    cases m with
    | stateless n =>
      have := (hA.message ht).subset hb
      simp only [verificationMessage, List.mem_cons, List.not_mem_nil, or_false] at this
      rcases this with rfl | rfl | rfl | rfl <;> simp
    | stateful i =>
      obtain ⟨txn, stateless, states, hs, -, -, hsuffix⟩ := hF.message ht
      refine ⟨fun _ => ⟨i, rfl⟩, ?_⟩
      rintro ⟨q, rfl⟩
      exact absurd (hsuffix.subset hb)
        (Cluster.notMem_messageProgram_of_rank hs.initialVersion_le rfl)
  | verify m =>
    have := (hA.verify ht).subset hb
    simp only [Cluster.verifyTask, List.mem_cons, List.not_mem_nil, or_false] at this
    rcases this with rfl | rfl <;> simp
  | request m k =>
    obtain ⟨j, p, -, hreq⟩ := hF.request ht
    have := hreq.todo.2.subset hb
    simp only [List.mem_cons, List.not_mem_nil, or_false] at this
    rcases this with rfl | rfl | rfl | rfl | rfl | rfl | rfl <;> simp
  | reply m k =>
    obtain ⟨j, -, hrep⟩ := hF.reply ht
    rcases hrep.todo with hsub | ⟨x, -, hsub⟩ <;> have := hsub.subset hb <;>
      simp only [List.mem_cons, List.not_mem_nil, or_false] at this
    · rcases this with rfl | rfl <;> simp
    · rcases this with rfl | rfl | rfl | rfl | rfl <;> simp
  | statelessRequest m =>
    refine ⟨?_, fun _ => ⟨m, rfl⟩⟩
    rintro ⟨q, rfl⟩
    obtain ⟨p, hsuffix⟩ := (hA.request ht).1
    have := hsuffix.subset hb
    unfold Cluster.handleStatelessRequest at this
    split_ifs at this <;> simp at this
  | statelessReply m =>
    have := (hA.reply ht).1.subset hb
    simp only [Cluster.handleStatelessReply, List.mem_cons, List.not_mem_nil, or_false] at this
    rcases this with rfl | rfl | rfl | rfl | rfl <;> simp

variable (hrun : RunStep D.cluster s.cluster s'.cluster t th th' a rest)
include hrun

/-- A result is asked for once, and answered once. -/
theorem not_spawned {u : ThreadId}
    (hu : (∃ m, u = .statelessRequest m) ∨ ∃ m, u = .statelessReply m)
    (hsome : (s.cluster.threads u).isSome) (x : Thread τ ω) :
    spawned D.cluster t th a ≠ some (u, x) := by
  intro hsp
  have hhead : a ∈ th.todo := hrun.head_mem
  obtain ⟨y, hy⟩ := Option.isSome_iff_exists.mp hsome
  have hplain : isStateful u = false := by
    rcases hu with ⟨m, rfl⟩ | ⟨m, rfl⟩ <;> rfl
  rcases Cluster.spawned_aside hsp hplain with ⟨rfl, -, -⟩ | ⟨rfl, ⟨q, rfl⟩, -⟩ | ⟨rfl, ⟨q, rfl⟩, -⟩
  · simp at hu
  · obtain ⟨i, rfl⟩ := (hA.sender hF hrun.thread hhead).1 ⟨q, rfl⟩
    obtain ⟨-, z, hz, hnot⟩ := hA.request hy
    obtain rfl := Option.some.inj (hz.symm.trans hrun.thread)
    exact hnot q hhead
  · obtain ⟨m, rfl⟩ := (hA.sender hF hrun.thread hhead).2 ⟨q, rfl⟩
    obtain ⟨-, z, hz, hnot⟩ := hA.reply hy
    obtain rfl := Option.some.inj (hz.symm.trans hrun.thread)
    exact hnot q hhead

/-- What was done before is done. -/
theorem exists_done {u : ThreadId} (hu : (∃ m, u = .message m) ∨ ∃ m, u = .statelessRequest m)
    {f : ProxyId → ProxyAction ω} (h : ∃ x, s.cluster.threads u = some x ∧ ∀ q, f q ∉ x.todo) :
    ∃ x, s'.cluster.threads u = some x ∧ ∀ q, f q ∉ x.todo := by
  obtain ⟨x, hx, hnot⟩ := h
  rcases eq_or_ne u t with rfl | hne
  · obtain rfl := Option.some.inj (hx.symm.trans hrun.thread)
    exact ⟨_, hrun.self, fun q hq => hnot q (hrun.mem_of_mem hq)⟩
  · refine ⟨x, (hrun.threads_of_ne hne fun y hy => ?_).trans hx, hnot⟩
    rcases hu with ⟨m, rfl⟩ | ⟨m, rfl⟩
    · exact Cluster.spawned_ne_message m y hy
    · exact hA.not_spawned hF hrun (Or.inl ⟨m, rfl⟩) (by simp [hx]) y hy

theorem run : Aside D s' where
  message {n x} hx := by
    rcases hrun.cases hx with ⟨rfl, rfl⟩ | ⟨-, hsp⟩ | ⟨-, hold⟩
    · exact suffix_of_cons (hrun.todo ▸ hA.message hrun.thread)
    · exact absurd hsp (Cluster.spawned_ne_message _ _)
    · exact hA.message hold
  verify {m x} hx := by
    rcases hrun.cases hx with ⟨rfl, rfl⟩ | ⟨-, hsp⟩ | ⟨-, hold⟩
    · exact suffix_of_cons (hrun.todo ▸ hA.verify hrun.thread)
    · rcases Cluster.spawned_aside hsp rfl with ⟨-, -, h⟩ | ⟨h, -⟩ | ⟨h, -⟩
      · exact h ▸ List.suffix_rfl
      · simp at h
      · simp at h
    · exact hA.verify hold
  request {m x} hx := by
    rcases hrun.cases hx with ⟨rfl, rfl⟩ | ⟨-, hsp⟩ | ⟨-, hold⟩
    · obtain ⟨⟨p, hsuffix⟩, hdone⟩ := hA.request hrun.thread
      exact ⟨⟨p, suffix_of_cons (hrun.todo ▸ hsuffix)⟩,
        hA.exists_done hF hrun (Or.inl ⟨m, rfl⟩) hdone⟩
    · rcases Cluster.spawned_aside hsp rfl with ⟨h, -⟩ | ⟨h, ⟨q, rfl⟩, htodo⟩ | ⟨h, -⟩
      · simp at h
      · refine ⟨⟨th.proxy, by rw [htodo]; exact List.suffix_rfl⟩, ?_⟩
        obtain ⟨i, rfl⟩ := (hA.sender hF hrun.thread hrun.head_mem).1 ⟨q, rfl⟩
        obtain rfl := ThreadId.statelessRequest.inj h
        obtain ⟨txn, stateless, states, -, -, -, hsuffix⟩ := hF.message hrun.thread
        exact ⟨_, hrun.self,
          Cluster.sendStatelessRequest_notMem_of_cons (hrun.todo ▸ hsuffix)⟩
      · simp at h
    · obtain ⟨hsuffix, hdone⟩ := hA.request hold
      exact ⟨hsuffix, hA.exists_done hF hrun (Or.inl ⟨m, rfl⟩) hdone⟩
  reply {m x} hx := by
    rcases hrun.cases hx with ⟨rfl, rfl⟩ | ⟨-, hsp⟩ | ⟨-, hold⟩
    · obtain ⟨hsuffix, hdone⟩ := hA.reply hrun.thread
      exact ⟨suffix_of_cons (hrun.todo ▸ hsuffix),
        hA.exists_done hF hrun (Or.inr ⟨m, rfl⟩) hdone⟩
    · rcases Cluster.spawned_aside hsp rfl with ⟨h, -⟩ | ⟨h, -⟩ | ⟨h, ⟨q, rfl⟩, htodo⟩
      · simp at h
      · simp at h
      · refine ⟨htodo ▸ List.suffix_rfl, ?_⟩
        obtain ⟨m', rfl⟩ := (hA.sender hF hrun.thread hrun.head_mem).2 ⟨q, rfl⟩
        obtain rfl := ThreadId.statelessReply.inj h
        obtain ⟨p, hsuffix⟩ := (hA.request hrun.thread).1
        rw [hrun.todo] at hsuffix
        -- the answer is the last thing a request does
        have hrest : rest = [] := by
          unfold Cluster.handleStatelessRequest at hsuffix
          split_ifs at hsuffix
          · have hlast : q = p ∧ rest = [] := by simpa [List.suffix_cons_iff] using hsuffix
            exact hlast.2
          · simp [List.suffix_cons_iff] at hsuffix
        exact ⟨_, hrun.self, by simp [hrest]⟩
    · obtain ⟨hsuffix, hdone⟩ := hA.reply hold
      exact ⟨hsuffix, hA.exists_done hF hrun (Or.inr ⟨m, rfl⟩) hdone⟩

end Run

theorem arrive {m : MessageId} {p : ProxyId} {msg : PrimaryToProxyMessage τ} (hA : Aside D s)
    (hr : (system D).Reachable s) (hsent : s.forwarder.context.sent m = some (p, msg))
    (ha : Cluster.arrive D.cluster s.cluster m p msg = some s'.cluster) : Aside D s' := by
  have hthreads := (Cluster.arrive_eq_some ha).2.2.2.2
  have hnew : ∀ {u x}, s.cluster.threads u = some x → s'.cluster.threads u = some x :=
    Cluster.threads_of_arrive ha
  constructor
  · intro n x hx
    rcases eq_or_ne m (.stateless n) with rfl | hm
    · obtain ⟨hmode, r, rfl⟩ :=
        SharedObjTxnForwarder.statelessTxn_of_sent (reachable_forwarder hr) hsent
      rw [hthreads, update_self] at hx
      obtain rfl := Option.some.inj hx
      simp [Cluster.spawn, Cluster.primaryMessage, Cluster.handlePrimaryMessage, cluster, hmode,
        Cluster.processStatelessTransaction, verificationMessage]
    · exact hA.message (Cluster.thread_of_arrive ha (by simpa using hm.symm) hx)
  · exact fun hx => hA.verify (Cluster.thread_of_arrive ha (by simp) hx)
  · intro n x hx
    obtain ⟨hsuffix, y, hy, hnot⟩ := hA.request (Cluster.thread_of_arrive ha (by simp) hx)
    exact ⟨hsuffix, y, hnew hy, hnot⟩
  · intro n x hx
    obtain ⟨hsuffix, y, hy, hnot⟩ := hA.reply (Cluster.thread_of_arrive ha (by simp) hx)
    exact ⟨hsuffix, y, hnew hy, hnot⟩

end Aside

theorem aside_of_reachable (hr : (system D).Reachable s) : Aside D s := by
  refine hr.invariant (fun s hs => hs ▸ Aside.init) fun s e s' hr hA hs => ?_
  rcases step_cases hs with ⟨e', -, hc⟩ | ⟨m, p, msg, hsent, ha, -⟩ |
    ⟨t, th, th', a, rest, -, hrun, -⟩
  · constructor <;> rw [hc]
    · exact hA.message
    · exact hA.verify
    · exact hA.request
    · exact hA.reply
  · exact hA.arrive hr hsent ha
  · exact hA.run (follows_of_reachable hr) hrun

/-! ## Handlers -/

/-- The thread has the handler, until it yields. -/
def HasHandler (s : State τ ω) (p : ProxyId) (h : Handler) (t : ThreadId) : Prop :=
  ∃ th, s.cluster.threads t = some th ∧ th.proxy = p ∧ (∀ h', take h' ∉ th.todo) ∧
    (yield h ∈ th.todo ∨ .panic ∈ th.todo)

/-- A thread that takes a handler yields it, unless it panics. -/
theorem yields_of_take (hr : (system D).Reachable s) {t : ThreadId} {th : Thread τ ω}
    {h : Handler} {rest : List (ProxyAction ω)} (ht : s.cluster.threads t = some th)
    (htodo : th.todo = take h :: rest) :
    (∀ h', take h' ∉ rest) ∧ (yield h ∈ rest ∨ .panic ∈ rest) := by
  have hF := follows_of_reachable hr
  have hA := aside_of_reachable hr
  cases t with
  | message m =>
    cases m with
    | stateless n =>
      have hsuffix := hA.message ht
      rw [htodo] at hsuffix
      simp only [verificationMessage, List.suffix_cons_iff, List.suffix_nil] at hsuffix
      rcases hsuffix with h | h | h | h | h <;> simp_all
    | stateful i =>
      obtain ⟨txn, stateless, states, hs, -, -, hsuffix⟩ := hF.message ht
      obtain ⟨htake, hyield⟩ :=
        Cluster.take_cons_messageProgram hs.initialVersion_le (htodo ▸ hsuffix)
      exact ⟨htake, Or.inl hyield⟩
  | verify m =>
    have := (hA.verify ht).subset (by rw [htodo]; exact List.mem_cons_self)
    simp [Cluster.verifyTask] at this
  | request m k =>
    obtain ⟨j, p, -, hreq⟩ := hF.request ht
    have hsuffix := hreq.todo.2
    rw [htodo] at hsuffix
    simp only [List.suffix_cons_iff, List.suffix_nil] at hsuffix
    rcases hsuffix with h | h | h | h | h | h | h | h <;> simp_all
  | reply m k =>
    obtain ⟨j, -, hrep⟩ := hF.reply ht
    rcases hrep.todo with hsuffix | ⟨x, -, hsuffix⟩ <;> rw [htodo] at hsuffix <;>
      simp only [List.suffix_cons_iff, List.suffix_nil] at hsuffix
    · rcases hsuffix with h | h | h <;> simp_all
    · rcases hsuffix with h | h | h | h | h | h <;> simp_all
  | statelessRequest m =>
    obtain ⟨p, hsuffix⟩ := (hA.request ht).1
    rw [htodo] at hsuffix
    unfold Cluster.handleStatelessRequest at hsuffix
    split_ifs at hsuffix <;> simp only [List.suffix_cons_iff, List.suffix_nil] at hsuffix
    · rcases hsuffix with h | h | h | h | h | h | h | h <;> simp_all
    · rcases hsuffix with h | h | h <;> simp_all
  | statelessReply m =>
    have hsuffix := (hA.reply ht).1
    rw [htodo] at hsuffix
    simp only [Cluster.handleStatelessReply, List.suffix_cons_iff, List.suffix_nil] at hsuffix
    rcases hsuffix with h | h | h | h | h | h <;> simp_all

/-- Whoever has taken a handler has it. -/
def Handlers (s : State τ ω) : Prop :=
  ∀ {p h}, s.cluster.resources.busy p h = true → ∃ t, HasHandler s p h t

/-- It keeps it until it yields. -/
theorem hasHandler_of_run (hr : (system D).Reachable s) {t u : ThreadId} {th th' : Thread τ ω}
    {a : ProxyAction ω} {rest : List (ProxyAction ω)}
    (hrun : RunStep D.cluster s.cluster s'.cluster t th th' a rest) {p : ProxyId} {h : Handler}
    (hu : HasHandler s p h u) (ha : u = t → a ≠ yield h) : HasHandler s' p h u := by
  have hF := follows_of_reachable hr
  have hA := aside_of_reachable hr
  obtain ⟨x, hx, hp, htake, hleft⟩ := hu
  rcases eq_or_ne u t with rfl | hne
  · obtain rfl := Option.some.inj (hx.symm.trans hrun.thread)
    have hpanic : a ≠ .panic := by
      rintro rfl
      simpa [Cluster.perform] using hrun.perform
    rw [hrun.todo] at htake hleft
    refine ⟨_, hrun.self, (Cluster.perform_frame hrun.perform).proxy.trans hp,
      fun h' hm => htake h' (List.mem_cons_of_mem _ hm), ?_⟩
    exact hleft.imp (fun hm => (List.mem_cons.mp hm).resolve_left (ha rfl).symm)
      fun hm => (List.mem_cons.mp hm).resolve_left hpanic.symm
  · refine ⟨x, (hrun.threads_of_ne hne fun y hy => ?_).trans hx, hp, htake, hleft⟩
    cases u with
    | message m => exact Cluster.spawned_ne_message m y hy
    | request m k => exact hF.not_spawned hrun rfl (by simp [hx]) y hy
    | reply m k => exact hF.not_spawned hrun rfl (by simp [hx]) y hy
    | statelessRequest m => exact hA.not_spawned hF hrun (Or.inl ⟨m, rfl⟩) (by simp [hx]) y hy
    | statelessReply m => exact hA.not_spawned hF hrun (Or.inr ⟨m, rfl⟩) (by simp [hx]) y hy
    | verify m =>
      have hsuffix := hA.verify hx
      rcases hleft with hm | hm <;> simpa [Cluster.verifyTask] using hsuffix.subset hm

theorem handlers_of_reachable (hr : (system D).Reachable s) : Handlers s := by
  refine hr.invariant (I := Handlers) ?_ ?_
  · rintro s rfl p h hbusy
    simp [State.init, Cluster.State.init] at hbusy
  · intro s e s' hr hH hs p h hbusy
    rcases step_cases hs with ⟨e', -, hc⟩ | ⟨m, q, msg, hsent, ha, -⟩ |
      ⟨t, th, th', a, rest, -, hrun, -⟩
    · obtain ⟨t, ht⟩ := hH (hc ▸ hbusy)
      exact ⟨t, by simpa only [HasHandler, hc] using ht⟩
    · obtain ⟨-, -, -, hres, -⟩ := Cluster.arrive_eq_some ha
      obtain ⟨t, x, hx, ht⟩ := hH (hres ▸ hbusy)
      exact ⟨t, x, Cluster.threads_of_arrive ha hx, ht⟩
    · rcases Cluster.busy_of_perform hrun.perform hbusy with ⟨rfl, rfl⟩ | ⟨hold, hkeep⟩
      · exact ⟨t, _, hrun.self, (Cluster.perform_frame hrun.perform).proxy,
          yields_of_take hr hrun.thread hrun.todo⟩
      · obtain ⟨u, hu⟩ := hH hold
        refine ⟨u, hasHandler_of_run hr hrun hu ?_⟩
        rintro rfl rfl
        obtain ⟨x, hx, rfl, -⟩ := hu
        obtain rfl := Option.some.inj (hx.symm.trans hrun.thread)
        exact hkeep rfl rfl

/-- The check of an input comes to a result. -/
theorem Sent.isSome_checkInput {f : SharedObjTxnForwarder.State τ} {i : ℕ} {p : ProxyId}
    {txn : RemoraTransaction τ} {stateless : ProxyId} {states : RequiredStates}
    (h : Sent D f i p txn stateless states) {x : InputObjectKind} (hx : x ∈ txn.inputs)
    (E : Executor τ ω) (object : Option ω) : (E.checkInput txn x object).isSome := by
  cases object with
  | none => rfl
  | some y =>
    cases x with
    | immOrOwnedMoveObject o => rfl
    | sharedMoveObject o =>
      obtain ⟨v, hv⟩ := exists_required ((Primary.mem_accessed h.transaction).mpr hx)
      simp [Executor.checkInput, Primary.find_sharedObjects h.transaction hv]

/-! ## What can happen -/

/-- An event of the proxies can happen. -/
def Moves (D : Deployment τ ω) (s : State τ ω) : Prop :=
  ∃ e : Event, e.isProxy = true ∧ (Deployment.step D s e).isSome

/-- A thread waits for the result of a verification, or has panicked over it. -/
def GateStuck (D : Deployment τ ω) (s : State τ ω) : Prop :=
  ∃ t th a rest, s.cluster.threads t = some th ∧ th.todo = a :: rest ∧ isGate a = true ∧
    Cluster.perform D.cluster t s.cluster.resources th a = none

/-- The replies so far have their objects. -/
def Answers (s : State τ ω) : Prop :=
  ∀ {m k y}, s.cluster.threads (.request m k) = some y → y.todo = [] → y.objects ≠ []

section Enabled

variable {t : ThreadId} {th : Thread τ ω} {a : ProxyAction ω} {rest : List (ProxyAction ω)}

theorem moves_of_perform (ht : s.cluster.threads t = some th) (htodo : th.todo = a :: rest)
    (h : (Cluster.perform D.cluster t s.cluster.resources th a).isSome) : Moves D s := by
  refine ⟨.run t, rfl, ?_⟩
  obtain ⟨⟨R, th'⟩, hp⟩ := Option.isSome_iff_exists.mp h
  simp [Deployment.step, Cluster.runThread, ht, htodo, hp]

theorem moves_of_gate (ht : s.cluster.threads t = some th) (htodo : th.todo = a :: rest)
    (ha : isGate a = true) : Moves D s ∨ GateStuck D s := by
  cases hp : Cluster.perform D.cluster t s.cluster.resources th a with
  | none => exact Or.inr ⟨t, th, a, rest, ht, htodo, ha, hp⟩
  | some x => exact Or.inl (moves_of_perform ht htodo (by simp [hp]))

variable (hr : (system D).Reachable s)
include hr

theorem isSome_perform_dep {b : Action ObjectVersion} (ht : s.cluster.threads t = some th)
    (htodo : th.todo = dep b :: rest)
    (h : ∀ loc, Places loc s.forwarder → ∀ rest',
      (agent D.primary.txns loc s.cluster t).todo = Cluster.tag th.proxy b :: rest' →
      ((Cluster.tag th.proxy b).perform s.cluster.resources.deps
        (agent D.primary.txns loc s.cluster t).held).isSome) : Moves D s := by
  obtain ⟨loc, hloc⟩ := exists_places s.forwarder
  obtain ⟨hst, hp⟩ := (follows_of_reachable hr).not_panic ht (b := b)
    (by rw [htodo]; exact List.mem_cons_self)
  have hagent : agent D.primary.txns loc s.cluster t = _ := agent_of_some hst ht hp
  have := h loc hloc ((rest.filterMap Cluster.depOf).map (Cluster.tag th.proxy))
    (by rw [hagent, htodo]; rfl)
  rw [hagent] at this
  refine moves_of_perform ht htodo ?_
  simpa [Cluster.perform] using this

/-- Only a wait can block at a controller. -/
theorem moves_of_dep {b : Action ObjectVersion} (ht : s.cluster.threads t = some th)
    (htodo : th.todo = dep b :: rest) (hb : ∀ k, b ≠ .wait k) : Moves D s :=
  isSome_perform_dep hr ht htodo fun loc hloc rest' hagent =>
    (protocol_inv hr hloc).enabled_of_not_wait hagent fun x hx => by
      obtain ⟨p, k⟩ := x
      exact hb k (Cluster.tag_eq_wait.mp hx).2

/-- A wait does not, once the other thread has notified. -/
theorem moves_of_wait {k : ObjectVersion} (ht : s.cluster.threads t = some th)
    (htodo : th.todo = dep (.wait k) :: rest)
    (h : ∀ loc, Places loc s.forwarder → (protocol D.primary.txns loc).Notified
      (agent D.primary.txns loc s.cluster) (th.proxy, k)) : Moves D s :=
  isSome_perform_dep hr ht htodo fun loc hloc _ hagent =>
    (protocol_inv hr hloc).wait_enabled hagent (h loc hloc)

/-- The producer of a version has notified at its proxy. -/
theorem notified_of_closed {loc : ℕ → ProxyId} (hloc : Places loc s.forwarder) {i : ℕ}
    {k : ObjectVersion} (hi : Produces D.primary.txns i k) (hc : Closed D s i k.1) :
    (protocol D.primary.txns loc).Notified (agent D.primary.txns loc s.cluster) (loc i, k) := by
  have hF := follows_of_reachable hr
  obtain ⟨x, hx, hnot⟩ := hc
  refine ⟨_, notifier_eq_message.mpr ⟨hi, rfl⟩, ?_⟩
  rw [show (k.1, produced D.primary.txns i) = k from Prod.ext rfl (produces_iff.mp hi).2.symm]
    at hnot
  rw [hF.proxy_eq hloc hx]
  exact notMem_agent rfl hx (hF.message hx).not_panic hnot

/-- And a reply that is done at the proxy of the consumer. -/
theorem notified_of_reply {loc : ℕ → ProxyId} (hloc : Places loc s.forwarder) {j : ℕ}
    {k : ObjectVersion} {z : Thread τ ω}
    (hz : s.cluster.threads (.reply (.stateful j) k) = some z) (hnil : z.todo = []) :
    (protocol D.primary.txns loc).Notified (agent D.primary.txns loc s.cluster) (loc j, k) := by
  obtain ⟨j', hj', y, -, -, hreq, -⟩ := (follows_of_reachable hr).reply hz
  obtain rfl : j = j' := MessageId.stateful.inj hj'
  obtain ⟨hs, hp⟩ := hreq.source_eq hloc
  refine ⟨_, notifier_eq_reply.mpr ⟨rfl, j, rfl, rfl, by simp [hs]⟩, ?_⟩
  have hnot : Cluster.tag z.proxy (.notify k) ∉ (agent D.primary.txns loc s.cluster
      (.reply (.stateful j) k)).todo := notMem_agent rfl hz (by simp [hnil]) (by simp [hnil])
  rwa [hp]

variable {Valid : RemoraTransaction τ → Prop} {sim : ω → ω → Prop}

/-- A task blocks on the handler and on its waits only. -/
theorem moves_of_message (hD : Sound D Valid sim) (hI : Stocked D) {i : ℕ}
    (ht : s.cluster.threads (.message (.stateful i)) = some th) (htodo : th.todo = a :: rest)
    (htake : ∀ h, a ≠ take h) (hwait : ∀ k, a ≠ dep (.wait k)) : Moves D s ∨ GateStuck D s := by
  have hF := follows_of_reachable hr
  have hV : Values D sim (fun _ => true) s := values_of_reachable hD hr fun _ _ => rfl
  obtain ⟨txn, stateless, states, hs, -, htxn, hsuffix⟩ := hF.message ht
  have hmem : a ∈ Cluster.messageProgram D.primary.mode txn th.proxy stateless states :=
    hsuffix.subset (by rw [htodo]; exact List.mem_cons_self)
  have hlast : Cluster.rank a ≠ 18 := fun h =>
    Cluster.notMem_messageProgram_of_rank hs.initialVersion_le h hmem
  have hread : ∀ {b : ProxyAction ω}, Cluster.rank b < Cluster.rank a → b ∉ th.todo := fun hb =>
    notMem_of_head hF ht htodo hb
  cases a with
  | take h => exact absurd rfl (htake h)
  | dep b => exact Or.inl (moves_of_dep hr ht htodo fun k hk => hwait k (by rw [hk]))
  | gate g => exact moves_of_gate ht htodo rfl
  | sendStatelessRequest q => exact moves_of_gate ht htodo rfl
  | sendRequest q k =>
    have hne := (hs.producer_of_hint (Cluster.sendRequest_mem_messageProgram.mp hmem)).2.1
    exact Or.inl (moves_of_perform ht htodo (by simp [Cluster.perform, hne]))
  | check x =>
    refine Or.inl (moves_of_perform ht htodo ?_)
    obtain ⟨ok, hok⟩ := Option.isSome_iff_exists.mp (hs.isSome_checkInput
      (Cluster.check_mem_messageProgram.mp hmem).1 D.executor
      (s.cluster.resources.stores th.proxy x.objectId))
    by_cases hready : th.ready = true
    · simp [Cluster.perform, hready, htxn, cluster, hok]
    · simp [Cluster.perform, hready]
  | read o =>
    refine Or.inl (moves_of_perform ht htodo ?_)
    have hsome := hI hs.transaction (Cluster.read_mem_messageProgram.mp hmem)
    rw [← isSome_stores hr hD th.proxy o] at hsome
    by_cases hready : th.ready = true <;> simp [Cluster.perform, hready, hsome]
  | commit o =>
    refine Or.inl (moves_of_perform ht htodo ?_)
    have ho := Cluster.commit_mem_messageProgram.mp hmem
    by_cases hready : th.ready = true
    · have hsome : (D.executor.output txn th.readings o).isSome :=
        hD.lawful.isSome (fun o' ho' => (hV.readings ht htxn hready ho'
          (hread (by simp [Cluster.rank]))).1) o ho
      obtain ⟨x, hx⟩ := Option.isSome_iff_exists.mp hsome
      simp [Cluster.perform, hready, htxn, cluster, hx]
    · simp [Cluster.perform, hready]
  | yield h | spawnVerify | begin | execute | sendResult =>
    exact Or.inl (moves_of_perform ht htodo (by simp [Cluster.perform]))
  | panic | sendStatelessReply q | sendReply q k | readState k | commitNew o x =>
    exact absurd rfl hlast

/-- So does a request. -/
theorem moves_of_request {j : ℕ} {k : ObjectVersion}
    (ht : s.cluster.threads (.request (.stateful j) k) = some th) (htodo : th.todo = a :: rest)
    (htake : ∀ h, a ≠ take h) (hwait : ∀ k, a ≠ dep (.wait k)) : Moves D s := by
  obtain ⟨j', p, -, hreq⟩ := (follows_of_reachable hr).request ht
  have hmem := hreq.todo.2.subset (htodo ▸ List.mem_cons_self)
  simp only [List.mem_cons, List.not_mem_nil, or_false] at hmem
  rcases hmem with rfl | rfl | rfl | rfl | rfl | rfl | rfl
  · exact absurd rfl (htake _)
  · exact moves_of_dep hr ht htodo (by simp)
  · exact moves_of_perform ht htodo (by simp [Cluster.perform])
  · exact absurd rfl (hwait _)
  · exact moves_of_dep hr ht htodo (by simp)
  · refine moves_of_perform ht htodo ?_
    simp only [Cluster.perform]
    split
    · split_ifs <;> rfl
    · rfl
  · exact moves_of_perform ht htodo (by simp [Cluster.perform])

/-- A reply with its object blocks on the handler only. -/
theorem moves_of_reply (hans : Answers s) {j : ℕ} {k : ObjectVersion}
    (ht : s.cluster.threads (.reply (.stateful j) k) = some th) (htodo : th.todo = a :: rest)
    (htake : ∀ h, a ≠ take h) : Moves D s := by
  obtain ⟨j', -, y, hy, hnil, hreq, hsuffix⟩ := (follows_of_reachable hr).reply ht
  obtain ⟨x, hx, hv⟩ := hreq.objects.resolve_left (hans hy hnil)
  have h0 : 0 < D.executor.version x := by
    rw [hv]
    exact (Nat.zero_le _).trans_lt hreq.todo.1
  rw [hx, Cluster.handleStatefulReply_singleton h0] at hsuffix
  have hmem := hsuffix.subset (htodo ▸ List.mem_cons_self)
  simp only [List.mem_cons, List.not_mem_nil, or_false] at hmem
  rcases hmem with rfl | rfl | rfl | rfl | rfl
  · exact absurd rfl (htake _)
  · exact moves_of_dep hr ht htodo (by simp)
  · exact moves_of_perform ht htodo (by simp [Cluster.perform])
  · exact moves_of_perform ht htodo (by simp [Cluster.perform])
  · exact moves_of_dep hr ht htodo (by simp)

/-- A handler that is taken goes on. -/
theorem moves_of_busy (hD : Sound D Valid sim) (hI : Stocked D) (hans : Answers s) {p : ProxyId}
    {h : Handler} (hbusy : s.cluster.resources.busy p h = true) : Moves D s ∨ GateStuck D s := by
  have hF := follows_of_reachable hr
  have hA := aside_of_reachable hr
  obtain ⟨t, th, ht, rfl, htake, hleft⟩ := handlers_of_reachable hr hbusy
  obtain ⟨a, rest, htodo⟩ : ∃ a rest, th.todo = a :: rest := by
    refine List.exists_cons_of_ne_nil fun hnil => ?_
    simp [hnil] at hleft
  have hhead : a ∈ th.todo := by
    rw [htodo]
    exact List.mem_cons_self
  have htake' : ∀ h', a ≠ take h' := fun h' hh => htake h' (hh ▸ hhead)
  cases t with
  | message m =>
    cases m with
    | stateless n =>
      have hmem := (hA.message ht).subset hhead
      simp only [verificationMessage, List.mem_cons, List.not_mem_nil, or_false] at hmem
      rcases hmem with rfl | rfl | rfl | rfl
      · exact absurd rfl (htake' _)
      · exact moves_of_gate ht htodo rfl
      · exact moves_of_gate ht htodo rfl
      · exact Or.inl (moves_of_perform ht htodo (by simp [Cluster.perform]))
    | stateful i =>
      refine moves_of_message hr hD hI ht htodo htake' ?_
      rintro k rfl
      have hyield : yield h ∉ th.todo := notMem_of_head hF ht htodo (by simp [Cluster.rank])
      obtain ⟨txn, stateless, states, hs, -, -, hsuffix⟩ := hF.message ht
      exact Cluster.notMem_messageProgram_of_rank hs.initialVersion_le rfl
        (hsuffix.subset (hleft.resolve_left hyield))
  | verify m =>
    rcases hleft with hm | hm <;> simpa [Cluster.verifyTask] using (hA.verify ht).subset hm
  | request m k =>
    obtain ⟨j, p, rfl, hreq⟩ := hF.request ht
    refine Or.inl (moves_of_request hr ht htodo htake' ?_)
    rintro k' rfl
    have hsuffix := hreq.todo.2
    rw [htodo] at hsuffix hleft
    simp only [List.suffix_cons_iff, List.suffix_nil] at hsuffix
    rcases hsuffix with h | h | h | h | h | h | h | h <;> simp_all
  | reply m k =>
    obtain ⟨j, rfl, -⟩ := hF.reply ht
    exact Or.inl (moves_of_reply hr hans ht htodo htake')
  | statelessRequest m =>
    obtain ⟨p, hsuffix⟩ := (hA.request ht).1
    have hmem := hsuffix.subset hhead
    unfold Cluster.handleStatelessRequest at hmem
    split_ifs at hmem <;> simp only [List.mem_cons, List.not_mem_nil, or_false] at hmem
    · rcases hmem with rfl | rfl | rfl | rfl | rfl | rfl | rfl
      · exact absurd rfl (htake' _)
      · exact moves_of_gate ht htodo rfl
      · exact moves_of_gate ht htodo rfl
      · exact Or.inl (moves_of_perform ht htodo (by simp [Cluster.perform]))
      all_goals exact moves_of_gate ht htodo rfl
    · rcases hmem with rfl | rfl
      · exact absurd rfl (htake' _)
      · exact Or.inl (moves_of_perform ht htodo (by simp [Cluster.perform]))
  | statelessReply m =>
    have hmem := (hA.reply ht).1.subset hhead
    simp only [Cluster.handleStatelessReply, List.mem_cons, List.not_mem_nil, or_false] at hmem
    rcases hmem with rfl | rfl | rfl | rfl | rfl
    · exact absurd rfl (htake' _)
    · exact moves_of_gate ht htodo rfl
    · exact moves_of_gate ht htodo rfl
    · exact moves_of_gate ht htodo rfl
    · exact Or.inl (moves_of_perform ht htodo (by simp [Cluster.perform]))

theorem moves_of_take (hD : Sound D Valid sim) (hI : Stocked D) (hans : Answers s) {h : Handler}
    (ht : s.cluster.threads t = some th) (htodo : th.todo = take h :: rest) :
    Moves D s ∨ GateStuck D s := by
  by_cases hbusy : s.cluster.resources.busy th.proxy h = true
  · exact moves_of_busy hr hD hI hans hbusy
  · exact Or.inl (moves_of_perform ht htodo (by simp [Cluster.perform, hbusy]))

/-! ## The first that is not finished -/

/-- The `i`-th transaction was forwarded. -/
def Forwarded (s : State τ ω) (i : ℕ) : Prop :=
  (SharedObjTxnForwarder.forwardedTo s.forwarder i).isSome

/-- Its task has sent the result. -/
def Finished (s : State τ ω) (i : ℕ) : Prop :=
  Past s.cluster (.message (.stateful i)) sendResult

omit hr in
theorem closed_of_finished (hF : Follows D s) {i : ℕ} (h : Finished s i) (o : ObjectID) :
    Closed D s i o := by
  obtain ⟨x, hx, hnot⟩ := h
  obtain ⟨txn, stateless, states, hs, -, -, hsuffix⟩ := hF.message hx
  exact ⟨x, hx, done_of_done (hs.staged D.primary.mode).ordered hsuffix
    Cluster.sendResult_mem_messageProgram hnot (by simp [Cluster.rank])⟩

/-- A task whose predecessors are finished is woken, or will be by its request and the reply. -/
theorem moves_of_waiting (hD : Sound D Valid sim) (hI : Stocked D) (hans : Answers s)
    (hconn : ∀ {i p}, SharedObjTxnForwarder.forwardedTo s.forwarder i = some p →
      p ∈ D.primary.connections) {i : ℕ} {k : ObjectVersion}
    (hmin : ∀ l < i, Forwarded s l → Finished s l)
    (ht : s.cluster.threads (.message (.stateful i)) = some th)
    (htodo : th.todo = dep (.wait k) :: rest) : Moves D s ∨ GateStuck D s := by
  have hF := follows_of_reachable hr
  obtain ⟨txn, stateless, states, hs, -, -, hsuffix⟩ := hF.message ht
  have hhead : dep (.wait k) ∈
      Cluster.messageProgram D.primary.mode txn th.proxy stateless states :=
    hsuffix.subset (htodo ▸ List.mem_cons_self)
  rw [Cluster.dep_mem_messageProgram, hs.keys,
    wait_mem_dependencyProgram (initialVersion_le_of_mem _ i)] at hhead
  obtain ⟨hk, hv⟩ := hhead
  obtain ⟨l, hlast, hl⟩ := exists_producer hk hv
  obtain ⟨⟨k', q⟩, hkq, rfl⟩ := List.mem_map.mp (hs.keys ▸ hk)
  obtain ⟨q', hq', rfl⟩ := (hs.hint hkq).2 l hl
  have hc : Closed D s l k'.1 :=
    closed_of_finished hF (hmin l hlast.1 (by rw [Forwarded, hq']; rfl)) _
  have hnotified := fun loc (hloc : Places loc s.forwarder) => notified_of_closed hr hloc hl hc
  rcases eq_or_ne q' th.proxy with rfl | hne
  · exact Or.inl (moves_of_wait hr ht htodo fun loc hloc => hloc hq' ▸ hnotified loc hloc)
  · -- the version is at another proxy
    have hkq' : (k', some q') ∈ states := by simpa [previousOwnerValue, hne] using hkq
    obtain ⟨y, hy⟩ := Option.isSome_iff_exists.mp (hF.asked ht hs hkq' (hconn hq')
      (notMem_of_head hF ht htodo (by simp [Cluster.rank])))
    obtain ⟨j, p, hj, hreq⟩ := hF.request hy
    obtain rfl : i = j := MessageId.stateful.inj hj
    cases hytodo : y.todo with
    | nil =>
      obtain ⟨z, hz⟩ := Option.isSome_iff_exists.mp (hF.answered hy hytodo)
      cases hztodo : z.todo with
      | nil =>
        exact Or.inl (moves_of_wait hr ht htodo fun loc hloc =>
          hF.proxy_eq hloc ht ▸ notified_of_reply hr hloc hz hztodo)
      | cons b rest' =>
        by_cases hb : ∃ h, b = take h
        · obtain ⟨h, rfl⟩ := hb
          exact moves_of_take hr hD hI hans hz hztodo
        · exact Or.inl (moves_of_reply hr hans hz hztodo fun h hh => hb ⟨h, hh⟩)
    | cons b rest' =>
      by_cases hb : ∃ h, b = take h
      · obtain ⟨h, rfl⟩ := hb
        exact moves_of_take hr hD hI hans hy hytodo
      · by_cases hw : ∃ k, b = dep (.wait k)
        · obtain ⟨k, rfl⟩ := hw
          have hmem : dep (.wait k) ∈ y.todo := by
            rw [hytodo]
            exact List.mem_cons_self
          obtain rfl : k = k' := by simpa using hreq.todo.2.subset hmem
          refine Or.inl (moves_of_wait hr hy hytodo fun loc hloc => ?_)
          obtain ⟨-, l', hl', hloc', -⟩ := source_eq_some.mp (hreq.source_eq hloc).1
          obtain rfl := producer_unique hl hl'
          exact hloc' ▸ hnotified loc hloc
        · exact Or.inl (moves_of_request hr hy hytodo (fun h hh => hb ⟨h, hh⟩)
            fun k hk => hw ⟨k, hk⟩)

/-- As long as a transaction that was forwarded is not finished, the proxies go on, or wait for
the result of a verification. -/
theorem moves_of_unfinished (hD : Sound D Valid sim) (hI : Stocked D) (hans : Answers s)
    (hconn : ∀ {i p}, SharedObjTxnForwarder.forwardedTo s.forwarder i = some p →
      p ∈ D.primary.connections) (h : ∃ i, Forwarded s i ∧ ¬Finished s i) :
    Moves D s ∨ GateStuck D s := by
  classical
  have hF := follows_of_reachable hr
  obtain ⟨hfwd, hunfinished⟩ := Nat.find_spec h
  have hmin : ∀ l < Nat.find h, Forwarded s l → Finished s l := fun l hl hfwd' => by
    by_contra hno
    exact Nat.find_min h hl ⟨hfwd', hno⟩
  generalize Nat.find h = i at hfwd hunfinished hmin
  obtain ⟨⟨p, msg⟩, hsent⟩ := Option.isSome_iff_exists.mp (by simpa [Forwarded,
    SharedObjTxnForwarder.forwardedTo] using hfwd :
    (s.forwarder.context.sent (.stateful i)).isSome)
  cases hth : s.cluster.threads (.message (.stateful i)) with
  | none =>
    -- the message is still to be delivered
    refine Or.inl ⟨.arrive (.stateful i), rfl, ?_⟩
    obtain ⟨t, stateless, states, hs, rfl⟩ := exists_sent (reachable_forwarder hr) hsent
    have hnodup := hs.nodup
    simp [Deployment.step, hsent, Cluster.arrive, hth, cluster, hconn hs.forwardedTo,
      SharedObjTxnForwarder.requiredStates_statefulMessage, hnodup]
  | some th =>
    obtain ⟨a, rest, htodo⟩ : ∃ a rest, th.todo = a :: rest := by
      refine List.exists_cons_of_ne_nil fun hnil => hunfinished ⟨th, hth, ?_⟩
      simp [hnil]
    by_cases htake : ∃ h, a = take h
    · obtain ⟨h, rfl⟩ := htake
      exact moves_of_take hr hD hI hans hth htodo
    · by_cases hwait : ∃ k, a = dep (.wait k)
      · obtain ⟨k, rfl⟩ := hwait
        exact moves_of_waiting hr hD hI hans hconn hmin hth htodo
      · exact moves_of_message hr hD hI hth htodo (fun h hh => htake ⟨h, hh⟩)
          fun k hk => hwait ⟨k, hk⟩

end Enabled

end Deployment

end Remora
