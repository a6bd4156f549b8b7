import Remora.CombinedExecution
import Remora.ResultCollection

/-!
# Proxies that collect their results

The main task of a proxy takes the results of its transactions from their channel, and asserts
of each of them that it is a success. It panics on the result of a transaction that was skipped,
and the proxy ends with it : no thread of it does anything more, and no message reaches it.

Up to then the proxies do what they do without collectors (`reachable_deployment`), and go on if
these go on (`goesOn_of_moves`) : a channel that is full is one a collector can take from.
A proxy ends only over a transaction of its own that was skipped (`skipped_of_ended`).
-/

namespace Remora

open Function

variable {τ ω : Type}

namespace Deployment

open ProxyAction

/-- What the task of a transaction sends : the result has effects if it was executed. -/
structure TaskResult where
  transaction : ℕ
  executed : Bool
  deriving DecidableEq, Repr

/-- A deployment with the channel of the results of each proxy, and the proxies whose main task
has panicked. -/
structure Collecting (τ ω : Type) where
  deployment : State τ ω
  results : ProxyId → List TaskResult
  ended : ProxyId → Bool

/-- The proxy at which something happens. -/
def site (s : State τ ω) : Event → Option ProxyId
  | .forwarder _ => none
  | .arrive m => (s.forwarder.context.sent m).map Prod.fst
  | .run t => (s.cluster.threads t).map Thread.proxy

/-- The result that a task sends with its next action, and the proxy it is at. -/
def nextResult (s : State τ ω) : Event → Option (ProxyId × TaskResult)
  | .run (.message (.stateful i)) => (s.cluster.threads (.message (.stateful i))).bind fun th =>
    match th.todo with
    | sendResult :: _ => some (th.proxy, ⟨i, th.executed⟩)
    | _ => none
  | _ => none

namespace Collecting

inductive Event
  | deployment (e : Deployment.Event)
  /-- The loop of `await_completion` takes a result. -/
  | collect (p : ProxyId)

/-- The event is one of the proxies. -/
def Event.isProxy : Event → Bool
  | .deployment e => e.isProxy
  | .collect _ => true

variable (D : Deployment τ ω)

def init : Collecting τ ω :=
  ⟨State.init D, fun _ => [], fun _ => false⟩

def step (s : Collecting τ ω) : Event → Option (Collecting τ ω)
  | .deployment e =>
    if (site s.deployment e).any s.ended then none
    else match nextResult s.deployment e with
      | none => (Deployment.step D s.deployment e).map fun d => { s with deployment := d }
      | some (p, r) =>
        if (s.results p).length < defaultChannelSize then
          (Deployment.step D s.deployment e).map fun d =>
            { s with deployment := d, results := update s.results p (s.results p ++ [r]) }
        else none
  | .collect p =>
    match s.results p with
    | [] => none
    | r :: rest =>
      if s.ended p then none
      else some { s with
        results := update s.results p rest
        -- the assertion panics on the result of a transaction that was skipped
        ended := update s.ended p (!r.executed) }

def system : Transition.System (Collecting τ ω) Event where
  init s := s = init D
  step := step D

/-- No collector has taken the result of a transaction that was skipped. -/
def AllCollect (s : Collecting τ ω) : Prop :=
  ∀ p, s.ended p = false

/-- An event of the proxies or of their collectors can happen. -/
def GoesOn (s : Collecting τ ω) : Prop :=
  ∃ e : Event, e.isProxy = true ∧ (step D s e).isSome

variable {D} {s s' : Collecting τ ω} {e : Event} {p : ProxyId}

/-- A step is one of the deployment, with which a result may be sent, or takes a result. -/
theorem step_cases (h : step D s e = some s') :
    (∃ e', Deployment.step D s.deployment e' = some s'.deployment ∧ s'.ended = s.ended ∧
      (s'.results = s.results ∨ ∃ p r, nextResult s.deployment e' = some (p, r) ∧
        s'.results = update s.results p (s.results p ++ [r]))) ∨
    ∃ p r rest, s.results p = r :: rest ∧ s'.deployment = s.deployment ∧
      s'.results = update s.results p rest ∧ s'.ended = update s.ended p (!r.executed) := by
  cases e with
  | deployment e' =>
    refine Or.inl ⟨e', ?_⟩
    simp only [step] at h
    split_ifs at h
    cases hr : nextResult s.deployment e' with
    | none =>
      rw [hr] at h
      obtain ⟨d, hd, rfl⟩ := Option.map_eq_some_iff.mp h
      exact ⟨hd, rfl, Or.inl rfl⟩
    | some x =>
      rw [hr] at h
      simp only at h
      split_ifs at h
      obtain ⟨d, hd, rfl⟩ := Option.map_eq_some_iff.mp h
      exact ⟨hd, rfl, Or.inr ⟨x.1, x.2, rfl, rfl⟩⟩
  | collect p =>
    simp only [step] at h
    split at h
    · cases h
    · next r rest hr =>
      split_ifs at h
      obtain rfl := Option.some.inj h
      exact Or.inr ⟨p, r, rest, hr, rfl, rfl, rfl⟩

/-- The collectors change nothing of what the proxies do. -/
theorem reachable_deployment (h : (system D).Reachable s) :
    (Deployment.system D).Reachable s.deployment := by
  refine h.invariant (I := fun s => (Deployment.system D).Reachable s.deployment) ?_ ?_
  · rintro s rfl
    exact .init rfl
  · intro s e s' _ hI hs
    rcases step_cases hs with ⟨e', hd, -⟩ | ⟨-, -, -, -, hd, -⟩
    · exact hI.step hd
    · exact hd ▸ hI

/-! ## Progress -/

/-- As long as all proxies collect, they go on as they do by themselves. -/
theorem goesOn_of_moves (hall : s.AllCollect) (h : Moves D s.deployment) : GoesOn D s := by
  obtain ⟨e, he, hstep⟩ := h
  have hsite : (site s.deployment e).any s.ended = false := by
    cases site s.deployment e with
    | none => rfl
    | some p => exact hall p
  cases hr : nextResult s.deployment e with
  | none => exact ⟨.deployment e, he, by simpa [step, hsite, hr] using hstep⟩
  | some x =>
    obtain ⟨p, r⟩ := x
    cases hresults : s.results p with
    | nil => exact ⟨.deployment e, he, by
        simpa [step, hsite, hr, hresults, defaultChannelSize] using hstep⟩
    | cons r' rest => exact ⟨.collect p, rfl, by simp [step, hresults, hall p]⟩

/-! ## Who ends -/

/-- The task of `r` has got past the execution, with the outcome that `r` has. -/
def SentBy (d : State τ ω) (p : ProxyId) (r : TaskResult) : Prop :=
  ∃ th, d.cluster.threads (.message (.stateful r.transaction)) = some th ∧ th.proxy = p ∧
    execute ∉ th.todo ∧ th.executed = r.executed

theorem SentBy.step {d d' : State τ ω} {r : TaskResult} (h : SentBy d p r)
    {e : Deployment.Event} (hs : Deployment.step D d e = some d') : SentBy d' p r := by
  obtain ⟨th, ht, hp, hexecute, hr⟩ := h
  rcases Deployment.step_cases hs with ⟨e', -, hc⟩ | ⟨m, q, msg, -, ha, -⟩ |
    ⟨t, x, x', a, rest, -, hrun, -⟩
  · exact ⟨th, hc ▸ ht, hp, hexecute, hr⟩
  · exact ⟨th, Cluster.threads_of_arrive ha ht, hp, hexecute, hr⟩
  · rcases eq_or_ne (.message (.stateful r.transaction)) t with rfl | hne
    · obtain rfl := Option.some.inj (ht.symm.trans hrun.thread)
      have hframe := Cluster.perform_frame hrun.perform
      have hne : a ≠ execute := by
        rintro rfl
        exact hexecute hrun.head_mem
      exact ⟨_, hrun.self, hframe.proxy.trans hp, fun hm => hexecute (hrun.mem_of_mem hm),
        (hframe.executed hne).trans hr⟩
    · exact ⟨th, (hrun.threads_of_ne hne fun x => Cluster.spawned_ne_message _ x).trans ht, hp,
        hexecute, hr⟩

theorem sentBy_of_nextResult {d : State τ ω} {r : TaskResult} {e : Deployment.Event}
    (hr : (Deployment.system D).Reachable d) (h : nextResult d e = some (p, r)) :
    SentBy d p r := by
  unfold nextResult at h
  split at h
  · next i =>
    obtain ⟨th, ht, h⟩ := Option.bind_eq_some_iff.mp h
    split at h
    · next rest htodo =>
      obtain ⟨rfl, rfl⟩ := Prod.mk.inj (Option.some.inj h)
      exact ⟨th, ht, rfl, notMem_of_head (follows_of_reachable hr) ht htodo
        (by simp [Cluster.rank]), rfl⟩
    · cases h
  · cases h

/-- The channels hold what was sent, and a proxy has ended over a transaction of its own. -/
structure Accounted (s : Collecting τ ω) : Prop where
  results : ∀ p, ∀ r ∈ s.results p, SentBy s.deployment p r
  ended : ∀ p, s.ended p = true → ∃ r, SentBy s.deployment p r ∧ r.executed = false

theorem Accounted.step (h : Accounted s) (hr : (Deployment.system D).Reachable s.deployment)
    (hs : step D s e = some s') : Accounted s' := by
  rcases step_cases hs with ⟨e', hd, hended, hresults⟩ | ⟨p, r, rest, hp, hd, hresults, hended⟩
  · refine ⟨fun p r hm => ?_, fun p hp => ?_⟩
    · rcases hresults with hresults | ⟨q, r', hnext, hresults⟩
      · exact (h.results p r (hresults ▸ hm)).step hd
      · rw [hresults] at hm
        rcases eq_or_ne p q with rfl | hne
        · rw [update_self, List.mem_append, List.mem_singleton] at hm
          rcases hm with hm | rfl
          · exact (h.results p r hm).step hd
          · exact (sentBy_of_nextResult hr hnext).step hd
        · rw [update_of_ne hne] at hm
          exact (h.results p r hm).step hd
    · obtain ⟨r, hsent, hr⟩ := h.ended p (hended ▸ hp)
      exact ⟨r, hsent.step hd, hr⟩
  · have hmem : ∀ {r'}, r' ∈ s.results p → SentBy s'.deployment p r' := fun hm =>
      hd ▸ h.results p _ hm
    refine ⟨fun q r' hm => ?_, fun q hq => ?_⟩
    · rw [hresults] at hm
      rcases eq_or_ne q p with rfl | hne
      · rw [update_self] at hm
        exact hmem (hp ▸ List.mem_cons_of_mem _ hm)
      · rw [update_of_ne hne] at hm
        exact hd ▸ h.results q r' hm
    · rw [hended] at hq
      rcases eq_or_ne q p with rfl | hne
      · rw [update_self, Bool.not_eq_true'] at hq
        exact ⟨r, hmem (hp ▸ List.mem_cons_self), hq⟩
      · rw [update_of_ne hne] at hq
        exact hd ▸ h.ended q hq

/-- A proxy ends only over a transaction that was sent to it and that it skipped. -/
theorem skipped_of_ended (h : (system D).Reachable s) (hp : s.ended p = true) :
    ∃ i th, s.deployment.cluster.threads (.message (.stateful i)) = some th ∧ th.proxy = p ∧
      execute ∉ th.todo ∧ th.executed = false := by
  have hA : Accounted s := by
    refine h.invariant (I := Accounted) ?_ fun _ _ _ hr hI hs =>
      hI.step (reachable_deployment hr) hs
    rintro s rfl
    exact ⟨by simp [init], by simp [init]⟩
  obtain ⟨r, ⟨th, ht, hproxy, hexecute, hr⟩, hskipped⟩ := hA.ended p hp
  exact ⟨r.transaction, th, ht, hproxy, hexecute, hr.trans hskipped⟩

end Collecting

end Deployment

end Remora
