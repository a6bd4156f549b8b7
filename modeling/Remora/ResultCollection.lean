import Remora.StateTransfer

/-!
# The collection of results

A stateful task sends one result, with effects if it has executed its transaction and without
if it has skipped it (`Attempt.result`). The node collects the results until the core tasks
end, and of each of them it asserts `success()`, which unwraps the effects.

`Collects` is what the loop is for : it never panics, and while it goes on it can get to the
end of what is sent. `collects_iff` : it is so if and only if no transaction was skipped.
-/

namespace Remora

open Transition

variable {τ ω : Type}

/-! ## What a task sends -/

/-- A transaction at its stateful task : the result of its verification, and the store as the
checks and as the execution find it. -/
structure Attempt (τ ω : Type) where
  transaction : RemoraTransaction τ
  verified : Bool
  checked : ObjectID → Option ω
  store : ObjectID → Option ω

namespace Attempt

variable (E : Executor τ ω) (a : Attempt τ ω)

/-- `ready_to_execute`. `none` : the check panics. -/
def readyToExecute : Option Bool :=
  if a.verified then
    if a.transaction.inputs.any InputObjectKind.isShared then
      E.preExecuteCheck a.transaction a.checked
    else some true
  else some false

/-- The result the task of `spawn_stateful_txn` sends. `none` : it panics before that. -/
def result : Option (ExecutionResults τ ω) :=
  (a.readyToExecute E).bind fun ready =>
    if ready then E.execute a.transaction a.store else some ⟨a.transaction, none, none⟩

variable {E a}

theorem success_of_result {r : ExecutionResults τ ω} (h : a.result E = some r) :
    r.success = if a.readyToExecute E = some true then some true else none := by
  obtain ⟨ready, hready, hr⟩ := Option.bind_eq_some_iff.mp h
  cases ready with
  | false =>
    obtain rfl := Option.some.inj hr
    simp [hready, ExecutionResults.success]
  | true =>
    obtain ⟨objects, -, rfl⟩ := Option.map_eq_some_iff.mp hr
    simp [hready, ExecutionResults.success, TransactionEffects.status]

theorem result_of_skipped (h : a.readyToExecute E = some false) :
    a.result E = some ⟨a.transaction, none, none⟩ := by
  simp [result, h]

end Attempt

/-! ## The loop of `await_completion` -/

def defaultChannelSize : ℕ := 100000

inductive Phase
  | running
  | ended
  | panicked
  deriving DecidableEq, Repr

/-- The results the tasks have still to send, those in the channel, and those consumed, with
the loop's counter and the number of the latencies it has logged. -/
structure Collector (τ ω : Type) where
  toSend : List (ExecutionResults τ ω)
  queue : List (ExecutionResults τ ω)
  consumed : List (ExecutionResults τ ω)
  sampledResultsCount : ℕ
  logged : ℕ
  coreCompletion : Bool
  phase : Phase

namespace Collector

inductive Event
  /-- A task sends its result. -/
  | send
  /-- The core tasks end. -/
  | completion
  /-- The `select` takes a result, or the end of the core tasks. -/
  | recv
  | finish
  deriving DecidableEq, Repr

def init (results : List (ExecutionResults τ ω)) : Collector τ ω :=
  ⟨results, [], [], 0, 0, false, .running⟩

/-- The body of the loop on a result. The assertion, and in it the `unwrap`, may panic. -/
def consume (s : Collector τ ω) (r : ExecutionResults τ ω) : Collector τ ω :=
  if r.success = some true then
    { s with
      consumed := s.consumed ++ [r]
      sampledResultsCount := s.sampledResultsCount + 1
      logged := s.logged + if (s.sampledResultsCount + 1) % 10 = 0 then 1 else 0 }
  else { s with phase := .panicked }

def step (s : Collector τ ω) : Event → Option (Collector τ ω)
  | .send =>
    match s.toSend with
    | [] => none
    | r :: rest =>
      if s.queue.length < defaultChannelSize then
        some { s with toSend := rest, queue := s.queue ++ [r] }
      else none
  | .completion => some { s with coreCompletion := true }
  | .recv =>
    match s.queue with
    | [] => none
    | r :: rest =>
      if s.phase = .running then some (consume { s with queue := rest } r) else none
  | .finish =>
    if s.phase = .running ∧ s.coreCompletion then some { s with phase := .ended } else none

def system (results : List (ExecutionResults τ ω)) : System (Collector τ ω) Event where
  init s := s = init results
  step := step

variable {results : List (ExecutionResults τ ω)} {s s' : Collector τ ω}

/-- The results are consumed in the order they were sent in, and the loop panics on one
without success only. -/
structure Inv (results : List (ExecutionResults τ ω)) (s : Collector τ ω) : Prop where
  sent : s.phase ≠ .panicked → s.consumed ++ s.queue ++ s.toSend = results
  succeeded : ∀ r ∈ s.consumed, r.success = some true
  panicked : s.phase = .panicked → ∃ r ∈ results, r.success ≠ some true
  sampled : s.sampledResultsCount = s.consumed.length
  logged : s.logged = s.consumed.length / 10

theorem Inv.init : Inv results (init results) where
  sent _ := rfl
  succeeded := by simp [Collector.init]
  panicked := nofun
  sampled := rfl
  logged := by simp [Collector.init]

/-- What is in the channel came from the tasks. -/
theorem Inv.mem_results (hI : Inv results s) (hs : s.phase ≠ .panicked)
    {r : ExecutionResults τ ω} (hr : r ∈ s.queue) : r ∈ results := by
  rw [← hI.sent hs]
  exact List.mem_append_left _ (List.mem_append_right _ hr)

theorem Inv.consume {r : ExecutionResults τ ω} {rest : List (ExecutionResults τ ω)}
    (hI : Inv results s) (hq : s.queue = r :: rest) (hs : s.phase = .running) :
    Inv results (consume { s with queue := rest } r) := by
  have hrunning : s.phase ≠ .panicked := by simp [hs]
  unfold Collector.consume
  by_cases hr : r.success = some true
  · rw [if_pos hr]
    refine ⟨fun _ => ?_, fun x hx => ?_, fun h => absurd h hrunning, ?_, ?_⟩
    · simpa [hq] using hI.sent hrunning
    · exact (List.mem_append.mp hx).elim (hI.succeeded x) fun h => List.mem_singleton.mp h ▸ hr
    · simp [hI.sampled]
    · have hlogged := hI.logged
      have hsampled := hI.sampled
      simp only [List.length_append, List.length_singleton]
      split_ifs <;> omega
  · rw [if_neg hr]
    exact ⟨fun h => absurd rfl h, hI.succeeded,
      fun _ => ⟨r, hI.mem_results hrunning (hq ▸ List.mem_cons_self), hr⟩, hI.sampled, hI.logged⟩

theorem Inv.step {e : Event} (hI : Inv results s) (h : step s e = some s') : Inv results s' := by
  cases e with
  | send =>
    simp only [Collector.step] at h
    split at h
    · cases h
    · rename_i r rest htoSend
      obtain ⟨-, h⟩ := Option.ite_none_right_eq_some.mp h
      obtain rfl := Option.some.inj h
      exact { hI with sent := fun hs => by simpa [htoSend] using hI.sent hs }
  | completion =>
    obtain rfl := Option.some.inj h
    exact { hI with }
  | recv =>
    simp only [Collector.step] at h
    split at h
    · cases h
    · rename_i r rest hq
      obtain ⟨hs, h⟩ := Option.ite_none_right_eq_some.mp h
      obtain rfl := Option.some.inj h
      exact hI.consume hq hs
  | finish =>
    obtain ⟨hs, h⟩ := Option.ite_none_right_eq_some.mp h
    obtain rfl := Option.some.inj h
    exact { hI with
      sent := fun _ => hI.sent (by simp [hs.1])
      panicked := nofun }

theorem inv_of_reachable (h : (system results).Reachable s) : Inv results s :=
  h.invariant (fun _ hs => hs ▸ Inv.init) fun _ _ _ _ hI hs => hI.step hs

/-- If all results are successes, a loop that goes on can consume them all. -/
theorem exists_consumed (hall : ∀ r ∈ results, r.success = some true) {n : ℕ}
    (hn : 2 * s.toSend.length + s.queue.length = n) (hI : Inv results s)
    (hs : s.phase = .running) : ∃ s', (system results).Steps s s' ∧ s'.consumed = results := by
  have hrunning : s.phase ≠ .panicked := by simp [hs]
  induction n using Nat.strong_induction_on generalizing s with
  | _ n ih =>
    cases hq : s.queue with
    | cons r rest =>
      have hr := hall r (hI.mem_results hrunning (hq ▸ List.mem_cons_self))
      have hstep : step s .recv = some (consume { s with queue := rest } r) := by
        simp [Collector.step, hq, hs]
      have hphase : (consume { s with queue := rest } r).phase = .running := by
        simp [consume, hr, hs]
      obtain ⟨s', hsteps, hs'⟩ := ih _ (by simp [consume, hr, ← hn, hq]) rfl (hI.step hstep)
        hphase (by simp [hphase])
      exact ⟨s', hsteps.head (e := .recv) hstep, hs'⟩
    | nil =>
      cases hto : s.toSend with
      | cons r rest =>
        have hstep : step s .send = some { s with toSend := rest, queue := s.queue ++ [r] } := by
          simp [Collector.step, hto, hq, defaultChannelSize]
        obtain ⟨s', hsteps, hs'⟩ := ih _ (by simp [← hn, hto, hq]; omega) rfl (hI.step hstep) hs
          hrunning
        exact ⟨s', hsteps.head (e := .send) hstep, hs'⟩
      | nil => exact ⟨s, .refl s, by simpa [hq, hto] using hI.sent hrunning⟩

/-- What the loop is for : it does not panic, and gets through all results unless the core
tasks end before. -/
structure Collects (results : List (ExecutionResults τ ω)) : Prop where
  safe : ∀ s, (system results).Reachable s → s.phase ≠ .panicked
  consumes : ∀ s, (system results).Reachable s → s.phase = .running →
    ∃ s', (system results).Steps s s' ∧ s'.consumed = results

theorem collects_iff_success : Collects results ↔ ∀ r ∈ results, r.success = some true := by
  constructor
  · intro h r hr
    have hinit : (system results).Reachable (init results) := .init rfl
    obtain ⟨s', hsteps, hs'⟩ := h.consumes _ hinit rfl
    exact (inv_of_reachable (hinit.steps hsteps)).succeeded r (hs' ▸ hr)
  · intro hall
    refine ⟨fun s hr hs => ?_, fun s hr hs => exists_consumed hall rfl (inv_of_reachable hr) hs⟩
    obtain ⟨r, hmem, hsuccess⟩ := (inv_of_reachable hr).panicked hs
    exact hsuccess (hall r hmem)

/-- The results of the tasks are collected if no transaction was skipped, and only then. -/
theorem collects_iff (E : Executor τ ω) (attempts : List (Attempt τ ω)) :
    Collects (attempts.filterMap (Attempt.result E)) ↔
      ∀ a ∈ attempts, a.readyToExecute E ≠ some false := by
  rw [collects_iff_success]
  constructor
  · intro h a ha hskipped
    have hr := Attempt.result_of_skipped hskipped
    have hsuccess := h _ (List.mem_filterMap.mpr ⟨a, ha, hr⟩)
    simp [ExecutionResults.success] at hsuccess
  · intro h r hr
    obtain ⟨a, ha, hres⟩ := List.mem_filterMap.mp hr
    rw [Attempt.success_of_result hres, if_pos]
    obtain ⟨ready, hready, -⟩ := Option.bind_eq_some_iff.mp hres
    have := h a ha
    cases ready <;> simp_all

/-- One transaction, which writes object 0 and is not verified. -/
def unverified : Attempt Unit FakeObject where
  transaction := .new () 7 [.sharedMoveObject 0] 0 0
  verified := false
  checked := Cluster.skippedStore
  store := Cluster.skippedStore

def skippedResult : ExecutionResults Unit FakeObject :=
  ⟨unverified.transaction, none, none⟩

/-- It is skipped, and the loop panics on its result. -/
theorem skipped_not_collected :
    ¬Collects ([unverified].filterMap (Attempt.result (fakeExecutor Unit))) := by
  intro h
  have hskipped : unverified.result (fakeExecutor Unit) = some skippedResult :=
    Attempt.result_of_skipped rfl
  rw [List.filterMap_cons_some hskipped, List.filterMap_nil] at h
  have hrun : (system [skippedResult]).run (init [skippedResult]) [.send, .recv] =
      some ⟨[], [], [], 0, 0, false, .panicked⟩ := by
    simp [System.run, system, step, init, consume, skippedResult, ExecutionResults.success,
      defaultChannelSize]
  exact h.safe _ (System.reachable_run (.init rfl) hrun) rfl

end Collector

/-! ## The program of a task -/

namespace Cluster

open ProxyAction

variable {K : Cluster τ ω} {t : ThreadId} {R R' : Resources ω} {th th' : Thread τ ω}
  {txn : RemoraTransaction τ}

theorem performAll_check (htxn : th.transaction = some txn) {l : List InputObjectKind} :
    performAll K t (l.map check) R th =
      if th.ready then (K.executor.checkInputs txn (R.stores th.proxy) l).map fun ok =>
        (R, { th with ready := ok })
      else some (R, th) := by
  induction l generalizing th with
  | nil => cases hready : th.ready <;> simp [performAll, Executor.checkInputs, ← hready]
  | cons x l ih =>
    rw [List.map_cons, performAll, perform, Executor.checkInputs]
    cases hready : th.ready with
    | false => simp [ih htxn, hready]
    | true =>
      simp only [if_true, htxn, Option.bind_eq_bind, Option.bind_some, Option.bind_assoc,
        Option.map_bind]
      refine congrArg _ (funext fun ok => ?_)
      refine (ih rfl).trans ?_
      cases ok <;> rfl

theorem executed_of_notMem {l : List (ProxyAction ω)} (hl : execute ∉ l)
    (h : performAll K t l R th = some (R', th')) : th'.executed = th.executed := by
  refine performAll_invariant (I := fun _ x => x.executed = th.executed) ?_ h rfl
  intro a ha R₁ R₂ x y hp hx
  exact ((perform_frame hp).executed fun he => hl (he ▸ ha)).trans hx

/-- A task that runs by itself executes its transaction if `ready_to_execute` is true. -/
theorem executed_of_performAll (htxn : th.transaction = some txn)
    (h : performAll K t (executeTransaction txn) R th = some (R', th')) :
    Attempt.readyToExecute K.executor
      ⟨txn, th.gate.verdict, R.stores th.proxy, R.stores th.proxy⟩ = some th'.executed := by
  simp only [executeTransaction, performAll_append, List.append_assoc] at h
  obtain ⟨⟨R₁, th₁⟩, hbegin, h⟩ := Option.bind_eq_some_iff.mp h
  obtain ⟨⟨R₂, th₂⟩, hchecks, h⟩ := Option.bind_eq_some_iff.mp h
  obtain ⟨⟨R₃, th₃⟩, hexecute, h⟩ := Option.bind_eq_some_iff.mp h
  obtain ⟨rfl, rfl⟩ := Prod.mk.inj (Option.some.inj hbegin)
  obtain ⟨rfl, rfl⟩ := Prod.mk.inj (Option.some.inj hexecute)
  obtain ⟨⟨R₄, th₄⟩, hreads, hcommits⟩ := Option.bind_eq_some_iff.mp h
  have hexecuted : th'.executed = th₂.ready :=
    (executed_of_notMem (by simp) hcommits).trans (executed_of_notMem (by simp) hreads)
  let th₁ : Thread τ ω := { th with ready := th.gate.verdict }
  have htxn₁ : th₁.transaction = some txn := htxn
  have hchecks : performAll K t
      (if txn.inputs.any InputObjectKind.isShared then txn.inputs.map check else []) R th₁ =
      some (R₂, th₂) := hchecks
  rw [hexecuted, Attempt.readyToExecute]
  by_cases hs : txn.inputs.any InputObjectKind.isShared
  · rw [if_pos hs, performAll_check htxn₁] at hchecks
    cases hv : th.gate.verdict with
    | false =>
      simp only [th₁, hv, Bool.false_eq_true, if_false] at hchecks ⊢
      obtain ⟨-, rfl⟩ := Prod.mk.inj (Option.some.inj hchecks)
      rfl
    | true =>
      simp only [th₁, hv, if_true, hs] at hchecks ⊢
      obtain ⟨ok, hok, hchecks⟩ := Option.map_eq_some_iff.mp hchecks
      obtain ⟨-, rfl⟩ := Prod.mk.inj hchecks
      exact hok
  · rw [if_neg hs] at hchecks
    obtain ⟨-, rfl⟩ := Prod.mk.inj (Option.some.inj hchecks)
    cases hv : th.gate.verdict <;> simp [th₁, hv, hs]

end Cluster

end Remora
