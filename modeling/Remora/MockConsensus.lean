import Remora.Transition
import Remora.SharedObjTxnForwarder
import Mathlib.Data.List.Perm.Basic

/-!
# The mock consensus

`MockConsensus::run` is one task that loops over a `select!`. It receives a transaction, if
the number of batches in flight allows it, or the timer of the current batch fires, or a
batch in flight completes its delay and is delivered. A batch is sealed at two places, when
it is full and when the timer fires.

An awaited send suspends the task in the middle of a branch, with what it sends in hand, so
a state has a `Phase`. The timer may fire whenever the task is at the `select!`, and batches
in flight complete in any order. Batches are numbered in the order they are sealed, and a
future carries its batch's number. The receivers of the verification requests and of the
pre-consensus scheduling outlive the task.

`Bounded` is what keeps the number of batches in flight within its limit although the timer
does not check it : at the limit the current batch is empty. `Conserved` says where each
transaction and each batch is.
-/

namespace Remora

variable {τ : Type}

namespace MockConsensus

/-- A batch of transactions. -/
abbrev ConsensusCommit (τ : Type) := List (RemoraTransaction τ)

/-- `MockConsensusParameters`. The delays are real time, which is not modelled. -/
structure MockConsensusParameters where
  batchSize : ℕ
  maxInflightBatches : ℕ
  batchSize_pos : 0 < batchSize
  maxInflightBatches_pos : 0 < maxInflightBatches

/-- The parameters, and the mode. -/
structure Config where
  parameters : MockConsensusParameters
  separationMode : SeparationMode

/-- Both delay models return the batch they are given. -/
def consensusDelay (batch : ConsensusCommit τ) : ConsensusCommit τ :=
  batch

/-- Where the task is in its loop. -/
inductive Phase (τ : Type)
  /-- At the `select!`. -/
  | select
  /-- Sends the verification request of the transaction it has received. -/
  | sendRequest (t : RemoraTransaction τ)
  /-- Sends the batch it has sealed to the scheduler. -/
  | sendBatch (batch : ConsensusCommit τ) (n : ℕ)
  /-- Delivers a commit to the primary executor. -/
  | deliver (commit : ConsensusCommit τ) (n : ℕ)
  /-- Has left the loop. -/
  | terminated
  /-- The decrement of `current_inflight_batches` underflows. -/
  | panicked

namespace Phase

/-- The transaction that is received and not in a batch yet. -/
def received : Phase τ → List (RemoraTransaction τ)
  | sendRequest t => [t]
  | _ => []

/-- The batch on its way to the scheduler. -/
def scheduling : Phase τ → List (ConsensusCommit τ × ℕ)
  | sendBatch batch n => [(batch, n)]
  | _ => []

/-- The batch on its way to the primary executor. -/
def delivering : Phase τ → List (ConsensusCommit τ × ℕ)
  | deliver commit n => [(commit, n)]
  | _ => []

end Phase

/-- The fields of the engine, the batches in flight, and what has been sent on each channel.
`received` and `sealedBatches` record what the task has received and sealed. -/
structure State (τ : Type) where
  phase : Phase τ
  currentBatch : ConsensusCommit τ
  currentInflightBatches : ℕ
  waiter : List (ConsensusCommit τ × ℕ)
  txStatelessTxns : List StatelessVerificationRequest
  txPreConsensusScheduling : List (ConsensusCommit τ × ℕ)
  txPrimaryExecutor : List (ConsensusCommit τ × ℕ)
  primaryExecutorClosed : Bool
  received : List (RemoraTransaction τ)
  sealedBatches : List (ConsensusCommit τ)

namespace State

/-- The engine before its first round. -/
def init : State τ :=
  ⟨.select, [], 0, [], [], [], [], false, [], []⟩

/-- The current batch is drained, starts its delay, and is about to be scheduled. -/
def sealBatch (s : State τ) : State τ :=
  { s with
    phase := .sendBatch s.currentBatch s.sealedBatches.length
    currentBatch := []
    currentInflightBatches := s.currentInflightBatches + 1
    waiter := s.waiter ++ [(consensusDelay s.currentBatch, s.sealedBatches.length)]
    sealedBatches := s.sealedBatches ++ [s.currentBatch] }

/-- The transaction joins the current batch, which is sealed if it is full. -/
def push (C : Config) (s : State τ) (t : RemoraTransaction τ) : State τ :=
  let s := { s with phase := .select, currentBatch := s.currentBatch ++ [t] }
  if s.currentBatch.length ≥ C.parameters.batchSize then s.sealBatch else s

end State

inductive Event (τ : Type)
  /-- A transaction is received. -/
  | arrive (t : RemoraTransaction τ)
  /-- The timer fires. -/
  | timer
  /-- The `i`-th of the batches in flight completes. -/
  | complete (i : ℕ)
  /-- The send that the task awaits goes through. -/
  | sent
  /-- The primary executor drops its channel. -/
  | close

variable (C : Config)

def step (s : State τ) : Event τ → Option (State τ)
  | .arrive t =>
    match s.phase with
    | .select =>
      if s.currentInflightBatches < C.parameters.maxInflightBatches then
        let s := { s with received := s.received ++ [t] }
        if C.separationMode = .PrimaryPreSeparation then
          some { s with phase := .sendRequest t }
        else some (s.push C t)
      else none
    | _ => none
  | .timer =>
    match s.phase with
    | .select =>
      if s.currentBatch.isEmpty then
        if s.primaryExecutorClosed then some { s with phase := .terminated } else some s
      else some s.sealBatch
    | _ => none
  | .complete i =>
    match s.phase, s.waiter[i]? with
    | .select, some (commit, n) =>
      if s.currentInflightBatches = 0 then some { s with phase := .panicked }
      else some { s with
        phase := .deliver commit n
        currentInflightBatches := s.currentInflightBatches - 1
        waiter := s.waiter.eraseIdx i }
    | _, _ => none
  | .sent =>
    match s.phase with
    | .sendRequest t => some ({ s with
        txStatelessTxns := s.txStatelessTxns ++ [makeVerificationRequest t] }.push C t)
    | .sendBatch batch n => some { s with
        phase := .select
        txPreConsensusScheduling := s.txPreConsensusScheduling ++ [(batch, n)] }
    | .deliver commit n =>
      if s.primaryExecutorClosed then some { s with phase := .terminated }
      else some { s with
        phase := .select
        txPrimaryExecutor := s.txPrimaryExecutor ++ [(commit, n)] }
    | _ => none
  | .close => some { s with primaryExecutorClosed := true }

/-- Every order of arrivals, timer firings and completions. -/
def system : Transition.System (State τ) (Event τ) where
  init s := s = State.init
  step := step C

/-! ## Steps -/

/-- What a step does, by its event and the phase it is taken in. -/
inductive StepCase (s : State τ) : State τ → Prop
  | request (t : RemoraTransaction τ) :
    s.phase = .select → s.currentInflightBatches < C.parameters.maxInflightBatches →
    C.separationMode = .PrimaryPreSeparation →
    StepCase s { s with phase := .sendRequest t, received := s.received ++ [t] }
  | arrive (t : RemoraTransaction τ) :
    s.phase = .select → s.currentInflightBatches < C.parameters.maxInflightBatches →
    C.separationMode ≠ .PrimaryPreSeparation →
    StepCase s ({ s with received := s.received ++ [t] }.push C t)
  | requestSent (t : RemoraTransaction τ) : s.phase = .sendRequest t →
    StepCase s ({ s with
      txStatelessTxns := s.txStatelessTxns ++ [makeVerificationRequest t] }.push C t)
  | timer : s.phase = .select → s.currentBatch ≠ [] → StepCase s s.sealBatch
  | reset : StepCase s s
  | complete (i : ℕ) (commit : ConsensusCommit τ) (n : ℕ) : s.phase = .select →
    s.waiter[i]? = some (commit, n) → s.currentInflightBatches ≠ 0 →
    StepCase s { s with
      phase := .deliver commit n
      currentInflightBatches := s.currentInflightBatches - 1
      waiter := s.waiter.eraseIdx i }
  | underflow (i : ℕ) (commit : ConsensusCommit τ) (n : ℕ) : s.waiter[i]? = some (commit, n) →
    s.currentInflightBatches = 0 → StepCase s { s with phase := .panicked }
  | batchSent (batch : ConsensusCommit τ) (n : ℕ) : s.phase = .sendBatch batch n →
    StepCase s { s with
      phase := .select
      txPreConsensusScheduling := s.txPreConsensusScheduling ++ [(batch, n)] }
  | delivered (commit : ConsensusCommit τ) (n : ℕ) : s.phase = .deliver commit n →
    StepCase s { s with
      phase := .select
      txPrimaryExecutor := s.txPrimaryExecutor ++ [(commit, n)] }
  | terminate : s.primaryExecutorClosed = true → StepCase s { s with phase := .terminated }
  | close : StepCase s { s with primaryExecutorClosed := true }

variable {C} {s s' : State τ} {e : Event τ}

theorem step_cases (h : step C s e = some s') : StepCase C s s' := by
  cases e with
  | arrive t =>
    simp only [step] at h
    split at h
    · rename_i hphase
      split_ifs at h with hlt hmode <;> obtain rfl := Option.some.inj h
      · exact .request t hphase hlt hmode
      · exact .arrive t hphase hlt hmode
    · simp at h
  | timer =>
    simp only [step] at h
    split at h
    · rename_i hphase
      split_ifs at h with hempty hclosed <;> obtain rfl := Option.some.inj h
      · exact .terminate hclosed
      · exact .reset
      · exact .timer hphase (by simpa using hempty)
    · simp at h
  | complete i =>
    simp only [step] at h
    split at h
    · rename_i commit n hphase hi
      split_ifs at h with hzero <;> obtain rfl := Option.some.inj h
      · exact .underflow i commit n hi hzero
      · exact .complete i commit n hphase hi hzero
    · simp at h
  | sent =>
    simp only [step] at h
    split at h
    · rename_i t hphase
      obtain rfl := Option.some.inj h
      exact .requestSent t hphase
    · rename_i batch n hphase
      obtain rfl := Option.some.inj h
      exact .batchSent batch n hphase
    · rename_i commit n hphase
      split_ifs at h with hclosed <;> obtain rfl := Option.some.inj h
      · exact .terminate hclosed
      · exact .delivered commit n hphase
    · simp at h
  | close =>
    obtain rfl := Option.some.inj h
    exact .close

/-! ## The limit -/

/-- The counter counts the batches in flight, and a transaction that waits for its batch to be
sealed leaves room for it. -/
structure Bounded (C : Config) (s : State τ) : Prop where
  inflight : s.currentInflightBatches = s.waiter.length
  le : s.currentInflightBatches ≤ C.parameters.maxInflightBatches
  room : s.currentBatch ≠ [] ∨ s.phase.received ≠ [] →
    s.currentInflightBatches < C.parameters.maxInflightBatches
  not_panicked : s.phase ≠ .panicked

namespace Bounded

theorem init : Bounded C (State.init : State τ) :=
  ⟨rfl, Nat.zero_le _, by simp [State.init, Phase.received], by simp [State.init]⟩

theorem sealBatch (hw : s.currentInflightBatches = s.waiter.length)
    (hlt : s.currentInflightBatches < C.parameters.maxInflightBatches) :
    Bounded C s.sealBatch where
  inflight := by simp [State.sealBatch, hw]
  le := hlt
  room := by simp [State.sealBatch, Phase.received]
  not_panicked := by simp [State.sealBatch]

theorem push (s : State τ) (t : RemoraTransaction τ)
    (hw : s.currentInflightBatches = s.waiter.length)
    (hlt : s.currentInflightBatches < C.parameters.maxInflightBatches) :
    Bounded C (s.push C t) := by
  simp only [State.push]
  split_ifs
  · exact sealBatch hw hlt
  · exact ⟨hw, hlt.le, fun _ => hlt, by simp⟩

/-- A future is in flight as long as the counter says so. -/
theorem pos (hB : Bounded C s) {i : ℕ} {f : ConsensusCommit τ × ℕ} (h : s.waiter[i]? = some f) :
    s.currentInflightBatches ≠ 0 := by
  obtain ⟨hi, -⟩ := List.getElem?_eq_some_iff.mp h
  rw [hB.inflight]
  omega

theorem step (hB : Bounded C s) (h : MockConsensus.step C s e = some s') : Bounded C s' := by
  cases step_cases h with
  | request t _ hlt _ => exact ⟨hB.inflight, hB.le, fun _ => hlt, by simp⟩
  | arrive t _ hlt _ => exact push _ t hB.inflight hlt
  | requestSent t hphase =>
    exact push _ t hB.inflight (hB.room (Or.inr (by simp [hphase, Phase.received])))
  | timer _ hne => exact sealBatch hB.inflight (hB.room (Or.inl hne))
  | reset => exact hB
  | complete i commit n _ hi hne =>
    obtain ⟨hlt, -⟩ := List.getElem?_eq_some_iff.mp hi
    have hin := hB.inflight
    have hle := hB.le
    refine ⟨?_, ?_, fun _ => ?_, by simp⟩
    · simp only [List.length_eraseIdx, hlt, if_true, hin]
    · simp only
      omega
    · simp only
      omega
  | underflow i commit n hi hzero => exact absurd hzero (hB.pos hi)
  | batchSent batch n _ =>
    exact ⟨hB.inflight, hB.le,
      fun h => hB.room (h.imp_right fun h => by simp [Phase.received] at h), by simp⟩
  | delivered commit n _ =>
    exact ⟨hB.inflight, hB.le,
      fun h => hB.room (h.imp_right fun h => by simp [Phase.received] at h), by simp⟩
  | terminate _ =>
    exact ⟨hB.inflight, hB.le,
      fun h => hB.room (h.imp_right fun h => by simp [Phase.received] at h), by simp⟩
  | close => exact ⟨hB.inflight, hB.le, hB.room, hB.not_panicked⟩

end Bounded

theorem bounded_of_reachable (h : (system C).Reachable s) : Bounded C s :=
  h.invariant (fun _ h => h ▸ Bounded.init) fun _ _ _ _ hB hs => hB.step hs

/-- The counter is the number of batches in flight, so that its decrement never underflows, and
it never exceeds the limit. -/
theorem inflight_bound (C : Config) (s : State τ) (hs : (system C).Reachable s) :
    s.currentInflightBatches = s.waiter.length ∧
    s.currentInflightBatches ≤ C.parameters.maxInflightBatches ∧
    s.phase ≠ .panicked :=
  have hB := bounded_of_reachable hs
  ⟨hB.inflight, hB.le, hB.not_panicked⟩

/-- Batches of one transaction, one of them in flight at most. -/
def oneInFlight : Config :=
  ⟨⟨1, 1, by decide, by decide⟩, .NoSeparation⟩

/-- One batch of one transaction is in flight, and the limit is reached. -/
theorem inflight_bound_one :
    ∃ s : State Unit, (system oneInFlight).Reachable s ∧ s.waiter.length = 1 ∧
      s.currentInflightBatches = s.waiter.length ∧
      s.currentInflightBatches ≤ oneInFlight.parameters.maxInflightBatches ∧
      s.phase ≠ .panicked := by
  have hview : ((system oneInFlight).run State.init
      [.arrive (.new () 10 [] 1 1), .sent, .timer]).map (fun s => s.waiter.length) = some 1 := by
    decide
  obtain ⟨s, hrun, hview⟩ := Option.map_eq_some_iff.mp hview
  have hs := Transition.System.reachable_run (.init rfl) hrun
  exact ⟨s, hs, hview, inflight_bound _ s hs⟩

/-! ## Where everything is -/

/-- The transactions received are in sealed batches, in the current one, or in hand, and the
sealed batches are scheduled in order, and in flight, in hand or delivered. -/
structure Conserved (C : Config) (s : State τ) : Prop where
  received : s.received = s.sealedBatches.flatten ++ s.currentBatch ++ s.phase.received
  size : ∀ batch ∈ s.sealedBatches, batch ≠ [] ∧ batch.length ≤ C.parameters.batchSize
  short : s.currentBatch.length < C.parameters.batchSize
  scheduled : s.txPreConsensusScheduling ++ s.phase.scheduling = s.sealedBatches.zipIdx
  delivered : (s.waiter ++ s.phase.delivering ++ s.txPrimaryExecutor).Perm s.sealedBatches.zipIdx
  requests : C.separationMode = .PrimaryPreSeparation →
    s.received.map makeVerificationRequest =
      s.txStatelessTxns ++ s.phase.received.map makeVerificationRequest

namespace Conserved

theorem init : Conserved C (State.init : State τ) where
  received := rfl
  size := by simp [State.init]
  short := C.parameters.batchSize_pos
  scheduled := rfl
  delivered := .nil
  requests _ := rfl

/-- A branch that has nothing in hand seals the current batch. -/
theorem sealBatch (s : State τ) (hne : s.currentBatch ≠ [])
    (hlen : s.currentBatch.length ≤ C.parameters.batchSize)
    (hr : s.received = s.sealedBatches.flatten ++ s.currentBatch)
    (hsize : ∀ batch ∈ s.sealedBatches, batch ≠ [] ∧ batch.length ≤ C.parameters.batchSize)
    (hs : s.txPreConsensusScheduling = s.sealedBatches.zipIdx)
    (hd : (s.waiter ++ s.txPrimaryExecutor).Perm s.sealedBatches.zipIdx)
    (hreq : C.separationMode = .PrimaryPreSeparation →
      s.received.map makeVerificationRequest = s.txStatelessTxns) : Conserved C s.sealBatch where
  received := by simp [State.sealBatch, Phase.received, hr]
  size batch hb := by
    rcases List.mem_append.mp hb with hb | hb
    · exact hsize batch hb
    · rw [List.mem_singleton.mp hb]
      exact ⟨hne, hlen⟩
  short := C.parameters.batchSize_pos
  scheduled := by simp [State.sealBatch, Phase.scheduling, hs, List.zipIdx_append]
  delivered := by
    have hnew : (s.sealedBatches ++ [s.currentBatch]).zipIdx =
        s.sealedBatches.zipIdx ++ [(s.currentBatch, s.sealedBatches.length)] := by
      simp [List.zipIdx_append]
    simp only [State.sealBatch, Phase.delivering, consensusDelay, List.append_nil,
      List.append_assoc, hnew]
    exact (List.perm_middle.trans (hd.cons _)).trans (List.perm_append_singleton _ _).symm
  requests hmode := by simpa [State.sealBatch, Phase.received] using hreq hmode

/-- The rest of the receive branch, once nothing but the transaction is in hand. -/
theorem push (s : State τ) (t : RemoraTransaction τ)
    (hr : s.received = s.sealedBatches.flatten ++ s.currentBatch ++ [t])
    (hsize : ∀ batch ∈ s.sealedBatches, batch ≠ [] ∧ batch.length ≤ C.parameters.batchSize)
    (hshort : s.currentBatch.length < C.parameters.batchSize)
    (hs : s.txPreConsensusScheduling = s.sealedBatches.zipIdx)
    (hd : (s.waiter ++ s.txPrimaryExecutor).Perm s.sealedBatches.zipIdx)
    (hreq : C.separationMode = .PrimaryPreSeparation →
      s.received.map makeVerificationRequest = s.txStatelessTxns) : Conserved C (s.push C t) := by
  simp only [State.push]
  split_ifs with hfull
  · exact sealBatch _ (by simp) (by simpa using Nat.succ_le_of_lt hshort) (by simpa using hr) hsize
      hs hd hreq
  · refine ⟨by simpa [Phase.received] using hr, hsize, Nat.lt_of_not_le hfull, ?_, ?_, ?_⟩
    · simpa [Phase.scheduling] using hs
    · simpa [Phase.delivering] using hd
    · simpa [Phase.received] using hreq

/-- Between two sends every sealed batch is scheduled. -/
theorem scheduled_eq (hI : Conserved C s) (h : s.phase.scheduling = []) :
    s.txPreConsensusScheduling = s.sealedBatches.zipIdx := by
  simpa [h] using hI.scheduled

/-- Between two sends every sealed batch is in flight or delivered. -/
theorem delivered_perm (hI : Conserved C s) (h : s.phase.delivering = []) :
    (s.waiter ++ s.txPrimaryExecutor).Perm s.sealedBatches.zipIdx := by
  simpa [h] using hI.delivered

theorem step (hB : Bounded C s) (hI : Conserved C s) (h : MockConsensus.step C s e = some s')
    (hopen : s'.primaryExecutorClosed = false) : Conserved C s' := by
  have hr := hI.received
  have hreq := hI.requests
  cases step_cases h with
  | request t hphase _ hmode =>
    simp only [hphase, Phase.received, List.append_nil, List.map_nil] at hr hreq
    refine ⟨by simp [Phase.received, hr], hI.size, hI.short, ?_, ?_, fun hmode => ?_⟩
    · simpa [Phase.scheduling] using hI.scheduled_eq (by rw [hphase]; rfl)
    · simpa [Phase.delivering] using hI.delivered_perm (by rw [hphase]; rfl)
    · simp [Phase.received, hreq hmode]
  | arrive t hphase _ hmode =>
    simp only [hphase, Phase.received, List.append_nil] at hr
    exact push _ t (by simp [hr]) hI.size hI.short (hI.scheduled_eq (by rw [hphase]; rfl))
      (hI.delivered_perm (by rw [hphase]; rfl)) fun h => absurd h hmode
  | requestSent t hphase =>
    simp only [hphase, Phase.received, List.map_cons, List.map_nil] at hr hreq
    exact push _ t hr hI.size hI.short (hI.scheduled_eq (by rw [hphase]; rfl))
      (hI.delivered_perm (by rw [hphase]; rfl)) hreq
  | timer hphase hne =>
    simp only [hphase, Phase.received, List.append_nil, List.map_nil] at hr hreq
    exact sealBatch _ hne hI.short.le hr hI.size (hI.scheduled_eq (by rw [hphase]; rfl))
      (hI.delivered_perm (by rw [hphase]; rfl)) hreq
  | reset => exact hI
  | complete i commit n hphase hi _ =>
    obtain ⟨hlt, hget⟩ := List.getElem?_eq_some_iff.mp hi
    have hperm : (s.waiter.eraseIdx i ++ [(commit, n)]).Perm s.waiter := by
      rw [← hget]
      exact (List.perm_append_singleton _ _).trans (List.getElem_cons_eraseIdx_perm hlt)
    refine ⟨?_, hI.size, hI.short, ?_,
      (hperm.append_right _).trans (hI.delivered_perm (by rw [hphase]; rfl)), ?_⟩
    · simpa [hphase, Phase.received] using hr
    · simpa [hphase, Phase.scheduling] using hI.scheduled
    · simpa [hphase, Phase.received] using hreq
  | underflow i commit n hi hzero => exact absurd hzero (hB.pos hi)
  | batchSent batch n hphase =>
    refine ⟨?_, hI.size, hI.short, ?_, ?_, ?_⟩
    · simpa [hphase, Phase.received] using hr
    · simpa [hphase, Phase.scheduling] using hI.scheduled
    · simpa [hphase, Phase.delivering] using hI.delivered
    · simpa [hphase, Phase.received] using hreq
  | delivered commit n hphase =>
    have hd := hI.delivered
    simp only [hphase, Phase.delivering] at hd
    refine ⟨?_, hI.size, hI.short, ?_, ?_, ?_⟩
    · simpa [hphase, Phase.received] using hr
    · simpa [hphase, Phase.scheduling] using hI.scheduled
    · simp only [Phase.delivering, List.append_nil]
      refine (List.Perm.append_left _ List.perm_append_comm).trans ?_
      simpa using hd
    · simpa [hphase, Phase.received] using hreq
  | terminate hclosed => exact absurd hclosed (by simpa using hopen)
  | close => simp at hopen

end Conserved

/-- The primary executor does not open its channel again. -/
theorem closed_of_closed (h : step C s e = some s') (hc : s.primaryExecutorClosed = true) :
    s'.primaryExecutorClosed = true := by
  cases step_cases h with
  | arrive t | requestSent t =>
    simp only [State.push, State.sealBatch]
    split_ifs <;> exact hc
  | close => rfl
  | _ => exact hc

theorem conserved_of_reachable (h : (system C).Reachable s)
    (hopen : s.primaryExecutorClosed = false) : Conserved C s := by
  revert hopen
  refine h.invariant (I := fun s => s.primaryExecutorClosed = false → Conserved C s)
    (fun _ h _ => h ▸ Conserved.init) fun s e s' hr hI hs hopen => ?_
  have hold : s.primaryExecutorClosed = false := by
    by_contra hc
    simp [closed_of_closed hs (by simpa using hc)] at hopen
  exact (hI hold).step (bounded_of_reachable hr) hs hopen

/-- At every point the transactions received are the sealed batches followed by the current
batch, in order, and each sealed batch is non-empty and no larger than the batch size, is sent
once to the scheduler, and is in flight or delivered once, unchanged. A verification request is
sent for each transaction received if the primary separates before consensus. What a branch that
awaits a send has in hand is counted where it goes, and at the `select!` that is nothing. -/
theorem conserves_transactions (C : Config) (s : State τ) (hs : (system C).Reachable s)
    (hopen : s.primaryExecutorClosed = false) :
    s.received = s.sealedBatches.flatten ++ s.currentBatch ++ s.phase.received ∧
    (∀ batch ∈ s.sealedBatches, batch ≠ [] ∧ batch.length ≤ C.parameters.batchSize) ∧
    s.txPreConsensusScheduling ++ s.phase.scheduling = s.sealedBatches.zipIdx ∧
    (s.waiter ++ s.phase.delivering ++ s.txPrimaryExecutor).Perm s.sealedBatches.zipIdx ∧
    (C.separationMode = .PrimaryPreSeparation →
      s.received.map makeVerificationRequest =
        s.txStatelessTxns ++ s.phase.received.map makeVerificationRequest) :=
  have hI := conserved_of_reachable hs hopen
  ⟨hI.received, hI.size, hI.scheduled, hI.delivered, hI.requests⟩

/-- Batches of two, two of them in flight. -/
def twoByTwo : Config :=
  ⟨⟨2, 2, by decide, by decide⟩, .PrimaryPreSeparation⟩

/-- Three transactions, the last one sealed by the timer and delivered first. -/
def twoByTwoRun : List (Event Unit) :=
  [.arrive (.new () 10 [] 1 1), .sent, .arrive (.new () 11 [] 1 1), .sent, .sent,
    .arrive (.new () 12 [] 1 1), .sent, .timer, .sent, .complete 1, .sent]

/-- The first batch is still in flight. -/
theorem conserves_transactions_two_by_two :
    ∃ s : State Unit, (system twoByTwo).Reachable s ∧ s.received.map (·.digest) = [10, 11, 12] ∧
      s.txPrimaryExecutor.map Prod.snd = [1] ∧
      (s.waiter ++ s.phase.delivering ++ s.txPrimaryExecutor).Perm s.sealedBatches.zipIdx := by
  have hview : ((system twoByTwo).run State.init twoByTwoRun).map (fun s =>
      (s.received.map (·.digest), s.txPrimaryExecutor.map Prod.snd, s.primaryExecutorClosed)) =
        some ([10, 11, 12], [1], false) := by decide
  obtain ⟨s, hrun, hview⟩ := Option.map_eq_some_iff.mp hview
  have hs : (system twoByTwo).Reachable s := Transition.System.reachable_run (.init rfl) hrun
  simp only [Prod.mk.injEq] at hview
  exact ⟨s, hs, hview.1, hview.2.1, (conserves_transactions twoByTwo s hs hview.2.2).2.2.2.1⟩

end MockConsensus

end Remora
