import Remora.MockConsensus
import Remora.Termination

/-!
# Draining the mock consensus

While nothing arrives, the engine seals what it has at the next firing of the timer, and delivers
what is in flight, in any order. Each of its own steps brings it closer to the end (`work_lt`),
although a firing of the timer adds a batch in flight, so that `2 * max_inflight_batches + 3` steps
are enough (`work_le`). A timer that fires on an empty batch only starts again, and does not count.

Where no such step is left, everything received is delivered (`drains`).
-/

namespace Remora

variable {τ : Type}

namespace MockConsensus

/-- The event is one of the engine's own, and does more than to start the timer again. -/
def isOwn (s : State τ) : Event τ → Bool
  | .timer => !s.currentBatch.isEmpty
  | .complete _ | .sent => true
  | .arrive _ | .close => false

/-- The sends that the task awaits. -/
def Phase.sends : Phase τ → ℕ
  | .sendRequest _ | .sendBatch _ _ | .deliver _ _ => 1
  | .select | .terminated | .panicked => 0

/-- What the engine has left to do. A batch in flight has to complete and to be delivered, and one
that is not sealed has to be sealed and scheduled before. -/
def work (s : State τ) : ℕ :=
  2 * s.waiter.length + (if s.currentBatch ++ s.phase.received = [] then 0 else 4) + s.phase.sends

variable {C : Config} {s s' : State τ} {e : Event τ}

theorem work_sealBatch (s : State τ) : work s.sealBatch = 2 * s.waiter.length + 3 := by
  simp [work, State.sealBatch, Phase.received, Phase.sends]
  omega

theorem work_push (s : State τ) (t : RemoraTransaction τ) :
    work (s.push C t) ≤ 2 * s.waiter.length + 4 := by
  simp only [State.push]
  split_ifs
  · rw [work_sealBatch]
    simp
  · simp [work, Phase.received, Phase.sends]

/-- Every step of the engine's own leaves less to do. -/
theorem work_lt (hB : Bounded C s) (he : isOwn s e = true) (h : step C s e = some s') :
    work s' < work s := by
  cases e with
  | arrive t => simp [isOwn] at he
  | close => simp [isOwn] at he
  | timer =>
    have hne : s.currentBatch ≠ [] := by simpa [isOwn] using he
    simp only [step] at h
    split at h
    · rename_i hphase
      obtain rfl : s.sealBatch = s' := by simpa [hne] using h
      rw [work_sealBatch]
      simp [work, hphase, Phase.received, Phase.sends, hne]
    · simp at h
  | complete i =>
    simp only [step] at h
    split at h
    · rename_i commit n hphase hi
      rw [if_neg (hB.pos hi)] at h
      obtain rfl := Option.some.inj h
      obtain ⟨hlt, -⟩ := List.getElem?_eq_some_iff.mp hi
      have hlen : (s.waiter.eraseIdx i).length + 1 = s.waiter.length := by
        rw [List.length_eraseIdx, if_pos hlt]
        omega
      simp only [work, hphase, Phase.received, Phase.sends, List.append_nil]
      omega
    · simp at h
  | sent =>
    simp only [step] at h
    split at h
    · rename_i t hphase
      obtain rfl := Option.some.inj h
      refine (work_push _ t).trans_lt ?_
      simp [work, hphase, Phase.received, Phase.sends]
    · rename_i batch n hphase
      obtain rfl := Option.some.inj h
      simp [work, hphase, Phase.received, Phase.sends]
    · rename_i commit n hphase
      split_ifs at h <;> obtain rfl := Option.some.inj h <;>
        simp [work, hphase, Phase.received, Phase.sends]
    · simp at h

/-- The limit of the batches in flight limits what is left to do. -/
theorem work_le (hB : Bounded C s) : work s ≤ 2 * C.parameters.maxInflightBatches + 3 := by
  have hin := hB.inflight
  have hle := hB.le
  have hsends : s.phase.sends ≤ 1 := by cases s.phase <;> simp [Phase.sends]
  simp only [work]
  split_ifs with hempty
  · omega
  · have hroom := hB.room (by simpa [or_iff_not_imp_left] using hempty)
    omega

/-! ## What a step of its own leaves as it is -/

/-- What was delivered stays delivered. -/
theorem prefix_of_step (h : step C s e = some s') :
    s.txPrimaryExecutor <+: s'.txPrimaryExecutor := by
  cases step_cases h with
  | arrive t | requestSent t =>
    simp only [State.push, State.sealBatch]
    split_ifs <;> exact List.prefix_rfl
  | delivered commit n _ => exact List.prefix_append _ _
  | _ => exact List.prefix_rfl

/-- What an event brings to the engine. -/
def Event.arrivals : Event τ → List (RemoraTransaction τ)
  | .arrive t => [t]
  | _ => []

/-- Only an arrival is received, and only the primary executor closes its channel. -/
theorem received_of_step (h : step C s e = some s') :
    s'.received = s.received ++ e.arrivals ∧
      (e ≠ .close → s'.primaryExecutorClosed = s.primaryExecutorClosed) := by
  have hpush : ∀ (r : State τ) (t : RemoraTransaction τ), (r.push C t).received = r.received ∧
      (r.push C t).primaryExecutorClosed = r.primaryExecutorClosed := fun r t => by
    simp only [State.push, State.sealBatch]
    split_ifs <;> exact ⟨rfl, rfl⟩
  have hkept : s'.received = s.received →
      s'.primaryExecutorClosed = s.primaryExecutorClosed → e.arrivals = [] →
      s'.received = s.received ++ e.arrivals ∧
        (e ≠ .close → s'.primaryExecutorClosed = s.primaryExecutorClosed) := fun h1 h2 h3 =>
    ⟨by rw [h1, h3, List.append_nil], fun _ => h2⟩
  cases e with
  | arrive t =>
    simp only [step] at h
    split at h
    · split_ifs at h <;> obtain rfl := Option.some.inj h
      · exact ⟨rfl, fun _ => rfl⟩
      · exact ⟨(hpush _ t).1, fun _ => (hpush _ t).2⟩
    · simp at h
  | close =>
    obtain rfl := Option.some.inj h
    exact ⟨(List.append_nil _).symm, fun hne => absurd rfl hne⟩
  | timer =>
    simp only [step] at h
    split at h
    · split_ifs at h <;> obtain rfl := Option.some.inj h <;> exact hkept rfl rfl rfl
    · simp at h
  | complete i =>
    simp only [step] at h
    split at h
    · split_ifs at h <;> obtain rfl := Option.some.inj h <;> exact hkept rfl rfl rfl
    · simp at h
  | sent =>
    simp only [step] at h
    split at h
    · obtain rfl := Option.some.inj h
      exact hkept (hpush _ _).1 (hpush _ _).2 rfl
    · obtain rfl := Option.some.inj h
      exact hkept rfl rfl rfl
    · split_ifs at h <;> obtain rfl := Option.some.inj h <;> exact hkept rfl rfl rfl
    · simp at h

/-- An event of the engine's own brings nothing. -/
theorem received_of_own (he : isOwn s e = true) (h : step C s e = some s') :
    s'.received = s.received ∧ s'.primaryExecutorClosed = s.primaryExecutorClosed := by
  obtain ⟨hreceived, hclosed⟩ := received_of_step h
  cases e with
  | arrive t | close => simp [isOwn] at he
  | _ => exact ⟨by simpa [Event.arrivals] using hreceived, hclosed (by simp)⟩

/-- The task does not leave its loop while the channel is open. -/
theorem not_terminated (h : (system C).Reachable s) (hopen : s.primaryExecutorClosed = false) :
    s.phase ≠ .terminated := by
  revert hopen
  refine h.invariant (I := fun s => s.primaryExecutorClosed = false → s.phase ≠ .terminated)
    (fun _ h _ => h ▸ by simp [State.init]) fun s e s' _ hI hs hopen => ?_
  cases step_cases hs with
  | arrive t | requestSent t =>
    simp only [State.push, State.sealBatch]
    split_ifs <;> simp
  | timer => simp [State.sealBatch]
  | reset => exact hI hopen
  | terminate hclosed => simp [hclosed] at hopen
  | close => simp at hopen
  | _ => simp

/-! ## At rest -/

/-- Where the engine can do nothing by itself, it is at the `select!` with nothing in hand. -/
theorem rest_eq (hr : (system C).Reachable s) (hopen : s.primaryExecutorClosed = false)
    (hrest : ∀ e, isOwn s e = true → step C s e = none) :
    s.phase = .select ∧ s.currentBatch = [] ∧ s.waiter = [] := by
  have hB := bounded_of_reachable hr
  have hsent := hrest .sent rfl
  have hphase : s.phase = .select := by
    cases hp : s.phase with
    | select => rfl
    | terminated => exact absurd hp (not_terminated hr hopen)
    | panicked => exact absurd hp hB.not_panicked
    | _ => simp [step, hp, hopen] at hsent
  refine ⟨hphase, ?_, ?_⟩
  · by_contra hne
    have htimer := hrest .timer (by simp [isOwn, hne])
    simp [step, hphase, hne] at htimer
  · cases hw : s.waiter with
    | nil => rfl
    | cons f rest =>
      have hi : s.waiter[0]? = some f := by simp [hw]
      have hcomplete := hrest (.complete 0) rfl
      simp only [step, hphase, hi, if_neg (hB.pos hi)] at hcomplete
      simp at hcomplete

/-- Then what it has received is scheduled in order, and delivered. -/
theorem delivered_of_rest (hr : (system C).Reachable s) (hopen : s.primaryExecutorClosed = false)
    (hrest : ∀ e, isOwn s e = true → step C s e = none) :
    (s.txPreConsensusScheduling.map Prod.fst).flatten = s.received ∧
    s.txPrimaryExecutor.Perm s.txPreConsensusScheduling := by
  obtain ⟨hphase, hbatch, hwaiter⟩ := rest_eq hr hopen hrest
  have hI := conserved_of_reachable hr hopen
  have hsched : s.txPreConsensusScheduling = s.sealedBatches.zipIdx :=
    hI.scheduled_eq (by rw [hphase]; rfl)
  have hreceived : s.received = s.sealedBatches.flatten := by
    simpa [hphase, hbatch, Phase.received] using hI.received
  refine ⟨?_, ?_⟩
  · rw [hsched, hreceived, List.zipIdx_map_fst]
  · rw [hsched]
    simpa [hwaiter] using hI.delivered_perm (by rw [hphase]; rfl)

end MockConsensus

end Remora
