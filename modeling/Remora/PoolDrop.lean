import Remora.Transition
import Remora.WorkerPool
import Mathlib.Algebra.BigOperators.Group.Finset.Basic
import Mathlib.Algebra.Order.BigOperators.Group.Finset

/-!
# The drop of a worker pool

A forwarder ends when its channel is closed, and drops its pool. `drop` joins the workers one
after the other. Only when it has returned are the fields dropped, and with them the senders of
the queues : until then a worker that has worked off its queue waits for more.

So the drop waits for the first worker that no panic ends, and this worker waits for the drop. A
state in which they do is reached if there is such a worker, whatever the queues hold and whatever
the order of the steps is (`drop_never_stuck_iff`), and the drop then never returns
(`drop_never_returns`).
-/

namespace Remora

open Function

/-- A pool from the start of its drop. -/
structure PoolDrop where
  pool : WorkerPool
  /-- The thread of the worker has ended. -/
  exited : ℕ → Bool
  /-- The threads that are still to be joined. -/
  workerHandles : List ℕ
  /-- The pool holds the senders of the queues. -/
  workerTxs : Bool

namespace PoolDrop

inductive Event
  /-- Worker `w` takes the next task of its queue. -/
  | recv (w : ℕ)
  /-- The task of worker `w` returns, or it panics and ends the worker. -/
  | finish (w : ℕ)
  /-- The queue of worker `w` is empty and closed, and its loop ends. -/
  | close (w : ℕ)
  /-- The next thread has ended and is joined. -/
  | join
  /-- The fields are dropped after `drop` has returned. -/
  | dropFields
  deriving DecidableEq, Repr

variable (numWorkers : ℕ) (panics : ℕ → Bool)

/-- `drop` begins, with whatever the queues hold, and the workers in `exited` ended before. -/
def start (pool : WorkerPool) (exited : ℕ → Bool) : PoolDrop :=
  ⟨pool, exited, List.range numWorkers, true⟩

def step (s : PoolDrop) : Event → Option PoolDrop
  | .recv w =>
    if s.exited w then none
    else (s.pool.recv numWorkers w).map fun pool => { s with pool := pool }
  | .finish w =>
    if w < numWorkers ∧ s.exited w = false then
      (s.pool.running w).bind fun k =>
        if panics k then some { s with exited := update s.exited w true }
        else (s.pool.finish w).map fun pool => { s with pool := pool }
    else none
  | .close w =>
    if w < numWorkers ∧ s.exited w = false ∧ s.pool.running w = none ∧ s.pool.queues w = [] ∧
        s.workerTxs = false then
      some { s with exited := update s.exited w true }
    else none
  | .join =>
    match s.workerHandles with
    | [] => none
    | w :: rest => if s.exited w then some { s with workerHandles := rest } else none
  | .dropFields =>
    if s.workerHandles = [] ∧ s.workerTxs = true then some { s with workerTxs := false } else none

/-- Every interleaving of the dropping thread and the workers. -/
def system (pool : WorkerPool) (exited : ℕ → Bool) : Transition.System PoolDrop Event where
  init s := s = start numWorkers pool exited
  step := step numWorkers panics

/-- The dropping thread waits in `join` for a worker, and the worker waits in `recv` on a channel
whose sender the pool holds. -/
def Stuck (s : PoolDrop) : Prop :=
  ∃ w rest, s.workerHandles = w :: rest ∧ s.exited w = false ∧ s.pool.running w = none ∧
    s.pool.queues w = [] ∧ s.workerTxs = true

/-- The tasks of a worker. -/
def tasks (s : PoolDrop) (w : ℕ) : List ℕ :=
  (s.pool.running w).toList ++ s.pool.queues w

/-- The worker has ended, or one of its tasks panics. -/
def EndsByPanic (s : PoolDrop) (w : ℕ) : Prop :=
  s.exited w = true ∨ ∃ k ∈ s.tasks w, panics k = true

/-! ## What a step does -/

/-- The steps, with what enables them. -/
inductive Step (s : PoolDrop) : PoolDrop → Prop
  | recv {w k : ℕ} {rest : List ℕ} : w < numWorkers → s.exited w = false →
      s.pool.running w = none → s.pool.queues w = k :: rest →
      Step s { s with pool := { s.pool with
        queues := update s.pool.queues w rest, running := update s.pool.running w (some k) } }
  | finish {w k : ℕ} : w < numWorkers → s.exited w = false → s.pool.running w = some k →
      panics k = false →
      Step s { s with pool := { s.pool with
        running := update s.pool.running w none, returned := update s.pool.returned k true } }
  | panic {w k : ℕ} : w < numWorkers → s.exited w = false → s.pool.running w = some k →
      panics k = true → Step s { s with exited := update s.exited w true }
  | close {w : ℕ} : w < numWorkers → s.exited w = false → s.pool.running w = none →
      s.pool.queues w = [] → s.workerTxs = false →
      Step s { s with exited := update s.exited w true }
  | join {w : ℕ} {rest : List ℕ} : s.workerHandles = w :: rest → s.exited w = true →
      Step s { s with workerHandles := rest }
  | dropFields : s.workerHandles = [] → s.workerTxs = true → Step s { s with workerTxs := false }

variable {numWorkers panics} {s s' : PoolDrop} {e : Event}

theorem step_cases (h : step numWorkers panics s e = some s') : Step numWorkers panics s s' := by
  cases e with
  | recv w =>
    simp only [step, Option.ite_none_left_eq_some, Option.map_eq_some_iff] at h
    obtain ⟨hw, pool, hrecv, rfl⟩ := h
    unfold WorkerPool.recv at hrecv
    split at hrecv
    · rename_i k rest hr hq
      split_ifs at hrecv with hlt
      obtain rfl := Option.some.inj hrecv
      exact .recv hlt (by simpa using hw) hr hq
    · cases hrecv
  | finish w =>
    simp only [step, Option.ite_none_right_eq_some, Option.bind_eq_some_iff] at h
    obtain ⟨⟨hlt, hw⟩, k, hk, h⟩ := h
    split_ifs at h with hp
    · obtain rfl := Option.some.inj h
      exact .panic hlt hw hk hp
    · rw [WorkerPool.finish, hk] at h
      obtain rfl := Option.some.inj h
      exact .finish hlt hw hk (by simpa using hp)
  | close w =>
    simp only [step, Option.ite_none_right_eq_some, Option.some.injEq] at h
    obtain ⟨⟨hlt, hw, hr, hq, htx⟩, rfl⟩ := h
    exact .close hlt hw hr hq htx
  | join =>
    simp only [step] at h
    split at h
    · cases h
    · rename_i w rest hhandles
      split_ifs at h with hw
      obtain rfl := Option.some.inj h
      exact .join hhandles hw
  | dropFields =>
    simp only [step, Option.ite_none_right_eq_some, Option.some.injEq] at h
    obtain ⟨⟨hhandles, htx⟩, rfl⟩ := h
    exact .dropFields hhandles htx

/-- A task that is taken, or one that has returned, changes the tasks of its worker only. -/
theorem Step.tasks_subset (h : Step numWorkers panics s s') (w : ℕ) : s'.tasks w ⊆ s.tasks w := by
  cases h with
  | @recv u k rest _ _ hr hq =>
    rcases eq_or_ne w u with rfl | hne
    · simp [tasks, hr, hq]
    · simp [tasks, hne]
  | @finish u k _ _ hk _ =>
    rcases eq_or_ne w u with rfl | hne
    · simp [tasks, hk]
    · simp [tasks, hne]
  | panic _ _ _ _ => exact List.Subset.refl _
  | close _ _ _ _ _ => exact List.Subset.refl _
  | join _ _ => exact List.Subset.refl _
  | dropFields _ _ => exact List.Subset.refl _

theorem Step.workerHandles_suffix (h : Step numWorkers panics s s') :
    s'.workerHandles <:+ s.workerHandles := by
  cases h with
  | join hhandles _ => exact hhandles ▸ List.suffix_cons _ _
  | _ => exact List.suffix_rfl

/-! ## Workers that a panic ends -/

/-- A panic is not averted. -/
theorem EndsByPanic.step {w : ℕ} (h : EndsByPanic panics s w) (hs : Step numWorkers panics s s') :
    EndsByPanic panics s' w := by
  have hexit (u : ℕ) (hw : s.exited w = true) : update s.exited u true w = true := by
    rcases eq_or_ne w u with rfl | hne
    · simp
    · simp [hne, hw]
  cases hs with
  | @recv u k rest _ _ hr hq =>
    refine h.imp_right fun ⟨j, hj, hp⟩ => ⟨j, ?_, hp⟩
    rcases eq_or_ne w u with rfl | hne
    · simpa [tasks, hr, hq] using hj
    · simpa [tasks, hne] using hj
  | @finish u k _ _ hk hreturns =>
    refine h.imp_right fun ⟨j, hj, hp⟩ => ⟨j, ?_, hp⟩
    rcases eq_or_ne w u with rfl | hne
    · -- the task that has returned is not the one that panics
      have hjk : j ≠ k := by
        rintro rfl
        simp [hp] at hreturns
      simpa [tasks, hk, hjk] using hj
    · simpa [tasks, hne] using hj
  | @panic u k _ _ _ _ =>
    rcases eq_or_ne w u with rfl | hne
    · exact Or.inl (by simp)
    · exact h.imp_left (hexit u)
  | @close u _ _ _ _ _ => exact h.imp_left (hexit u)
  | join _ _ => exact h
  | dropFields _ _ => exact h

/-- The drop has not joined the worker `w`, and no panic ends it. -/
structure Waiting (numWorkers : ℕ) (panics : ℕ → Bool) (w : ℕ) (s : PoolDrop) : Prop where
  handles : s.workerHandles <:+ List.range numWorkers
  mem : w ∈ s.workerHandles
  txs : s.workerTxs = true
  exited : s.exited w = false
  returns : ∀ k ∈ s.tasks w, panics k = false

theorem Waiting.start {w : ℕ} (hw : w < numWorkers) {pool : WorkerPool} {exited : ℕ → Bool}
    (h : ¬EndsByPanic panics (PoolDrop.start numWorkers pool exited) w) :
    Waiting numWorkers panics w (PoolDrop.start numWorkers pool exited) := by
  obtain ⟨hexited, hreturns⟩ := not_or.mp h
  refine ⟨List.suffix_rfl, List.mem_range.mpr hw, rfl, by simpa using hexited, fun k hk => ?_⟩
  by_contra hp
  exact hreturns ⟨k, hk, by simpa using hp⟩

/-- The senders are kept until the worker is joined, and the worker does not end before they are
dropped. -/
theorem Waiting.step {w : ℕ} (h : Waiting numWorkers panics w s)
    (hs : Step numWorkers panics s s') : Waiting numWorkers panics w s' := by
  have hhandles := hs.workerHandles_suffix.trans h.handles
  have hreturns : ∀ k ∈ s'.tasks w, panics k = false := fun k hk =>
    h.returns k (hs.tasks_subset w hk)
  cases hs with
  | recv _ _ _ _ => exact ⟨hhandles, h.mem, h.txs, h.exited, hreturns⟩
  | finish _ _ _ _ => exact ⟨hhandles, h.mem, h.txs, h.exited, hreturns⟩
  | @panic u k _ _ hk hp =>
    have hne : w ≠ u := by
      rintro rfl
      have := h.returns k (by simp [tasks, hk])
      simp [hp] at this
    exact ⟨hhandles, h.mem, h.txs, by simp [hne, h.exited], hreturns⟩
  | close _ _ _ _ htx =>
    rw [h.txs] at htx
    cases htx
  | @join u rest hcons hu =>
    have hmem := h.mem
    rw [hcons] at hmem
    rcases List.mem_cons.mp hmem with rfl | hmem
    · rw [h.exited] at hu
      cases hu
    · exact ⟨hhandles, hmem, h.txs, h.exited, hreturns⟩
  | dropFields hnil _ =>
    have hmem := h.mem
    simp [hnil] at hmem

/-- If nothing is enabled, the drop is stuck. -/
theorem Waiting.stuck {w : ℕ} (h : Waiting numWorkers panics w s)
    (hnone : ∀ e, PoolDrop.step numWorkers panics s e = none) : Stuck s := by
  cases hcons : s.workerHandles with
  | nil =>
    have hmem := h.mem
    simp [hcons] at hmem
  | cons u rest =>
    have hlt : u < numWorkers :=
      List.mem_range.mp (h.handles.subset (hcons ▸ List.mem_cons_self))
    have hexited : s.exited u = false := by
      by_contra hu
      have := hnone .join
      simp [PoolDrop.step, hcons, hu] at this
    have hrunning : s.pool.running u = none := by
      by_contra hr
      obtain ⟨k, hk⟩ := Option.ne_none_iff_exists'.mp hr
      have := hnone (.finish u)
      cases hp : panics k <;> simp [PoolDrop.step, hlt, hexited, hk, hp, WorkerPool.finish] at this
    have hqueue : s.pool.queues u = [] := by
      by_contra hq
      obtain ⟨k, queue, hk⟩ := List.exists_cons_of_ne_nil hq
      have := hnone (.recv u)
      simp [PoolDrop.step, hexited, WorkerPool.recv, hrunning, hk, hlt] at this
    exact ⟨u, rest, hcons, hexited, hrunning, hqueue, h.txs⟩

/-! ## Every run ends -/

/-- The steps that a worker can still take. -/
def work (s : PoolDrop) (w : ℕ) : ℕ :=
  2 * (s.pool.queues w).length + (s.pool.running w).toList.length +
    if s.exited w then 0 else 1

open Finset in
/-- The steps that are left. -/
def measure (numWorkers : ℕ) (s : PoolDrop) : ℕ :=
  ∑ w ∈ range numWorkers, s.work w + s.workerHandles.length + if s.workerTxs then 1 else 0

/-- A step of one worker leaves it less to do. -/
theorem measure_lt_of_work {u : ℕ} (hu : u < numWorkers)
    (hhandles : s'.workerHandles = s.workerHandles) (htxs : s'.workerTxs = s.workerTxs)
    (hne : ∀ w, w ≠ u → s'.work w = s.work w) (hlt : s'.work u < s.work u) :
    s'.measure numWorkers < s.measure numWorkers := by
  rw [measure, measure, hhandles, htxs]
  refine Nat.add_lt_add_right (Nat.add_lt_add_right ?_ _) _
  refine Finset.sum_lt_sum (fun w _ => ?_) ⟨u, Finset.mem_range.mpr hu, hlt⟩
  rcases eq_or_ne w u with rfl | hw
  · exact hlt.le
  · exact (hne w hw).le

theorem Step.measure_lt (h : Step numWorkers panics s s') :
    s'.measure numWorkers < s.measure numWorkers := by
  cases h with
  | @recv u k rest hu hexited hr hq =>
    refine measure_lt_of_work hu rfl rfl (fun w hw => by simp [work, hw]) ?_
    simp [work, hr, hq, hexited]
    omega
  | @finish u k hu hexited hk _ =>
    refine measure_lt_of_work hu rfl rfl (fun w hw => by simp [work, hw]) ?_
    simp [work, hk, hexited]
  | @panic u k hu hexited _ _ =>
    refine measure_lt_of_work hu rfl rfl (fun w hw => by simp [work, hw]) ?_
    simp [work, hexited]
  | @close u hu hexited _ _ _ =>
    refine measure_lt_of_work hu rfl rfl (fun w hw => by simp [work, hw]) ?_
    simp [work, hexited]
  | join hcons _ =>
    simp only [measure, work, hcons, List.length_cons]
    omega
  | dropFields _ htx => simp [measure, work, htx]

/-! ## The drop is stuck unless every worker panics -/

section Runs

variable (numWorkers panics) (pool : WorkerPool) (exited : ℕ → Bool)

theorem waiting_of_reachable {w : ℕ} (hw : w < numWorkers)
    (h : ¬EndsByPanic panics (start numWorkers pool exited) w)
    (hr : (system numWorkers panics pool exited).Reachable s) : Waiting numWorkers panics w s :=
  hr.invariant (fun _ hinit => hinit ▸ Waiting.start hw h) fun _ _ _ _ hi hs =>
    hi.step (step_cases hs)

theorem endsByPanic_of_reachable {w : ℕ}
    (h : EndsByPanic panics (start numWorkers pool exited) w)
    (hr : (system numWorkers panics pool exited).Reachable s) : EndsByPanic panics s w :=
  hr.invariant (fun _ hinit => hinit ▸ h) fun _ _ _ _ hi hs => hi.step (step_cases hs)

theorem suffix_of_reachable (hr : (system numWorkers panics pool exited).Reachable s) :
    s.workerHandles <:+ List.range numWorkers :=
  hr.invariant (I := fun s => s.workerHandles <:+ List.range numWorkers)
    (fun _ hinit => hinit ▸ List.suffix_rfl) fun _ _ _ _ hi hs =>
      (step_cases hs).workerHandles_suffix.trans hi

/-- With a worker that no panic ends, some thread is not joined in any state reached. -/
theorem drop_never_returns {w : ℕ} (hw : w < numWorkers)
    (h : ¬EndsByPanic panics (start numWorkers pool exited) w)
    (hr : (system numWorkers panics pool exited).Reachable s) : s.workerHandles ≠ [] :=
  List.ne_nil_of_mem (waiting_of_reachable numWorkers panics pool exited hw h hr).mem

/-- For any number of workers, whatever they run, have queued or ended with when the drop starts,
no state in which the drop is stuck can be reached if and only if a panic ends every worker. -/
theorem drop_never_stuck_iff :
    (∀ s, (system numWorkers panics pool exited).Reachable s → ¬Stuck s) ↔
      ∀ w < numWorkers, EndsByPanic panics (start numWorkers pool exited) w := by
  constructor
  · intro hnever w hw
    by_contra h
    obtain ⟨s, hsteps, hwaiting, hnone⟩ :=
      Transition.System.exists_terminal (S := system numWorkers panics pool exited)
        (fun _ _ _ hi hs => Waiting.step hi (step_cases hs))
        (fun _ _ _ _ hs => (step_cases hs).measure_lt) (Waiting.start hw h)
    exact hnever s ((Transition.System.Reachable.init rfl).steps hsteps) (hwaiting.stuck hnone)
  · rintro hends s hr ⟨w, rest, hcons, hexited, hrunning, hqueue, -⟩
    have hw : w < numWorkers := List.mem_range.mp
      ((suffix_of_reachable numWorkers panics pool exited hr).subset
        (hcons ▸ List.mem_cons_self))
    rcases endsByPanic_of_reachable numWorkers panics pool exited (hends w hw) hr with h | h
    · rw [hexited] at h
      cases h
    · simp [tasks, hrunning, hqueue] at h

end Runs

/-- One worker, and one task in its queue. -/
def oneTask : WorkerPool :=
  { WorkerPool.empty with queues := update (fun _ => []) 0 [0], sent := 1 }

/-- The task returns, and the worker waits for the next one. -/
theorem drop_stuck_after_last_task :
    ∃ s, (system 1 (fun _ => false) oneTask fun _ => false).Reachable s ∧ Stuck s := by
  have hrun : ∃ s, (system 1 (fun _ => false) oneTask fun _ => false).run
      (start 1 oneTask fun _ => false) [.recv 0, .finish 0] = some s ∧ Stuck s :=
    ⟨_, rfl, 0, [], rfl, rfl, rfl, rfl, rfl⟩
  obtain ⟨s, hrun, hstuck⟩ := hrun
  exact ⟨s, Transition.System.reachable_run (.init rfl) hrun, hstuck⟩

end PoolDrop

end Remora
