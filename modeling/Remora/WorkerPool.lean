import Mathlib.Logic.Function.Basic
import Mathlib.Data.List.Basic
import Mathlib.Data.Nat.Find
import Mathlib.Tactic.Common

/-!
# The generic worker pool

`GenericWorkerPool` hands its tasks round robin to workers, each with a bounded queue
that it works off strictly in order. Tasks are numbered in the order they are sent. What
a task does is not said here : a worker that has taken a task runs it until it returns.

`WorkerPool.Inv` : what worker `w` runs and has queued are the tasks `k` with
`k % n = w` that are sent and have not returned, in order. The first task of the whole
pool that has not returned is therefore running, or its worker is free to take it
(`Inv.progress`), however the queues block each other.
-/

namespace Remora

open Function

/-- The queues and workers of a pool. Tasks from `sent` on have not been sent. -/
structure WorkerPool where
  queues : ℕ → List ℕ
  running : ℕ → Option ℕ
  nextWorker : ℕ
  sent : ℕ
  returned : ℕ → Bool

namespace WorkerPool

/-- The pool before the first task. -/
def empty : WorkerPool :=
  ⟨fun _ => [], fun _ => none, 0, 0, fun _ => false⟩

variable (numWorkers bufferSize : ℕ)

/-- `send_task` : the next task to the next worker. Blocked while that worker's queue is
full. -/
def sendTask (P : WorkerPool) : Option WorkerPool :=
  if (P.queues P.nextWorker).length < bufferSize then
    some { P with
      queues := update P.queues P.nextWorker (P.queues P.nextWorker ++ [P.sent])
      nextWorker := (P.nextWorker + 1) % numWorkers
      sent := P.sent + 1 }
  else none

/-- `rx.recv()` of a worker that runs no task. -/
def recv (P : WorkerPool) (w : ℕ) : Option WorkerPool :=
  match P.running w, P.queues w with
  | none, k :: rest =>
    if w < numWorkers then
      some { P with
        queues := update P.queues w rest
        running := update P.running w (some k) }
    else none
  | _, _ => none

/-- The task a worker runs returns. -/
def finish (P : WorkerPool) (w : ℕ) : Option WorkerPool :=
  (P.running w).map fun k =>
    { P with running := update P.running w none, returned := update P.returned k true }

/-- The tasks of worker `w` among the first `sent` that have not returned. -/
def pending (sent : ℕ) (returned : ℕ → Bool) (w : ℕ) : List ℕ :=
  (List.range sent).filter fun k => k % numWorkers = w ∧ returned k = false

/-- Each worker has its tasks in order. -/
structure Inv (P : WorkerPool) : Prop where
  tasks : ∀ w, (P.running w).toList ++ P.queues w = pending numWorkers P.sent P.returned w
  next : P.nextWorker = P.sent % numWorkers
  returned_lt : ∀ k, P.returned k = true → k < P.sent

variable {numWorkers bufferSize} {P P' : WorkerPool}

theorem mem_pending {sent : ℕ} {returned : ℕ → Bool} {w k : ℕ} :
    k ∈ pending numWorkers sent returned w ↔
      k < sent ∧ k % numWorkers = w ∧ returned k = false := by
  simp [pending]

theorem pending_succ {sent : ℕ} {returned : ℕ → Bool} (h : returned sent = false) (w : ℕ) :
    pending numWorkers (sent + 1) returned w =
      pending numWorkers sent returned w ++ if sent % numWorkers = w then [sent] else [] := by
  rw [pending, List.range_succ, List.filter_append, ← pending]
  by_cases hw : sent % numWorkers = w
  · simp [hw, h]
  · simp [hw]

/-- A task that returns leaves the pending ones. -/
theorem pending_update (sent : ℕ) (returned : ℕ → Bool) (k w : ℕ) :
    pending numWorkers sent (update returned k true) w =
      (pending numWorkers sent returned w).filter (· ≠ k) := by
  rw [pending, pending, List.filter_filter]
  refine List.filter_congr fun j _ => ?_
  rcases eq_or_ne j k with rfl | hj
  · simp
  · simp [hj]

theorem nodup_pending (sent : ℕ) (returned : ℕ → Bool) (w : ℕ) :
    (pending numWorkers sent returned w).Nodup :=
  List.nodup_range.filter _

theorem sendTask_eq_some (h : P.sendTask numWorkers bufferSize = some P') :
    P'.sent = P.sent + 1 ∧ P'.returned = P.returned := by
  unfold sendTask at h
  split_ifs at h
  obtain rfl := Option.some.inj h
  exact ⟨rfl, rfl⟩

theorem recv_eq_some {w : ℕ} (h : P.recv numWorkers w = some P') :
    P'.sent = P.sent ∧ P'.returned = P.returned := by
  unfold recv at h
  split at h
  · split_ifs at h
    obtain rfl := Option.some.inj h
    exact ⟨rfl, rfl⟩
  · simp at h

theorem finish_eq_some {w k : ℕ} (h : P.finish w = some P') (hk : P.running w = some k) :
    P'.sent = P.sent ∧ P'.returned = update P.returned k true := by
  rw [finish, hk] at h
  obtain rfl := Option.some.inj h
  exact ⟨rfl, rfl⟩

theorem Inv.empty : Inv numWorkers WorkerPool.empty :=
  ⟨fun w => by simp [WorkerPool.empty, pending], by simp [WorkerPool.empty],
    by simp [WorkerPool.empty]⟩

theorem Inv.sendTask (hI : Inv numWorkers P)
    (h : P.sendTask numWorkers bufferSize = some P') : Inv numWorkers P' := by
  unfold WorkerPool.sendTask at h
  split_ifs at h
  obtain rfl := Option.some.inj h
  have hnew : P.returned P.sent = false := by
    by_contra hr
    exact absurd (hI.returned_lt P.sent (by simpa using hr)) (Nat.lt_irrefl _)
  refine ⟨fun w => ?_, by simp [hI.next], fun k hk => Nat.lt_succ_of_lt (hI.returned_lt k hk)⟩
  rw [pending_succ hnew, ← hI.tasks w, ← hI.next]
  rcases eq_or_ne w P.nextWorker with rfl | hne
  · simp
  · simp [hne, hne.symm]

theorem Inv.recv {w : ℕ} (hI : Inv numWorkers P) (h : P.recv numWorkers w = some P') :
    Inv numWorkers P' := by
  unfold WorkerPool.recv at h
  split at h
  · rename_i k rest hr hq
    split_ifs at h
    obtain rfl := Option.some.inj h
    refine ⟨fun u => ?_, hI.next, hI.returned_lt⟩
    rw [← hI.tasks u]
    rcases eq_or_ne u w with rfl | hne
    · simp [hr, hq]
    · simp [hne]
  · simp at h

theorem Inv.finish {w : ℕ} (hI : Inv numWorkers P) (h : P.finish w = some P') :
    Inv numWorkers P' := by
  obtain ⟨k, hk, rfl⟩ := Option.map_eq_some_iff.mp h
  obtain ⟨hlt, hkw, -⟩ := mem_pending.mp
    (show k ∈ pending numWorkers P.sent P.returned w by simp [← hI.tasks w, hk])
  refine ⟨fun u => ?_, hI.next, fun j hj => ?_⟩
  · have hnd : (pending numWorkers P.sent P.returned u).Nodup := nodup_pending _ _ u
    rw [pending_update, ← hI.tasks u] at *
    rcases eq_or_ne u w with rfl | hne
    · have hnotin : k ∉ P.queues u := by
        rw [hk] at hnd
        exact (List.nodup_cons.mp hnd).1
      have : (P.queues u).filter (· ≠ k) = P.queues u :=
        List.filter_eq_self.mpr fun j hj => by
          simpa using fun h : j = k => hnotin (h ▸ hj)
      simpa [hk] using this.symm
    · simp only [update_of_ne hne]
      rw [eq_comm, List.filter_eq_self]
      intro j hj
      rw [hI.tasks u] at hj
      simpa using fun h : j = k => hne ((mem_pending.mp hj).2.1.symm.trans (h ▸ hkw))
  · rcases eq_or_ne j k with rfl | hjk
    · exact hlt
    · exact hI.returned_lt j (by simpa [hjk] using hj)

/-- A running task has been sent and has not returned. -/
theorem Inv.of_running (hI : Inv numWorkers P) {w k : ℕ} (h : P.running w = some k) :
    k < P.sent ∧ k % numWorkers = w ∧ P.returned k = false := by
  exact mem_pending.mp (by simp [← hI.tasks w, h])

/-- The first task that has not returned is running, or its worker can take it. -/
theorem Inv.progress (hI : Inv numWorkers P) (hn : 0 < numWorkers) {k : ℕ} (hk : k < P.sent)
    (hr : P.returned k = false) (hmin : ∀ j < k, P.returned j = true) :
    P.running (k % numWorkers) = some k ∨ (P.recv numWorkers (k % numWorkers)).isSome := by
  have htasks := hI.tasks (k % numWorkers)
  have hmem : k ∈ pending numWorkers P.sent P.returned (k % numWorkers) :=
    mem_pending.mpr ⟨hk, rfl, hr⟩
  have hfirst : ∀ j ∈ pending numWorkers P.sent P.returned (k % numWorkers), k ≤ j := by
    intro j hj
    by_contra hlt
    have := hmin j (by omega)
    simp [mem_pending, this] at hj
  have hsorted : (pending numWorkers P.sent P.returned (k % numWorkers)).Pairwise (· < ·) :=
    List.pairwise_lt_range.filter _
  rw [← htasks] at hmem hfirst hsorted
  cases hrun : P.running (k % numWorkers) with
  | some j =>
    left
    rw [hrun, Option.toList_some, List.singleton_append] at hmem hfirst hsorted
    rcases List.mem_cons.mp hmem with rfl | hmem
    · rfl
    · have h1 := (List.pairwise_cons.mp hsorted).1 k hmem
      have h2 := hfirst j List.mem_cons_self
      omega
  | none =>
    right
    rw [hrun, Option.toList_none, List.nil_append] at hmem
    unfold WorkerPool.recv
    cases hq : P.queues (k % numWorkers) with
    | nil => simp [hq] at hmem
    | cons a rest => simp [hrun, Nat.mod_lt _ hn]

/-- Some task has been sent and has not returned as long as a queue is full. -/
theorem Inv.exists_pending_of_full (hI : Inv numWorkers P) (hb : 0 < bufferSize) {w : ℕ}
    (h : bufferSize ≤ (P.queues w).length) : ∃ k < P.sent, P.returned k = false := by
  obtain ⟨k, hk⟩ := List.exists_mem_of_length_pos (Nat.lt_of_lt_of_le hb h)
  obtain ⟨hlt, -, hr⟩ := mem_pending.mp
    (show k ∈ pending numWorkers P.sent P.returned w by simp [← hI.tasks w, hk])
  exact ⟨k, hlt, hr⟩

/-- Among the tasks sent and not returned there is a first one. -/
theorem exists_first {p : ℕ → Bool} {n : ℕ} (h : ∃ k < n, p k = false) :
    ∃ k < n, p k = false ∧ ∀ j < k, p j = true := by
  refine ⟨Nat.find h, (Nat.find_spec h).1, (Nat.find_spec h).2, fun j hj => ?_⟩
  have := Nat.find_min h hj
  have hlt := (Nat.find_spec h).1
  simpa [show j < n by omega] using this

end WorkerPool

end Remora
