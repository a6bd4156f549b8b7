import Remora.Deployment

/-!
# Extensions of the consensus sequence

The transactions of a `Primary` are fixed in advance, and a running primary learns of them one by
one. It makes no difference : what a state says of the transactions it has, it says of them in
each longer sequence, and the added ones are tasks that have not started (`State.extend`). A step
is the same step there (`step_extend`), so a run on a sequence is a run on its extensions
(`reachableVia_extend`).
-/

namespace Remora

open Function VersionAssignmentTask

variable {τ ω : Type}

/-! ## Versions -/

section Versions

variable {txns : List (RemoraTransaction τ)} (more : List (RemoraTransaction τ)) {i : ℕ}

theorem versioned_append_left (hi : i < txns.length) :
    (versioned (txns ++ more))[i]? = (versioned txns)[i]? := by
  simp only [versioned, processVersionAssignments_getElem?, List.getElem?_append_left hi,
    List.take_append_of_le_length hi.le]

theorem required_append_left (hi : i < txns.length) :
    required (txns ++ more) i = required txns i := by
  rw [required, versioned_append_left more hi, ← required]

theorem processVersionAssignments_append (V : Versions) (ts us : List (RemoraTransaction τ)) :
    processVersionAssignments V (ts ++ us) =
      processVersionAssignments V ts ++ processVersionAssignments (versionsAfter V ts) us := by
  induction ts generalizing V with
  | nil => rfl
  | cons t ts ih => simp [processVersionAssignments, versionsAfter, ih]

end Versions

/-! ## The primary -/

/-- The primary with more transactions to come. -/
def Primary.extend (C : Primary τ) (more : List (RemoraTransaction τ)) : Primary τ :=
  { C with txns := C.txns ++ more }

section Primary

variable {C : Primary τ} (more : List (RemoraTransaction τ)) {i : ℕ}

theorem Primary.transaction_extend (hi : i < C.txns.length) :
    (C.extend more).transaction i = C.transaction i := by
  rw [transaction, extend, versioned_append_left more hi, ← transaction]

theorem ForwardAction.perform_extend (hi : i < C.txns.length) (X : ForwardingContext τ)
    (l : ForwardingTask) (a : ForwardAction) :
    a.perform (C.extend more) i X l = a.perform C i X l := by
  have ht := C.transaction_extend more hi
  have hk := required_append_left more hi
  cases a with
  | countState k => rfl
  | _ => simp only [perform, ht] <;> simp only [Primary.extend, hk]

theorem processForwardingTask_extend (hi : i < C.txns.length) :
    processForwardingTask (C.extend more) i = processForwardingTask C i := by
  have hk : required (C.extend more).txns i = required C.txns i := required_append_left more hi
  simp only [processForwardingTask, hk]
  rfl

end Primary

namespace SharedObjTxnForwarder

variable {C : Primary τ} (more : List (RemoraTransaction τ)) {s s' : State τ} {e : Event}

/-- The state with the tasks from the `n`-th on, which are those of `C`. -/
def State.extend (C : Primary τ) (n : ℕ) (s : State τ) : State τ :=
  { s with tasks := fun i => if i < n then s.tasks i else ForwardingTask.new C i }

@[simp] theorem State.extend_pool (n : ℕ) : (s.extend C n).pool = s.pool := rfl

@[simp] theorem State.extend_context (n : ℕ) : (s.extend C n).context = s.context := rfl

theorem State.extend_tasks {n i : ℕ} (hi : i < n) : (s.extend C n).tasks i = s.tasks i :=
  if_pos hi

theorem init_extend :
    (State.init C).extend (C.extend more) C.txns.length = State.init (C.extend more) := by
  have htasks : ∀ i, (if i < C.txns.length then ForwardingTask.new C i
      else ForwardingTask.new (C.extend more) i) = ForwardingTask.new (C.extend more) i := by
    intro i
    split_ifs with hi
    · simp only [ForwardingTask.new, processForwardingTask_extend more hi]
    · rfl
  simp only [State.extend, State.init, funext htasks]

/-- The task that acts is one of the old ones. -/
theorem runTask_extend {i : ℕ} (hi : i < C.txns.length) (h : runTask C s i = some s') :
    runTask (C.extend more) (s.extend (C.extend more) C.txns.length) i =
      some (s'.extend (C.extend more) C.txns.length) := by
  obtain ⟨a, rest, l', htodo, hp, htasks, hpool⟩ := runTask_eq_some h
  have hupdate : (s'.extend (C.extend more) C.txns.length).tasks =
      update (s.extend (C.extend more) C.txns.length).tasks i { l' with todo := rest } := by
    funext j
    rcases eq_or_ne j i with rfl | hne
    · rw [State.extend_tasks hi, htasks, update_self, update_self]
    · simp only [State.extend, htasks, update_of_ne hne]
  simp only [runTask, State.extend_tasks hi, htodo, State.extend_context,
    ForwardAction.perform_extend more hi, hp, Option.map_some, ← hupdate, State.extend_pool]
  simp only [State.extend, hpool]

/-- A step is a step on the longer sequence. -/
theorem step_extend (hI : Inv C s) (h : step C s e = some s') :
    step (C.extend more) (s.extend (C.extend more) C.txns.length) e =
      some (s'.extend (C.extend more) C.txns.length) := by
  have hlt : ∀ {w i}, s.pool.running w = some i → i < C.txns.length := fun hw =>
    (hI.pool.of_running hw).1.trans_le hI.sent_le
  cases e with
  | sendTask =>
    simp only [step] at h
    split_ifs at h with hsent
    obtain ⟨P, hP, rfl⟩ := Option.map_eq_some_iff.mp h
    have hlen : s.pool.sent < (C.extend more).txns.length := by
      simp only [Primary.extend, List.length_append]
      omega
    exact (if_pos hlen).trans (Option.map_eq_some_iff.mpr ⟨P, hP, rfl⟩)
  | recv w =>
    obtain ⟨P, hP, rfl⟩ := Option.map_eq_some_iff.mp h
    exact Option.map_eq_some_iff.mpr ⟨P, hP, rfl⟩
  | run w =>
    obtain ⟨i, hi, h⟩ := Option.bind_eq_some_iff.mp h
    exact Option.bind_eq_some_iff.mpr ⟨i, hi, runTask_extend more (hlt hi) h⟩
  | finish w =>
    obtain ⟨i, hi, h⟩ := Option.bind_eq_some_iff.mp h
    split_ifs at h with hempty
    obtain ⟨P, hP, rfl⟩ := Option.map_eq_some_iff.mp h
    refine Option.bind_eq_some_iff.mpr ⟨i, hi, ?_⟩
    rw [State.extend_tasks (hlt hi), if_pos hempty]
    exact Option.map_eq_some_iff.mpr ⟨P, hP, rfl⟩
  | plan d p | load p weight | insertStateless d p =>
    obtain rfl := Option.some.inj h
    rfl
  | sendStateless n p request =>
    simp only [step] at h
    split_ifs at h with hfree
    obtain rfl := Option.some.inj h
    exact if_pos hfree

end SharedObjTxnForwarder

/-! ## The deployment -/

namespace Deployment

variable {D : Deployment τ ω} (more : List (RemoraTransaction τ)) {s s' : State τ ω} {e : Event}

/-- The deployment with more transactions to come. -/
def extend (D : Deployment τ ω) (more : List (RemoraTransaction τ)) : Deployment τ ω :=
  { D with primary := D.primary.extend more }

/-- The proxies know nothing of what is to come. -/
def State.extend (C : Primary τ) (n : ℕ) (s : State τ ω) : State τ ω :=
  { s with forwarder := s.forwarder.extend C n }

theorem step_extend (hr : (system D).Reachable s) (h : step D s e = some s') :
    step (D.extend more) (s.extend (D.primary.extend more) D.primary.txns.length) e =
      some (s'.extend (D.primary.extend more) D.primary.txns.length) := by
  cases e with
  | forwarder e' =>
    obtain ⟨f, hf, rfl⟩ := Option.map_eq_some_iff.mp h
    have hI := SharedObjTxnForwarder.inv_of_reachable (reachable_forwarder hr)
    exact Option.map_eq_some_iff.mpr ⟨_, SharedObjTxnForwarder.step_extend more hI hf, rfl⟩
  | arrive m =>
    obtain ⟨x, hsent, h⟩ := Option.bind_eq_some_iff.mp h
    obtain ⟨c, hc, rfl⟩ := Option.map_eq_some_iff.mp h
    exact Option.bind_eq_some_iff.mpr ⟨x, hsent, Option.map_eq_some_iff.mpr ⟨c, hc, rfl⟩⟩
  | run t =>
    obtain ⟨c, hc, rfl⟩ := Option.map_eq_some_iff.mp h
    exact Option.map_eq_some_iff.mpr ⟨c, hc, rfl⟩

/-- A run on a sequence is one on each extension, under a condition that carries over. -/
theorem reachableVia_extend {ok ok' : State τ ω → Event → Prop}
    (hok : ∀ s e, ok s e → ok' (s.extend (D.primary.extend more) D.primary.txns.length) e)
    (h : (system D).ReachableVia ok s) : (system (D.extend more)).ReachableVia ok'
      (s.extend (D.primary.extend more) D.primary.txns.length) := by
  induction h with
  | init h =>
    refine .init ?_
    rw [h]
    change (⟨(SharedObjTxnForwarder.State.init D.primary).extend _ _, _⟩ : State τ ω) = _
    rw [SharedObjTxnForwarder.init_extend]
    rfl
  | step hr he hs ih =>
    exact .step ih (hok _ _ he) (step_extend more (hr.mono fun _ _ _ => trivial) hs)

end Deployment

end Remora
