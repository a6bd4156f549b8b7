import Remora.SchedulerSteps
import Mathlib.Algebra.Field.Rat

/-!
# Plans and loads are settled

The scheduler and the forwarding tasks are never ordered. For each transaction we follow where it
stands (`Standing`) : waiting for its entry in the plan, entered while its weight is still to be
added, or charged to one proxy. A transaction of a class of its own is never planned, and is
charged by its own fallback.

A lookup removes the entry. Hence everything is settled in the end if each lookup of a planned
transaction comes after its entry (`Timely`) : the steps of the scheduler and the actions of a task
(`Forwards`) both keep `Inv`, and so `plan_and_load_settled`.

A lookup that comes too early finds nothing, and the fallback chooses a proxy. The entry that is
made later is never removed, and the same duration is added a second time
(`plan_left_and_charged_twice`).
-/

namespace Remora

open Function PreConsensusSchedTask ForwardAction

variable {τ : Type} {C : Primary τ} {B : Batches C} {b : Build} {L : Collections}

namespace SchedulerThread

variable {F : Type} [Zero F] [One F] [NatCast F] [Add F] [Sub F] [Neg F] [Mul F] [Div F] [Max F]
  [OfScientific F] [LT F] [DecidableLT F] {s s' : State τ} {d : TransactionDigest} {p : ProxyId}

/-! ## Standing of a transaction -/

/-- The proxies whose loads the duration of the transaction has been added to. -/
def charged (s : State τ) (d : TransactionDigest) : List ProxyId :=
  (s.updates.filter fun u => d ∈ u.digests).map LoadUpdate.proxyId

/-- The task of the transaction is, or will be, sent to `p`. -/
def Routed (s : State τ) (i : ℕ) (d : TransactionDigest) (p : ProxyId) : Prop :=
  (removePlan ∈ (s.forwarder.tasks i).todo ∧ s.forwarder.context.routingPlan d = some p) ∨
    (removePlan ∉ (s.forwarder.tasks i).todo ∧ s.forwarder.context.routingPlan d = none ∧
      (s.forwarder.tasks i).proxyId = some p)

/-- Where the `i`-th transaction stands, if every lookup so far has been timely. -/
structure Standing (C : Primary τ) (B : Batches C) (s : State τ) (i : ℕ)
    (d : TransactionDigest) : Prop where
  waiting : Waiting C B s d → removePlan ∈ (s.forwarder.tasks i).todo ∧
    s.forwarder.context.routingPlan d = none ∧ charged s d = []
  pending : ∀ p, s.phase.Pending p d → Routed s i d p ∧ charged s d = []
  settled : (∃ k, Planned C B k d) → ¬Waiting C B s d → (∀ p, ¬s.phase.Pending p d) →
    ∃ p, Routed s i d p ∧ charged s d = [p]
  alone : (¬∃ k, Planned C B k d) → s.forwarder.context.routingPlan d = none ∧
    (fallback ∈ (s.forwarder.tasks i).todo →
      (s.forwarder.tasks i).proxyId = none ∧ charged s d = []) ∧
    (fallback ∉ (s.forwarder.tasks i).todo →
      ∃ p, (s.forwarder.tasks i).proxyId = some p ∧ charged s d = [p])

/-- A step that has nothing to do with the `i`-th transaction. -/
structure Unchanged (C : Primary τ) (B : Batches C) (s s' : State τ) (i : ℕ)
    (d : TransactionDigest) : Prop where
  removePlan : removePlan ∈ (s'.forwarder.tasks i).todo ↔
    removePlan ∈ (s.forwarder.tasks i).todo
  fallback : fallback ∈ (s'.forwarder.tasks i).todo ↔ fallback ∈ (s.forwarder.tasks i).todo
  proxyId : (s'.forwarder.tasks i).proxyId = (s.forwarder.tasks i).proxyId
  plan : s'.forwarder.context.routingPlan d = s.forwarder.context.routingPlan d
  charged : charged s' d = charged s d
  waiting : Waiting C B s' d ↔ Waiting C B s d
  pending : ∀ p, s'.phase.Pending p d ↔ s.phase.Pending p d

section Standing

variable {i : ℕ}

theorem Standing.congr (h : Standing C B s i d) (hu : Unchanged C B s s' i d) :
    Standing C B s' i d := by
  have hrouted : ∀ p, Routed s' i d p ↔ Routed s i d p := fun p => by
    simp only [Routed, hu.removePlan, hu.plan, hu.proxyId]
  refine ⟨?_, ?_, ?_, ?_⟩
  · simpa only [hu.waiting, hu.removePlan, hu.plan, hu.charged] using h.waiting
  · simpa only [hu.pending, hrouted, hu.charged] using h.pending
  · simpa only [hu.waiting, hu.pending, hrouted, hu.charged] using h.settled
  · simpa only [hu.plan, hu.fallback, hu.proxyId, hu.charged] using h.alone

/-- What is entered is not waiting. -/
theorem Standing.not_waiting (h : Standing C B s i d) (hp : s.phase.Pending p d) :
    ¬Waiting C B s d := by
  intro hw
  obtain ⟨hremove, hplan, -⟩ := h.waiting hw
  rcases (h.pending p hp).1 with ⟨-, hplan'⟩ | ⟨hremove', -⟩
  · simp [hplan] at hplan'
  · exact hremove' hremove

theorem charged_append {updates : List LoadUpdate} (h : s'.updates = s.updates ++ updates)
    (d : TransactionDigest) : charged s' d =
      charged s d ++ (updates.filter fun u => d ∈ u.digests).map LoadUpdate.proxyId := by
  rw [charged, h, List.filter_append, List.map_append, ← charged]

theorem Working.unplanned_subset (hw : Working C B s) : s.phase.unplanned ⊆ s.phase.digests := by
  have hsuffixed := hw.suffixed
  cases hphase : s.phase with
  | insert a left rest assignments =>
    rw [hphase] at hsuffixed
    intro d hd
    rcases List.mem_append.mp hd with hd | hd
    · simp [Phase.digests, hsuffixed.subset hd]
    · exact List.mem_append_right _ (List.mem_append_right _ hd)
  | _ => simp [Phase.unplanned, Phase.digests]

theorem Working.planned_of_waiting (hw : Working C B s) (h : Waiting C B s d) :
    ∃ k, Planned C B k d := by
  rcases h with ⟨k, -, h⟩ | h
  · exact ⟨k, h⟩
  · obtain ⟨k, -, hk⟩ := hw.planned d (hw.unplanned_subset h)
    exact ⟨k, hk⟩

theorem Phase.mem_digests_of_pending {phase : Phase} (h : phase.Pending p d) :
    d ∈ phase.digests := by
  have hassigned : ∀ {assignments : List Assignment},
      (∃ a ∈ assignments, a.proxyId = p ∧ d ∈ a.digests) →
        d ∈ assignments.flatMap Assignment.digests := by
    rintro assignments ⟨a, ha, -, hd⟩
    exact List.mem_flatMap.mpr ⟨a, ha, hd⟩
  cases phase with
  | recv => exact h.elim
  | update assignments => exact hassigned h
  | insert a left rest assignments =>
    rcases h with h | ⟨-, h, -⟩
    · exact List.mem_append_left _ (hassigned h)
    · exact List.mem_append_right _ (List.mem_append_left _ h)
  | logSummary _ _ | logDistribution _ _ => exact h.elim
  | _ => exact List.mem_append_left _ (hassigned h)

theorem Working.planned_of_pending (hw : Working C B s) (h : s.phase.Pending p d) :
    ∃ k, Planned C B k d := by
  obtain ⟨k, -, hk⟩ := hw.planned d (Phase.mem_digests_of_pending h)
  exact ⟨k, hk⟩

theorem Standing.quiet (h : Standing C B s i d) (hq : Quiet C B s s') : Standing C B s' i d := by
  obtain ⟨hforwarder, hupdates, hwaiting, hpending⟩ := hq
  refine h.congr ⟨?_, ?_, ?_, ?_, ?_, hwaiting d, fun p => hpending p d⟩
  all_goals simp only [hforwarder, charged, hupdates]

theorem Standing.inserts (h : Standing C B s i d) (hw : Working C B s) {d' : TransactionDigest}
    (hi : Inserts C B s s' p d') : Standing C B s' i d := by
  obtain ⟨hforwarder, hupdates, hmem, hwaiting, hpending⟩ := hi
  have hforwarder := Option.some.inj hforwarder
  have htasks : s'.forwarder.tasks = s.forwarder.tasks := by rw [← hforwarder]
  have hplan' : s'.forwarder.context.routingPlan =
      update s.forwarder.context.routingPlan d' (some p) := by rw [← hforwarder]
  have hcharged : charged s' d = charged s d := by rw [charged, hupdates, ← charged]
  rcases eq_or_ne d d' with rfl | hne
  · obtain ⟨hremove, hplan, hnone⟩ := h.waiting hmem
    have hrouted : Routed s' i d p := Or.inl ⟨htasks ▸ hremove, by rw [hplan', update_self]⟩
    refine ⟨fun hw' => absurd rfl ((hwaiting d).mp hw').2, fun q hq => ?_, fun _ _ hq => ?_,
      fun hp => absurd (hw.planned_of_waiting hmem) hp⟩
    · rcases (hpending q d).mp hq with hq | ⟨rfl, -⟩
      · exact absurd hmem (h.not_waiting hq)
      · exact ⟨hrouted, hcharged.trans hnone⟩
    · exact absurd ((hpending p d).mpr (Or.inr ⟨rfl, rfl⟩)) (hq p)
  · refine h.congr ⟨by rw [htasks], by rw [htasks], by rw [htasks], ?_, hcharged, ?_, fun q => ?_⟩
    · rw [hplan', update_of_ne hne]
    · rw [hwaiting, and_iff_left hne]
    · rw [hpending, or_iff_left fun h => hne h.2]

theorem Standing.charges (h : Standing C B s i d) (hw : Working C B s) {a : Assignment}
    {weight : ℕ} (hc : Charges C B s s' a weight) : Standing C B s' i d := by
  obtain ⟨⟨loads, hforwarder⟩, -, hupdates, -, hmem, hwaiting, hpending⟩ := hc
  have htasks : s'.forwarder.tasks = s.forwarder.tasks := congrArg (·.tasks) hforwarder
  have hplan : s'.forwarder.context.routingPlan = s.forwarder.context.routingPlan :=
    congrArg (·.context.routingPlan) hforwarder
  have hcharged : charged s' d =
      charged s d ++ if d ∈ a.digests then [a.proxyId] else [] := by
    rw [charged_append hupdates]
    split_ifs with hd <;> simp [hd]
  by_cases hd : d ∈ a.digests
  · obtain ⟨hrouted, hnone⟩ := h.pending _ (hmem d hd)
    refine ⟨fun hw' => absurd ((hwaiting d).mp hw') (h.not_waiting (hmem d hd)),
      fun q hq => absurd hd ((hpending q d).mp hq).2, fun _ _ _ => ⟨a.proxyId, ?_, ?_⟩,
      fun hp => absurd (hw.planned_of_pending (hmem d hd)) hp⟩
    · simpa only [Routed, htasks, hplan] using hrouted
    · rw [hcharged, hnone, if_pos hd, List.nil_append]
  · refine h.congr ⟨by rw [htasks], by rw [htasks], by rw [htasks], by rw [hplan], ?_, hwaiting d,
      fun q => ?_⟩
    · rw [hcharged, if_neg hd, List.append_nil]
    · rw [hpending, and_iff_left hd]

end Standing

variable (C B) in
/-- A transaction of a class with at least two members is looked up when its plan is there. -/
def Timely (s : State τ) (e : Event) : Prop :=
  ∀ w i t, e = .forward (.run w) → s.forwarder.pool.running w = some i →
    (s.forwarder.tasks i).todo.head? = some removePlan → C.transaction i = some t →
    (∃ k, InLargeClass B k t.digest) → s.forwarder.context.routingPlan t.digest ≠ none

/-- What a forwarding task does : it performs `a`, and the scheduler does nothing. -/
structure Forwards (C : Primary τ) (s s' : State τ) (i : ℕ) (a : ForwardAction)
    (rest : List ForwardAction) (l' : ForwardingTask) : Prop where
  run : SharedObjTxnForwarder.RunStep C s.forwarder s'.forwarder i a rest l'
  updates : s'.updates = s.updates ++ a.updates C i (s.forwarder.tasks i)
  phase : s'.phase = s.phase
  taken : s'.taken = s.taken

namespace Forwards

variable {i j : ℕ} {a : ForwardAction} {rest : List ForwardAction} {l' : ForwardingTask}
  {t : RemoraTransaction τ} (h : Forwards C s s' i a rest l')
include h

theorem waiting_iff : Waiting C B s' d ↔ Waiting C B s d := by
  simp only [Waiting, h.phase, h.taken]

theorem charged_eq (ha : a = fallback → ∀ t, C.transaction i = some t → d ≠ t.digest) :
    charged s' d = charged s d := by
  have hnone : (a.updates C i (s.forwarder.tasks i)).filter (fun u => d ∈ u.digests) = [] := by
    refine List.filter_eq_nil_iff.mpr fun u hu => ?_
    rcases digests_of_mem_updates hu with hu | ⟨hfallback, t, ht, hu, -⟩
    · simp [hu]
    · simpa [hu] using ha hfallback t ht
  rw [charged_append h.updates, hnone, List.map_nil, List.append_nil]

/-- The tasks and transactions that the action is not about. -/
theorem unchanged (hdigest : a = removePlan ∨ a = fallback → ∀ t, C.transaction i = some t →
    d ≠ t.digest) (hj : j = i → a ≠ removePlan ∧ a ≠ fallback) : Unchanged C B s s' j d := by
  have hmem : ∀ b, (j = i → b ≠ a) → (b ∈ (s'.forwarder.tasks j).todo ↔
      b ∈ (s.forwarder.tasks j).todo) := by
    intro b hb
    rcases eq_or_ne j i with rfl | hji
    · exact h.run.mem_todo_iff (hb rfl) j
    · rw [h.run.task_ne hji]
  refine ⟨hmem _ fun hji => (hj hji).1.symm, hmem _ fun hji => (hj hji).2.symm, ?_, ?_,
    h.charged_eq fun ha => hdigest (Or.inr ha), h.waiting_iff, fun p => by rw [h.phase]⟩
  · rcases eq_or_ne j i with rfl | hji
    · rw [h.run.task_self]
      exact h.run.frame.proxyId (hj rfl).1 (hj rfl).2
    · rw [h.run.task_ne hji]
  · by_cases ha : a = removePlan
    · subst ha
      obtain ⟨t, ht, hperform⟩ := Option.map_eq_some_iff.mp h.run.perform
      obtain ⟨hcontext, -⟩ := Prod.mk.inj hperform
      rw [← hcontext]
      exact update_of_ne (hdigest (Or.inl rfl) t ht) _ _
    · rw [(perform_shared h.run.perform).2 ha]

section Self

variable (hF : SharedObjTxnForwarder.Inv C s.forwarder) (ht : C.transaction i = some t)
  (hw : Working C B s) (hs : Standing C B s i t.digest)
include hF ht hs

include hw in
/-- A timely lookup. -/
theorem standing_removePlan (ha : a = removePlan)
    (htimely : (∃ k, InLargeClass B k t.digest) →
      s.forwarder.context.routingPlan t.digest ≠ none) : Standing C B s' i t.digest := by
  subst ha
  obtain ⟨t', ht', hperform⟩ := Option.map_eq_some_iff.mp h.run.perform
  obtain rfl := Option.some.inj (ht.symm.trans ht')
  obtain ⟨hcontext, hl'⟩ := Prod.mk.inj hperform
  have hremove : removePlan ∈ (s.forwarder.tasks i).todo := h.run.head_mem
  have hremove' : removePlan ∉ (s'.forwarder.tasks i).todo := h.run.notMem_self hF
  have hplan : s'.forwarder.context.routingPlan t.digest = none := by
    rw [← hcontext]
    exact update_self _ _ _
  have hproxy : (s'.forwarder.tasks i).proxyId = s.forwarder.context.routingPlan t.digest := by
    rw [h.run.task_self, ← hl']
  have hcharged : charged s' t.digest = charged s t.digest := h.charged_eq (by simp)
  have hrouted : ∀ p, Routed s i t.digest p → Routed s' i t.digest p := by
    rintro p (⟨-, hp⟩ | ⟨hnot, -⟩)
    · exact Or.inr ⟨hremove', hplan, hproxy.trans hp⟩
    · exact absurd hremove hnot
  refine ⟨fun hwait => ?_, fun p hp => ?_, fun hk hwait hp => ?_, fun hk => ?_⟩
  · obtain ⟨-, hnone, -⟩ := hs.waiting (h.waiting_iff.mp hwait)
    obtain ⟨k, -, hlarge⟩ := hw.planned_of_waiting (h.waiting_iff.mp hwait)
    exact absurd hnone (htimely ⟨k, hlarge⟩)
  · obtain ⟨hp, hnone⟩ := hs.pending p (h.phase ▸ hp)
    exact ⟨hrouted p hp, hcharged.trans hnone⟩
  · obtain ⟨p, hp, hone⟩ := hs.settled hk (mt h.waiting_iff.mpr hwait) (h.phase ▸ hp)
    exact ⟨p, hrouted p hp, hcharged.trans hone⟩
  · obtain ⟨hnone, hleft, -⟩ := hs.alone hk
    have hfallback : fallback ∈ (s.forwarder.tasks i).todo :=
      Program.mem_of_mem (staged_processForwardingTask C i).ordered (hF.suffix i)
        (fallback_mem_processForwardingTask C i) hremove (by decide)
    have hfallback' := (h.run.mem_todo_iff (b := fallback) (by simp) i).mpr hfallback
    exact ⟨hplan, fun _ => ⟨hproxy.trans hnone, hcharged.trans (hleft hfallback).2⟩,
      fun hdone => absurd hfallback' hdone⟩

theorem standing_fallback (ha : a = fallback) : Standing C B s' i t.digest := by
  subst ha
  have hremove : removePlan ∉ (s.forwarder.tasks i).todo := h.run.done_of_lt hF (by decide)
  have hremove' : removePlan ∉ (s'.forwarder.tasks i).todo := mt h.run.mem_of_mem hremove
  have hplan : s'.forwarder.context.routingPlan = s.forwarder.context.routingPlan :=
    (perform_shared h.run.perform).2 (by simp)
  have hperform := h.run.perform
  cases hproxy : (s.forwarder.tasks i).proxyId with
  | some p =>
    simp only [perform, hproxy] at hperform
    obtain ⟨-, hl'⟩ := Prod.mk.inj (Option.some.inj hperform)
    have hproxy' : (s'.forwarder.tasks i).proxyId = some p := by rw [h.run.task_self, ← hl', hproxy]
    have hcharged : charged s' t.digest = charged s t.digest := by
      simp [charged_append h.updates, ForwardAction.updates, hproxy]
    have hrouted : ∀ q, Routed s i t.digest q → Routed s' i t.digest q := by
      rintro q (⟨hmem, -⟩ | ⟨-, hnone, hq⟩)
      · exact absurd hmem hremove
      · exact Or.inr ⟨hremove', by rw [hplan, hnone], by rw [hproxy', ← hproxy, hq]⟩
    refine ⟨fun hwait => ?_, fun q hq => ?_, fun hk hwait hp => ?_, fun hk => ?_⟩
    · exact absurd (hs.waiting (h.waiting_iff.mp hwait)).1 hremove
    · obtain ⟨hq, hnone⟩ := hs.pending q (h.phase ▸ hq)
      exact ⟨hrouted q hq, hcharged.trans hnone⟩
    · obtain ⟨q, hq, hone⟩ := hs.settled hk (mt h.waiting_iff.mpr hwait) (h.phase ▸ hp)
      exact ⟨q, hrouted q hq, hcharged.trans hone⟩
    · have hnone := ((hs.alone hk).2.1 h.run.head_mem).1
      simp [hproxy] at hnone
  | none =>
    simp only [perform, hproxy] at hperform
    obtain ⟨t', ht', hperform⟩ := Option.bind_eq_some_iff.mp hperform
    obtain rfl := Option.some.inj (ht.symm.trans ht')
    obtain ⟨p, hp, hperform⟩ := Option.bind_eq_some_iff.mp hperform
    obtain ⟨-, hl'⟩ := Prod.mk.inj (Option.some.inj hperform)
    have hrouted : ∀ q, ¬Routed s i t.digest q := by
      rintro q (⟨hmem, -⟩ | ⟨-, -, hq⟩)
      · exact hremove hmem
      · simp [hproxy] at hq
    refine ⟨fun hwait => ?_, fun q hq => ?_, fun hk hwait hq => ?_, fun hk => ?_⟩
    · exact absurd (hs.waiting (h.waiting_iff.mp hwait)).1 hremove
    · exact absurd (hs.pending q (h.phase ▸ hq)).1 (hrouted q)
    · obtain ⟨q, hq, -⟩ := hs.settled hk (mt h.waiting_iff.mpr hwait) (h.phase ▸ hq)
      exact absurd hq (hrouted q)
    · obtain ⟨hnone, hleft, -⟩ := hs.alone hk
      refine ⟨by rw [hplan, hnone], fun hmem => absurd hmem (h.run.notMem_self hF), fun _ =>
        ⟨p, by rw [h.run.task_self, ← hl'], ?_⟩⟩
      simp [charged_append h.updates, ForwardAction.updates, hproxy, ht, hp,
        (hleft h.run.head_mem).2]

end Self

end Forwards

/-! ## Runs -/

/-- Where the scheduler, the forwarder and all transactions stand. -/
structure Inv (C : Primary τ) (B : Batches C) (s : State τ) : Prop where
  forwarder : SharedObjTxnForwarder.Inv C s.forwarder
  hints : SharedObjTxnForwarder.Hints C s.forwarder
  working : Working C B s
  standing : ∀ i t, C.transaction i = some t → Standing C B s i t.digest

/-- The forwarder's own invariants are not about the loads. -/
theorem idle_withLoads (forwarder : SharedObjTxnForwarder.State τ) (loads : ProxyId → ℕ) :
    SharedObjTxnForwarder.Idle C forwarder (withLoads forwarder loads) :=
  ⟨rfl, rfl, rfl, fun _ => rfl, fun _ => Or.inl rfl⟩

theorem Inv.withLoads (hI : Inv C B s) (loads : ProxyId → ℕ) :
    Inv C B { s with forwarder := SchedulerThread.withLoads s.forwarder loads } where
  forwarder := hI.forwarder.idle (idle_withLoads _ _) (Or.inl rfl)
  hints := hI.hints.idle (idle_withLoads _ _)
  working := ⟨hI.working.planned, hI.working.nodup, hI.working.suffixed⟩
  standing i t ht := (hI.standing i t ht).congr
    ⟨Iff.rfl, Iff.rfl, rfl, rfl, rfl, Iff.rfl, fun _ => Iff.rfl⟩

theorem Inv.init : Inv C B (State.init C) where
  forwarder := SharedObjTxnForwarder.Inv.init
  hints := SharedObjTxnForwarder.Hints.init
  working := ⟨by simp [State.init, Phase.digests], by simp [State.init, Phase.digests], trivial⟩
  standing i t _ := by
    have hremove : removePlan ∈ processForwardingTask C i := by simp [processForwardingTask]
    refine ⟨fun _ => ⟨hremove, rfl, rfl⟩, fun p hp => hp.elim, fun hlarge hwait => ?_,
      fun _ => ⟨rfl, fun _ => ⟨rfl, rfl⟩, fun hdone => ?_⟩⟩
    · obtain ⟨k, hk⟩ := hlarge
      exact absurd (Or.inl ⟨k, Nat.zero_le k, hk⟩) hwait
    · exact absurd (fallback_mem_processForwardingTask C i) hdone

section Distinct

variable (hd : StatelessTxnForwarder.DistinctDigests C)
include hd

theorem Inv.forward (hI : Inv C B s) {e : SharedObjTxnForwarder.Event}
    (htimely : Timely C B s (.forward e)) (he : ∀ d p, e ≠ .plan d p)
    {forwarder : SharedObjTxnForwarder.State τ}
    (h : SharedObjTxnForwarder.step C s.forwarder e = some forwarder) :
    Inv C B { s with
      forwarder := forwarder
      updates := s.updates ++ SharedObjTxnForwarder.updates C s.forwarder e } := by
  have hF := hI.forwarder
  refine ⟨hF.step h, hI.hints.step hF h,
    ⟨hI.working.planned, hI.working.nodup, hI.working.suffixed⟩, fun j t ht => ?_⟩
  have hs := hI.standing j t ht
  rcases SharedObjTxnForwarder.run_or_aside h with ⟨w, i, a, rest, l', rfl, hi, hrun⟩ |
    ⟨htasks, -, hplan, hdigests⟩
  · have hforwards : Forwards C s { s with
        forwarder := forwarder
        updates := s.updates ++ SharedObjTxnForwarder.updates C s.forwarder (.run w) }
        i a rest l' :=
      ⟨hrun, congrArg _ (SharedObjTxnForwarder.updates_run hi hrun), rfl, rfl⟩
    rcases eq_or_ne j i with rfl | hji
    · by_cases hremove : a = removePlan
      · refine hforwards.standing_removePlan hF ht hI.working hs hremove ?_
        exact htimely w j t rfl hi (by simp [hrun.todo, hremove]) ht
      by_cases hfallback : a = fallback
      · exact hforwards.standing_fallback hF ht hs hfallback
      · exact hs.congr (hforwards.unchanged (fun h => absurd h (by simp [hremove, hfallback]))
          fun _ => ⟨hremove, hfallback⟩)
    · refine hs.congr (hforwards.unchanged (fun _ t' ht' heq => hji ?_) fun h => absurd h hji)
      exact StatelessTxnForwarder.transaction_unique hd ht ht' heq
  · refine hs.congr ⟨by rw [htasks], by rw [htasks], by rw [htasks], by rw [hplan he], ?_, Iff.rfl,
      fun p => Iff.rfl⟩
    have hnone : (SharedObjTxnForwarder.updates C s.forwarder e).filter
        (fun u => t.digest ∈ u.digests) = [] :=
      List.filter_eq_nil_iff.mpr fun u hu => by simp [hdigests u hu]
    rw [charged_append rfl, hnone, List.map_nil, List.append_nil]

theorem Inv.step (hI : Inv C B s) {e : Event} (htimely : Timely C B s e)
    (h : step b L F C B s e = some s') : Inv C B s' := by
  cases e with
  | sealBatch =>
    simp only [SchedulerThread.step] at h
    split_ifs at h
    obtain rfl := Option.some.inj h
    refine ⟨hI.forwarder, hI.hints,
      ⟨hI.working.planned, hI.working.nodup, hI.working.suffixed⟩, fun i t ht => ?_⟩
    obtain ⟨hwaiting, hpending, hsettled, halone⟩ := hI.standing i t ht
    exact ⟨hwaiting, hpending, hsettled, halone⟩
  | forward e =>
    simp only [SchedulerThread.step] at h
    split_ifs at h with he
    obtain ⟨forwarder, hforward, rfl⟩ := Option.map_eq_some_iff.mp h
    obtain ⟨forwarder₁, loads, hstep, -, rfl⟩ := forward_eq_some hforward
    refine (hI.forward hd htimely ?_ hstep).withLoads loads
    rintro d p rfl
    simp [enabled] at he
  | schedule tie =>
    obtain ⟨hworking, hcases⟩ := schedule_cases hd hI.working h
    have hforwarder : SharedObjTxnForwarder.Inv C s'.forwarder ∧
        SharedObjTxnForwarder.Hints C s'.forwarder := by
      rcases hcases with hquiet | ⟨p, d, hinserts⟩ | ⟨a, hcharges⟩
      · exact hquiet.forwarder ▸ ⟨hI.forwarder, hI.hints⟩
      · exact ⟨hI.forwarder.step hinserts.forwarder,
          hI.hints.step hI.forwarder hinserts.forwarder⟩
      · obtain ⟨loads, heq⟩ := hcharges.forwarder
        rw [heq]
        exact ⟨(hI.withLoads loads).forwarder, (hI.withLoads loads).hints⟩
    refine ⟨hforwarder.1, hforwarder.2, hworking, fun i t ht => ?_⟩
    have hs := hI.standing i t ht
    rcases hcases with hquiet | ⟨p, d, hinserts⟩ | ⟨a, hcharges⟩
    · exact hs.quiet hquiet
    · exact hs.inserts hI.working hinserts
    · exact hs.charges hI.working hcharges

theorem inv_of_reachable (hs : (system b L F C B).ReachableVia (Timely C B) s) : Inv C B s :=
  hs.invariant (fun _ h => h ▸ Inv.init) fun _ _ _ _ hI htimely hstep => hI.step hd htimely hstep

/-! ## Loads -/

/-- The loads are the sums of what was added, in a `usize`, and what was added is the durations of
transactions, each counted once, or none of theirs. -/
structure LoadsAccounted (C : Primary τ) (s : State τ) : Prop where
  loads : ∀ p, s.forwarder.context.proxyLoads p = addedTo s.updates p % 2 ^ 64
  nodup : ∀ u ∈ s.updates, u.digests.Nodup
  weight : ∀ u ∈ s.updates, u.digests = [] ∨ u.weight = (durations (txMap C.txns) u.digests).sum

omit hd in
theorem LoadsAccounted.step {updates : List LoadUpdate} (hA : LoadsAccounted C s)
    (hupdates : s'.updates = s.updates ++ updates)
    (hloads : ∀ p, (s.forwarder.context.proxyLoads p < 2 ^ 64 →
        s'.forwarder.context.proxyLoads p < 2 ^ 64) ∧
      s'.forwarder.context.proxyLoads p % 2 ^ 64 =
        (s.forwarder.context.proxyLoads p + addedTo updates p) % 2 ^ 64)
    (hnew : ∀ u ∈ updates, u.digests.Nodup ∧
      (u.digests = [] ∨ u.weight = (durations (txMap C.txns) u.digests).sum)) :
    LoadsAccounted C s' := by
  refine ⟨fun p => ?_, fun u hu => ?_, fun u hu => ?_⟩
  · obtain ⟨hlt, hmod⟩ := hloads p
    have hmodulus : 0 < 2 ^ 64 := Nat.two_pow_pos 64
    rw [hA.loads] at hlt hmod
    rw [hupdates, addedTo_append, ← Nat.mod_add_mod, ← hmod,
      Nat.mod_eq_of_lt (hlt (Nat.mod_lt _ hmodulus))]
  · rw [hupdates, List.mem_append] at hu
    exact hu.elim (hA.nodup u) fun hu => (hnew u hu).1
  · rw [hupdates, List.mem_append] at hu
    exact hu.elim (hA.weight u) fun hu => (hnew u hu).2

theorem durations_batch {k : ℕ} {digests : List TransactionDigest}
    (h : ∀ d ∈ digests, InLargeClass B k d) :
    durations (txMap (B.transactions k)) digests = durations (txMap C.txns) digests := by
  refine congrArg _ (List.filterMap_congr fun d hmem => ?_)
  obtain ⟨i, hi, t, ht, rfl⟩ := (h d hmem).exists_place
  rw [txMap_of_distinct (nodup_transactions hd k) (List.mem_filterMap.mpr ⟨i, hi, ht⟩),
    txMap_of_distinct hd (List.mem_of_getElem? ht)]

theorem durations_transaction {i : ℕ} {t : RemoraTransaction τ}
    (ht : C.transaction i = some t) :
    (durations (txMap C.txns) [t.digest]).sum = t.expectedStatefulDuration := by
  obtain ⟨t₀, ht₀, -⟩ := StatelessTxnForwarder.exists_of_transaction ht
  obtain ⟨hdigest, hduration⟩ := transaction_fields ht ht₀
  rw [hdigest, hduration]
  simp [durations, txMap_of_distinct hd (List.mem_of_getElem? ht₀)]

theorem LoadsAccounted.charges (hA : LoadsAccounted C s) (hw : Working C B s) {a : Assignment}
    (hc : Charges C B s s' a (durations (txs C B s) a.digests).sum) : LoadsAccounted C s' := by
  refine hA.step hc.updates hc.loads fun u hu => ?_
  rw [List.mem_singleton.mp hu]
  refine ⟨hc.nodup, Or.inr (congrArg _ (durations_batch hd fun d hmem => ?_))⟩
  obtain ⟨k, hk, hplanned⟩ := hw.planned d (Phase.mem_digests_of_pending (hc.mem d hmem))
  rw [← hk, Nat.add_sub_cancel]
  exact hplanned.2

theorem accounted_of_reachable {ok : State τ → Event → Prop}
    (hs : (system b L F C B).ReachableVia ok s) : LoadsAccounted C s := by
  suffices Working C B s ∧ LoadsAccounted C s from this.2
  refine hs.invariant (I := fun s => Working C B s ∧ LoadsAccounted C s) ?_ ?_
  · rintro s rfl
    exact ⟨Inv.init.working, fun p => rfl, by simp [State.init], by simp [State.init]⟩
  rintro s e s' - ⟨hw, hA⟩ - hstep
  have hkept : ∀ {l : ProxyId → ℕ} (p : ProxyId), (l p < 2 ^ 64 → l p < 2 ^ 64) ∧
      l p % 2 ^ 64 = (l p + addedTo [] p) % 2 ^ 64 := fun p => ⟨id, rfl⟩
  cases e with
  | sealBatch =>
    simp only [system, SchedulerThread.step] at hstep
    split_ifs at hstep
    obtain rfl := Option.some.inj hstep
    exact ⟨⟨hw.planned, hw.nodup, hw.suffixed⟩, hA.loads, hA.nodup, hA.weight⟩
  | forward e =>
    simp only [system, SchedulerThread.step] at hstep
    split_ifs at hstep
    obtain ⟨forwarder, hforward, rfl⟩ := Option.map_eq_some_iff.mp hstep
    obtain ⟨forwarder₁, loads, hforwarder, hloads, rfl⟩ := forward_eq_some hforward
    refine ⟨⟨hw.planned, hw.nodup, hw.suffixed⟩, hA.step rfl (addLoads_eq_some hloads)
      fun u hu => ?_⟩
    rcases SharedObjTxnForwarder.digests_of_step hforwarder hu with hu | ⟨i, t, ht, hu, hweight⟩
    · exact ⟨by simp [hu], Or.inl hu⟩
    · exact ⟨by simp [hu], Or.inr (by rw [hweight, hu, durations_transaction hd ht])⟩
  | schedule tie =>
    obtain ⟨hw', hquiet | ⟨p, d, hinserts⟩ | ⟨a, hcharges⟩⟩ := schedule_cases hd hw hstep
    · have hnil : s'.updates = s.updates ++ [] := by rw [hquiet.updates, List.append_nil]
      exact ⟨hw', hA.step hnil (hquiet.forwarder ▸ hkept) (by simp)⟩
    · have hnil : s'.updates = s.updates ++ [] := by rw [hinserts.updates, List.append_nil]
      have hloads : s'.forwarder.context.proxyLoads = s.forwarder.context.proxyLoads := by
        rw [← Option.some.inj hinserts.forwarder]
      exact ⟨hw', hA.step hnil (hloads ▸ hkept) (by simp)⟩
    · exact ⟨hw', hA.charges hd hw hcharges⟩

end Distinct

/-! ## Settlement -/

/-- The scheduler is done with the batch. -/
def Scheduled (s : State τ) (k : ℕ) : Prop :=
  k < s.taken ∧ (k + 1 = s.taken → s.phase = .recv)

/-- The scheduler has nothing left to do for a batch it is done with. -/
theorem Scheduled.not_due {k : ℕ} (h : Scheduled s k)
    (hd : StatelessTxnForwarder.DistinctDigests C) (hw : Working C B s) (hk : Planned C B k d) :
    ¬Waiting C B s d ∧ ∀ p, ¬s.phase.Pending p d := by
  have hnot : d ∉ s.phase.digests := by
    intro hmem
    obtain ⟨k', hk', hplanned⟩ := hw.planned d hmem
    obtain rfl := planned_unique hd hplanned hk
    simp [h.2 hk', Phase.digests] at hmem
  refine ⟨?_, fun p hp => hnot (Phase.mem_digests_of_pending hp)⟩
  rintro (⟨k', hk', hplanned⟩ | hmem)
  · obtain rfl := planned_unique hd hplanned hk
    exact absurd h.1 (Nat.not_lt.mpr hk')
  · exact hnot (hw.unplanned_subset hmem)

/-- If the scheduler has nothing left to do for a transaction, and its task has done the lookup and
the fallback, no plan is left and one proxy is charged, the one of the task. -/
theorem Standing.done {i : ℕ} (h : Standing C B s i d)
    (hdue : ∀ k, Planned C B k d → ¬Waiting C B s d ∧ ∀ p, ¬s.phase.Pending p d)
    (hremove : removePlan ∉ (s.forwarder.tasks i).todo)
    (hfallback : fallback ∉ (s.forwarder.tasks i).todo) :
    s.forwarder.context.routingPlan d = none ∧
      ∃ p, (s.forwarder.tasks i).proxyId = some p ∧ charged s d = [p] := by
  by_cases hplanned : ∃ k, Planned C B k d
  · obtain ⟨k, hk⟩ := hplanned
    obtain ⟨hwaiting, hpending⟩ := hdue k hk
    obtain ⟨p, hrouted, hcharged⟩ := h.settled ⟨k, hk⟩ hwaiting hpending
    rcases hrouted with ⟨hremove', -⟩ | ⟨-, hplan, hproxy⟩
    · exact absurd hremove' hremove
    · exact ⟨hplan, p, hproxy, hcharged⟩
  · obtain ⟨hplan, -, hone⟩ := h.alone hplanned
    exact ⟨hplan, hone hfallback⟩

/-- No plan is left of the transaction, and its duration has been added to the load of one proxy,
once : the one it was sent to. -/
structure Settled (s : State τ) (i : ℕ) (d : TransactionDigest) : Prop where
  plan : s.forwarder.context.routingPlan d = none
  charged : ∃ p, SharedObjTxnForwarder.forwardedTo s.forwarder i = some p ∧ charged s d = [p]

/-- Whatever the scheduler and the forwarder do, if every lookup so far has been timely and a batch
has been both scheduled and forwarded, all of its transactions are settled. -/
theorem plan_and_load_settled (hd : StatelessTxnForwarder.DistinctDigests C)
    (hs : (system b L F C B).ReachableVia (Timely C B) s) {k : ℕ} (hscheduled : Scheduled s k)
    (hforwarded : ∀ i ∈ B.places k,
      (SharedObjTxnForwarder.forwardedTo s.forwarder i).isSome) :
    LoadsAccounted C s ∧
      ∀ i ∈ B.places k, ∀ t, C.txns[i]? = some t → Settled s i t.digest := by
  have hI := inv_of_reachable hd hs
  have hF := hI.forwarder
  refine ⟨accounted_of_reachable hd hs, fun i hi t₀ ht₀ => ?_⟩
  obtain ⟨p, hp⟩ := Option.isSome_iff_exists.mp (hforwarded i hi)
  obtain ⟨⟨q, message⟩, hsent, rfl⟩ := Option.map_eq_some_iff.mp hp
  obtain ⟨hdone, hproxy, t, ht, -⟩ := hI.hints.sent_eq_some hsent
  have hpast : ∀ {a : ForwardAction}, a.rank < sendTxn.rank →
      a ∉ (s.forwarder.tasks i).todo := fun hrank =>
    Program.done_of_done (staged_processForwardingTask C i).ordered (hF.suffix i)
      (sendTxn_mem_processForwardingTask C i) hdone hrank
  rw [← (transaction_fields ht ht₀).1]
  have hdue : ∀ k', Planned C B k' t.digest →
      ¬Waiting C B s t.digest ∧ ∀ p, ¬s.phase.Pending p t.digest := by
    intro k' hk'
    obtain ⟨j, hj, t', ht', heq⟩ := hk'.2.exists_place
    obtain rfl := StatelessTxnForwarder.index_unique hd ht₀ ht'
      ((transaction_fields ht ht₀).1.symm.trans heq.symm)
    obtain rfl := places_unique hi hj
    exact hscheduled.not_due hd hI.working hk'
  obtain ⟨hplan, p, hp', hcharged⟩ := (hI.standing i t ht).done hdue
    (hpast (a := removePlan) (by decide)) (hpast (a := fallback) (by decide))
  obtain rfl := Option.some.inj (hproxy.symm.trans hp')
  exact ⟨hplan, q, hp, hcharged⟩

/-! ## Two transactions with a common object -/

theorem nodup_pair : ([0, 1] : List ProxyId).Nodup :=
  List.nodup_range (n := 2)

/-- Both transactions are in one batch and take the same object. -/
def pairPrimary : Primary Unit where
  mode := .NoSeparation
  policy := .RSDS
  connections := [0, 1]
  numWorkers := 1
  bufferSize := 2
  txns := [.new () 10 [.sharedMoveObject (256 ^ 31)] 0 5,
    .new () 11 [.sharedMoveObject (256 ^ 31)] 0 7]
  nodup := nodup_pair

def pairBatch : Batches pairPrimary where
  batches := [[0, 1]]
  perm := by decide

theorem distinctDigests_pairPrimary : StatelessTxnForwarder.DistinctDigests pairPrimary := by
  simp [StatelessTxnForwarder.DistinctDigests, pairPrimary, RemoraTransaction.new]

/-- The worker takes a task and performs all of its actions. -/
def forwardNext (actions : ℕ) : List Event :=
  [.forward .sendTask, .forward (.recv 0)] ++ List.replicate actions (.forward (.run 0)) ++
    [.forward (.finish 0)]

def forwardPair : List Event :=
  forwardNext 9 ++ forwardNext 11

/-- All steps of the scheduler for the batch, in a build without debug assertions. -/
def schedulePair : List Event :=
  List.replicate 11 (.schedule 0)

/-- An executable condition that makes a step timely. -/
def FindsPlan (C : Primary τ) (s : State τ) : Event → Bool
  | .forward (.run w) => ((s.forwarder.pool.running w).bind fun i =>
      if (s.forwarder.tasks i).todo.head? = some removePlan then C.transaction i else none).all
        fun t => (s.forwarder.context.routingPlan t.digest).isSome
  | _ => true

theorem timely_of_findsPlan {e : Event} (h : FindsPlan C s e = true) : Timely C B s e := by
  rintro w i t rfl hi hhead ht -
  have hsome : (s.forwarder.context.routingPlan t.digest).isSome = true := by
    simpa [FindsPlan, hi, hhead, ht] using h
  exact Option.isSome_iff_ne_none.mp hsome

def Phase.isRecv : Phase → Bool
  | recv => true
  | _ => false

theorem Phase.eq_recv {phase : Phase} (h : phase.isRecv = true) : phase = recv := by
  cases phase with
  | recv => rfl
  | _ => cases h

/-- The scheduler takes the batch first, and adds up the loads after it. Both transactions are
settled. -/
theorem plan_and_load_settled_scheduled_first : ∃ s : State Unit,
    (system ⟨true, true⟩ collections ℚ pairPrimary pairBatch).ReachableVia
        (Timely pairPrimary pairBatch) s ∧
      LoadsAccounted pairPrimary s ∧ ∀ i ∈ pairBatch.places 0, ∀ t,
        pairPrimary.txns[i]? = some t → Settled s i t.digest := by
  have hview : (((system ⟨true, true⟩ collections ℚ pairPrimary pairBatch).runVia
      (fun s e => FindsPlan pairPrimary s e = true) (State.init pairPrimary)
      (.sealBatch :: schedulePair ++ List.replicate 6 (.schedule 0) ++ forwardPair)).map fun s =>
        (s.taken, s.phase.isRecv, (pairBatch.places 0).all fun i =>
          (SharedObjTxnForwarder.forwardedTo s.forwarder i).isSome)) = some (1, true, true) := by
    decide +kernel
  obtain ⟨s, hrun, hview⟩ := Option.map_eq_some_iff.mp hview
  simp only [Prod.mk.injEq, List.all_eq_true] at hview
  obtain ⟨htaken, hphase, hforwarded⟩ := hview
  have hs : (system ⟨true, true⟩ collections ℚ pairPrimary pairBatch).ReachableVia
      (Timely pairPrimary pairBatch) s :=
    (Transition.System.reachableVia_runVia (.init rfl) hrun).mono fun _ _ => timely_of_findsPlan
  have hscheduled : Scheduled s 0 :=
    ⟨by rw [htaken]; exact Nat.one_pos, fun _ => Phase.eq_recv hphase⟩
  exact ⟨s, hs, plan_and_load_settled distinctDigests_pairPrimary hs hscheduled hforwarded⟩

/-- Both transactions are forwarded before the scheduler takes the batch. The entry of the first
is left in the plan, and its duration is added twice. -/
theorem plan_left_and_charged_twice :
    StatelessTxnForwarder.DistinctDigests pairPrimary ∧ ∃ s : State Unit,
      (system ⟨false, false⟩ collections ℚ pairPrimary pairBatch).Reachable s ∧ Scheduled s 0 ∧
      (∀ i ∈ pairBatch.places 0, (SharedObjTxnForwarder.forwardedTo s.forwarder i).isSome) ∧
      s.forwarder.context.routingPlan 10 = some 0 ∧ charged s 10 = [0, 0] := by
  have hview : (((system ⟨false, false⟩ collections ℚ pairPrimary pairBatch).run
      (State.init pairPrimary) (.sealBatch :: forwardPair ++ schedulePair)).map fun s => (s.taken, s.phase.isRecv,
        (pairBatch.places 0).all (fun i =>
          (SharedObjTxnForwarder.forwardedTo s.forwarder i).isSome),
        s.forwarder.context.routingPlan 10, charged s 10)) =
      some (1, true, true, some 0, [0, 0]) := by
    decide +kernel
  obtain ⟨s, hrun, hview⟩ := Option.map_eq_some_iff.mp hview
  simp only [Prod.mk.injEq, List.all_eq_true] at hview
  obtain ⟨htaken, hphase, hforwarded, hplan, hcharged⟩ := hview
  exact ⟨distinctDigests_pairPrimary, s, Transition.System.reachable_run (.init rfl) hrun,
    ⟨by rw [htaken]; exact Nat.one_pos, fun _ => Phase.eq_recv hphase⟩, hforwarded, hplan, hcharged⟩

end SchedulerThread

end Remora
