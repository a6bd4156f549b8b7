import Remora.SharedObjTxnForwarder

/-!
# The order of a forwarding task

The actions of a forwarding task come in phases : handles, waits, deletions, the choice
of a proxy, the owners, the messages, notifications. A task is at every moment a suffix
of its program, and the part of it that concerns the dependency controller is a thread of
`taskProtocol`, so that the rendezvous of the workers works (`Inv`) : a task past its
waits has producers that have all notified, and therefore have sent their transactions.
-/

namespace Remora

open Function Rendezvous ForwardAction VersionedDependencyController

variable {τ : Type}

namespace ForwardAction

/-- The phase of an action. -/
def rank : ForwardAction → ℕ
  | dep (.get _) => 0
  | dep (.wait _) => 1
  | dep (.remove _) => 2
  | removePlan => 3
  | countState _ => 4
  | fallback => 5
  | getOwner _ | insertOwner _ | removeOwner _ => 6
  | readLoad _ => 7
  | pickStateless | removeStateless => 8
  | sendStateless => 9
  | sendTxn => 10
  | dep (.notify _) => 11

/-- The controller's part of an action. -/
def depOf : ForwardAction → Option (Action ObjectVersion)
  | dep a => some a
  | _ => none

end ForwardAction

/-! ## The program -/

section Program

open Program

variable (C : Primary τ) (i : ℕ)

theorem staged_fallbackActions (policy : PreConsensusSchedulingPolicy) (ks : List ObjectVersion) :
    Staged rank 4 6 (fallbackActions policy ks) := by
  have hfb : Staged rank 5 6 [fallback] := Staged.singleton fallback
  cases policy with
  | LSDS => exact (Staged.map countState ks fun _ => rfl).append hfb (by omega) (by omega)
  | RSDS => exact hfb.weaken (by omega) (by omega)

theorem staged_getMissingStates (ks : List ObjectVersion) :
    Staged rank 6 7 (getMissingStatesForTransaction ks) :=
  Staged.of_const fun a ha => by
    obtain ⟨k, -, ha⟩ := List.mem_flatMap.mp ha
    simp only [List.mem_cons, List.not_mem_nil, or_false] at ha
    obtain rfl | rfl | rfl := ha <;> rfl

theorem staged_sendActions : Staged rank 7 11 (sendActions C) := by
  have hsend : Staged rank 10 11 [sendTxn] := Staged.singleton sendTxn
  unfold sendActions
  cases C.mode with
  | NoSeparation => exact hsend.weaken (by omega) (by omega)
  | ProxySeparation => exact hsend.weaken (by omega) (by omega)
  | PrimaryPreSeparation =>
    have hlookup : Staged rank 8 9 [removeStateless] := Staged.singleton removeStateless
    have hlookup : Staged rank 7 10 [removeStateless] := hlookup.weaken (by omega) (by omega)
    exact hlookup.append hsend (by omega) (by omega)
  | PrimaryPostSeparation =>
    have hload : Staged rank 7 8 (C.connections.map readLoad) :=
      Staged.map readLoad _ fun _ => rfl
    have hpick : Staged rank 8 9 [pickStateless] := Staged.singleton pickStateless
    have hstateless : Staged rank 9 10 [sendStateless] := Staged.singleton sendStateless
    exact (hload.append hpick (by omega) (by omega)).append
      (hstateless.append hsend (by omega) (by omega)) (by omega) (by omega)

theorem nodup_sendActions : (sendActions C).Nodup := by
  unfold sendActions
  cases C.mode with
  | NoSeparation => simp
  | ProxySeparation => simp
  | PrimaryPreSeparation => simp
  | PrimaryPostSeparation =>
    have : (C.connections.map readLoad).Nodup := C.nodup.map fun a b h => readLoad.inj h
    simp [pickStatelessProxy, List.nodup_append, this]

theorem nodup_getMissingStates {ks : List ObjectVersion} (h : ks.Nodup) :
    (getMissingStatesForTransaction ks).Nodup := by
  unfold getMissingStatesForTransaction
  rw [List.nodup_flatMap]
  refine ⟨fun k _ => by simp, h.imp fun {a b} hab x ha hb => hab ?_⟩
  simp only [List.mem_cons, List.not_mem_nil, or_false] at ha hb
  obtain rfl | rfl | rfl := ha <;> simpa using hb

/-- The program without the notifications, in two halves. -/
theorem staged_waitActions (ks : List ObjectVersion)
    (h2 : ∀ k ∈ ks, initialVersion ≤ k.2) :
    Staged rank 0 3 ((handlesOf ks).actions.map dep ++ (handlesOf ks).prior.map (dep ∘ .wait) ++
      (removeDependency ks).map dep) := by
  have hget : Staged rank 0 1 ((handlesOf ks).actions.map dep) := by
    refine Staged.of_const fun a ha => ?_
    obtain ⟨b, hb, rfl⟩ := List.mem_map.mp ha
    obtain ⟨k, -, ⟨-, rfl⟩ | rfl⟩ := (mem_handlesOf_actions h2).mp hb <;> rfl
  have hwait : Staged rank 1 2 ((handlesOf ks).prior.map (dep ∘ .wait)) :=
    Staged.map (dep ∘ .wait) _ fun _ => rfl
  have hremove : Staged rank 2 3 ((removeDependency ks).map dep) := by
    rw [removeDependency, List.map_map]
    exact Staged.map (dep ∘ .remove) ks fun _ => rfl
  exact (hget.append hwait (by omega) (by omega)).append hremove (by omega) (by omega)

theorem filterMap_depOf_processForwardingTask :
    (processForwardingTask C i).filterMap depOf = dependencyProgram (required C.txns i) := by
  have hdep : ∀ l : List (Action ObjectVersion), (l.map dep).filterMap depOf = l := by
    intro l
    rw [List.filterMap_map]
    exact List.filterMap_some
  have hfb : ∀ policy ks, (fallbackActions policy ks).filterMap depOf = [] := by
    intro policy ks
    cases policy <;> simp [fallbackActions, depOf]
  have hms : ∀ ks, (getMissingStatesForTransaction ks).filterMap depOf = [] := by
    intro ks
    simp only [getMissingStatesForTransaction, List.filterMap_eq_nil_iff, List.mem_flatMap,
      List.mem_cons, List.not_mem_nil, or_false]
    rintro a ⟨k, -, rfl | rfl | rfl⟩ <;> rfl
  have hsa : (sendActions C).filterMap depOf = [] := by
    unfold sendActions
    cases C.mode <;> simp [pickStatelessProxy, depOf]
  simp only [processForwardingTask, List.filterMap_append, ← List.map_map, hdep, hfb, hms, hsa,
    dependencyProgram]
  simp [depOf]

theorem nodup_waitActions {ks : List ObjectVersion} (h2 : ∀ k ∈ ks, initialVersion ≤ k.2)
    (hn : (ks.map Prod.fst).Nodup) :
    ((handlesOf ks).actions.map dep ++ (handlesOf ks).prior.map (dep ∘ .wait) ++
      (removeDependency ks).map dep).Nodup := by
  have h := nodup_dependencyProgram h2 hn
  rw [dependencyProgram, List.nodup_append] at h
  have := h.1.map (f := dep) fun a b hab => dep.inj hab
  simpa [List.map_append, List.map_map] using this

theorem staged_processForwardingTask : Staged rank 0 12 (processForwardingTask C i) := by
  have h3 : Staged rank 3 4 [removePlan] := Staged.singleton removePlan
  have hnext : Staged rank 11 12 ((handlesOf (required C.txns i)).next.map (dep ∘ .notify)) :=
    Staged.map (dep ∘ .notify) _ fun _ => rfl
  exact (((((staged_waitActions _ (initialVersion_le_of_mem C.txns i)).append h3 (by omega)
    (by omega)).append (staged_fallbackActions _ _) (by omega) (by omega)).append
    (staged_getMissingStates _) (by omega) (by omega)).append (staged_sendActions C) (by omega)
    (by omega)).append hnext (by omega) (by omega)

theorem nodup_fallbackActions (policy : PreConsensusSchedulingPolicy) {ks : List ObjectVersion}
    (h : ks.Nodup) : (fallbackActions policy ks).Nodup := by
  cases policy with
  | LSDS =>
    have hcount : Staged rank 4 5 (ks.map countState) := Staged.map countState ks fun _ => rfl
    exact hcount.nodup_append (Staged.singleton fallback)
      (h.map fun a b hab => countState.inj hab) (List.nodup_singleton _)
  | RSDS => simp [fallbackActions]

theorem nodup_processForwardingTask : (processForwardingTask C i).Nodup := by
  have h2 := initialVersion_le_of_mem C.txns i
  have hn : ((required C.txns i).map Prod.fst).Nodup := by
    rw [map_fst_required]
    exact nodup_accessed i
  have h3 : Staged rank 3 4 [removePlan] := Staged.singleton removePlan
  have hnext : Staged rank 11 12 ((handlesOf (required C.txns i)).next.map (dep ∘ .notify)) :=
    Staged.map (dep ∘ .notify) _ fun _ => rfl
  have s4 := (staged_waitActions _ h2).append h3 (by omega) (by omega)
  have s6 := s4.append (staged_fallbackActions C.policy (required C.txns i)) (by omega) (by omega)
  have s7 := s6.append (staged_getMissingStates (required C.txns i)) (by omega) (by omega)
  have s11 := s7.append (staged_sendActions C) (by omega) (by omega)
  have n4 := (staged_waitActions _ h2).nodup_append h3 (nodup_waitActions h2 hn)
    (List.nodup_singleton _)
  have hks : (required C.txns i).Nodup := nodup_required i
  have n6 := s4.nodup_append (staged_fallbackActions C.policy _) n4 (nodup_fallbackActions _ hks)
  have n7 := s6.nodup_append (staged_getMissingStates _) n6 (nodup_getMissingStates hks)
  have n11 := s7.nodup_append (staged_sendActions C) n7 (nodup_sendActions C)
  refine s11.nodup_append hnext n11 ?_
  rw [handlesOf_next h2, List.map_map]
  refine (nodup_required i).map_on fun a ha b hb hab => ?_
  have hab : a.1 = b.1 := by simpa using hab
  exact List.inj_on_of_nodup_map hn ha hb hab

/-! What a program contains. -/

theorem dep_mem_processForwardingTask {a : Action ObjectVersion} :
    dep a ∈ processForwardingTask C i ↔ a ∈ dependencyProgram (required C.txns i) := by
  rw [← filterMap_depOf_processForwardingTask, List.mem_filterMap]
  constructor
  · exact fun h => ⟨_, h, rfl⟩
  · rintro ⟨b, hb, hab⟩
    cases b <;> simp_all [depOf]

theorem sendTxn_mem_sendActions : sendTxn ∈ sendActions C := by
  unfold sendActions
  cases C.mode <;> simp

theorem sendTxn_mem_processForwardingTask : sendTxn ∈ processForwardingTask C i := by
  simp [processForwardingTask, sendTxn_mem_sendActions C]

theorem fallback_mem_processForwardingTask : fallback ∈ processForwardingTask C i := by
  have : fallback ∈ fallbackActions C.policy (required C.txns i) := by
    cases C.policy <;> simp [fallbackActions]
  simp [processForwardingTask, this]

/-- The actions that find a stateless proxy depend on the mode. -/
theorem mode_of_mem_processForwardingTask {a : ForwardAction}
    (ha : a = pickStateless ∨ a = sendStateless) (h : a ∈ processForwardingTask C i) :
    C.mode = .PrimaryPostSeparation := by
  have hfb : a ∉ fallbackActions C.policy (required C.txns i) := by
    rcases ha with rfl | rfl <;> cases C.policy <;> simp [fallbackActions]
  have hsend : a ∈ sendActions C := by
    rcases ha with rfl | rfl <;>
      simpa [processForwardingTask, getMissingStatesForTransaction, hfb] using h
  unfold sendActions at hsend
  cases hmode : C.mode with
  | PrimaryPostSeparation => rfl
  | _ => rcases ha with rfl | rfl <;> simp [hmode] at hsend

/-- An action of the owners' phase belongs to the loop over the required versions. -/
theorem mem_processForwardingTask_of_rank {a : ForwardAction} (ha : a.rank = 6) :
    a ∈ processForwardingTask C i ↔
      a ∈ getMissingStatesForTransaction (required C.txns i) := by
  have h2 := initialVersion_le_of_mem C.txns i
  have h3 : Staged rank 3 4 [removePlan] := Staged.singleton removePlan
  have hnext : Staged rank 11 12 ((handlesOf (required C.txns i)).next.map (dep ∘ .notify)) :=
    Staged.map (dep ∘ .notify) _ fun _ => rfl
  have s6 := ((staged_waitActions _ h2).append h3 (by omega) (by omega)).append
    (staged_fallbackActions C.policy (required C.txns i)) (by omega) (by omega)
  constructor
  · intro h
    rcases List.mem_append.mp h with h | h
    · rcases List.mem_append.mp h with h | h
      · rcases List.mem_append.mp h with h | h
        · have := s6.lt a h
          omega
        · exact h
      · have := (staged_sendActions C).le a h
        omega
    · have := hnext.le a h
      omega
  · intro h
    simp [processForwardingTask, h]

theorem getOwner_mem_processForwardingTask {k : ObjectVersion} :
    getOwner k ∈ processForwardingTask C i ↔ k ∈ required C.txns i := by
  rw [mem_processForwardingTask_of_rank C i rfl]
  simp [getMissingStatesForTransaction]

theorem insertOwner_mem_processForwardingTask {k : ObjectVersion} :
    insertOwner k ∈ processForwardingTask C i ↔ k ∈ required C.txns i := by
  rw [mem_processForwardingTask_of_rank C i rfl]
  simp [getMissingStatesForTransaction]

theorem removeOwner_mem_processForwardingTask {k : ObjectVersion} :
    removeOwner k ∈ processForwardingTask C i ↔ k ∈ required C.txns i := by
  rw [mem_processForwardingTask_of_rank C i rfl]
  simp [getMissingStatesForTransaction]

/-- An owner is read before it is deleted. -/
theorem before_removeOwner (k : ObjectVersion) :
    Before (processForwardingTask C i) (getOwner k) (removeOwner k) := by
  have hbody : Before [getOwner k, insertOwner k, removeOwner k] (getOwner k) (removeOwner k) := by
    intro todo hs hm
    rcases List.suffix_cons_iff.mp hs with rfl | hs
    · simp
    · exact absurd (hs.subset hm) (by simp)
  have hloop : Before (getMissingStatesForTransaction (required C.txns i)) (getOwner k)
      (removeOwner k) :=
    Before.flatMap (f := fun k => [getOwner k, insertOwner k, removeOwner k]) hbody
      (fun k' hne => by simpa using hne.symm) _
  have hnext : getOwner k ∉ (handlesOf (required C.txns i)).next.map (dep ∘ .notify) := by simp
  have hsend : getOwner k ∉ sendActions C := fun h => by
    have : 7 ≤ (getOwner k).rank := (staged_sendActions C).le _ h
    simp [rank] at this
  refine ((hloop.append_right ?_).append_left hsend).append_left hnext
  intro h
  have s6 := ((staged_waitActions _ (initialVersion_le_of_mem C.txns i)).append
    (Staged.singleton removePlan) (by decide) (by decide)).append
    (staged_fallbackActions C.policy (required C.txns i)) (by decide) (by decide)
  exact absurd (s6.lt _ h) (by simp [rank])

end Program

/-! ## What an action leaves alone -/

/-- Each map and each variable changes only by the actions that are about it. -/
structure Frame (a : ForwardAction) (X X' : ForwardingContext τ) (l l' : ForwardingTask) :
    Prop where
  dep : a.depOf = none →
    X'.dependencyController = X.dependencyController ∧ l'.held = l.held
  proxyId : a ≠ removePlan → a ≠ fallback → l'.proxyId = l.proxyId
  requiredStates : (∀ k, a ≠ getOwner k) → l'.requiredStates = l.requiredStates
  statelessProxyId : a ≠ pickStateless → a ≠ removeStateless →
    l'.statelessProxyId = l.statelessProxyId
  statesToProxy : (∀ k, a ≠ insertOwner k) → (∀ k, a ≠ removeOwner k) →
    X'.statesToProxy = X.statesToProxy
  table : a ≠ removeStateless → X'.statelessForwardingTable = X.statelessForwardingTable
  sentStateful : a ≠ sendTxn → ∀ j, X'.sent (.stateful j) = X.sent (.stateful j)
  sentStateless : a ≠ sendStateless → ∀ j, X'.sent (.stateless j) = X.sent (.stateless j)

section Frame

variable {C : Primary τ} {i : ℕ} {X X' : ForwardingContext τ} {l l' : ForwardingTask}
  {a : ForwardAction}

theorem Frame.refl (a : ForwardAction) (X : ForwardingContext τ) (l : ForwardingTask) :
    Frame a X X l l := by
  constructor <;> simp

theorem perform_frame (h : a.perform C i X l = some (X', l')) : Frame a X X' l l' := by
  cases a with
  | dep b =>
    obtain ⟨⟨T, held⟩, -, h⟩ := Option.map_eq_some_iff.mp h
    obtain ⟨rfl, rfl⟩ := Prod.mk.inj h
    constructor <;> simp [depOf]
  | removePlan =>
    obtain ⟨t, -, h⟩ := Option.map_eq_some_iff.mp h
    obtain ⟨rfl, rfl⟩ := Prod.mk.inj h
    constructor <;> simp
  | countState k =>
    simp only [perform] at h
    split at h
    · split_ifs at h <;> obtain ⟨rfl, rfl⟩ := Prod.mk.inj (Option.some.inj h)
      · constructor <;> simp
      · exact Frame.refl _ _ _
    · obtain ⟨rfl, rfl⟩ := Prod.mk.inj (Option.some.inj h)
      exact Frame.refl _ _ _
  | fallback =>
    simp only [perform] at h
    split at h
    · obtain ⟨rfl, rfl⟩ := Prod.mk.inj (Option.some.inj h)
      exact Frame.refl _ _ _
    · obtain ⟨t, -, h⟩ := Option.bind_eq_some_iff.mp h
      obtain ⟨p, -, h⟩ := Option.bind_eq_some_iff.mp h
      obtain ⟨rfl, rfl⟩ := Prod.mk.inj (Option.some.inj h)
      constructor <;> simp
  | getOwner k =>
    obtain ⟨p, -, h⟩ := Option.map_eq_some_iff.mp h
    obtain ⟨rfl, rfl⟩ := Prod.mk.inj h
    constructor <;> simp
  | insertOwner k =>
    obtain ⟨p, -, h⟩ := Option.map_eq_some_iff.mp h
    obtain ⟨rfl, rfl⟩ := Prod.mk.inj h
    constructor <;> simp
  | removeOwner k =>
    obtain ⟨rfl, rfl⟩ := Prod.mk.inj (Option.some.inj h)
    constructor <;> simp
  | readLoad p =>
    obtain ⟨rfl, rfl⟩ := Prod.mk.inj (Option.some.inj h)
    constructor <;> simp
  | pickStateless =>
    obtain ⟨t, -, h⟩ := Option.map_eq_some_iff.mp h
    obtain ⟨rfl, rfl⟩ := Prod.mk.inj h
    constructor <;> simp
  | sendStateless =>
    obtain ⟨t, -, h⟩ := Option.map_eq_some_iff.mp h
    obtain ⟨rfl, rfl⟩ := Prod.mk.inj h
    constructor <;> simp
  | removeStateless =>
    obtain ⟨t, -, h⟩ := Option.map_eq_some_iff.mp h
    obtain ⟨rfl, rfl⟩ := Prod.mk.inj h
    constructor <;> simp
  | sendTxn =>
    obtain ⟨t, -, h⟩ := Option.bind_eq_some_iff.mp h
    obtain ⟨p, -, h⟩ := Option.bind_eq_some_iff.mp h
    obtain ⟨rfl, rfl⟩ := Prod.mk.inj (Option.some.inj h)
    constructor <;> simp

end Frame

/-! ## Steps -/

namespace SharedObjTxnForwarder

variable {C : Primary τ} {s s' : State τ} {e : Event}

theorem runTask_eq_some {i : ℕ} (h : runTask C s i = some s') :
    ∃ a rest l', (s.tasks i).todo = a :: rest ∧
      a.perform C i s.context (s.tasks i) = some (s'.context, l') ∧
      s'.tasks = update s.tasks i { l' with todo := rest } ∧ s'.pool = s.pool := by
  unfold runTask at h
  split at h
  · simp at h
  · rename_i a rest ht
    obtain ⟨⟨X, l'⟩, hp, rfl⟩ := Option.map_eq_some_iff.mp h
    exact ⟨a, rest, l', ht, hp, rfl, rfl⟩

/-- A step that is not an action of a task leaves the tasks, the controller, the owners
and the transactions sent as they are, and sends only what the stateless forwarder does. -/
structure Idle (C : Primary τ) (s s' : State τ) : Prop where
  tasks : s'.tasks = s.tasks
  dependencyController : s'.context.dependencyController = s.context.dependencyController
  statesToProxy : s'.context.statesToProxy = s.context.statesToProxy
  sent : ∀ j, s'.context.sent (.stateful j) = s.context.sent (.stateful j)
  sentStateless : ∀ n, s'.context.sent (.stateless n) = s.context.sent (.stateless n) ∨
    (C.mode = .PrimaryPreSeparation ∧
      ∃ p r, s'.context.sent (.stateless n) = some (p, .statelessTxn r))

/-- What such a step does to the pool. -/
def PoolStep (C : Primary τ) (s s' : State τ) : Prop :=
  s'.pool = s.pool ∨
  (s.pool.sent < C.txns.length ∧ s.pool.sendTask C.numWorkers C.bufferSize = some s'.pool) ∨
  (∃ w, s.pool.recv C.numWorkers w = some s'.pool) ∨
  ∃ w i, s.pool.running w = some i ∧ (s.tasks i).todo = [] ∧ s.pool.finish w = some s'.pool

/-- A step is an action of a running task, or idle. -/
theorem step_cases (h : step C s e = some s') :
    (∃ w i, e = .run w ∧ s.pool.running w = some i ∧ runTask C s i = some s') ∨
      (Idle C s s' ∧ PoolStep C s s') := by
  cases e with
  | sendTask =>
    simp only [step] at h
    split_ifs at h with hlt
    obtain ⟨pool, hp, rfl⟩ := Option.map_eq_some_iff.mp h
    exact Or.inr ⟨⟨rfl, rfl, rfl, fun _ => rfl, fun _ => Or.inl rfl⟩, Or.inr (Or.inl ⟨hlt, hp⟩)⟩
  | recv w =>
    obtain ⟨pool, hp, rfl⟩ := Option.map_eq_some_iff.mp h
    exact Or.inr
      ⟨⟨rfl, rfl, rfl, fun _ => rfl, fun _ => Or.inl rfl⟩, Or.inr (Or.inr (Or.inl ⟨w, hp⟩))⟩
  | run w =>
    obtain ⟨i, hi, hr⟩ := Option.bind_eq_some_iff.mp h
    exact Or.inl ⟨w, i, rfl, hi, hr⟩
  | finish w =>
    obtain ⟨i, hi, hr⟩ := Option.bind_eq_some_iff.mp h
    split_ifs at hr with ht
    obtain ⟨pool, hp, rfl⟩ := Option.map_eq_some_iff.mp hr
    exact Or.inr ⟨⟨rfl, rfl, rfl, fun _ => rfl, fun _ => Or.inl rfl⟩,
      Or.inr (Or.inr (Or.inr ⟨w, i, hi, List.isEmpty_iff.mp ht, hp⟩))⟩
  | plan d p =>
    obtain rfl := Option.some.inj h
    exact Or.inr ⟨⟨rfl, rfl, rfl, fun _ => rfl, fun _ => Or.inl rfl⟩, Or.inl rfl⟩
  | load p weight =>
    obtain rfl := Option.some.inj h
    exact Or.inr ⟨⟨rfl, rfl, rfl, fun _ => rfl, fun _ => Or.inl rfl⟩, Or.inl rfl⟩
  | sendStateless n p request =>
    simp only [step] at h
    split_ifs at h with hmode
    obtain rfl := Option.some.inj h
    refine Or.inr ⟨⟨rfl, rfl, rfl, fun j => by simp, fun m => ?_⟩, Or.inl rfl⟩
    rcases eq_or_ne m n with rfl | hmn
    · exact Or.inr ⟨hmode.1, p, request, by simp⟩
    · exact Or.inl (by simp [hmn])
  | insertStateless d p =>
    obtain rfl := Option.some.inj h
    exact Or.inr ⟨⟨rfl, rfl, rfl, fun _ => rfl, fun _ => Or.inl rfl⟩, Or.inl rfl⟩

/-! ## The invariant of the pool and the controller -/

/-- A task as a thread of the rendezvous. -/
def agents (s : State τ) (i : ℕ) : Agent ObjectVersion :=
  ⟨(s.tasks i).held, (s.tasks i).todo.filterMap depOf⟩

structure Inv (C : Primary τ) (s : State τ) : Prop where
  pool : s.pool.Inv C.numWorkers
  sent_le : s.pool.sent ≤ C.txns.length
  suffix : ∀ i, (s.tasks i).todo <:+ processForwardingTask C i
  returned : ∀ i, s.pool.returned i = true → (s.tasks i).todo = []
  deps : (taskProtocol C.txns).Inv (agents s) s.context.dependencyController

theorem Inv.init : Inv C (State.init C) where
  pool := WorkerPool.Inv.empty
  sent_le := Nat.zero_le _
  suffix i := List.suffix_rfl
  returned i h := by simp [State.init, WorkerPool.empty] at h
  deps := Protocol.Inv.init fun i => by
    simp [agents, State.init, ForwardingTask.new, taskProtocol,
      filterMap_depOf_processForwardingTask]

/-- The agents after an action of task `i`. -/
theorem agents_update {i : ℕ} {rest : List ForwardAction}
    {l' : ForwardingTask} (ht : s'.tasks = update s.tasks i { l' with todo := rest }) :
    agents s' = Protocol.after (agents s) i l'.held (rest.filterMap depOf) := by
  funext j
  rcases eq_or_ne j i with rfl | hj
  · simp [agents, Protocol.after, ht]
  · simp [agents, Protocol.after, ht, hj]

theorem Inv.run {i : ℕ} (hI : Inv C s) (hrun : ∃ w, s.pool.running w = some i)
    (h : runTask C s i = some s') : Inv C s' := by
  obtain ⟨a, rest, l', ht, hp, htasks, hpool⟩ := runTask_eq_some h
  refine ⟨hpool ▸ hI.pool, hpool ▸ hI.sent_le, fun j => ?_, fun j hj => ?_, ?_⟩
  · rcases eq_or_ne j i with rfl | hji
    · simpa [htasks] using Program.suffix_of_cons (ht ▸ hI.suffix j)
    · simpa [htasks, hji] using hI.suffix j
  · obtain ⟨w, hw⟩ := hrun
    have hji : j ≠ i := by
      rintro rfl
      simp [hpool, (hI.pool.of_running hw).2.2] at hj
    simpa [htasks, hji] using hI.returned j (hpool ▸ hj)
  · have hA := agents_update htasks
    cases hd : a.depOf with
    | some b =>
      obtain rfl : a = .dep b := by cases a <;> simp_all [depOf]
      obtain ⟨⟨T, held⟩, hb, hX⟩ := Option.map_eq_some_iff.mp hp
      obtain ⟨hctx, rfl⟩ := Prod.mk.inj hX
      rw [hA, ← hctx]
      exact hI.deps.step (by simp [agents, ht, depOf]) hb
    | none =>
      obtain ⟨hT, hheld⟩ := (perform_frame hp).dep hd
      have : agents s' = agents s := by
        rw [hA]
        funext j
        rcases eq_or_ne j i with rfl | hj
        · simp [agents, Protocol.after, ht, hd, hheld]
        · simp [Protocol.after, hj]
      rw [this, hT]
      exact hI.deps

theorem Inv.idle (hI : Inv C s) (hidle : Idle C s s') (hpool : PoolStep C s s') : Inv C s' := by
  have hdeps : (taskProtocol C.txns).Inv (agents s') s'.context.dependencyController := by
    have : agents s' = agents s := by
      funext j
      simp [agents, hidle.tasks]
    rw [this, hidle.dependencyController]
    exact hI.deps
  have hsuffix : ∀ i, (s'.tasks i).todo <:+ processForwardingTask C i := by
    rw [hidle.tasks]
    exact hI.suffix
  rcases hpool with hp | ⟨hlt, hp⟩ | ⟨w, hp⟩ | ⟨w, i, hi, ht, hp⟩
  · exact ⟨hp ▸ hI.pool, hp ▸ hI.sent_le, hsuffix, by rw [hp, hidle.tasks]; exact hI.returned,
      hdeps⟩
  · have hsent := WorkerPool.sendTask_eq_some hp
    exact ⟨hI.pool.sendTask hp, by rw [hsent.1]; exact hlt, hsuffix,
      by rw [hsent.2, hidle.tasks]; exact hI.returned, hdeps⟩
  · have hrecv := WorkerPool.recv_eq_some hp
    exact ⟨hI.pool.recv hp, by rw [hrecv.1]; exact hI.sent_le, hsuffix,
      by rw [hrecv.2, hidle.tasks]; exact hI.returned, hdeps⟩
  · have hfin := WorkerPool.finish_eq_some hp hi
    refine ⟨hI.pool.finish hp, by rw [hfin.1]; exact hI.sent_le, hsuffix, ?_, hdeps⟩
    rw [hfin.2, hidle.tasks]
    intro j hj
    rcases eq_or_ne j i with rfl | hji
    · exact ht
    · exact hI.returned j (by simpa [hji] using hj)

theorem Inv.step (hI : Inv C s) (h : step C s e = some s') : Inv C s' := by
  rcases step_cases h with ⟨w, i, -, hw, hr⟩ | ⟨hidle, hpool⟩
  · exact hI.run ⟨w, hw⟩ hr
  · exact hI.idle hidle hpool

theorem inv_of_reachable (h : (system C).Reachable s) : Inv C s :=
  h.invariant (fun _ h => h ▸ Inv.init) fun _ _ _ _ hI hs => hI.step hs

end SharedObjTxnForwarder

end Remora
