import Remora.Transition
import Remora.DependencyController

/-!
# The tasks at one controller

Each transaction of a consensus sequence has a task that performs `dependencyProgram` on the
versions it requires, and the tasks take their actions in any order. `log` records what has
been done, oldest first, with the handle that an action is about.

`Logged` says what the log is : every task has done what it has not left to do, each action
once, with the handle it holds. What the rendezvous says of handles held then holds of handles
obtained at any time, and what it says of every state holds at the moment of each action.
-/

namespace Remora

open Function Rendezvous

variable {τ : Type}

namespace VersionedDependencyController

/-- A task, what it did, and the handle it did it with. -/
abbrev LogEntry := ℕ × Action ObjectVersion × Option ℕ

structure State where
  agents : ℕ → Agent ObjectVersion
  table : Table ObjectVersion
  log : List LogEntry

/-- The task `j` obtained `h` as the handle of `k`. -/
def State.Obtained (s : State) (j : ℕ) (k : ObjectVersion) (h : ℕ) : Prop :=
  (j, Action.get k, some h) ∈ s.log

/-- An entry is a notification of the handle `h`. -/
def notifies (h : ℕ) : LogEntry → Bool
  | (_, .notify _, some h') => h' = h
  | _ => false

variable (txns : List (RemoraTransaction τ))

/-- No task has started. -/
def State.init : State :=
  ⟨fun j => ⟨fun _ => none, dependencyProgram (required txns j)⟩, Table.empty, []⟩

/-- The task `j` takes its next action. -/
def step (s : State) (j : ℕ) : Option State :=
  match (s.agents j).todo with
  | [] => none
  | a :: rest => (a.perform s.table (s.agents j).held).map fun (T, held) =>
      ⟨update s.agents j ⟨held, rest⟩, T, s.log ++ [(j, a, held a.key)]⟩

/-- Every interleaving of the tasks. -/
def system : Transition.System State ℕ where
  init s := s = State.init txns
  step := step

variable {txns} {s s' : State}

/-- The task `j` takes its action `a`, and holds `held` then. -/
structure TaskStep (s s' : State) (j : ℕ) (a : Action ObjectVersion)
    (rest : List (Action ObjectVersion)) (held : ObjectVersion → Option ℕ) : Prop where
  todo : (s.agents j).todo = a :: rest
  perform : a.perform s.table (s.agents j).held = some (s'.table, held)
  agents : s'.agents = Protocol.after s.agents j held rest
  log : s'.log = s.log ++ [(j, a, held a.key)]

theorem taskStep_of_step {j : ℕ} (h : step s j = some s') :
    ∃ a rest held, TaskStep s s' j a rest held := by
  unfold step at h
  split at h
  · simp at h
  · rename_i a rest htodo
    obtain ⟨⟨T, held⟩, hp, rfl⟩ := Option.map_eq_some_iff.mp h
    exact ⟨a, rest, held, htodo, hp, rfl, rfl⟩

theorem inv_of_reachable (h : (system txns).Reachable s) :
    (taskProtocol txns).Inv s.agents s.table := by
  refine h.invariant (I := fun s => (taskProtocol txns).Inv s.agents s.table) ?_ ?_
  · rintro s rfl
    exact Protocol.Inv.init fun j => rfl
  · intro s j s' _ hI hs
    obtain ⟨a, rest, held, h⟩ := taskStep_of_step hs
    rw [h.agents]
    exact hI.step h.todo h.perform

/-! ## The log -/

/-- What the tasks have done. -/
structure Logged (txns : List (RemoraTransaction τ)) (s : State) : Prop where
  done : ∀ {j a h}, (j, a, h) ∈ s.log → a ∈ dependencyProgram (required txns j) ∧
    a ∉ (s.agents j).todo
  held : ∀ {j a h}, (j, a, h) ∈ s.log → h = (s.agents j).held a.key
  logged : ∀ {j a}, a ∈ dependencyProgram (required txns j) → a ∉ (s.agents j).todo →
    ∃ h, (j, a, h) ∈ s.log
  nodup : (s.log.map fun e => (e.1, e.2.1)).Nodup

namespace Logged

theorem init : Logged txns (State.init txns) where
  done h := by simp [State.init] at h
  held h := by simp [State.init] at h
  logged hm hn := absurd hm hn
  nodup := List.nodup_nil

section Step

variable {j : ℕ} {a : Action ObjectVersion} {rest : List (Action ObjectVersion)}
  {held : ObjectVersion → Option ℕ}

/-- Once a task has done an action, the handle of its key is settled. -/
theorem get_notMem (hI : (taskProtocol txns).Inv s.agents s.table) (hL : Logged txns s) {i : ℕ}
    {b : Action ObjectVersion} {h : Option ℕ} (hb : (i, b, h) ∈ s.log) :
    .get b.key ∉ (s.agents i).todo := by
  obtain ⟨hprog, hdone⟩ := hL.done hb
  cases b with
  | get k => exact hdone
  | wait k | remove k | notify k =>
    exact Program.done_of_done ((taskProtocol txns).ordered i) (hI.suffix i) hprog hdone (by simp)

theorem step (hI : (taskProtocol txns).Inv s.agents s.table) (hL : Logged txns s)
    (h : TaskStep s s' j a rest held) : Logged txns s' := by
  have hprog : a ∈ dependencyProgram (required txns j) :=
    (hI.suffix j).subset (by rw [h.todo]; exact List.mem_cons_self)
  have hself : a ∉ (s'.agents j).todo := by
    rw [h.agents]
    exact hI.notMem_after h.todo
  have hother : ∀ {b} i, b ≠ a → (b ∈ (s'.agents i).todo ↔ b ∈ (s.agents i).todo) := by
    intro b i hb
    rw [h.agents]
    exact Protocol.mem_todo_after h.todo hb i
  have hfresh : ∀ {x}, (j, a, x) ∉ s.log := fun hx =>
    (hL.done hx).2 (by rw [h.todo]; exact List.mem_cons_self)
  refine ⟨?_, ?_, ?_, ?_⟩
  · intro i b x hb
    rw [h.log, List.mem_append, List.mem_singleton] at hb
    rcases hb with hb | hb
    · obtain ⟨hbprog, hdone⟩ := hL.done hb
      refine ⟨hbprog, ?_⟩
      by_cases hba : b = a
      · subst hba
        by_cases hij : i = j
        · rwa [hij]
        · rwa [h.agents, Protocol.after, update_of_ne hij]
      · rwa [hother i hba]
    · obtain ⟨rfl, rfl, -⟩ : i = j ∧ b = a ∧ x = held a.key := by simpa using hb
      exact ⟨hprog, hself⟩
  · intro i b x hb
    rw [h.log, List.mem_append, List.mem_singleton] at hb
    rcases hb with hb | hb
    · rw [hL.held hb, h.agents]
      by_cases hij : i = j
      · subst hij
        simp only [Protocol.after, update_self]
        refine (Action.held_eq h.perform fun ha => ?_).symm
        exact get_notMem hI hL hb (by rw [h.todo, ha]; exact List.mem_cons_self)
      · rw [Protocol.after, update_of_ne hij]
    · obtain ⟨rfl, rfl, rfl⟩ : i = j ∧ b = a ∧ x = held a.key := by simpa using hb
      rw [h.agents, Protocol.after, update_self]
  · intro i b hb hdone
    rw [h.log]
    by_cases hnew : i = j ∧ b = a
    · obtain ⟨rfl, rfl⟩ := hnew
      exact ⟨_, List.mem_append_right _ (List.mem_singleton_self _)⟩
    · have hold : b ∉ (s.agents i).todo := by
        by_cases hba : b = a
        · have hij : i ≠ j := fun hij => hnew ⟨hij, hba⟩
          rwa [h.agents, Protocol.after, update_of_ne hij] at hdone
        · rwa [← hother i hba]
      obtain ⟨x, hx⟩ := hL.logged hb hold
      exact ⟨x, List.mem_append_left _ hx⟩
  · rw [h.log, List.map_append, List.nodup_append]
    refine ⟨hL.nodup, by simp, ?_⟩
    rintro x hx y hy rfl
    obtain ⟨⟨i, b, z⟩, hz, rfl⟩ := List.mem_map.mp hx
    obtain ⟨rfl, rfl⟩ : i = j ∧ b = a := by simpa using hy
    exact hfresh hz

end Step

end Logged

theorem logged_of_reachable (h : (system txns).Reachable s) : Logged txns s :=
  h.invariant (fun _ h => h ▸ Logged.init) fun _ _ _ hr hL hs => by
    obtain ⟨a, rest, held, hstep⟩ := taskStep_of_step hs
    exact hL.step (inv_of_reachable hr) hstep

/-! ## The handle of a version -/

section Handle

variable {i j : ℕ} {k : ObjectVersion} {h h' : ℕ}

/-- A handle obtained is held from then on. -/
theorem Logged.holds (hL : Logged txns s) (ho : s.Obtained j k h) :
    (taskProtocol txns).Party j k ∧ (taskProtocol txns).Holds s.agents k h := by
  have hparty : (taskProtocol txns).Party j k := (taskProtocol txns).get_role (hL.done ho).1
  exact ⟨hparty, j, hparty, (hL.held ho).symm⟩

/-- The tasks that obtain the handle of a version are its producer and its consumer. -/
theorem party_cases (hi : Produces txns i k) (hj : k ∈ required txns j)
    (hk : initialVersion < k.2) {t : ℕ} (ht : (taskProtocol txns).Party t k) : t = i ∨ t = j := by
  rcases ht with ht | ht
  · exact Or.inl (producer_unique (producerOf_eq_some.mp ht) hi)
  · exact Or.inr (Option.some.inj (ht.symm.trans (consumerOf_eq_some.mpr ⟨hj, hk⟩)))

/-- Entries that stand for one action of one task are one entry. -/
theorem length_le_one {l : List LogEntry} {c : ℕ × Action ObjectVersion}
    (hn : (l.map fun e => (e.1, e.2.1)).Nodup) (hc : ∀ e ∈ l, (e.1, e.2.1) = c) :
    l.length ≤ 1 := by
  match l with
  | [] | [_] => simp
  | a :: b :: l =>
    simp only [List.map_cons, List.nodup_cons, List.mem_cons, not_or] at hn
    exact absurd ((hc a (by simp)).trans (hc b (by simp)).symm) hn.1.1

theorem notified_once (hI : (taskProtocol txns).Inv s.agents s.table) (hL : Logged txns s)
    (hi : Produces txns i k) (hh : (taskProtocol txns).Holds s.agents k h) :
    (s.log.filter (notifies h)).length ≤ 1 := by
  refine length_le_one (c := (i, .notify k))
    (hL.nodup.sublist (List.filter_sublist.map _)) fun e he => ?_
  obtain ⟨he, hnot⟩ := List.mem_filter.mp he
  obtain ⟨t, a, x⟩ := e
  match a, x, hnot with
  | .notify k', some x, hnot =>
    obtain rfl : x = h := by simpa [notifies] using hnot
    have hp := (taskProtocol txns).notify_role (hL.done he).1
    have hk' : (taskProtocol txns).Holds s.agents k' x := ⟨t, Or.inl hp, (hL.held he).symm⟩
    obtain rfl := hI.inj hk' hh
    rw [producer_unique (producerOf_eq_some.mp hp) hi]

/-- The producer of a version has its handle before the consumer deletes the entry. -/
theorem obtained_before_removed (hs : (system txns).Reachable s) (hi : Produces txns i k)
    (hj : k ∈ required txns j) (hk : initialVersion < k.2) :
    ∀ pre post x, s.log = pre ++ (j, .remove k, x) :: post → ∃ y, (i, .get k, y) ∈ pre := by
  refine hs.invariant (I := fun s => ∀ pre post x, s.log = pre ++ (j, .remove k, x) :: post →
    ∃ y, (i, .get k, y) ∈ pre) ?_ ?_
  · rintro s rfl pre post x h
    simp [State.init] at h
  · intro s t s' hr hold hstep pre post x hlog
    have hI := inv_of_reachable (hr.step hstep)
    have hL := logged_of_reachable (hr.step hstep)
    obtain ⟨a, rest, held, htask⟩ := taskStep_of_step hstep
    rw [htask.log] at hlog
    rcases List.eq_nil_or_concat post with rfl | ⟨post', y, rfl⟩
    · -- the entry is deleted in this step, so its producer has notified before
      obtain ⟨rfl, he⟩ := List.append_inj' hlog rfl
      have hdone : Action.remove k ∉ (s'.agents j).todo := by
        refine (hL.done (h := x) ?_).2
        rw [htask.log, List.singleton_inj.mp he]
        exact List.mem_append_right _ (List.mem_singleton_self _)
      have hcons := consumerOf_eq_some.mpr ⟨hj, hk⟩
      have hprod := producerOf_eq_some.mpr hi
      obtain ⟨i', hi', hn⟩ := hI.notified_of_woken (hI.woken_of_removed ⟨j, hcons, hdone⟩)
      obtain rfl : i' = i := Option.some.inj (hi'.symm.trans hprod)
      have hprog := (taskProtocol txns).producer_prog hprod
      have hget := Program.done_of_done (a := .get k) ((taskProtocol txns).ordered i')
        (hI.suffix i') hprog.2 hn (by simp)
      obtain ⟨y, hy⟩ := hL.logged hprog.1 hget
      rw [htask.log, List.singleton_inj.mp he, List.mem_append, List.mem_singleton] at hy
      exact ⟨y, hy.resolve_right (by simp)⟩
    · have hlog' : s.log ++ [(t, a, held a.key)] = (pre ++ (j, .remove k, x) :: post') ++ [y] := by
        simpa using hlog
      exact hold pre post' x (List.append_inj' hlog' rfl).1

end Handle

/-- In every state the tasks can reach, the producer and the consumer of a version above 2 have
obtained one handle, nobody else has obtained it and they have obtained it for no other version,
it is notified at most once, and the producer has obtained it before the consumer deletes the
entry. -/
theorem handle_identity (txns : List (RemoraTransaction τ)) (s : State)
    (hs : (system txns).Reachable s) (i j : ℕ) (k : ObjectVersion) (hk : 2 < k.2)
    (hi : Produces txns i k) (hj : k ∈ required txns j) :
    (∀ h h', s.Obtained i k h → s.Obtained j k h' → h = h') ∧
    (∀ h, s.Obtained i k h ∨ s.Obtained j k h →
      (∀ t k', s.Obtained t k' h → k' = k ∧ (t = i ∨ t = j)) ∧
      (s.log.filter (notifies h)).length ≤ 1) ∧
    ∀ pre post x, s.log = pre ++ (j, .remove k, x) :: post → ∃ y, (i, .get k, y) ∈ pre := by
  have hI := inv_of_reachable hs
  have hL := logged_of_reachable hs
  refine ⟨fun h h' ho ho' => hI.agree (hL.holds ho).2 (hL.holds ho').2, fun h ho => ?_,
    obtained_before_removed hs hi hj hk⟩
  have hh : (taskProtocol txns).Holds s.agents k h :=
    ho.elim (fun ho => (hL.holds ho).2) fun ho => (hL.holds ho).2
  refine ⟨fun t k' ht => ?_, notified_once hI hL hi hh⟩
  obtain ⟨hparty, hh'⟩ := hL.holds ht
  obtain rfl := hI.inj hh' hh
  exact ⟨rfl, party_cases hi hj hk hparty⟩

/-- Two transactions on one object. -/
def twoTasks : List (RemoraTransaction Unit) :=
  [.new () 10 [.sharedMoveObject 7] 1 1, .new () 11 [.sharedMoveObject 7] 1 1]

/-- The consumer asks for the handle of version 3 first, and both run to their end. -/
theorem handle_identity_two_tasks :
    ∃ s, (system twoTasks).Reachable s ∧ s.Obtained 1 (7, 3) 0 ∧
      (s.log.filter (notifies 0)).length ≤ 1 := by
  have hview : (((system twoTasks).run (State.init twoTasks) [1, 1, 0, 0, 0, 1, 1, 1]).map
      fun s => decide (s.log.head? = some (1, .get (7, 3), some 0))) = some true := by decide
  obtain ⟨s, hrun, hview⟩ := Option.map_eq_some_iff.mp hview
  have hs : (system twoTasks).Reachable s := Transition.System.reachable_run (.init rfl) hrun
  have hob : s.Obtained 1 (7, 3) 0 := List.mem_of_mem_head? (of_decide_eq_true hview)
  have hi : Produces twoTasks 0 (7, 3) := produces_iff.mpr (by decide)
  exact ⟨s, hs, hob, ((handle_identity twoTasks s hs 0 1 (7, 3) (by decide) hi
    (by decide)).2.1 0 (Or.inr hob)).2⟩

end VersionedDependencyController

end Remora
