import Remora.StoreCoherence

/-!
# Executors that may panic

A lawful executor returns whenever it finds its inputs. One that may panic has fewer results
(`Executor.Refines`), so a deployment with it has fewer runs (`Deployment.reachableVia_of_refines`) :
what is safe with the lawful executor is safe with it, and whatever has been committed was
returned (`Deployment.returned_of_reachable`). As long as the next commit returns the same with both,
both take the same steps (`Deployment.step_of_agrees`).
-/

namespace Remora

open Function Program

variable {τ ω : Type}

namespace Executor

/-- `E` checks what `E'` checks, and has a result of `E'` or panics. -/
structure Refines (E E' : Executor τ ω) : Prop where
  version : E.version = E'.version
  checkUnversioned : E.checkUnversioned = E'.checkUnversioned
  output : ∀ {t S o x}, E.output t S o = some x → E'.output t S o = some x

variable {E E' : Executor τ ω} (h : E.Refines E')
include h

theorem Refines.checkInput (t : RemoraTransaction τ) (x : InputObjectKind) (object : Option ω) :
    E'.checkInput t x object = E.checkInput t x object := by
  cases object <;> cases x <;> simp only [Executor.checkInput, h.version, h.checkUnversioned]

end Executor

namespace Deployment

open ProxyAction
open Cluster (RunStep spawned messageProgram)

/-- The deployment with another executor. -/
def withExecutor (D : Deployment τ ω) (E : Executor τ ω) : Deployment τ ω :=
  { D with executor := E }

/-- What the thread `th` commits next under `E`, it commits under `E'`. -/
def Agrees (E E' : Executor τ ω) (th : Thread τ ω) : Prop :=
  ∀ o rest txn x, th.todo = commit o :: rest → th.ready = true → th.transaction = some txn →
    E.output txn th.readings o = some x → E'.output txn th.readings o = some x

variable {D : Deployment τ ω} {E E' : Executor τ ω} {s s' : State τ ω}

theorem Agrees.of_refines (h : E.Refines E') (th : Thread τ ω) : Agrees E E' th :=
  fun _ _ _ _ _ _ _ hx => h.output hx

section Steps

variable (hversion : E'.version = E.version)
  (hcheck : ∀ t x object, E'.checkInput t x object = E.checkInput t x object)
include hversion hcheck

theorem perform_of_agrees {t : ThreadId} {R : Cluster.Resources ω} {th : Thread τ ω}
    (hagrees : Agrees E E' th) {a : ProxyAction ω} {rest : List (ProxyAction ω)}
    (htodo : th.todo = a :: rest) {X : Cluster.Resources ω × Thread τ ω}
    (h : Cluster.perform (D.withExecutor E).cluster t R th a = some X) :
    Cluster.perform (D.withExecutor E').cluster t R th a = some X := by
  cases a with
  | check x =>
    simp only [Cluster.perform, cluster, withExecutor] at h ⊢
    simpa only [hcheck] using h
  | commit o =>
    simp only [Cluster.perform] at h ⊢
    split_ifs at h ⊢ with hready
    · obtain ⟨txn, htxn, h⟩ := Option.bind_eq_some_iff.mp h
      obtain ⟨x, hx, h⟩ := Option.bind_eq_some_iff.mp h
      refine Option.bind_eq_some_iff.mpr ⟨txn, htxn, Option.bind_eq_some_iff.mpr ⟨x, ?_, h⟩⟩
      exact hagrees o rest txn x htodo hready htxn hx
    · exact h
  | readState k =>
    simp only [Cluster.perform, cluster, withExecutor, hversion] at h ⊢
    exact h
  | _ => exact h

omit hcheck in
theorem spawned_withExecutor (t : ThreadId) (th : Thread τ ω) (a : ProxyAction ω) :
    spawned (D.withExecutor E').cluster t th a = spawned (D.withExecutor E).cluster t th a := by
  cases a with
  | sendReply q k =>
    simp only [spawned, Cluster.send, cluster, withExecutor, hversion]
    rfl
  | _ => rfl

/-- Both executors take the same step, if the thread that takes it agrees. -/
theorem step_of_agrees {e : Event}
    (hagrees : ∀ t th, e = .run t → s.cluster.threads t = some th → Agrees E E' th)
    (h : step (D.withExecutor E) s e = some s') : step (D.withExecutor E') s e = some s' := by
  cases e with
  | forwarder e => exact h
  | arrive m => exact h
  | run t =>
    obtain ⟨c, hc, rfl⟩ := Option.map_eq_some_iff.mp h
    refine Option.map_eq_some_iff.mpr ⟨c, ?_, rfl⟩
    obtain ⟨th, ht, hc⟩ := Option.bind_eq_some_iff.mp hc
    refine Option.bind_eq_some_iff.mpr ⟨th, ht, ?_⟩
    cases htodo : th.todo with
    | nil => simp [htodo] at hc
    | cons a rest =>
      simp only [htodo] at hc ⊢
      obtain ⟨X, hX, hc⟩ := Option.map_eq_some_iff.mp hc
      rw [spawned_withExecutor hversion]
      exact Option.map_eq_some_iff.mpr
        ⟨X, perform_of_agrees hversion hcheck (hagrees t th rfl ht) htodo hX, hc⟩

end Steps

/-- An executor that panics more often has fewer runs. -/
theorem reachableVia_of_refines {ok : State τ ω → Event → Prop} (h : E.Refines E')
    (hr : (system (D.withExecutor E)).ReachableVia ok s) :
    (system (D.withExecutor E')).ReachableVia ok s := by
  induction hr with
  | init hs => exact .init hs
  | step _ hok hs ih =>
    exact ih.step hok (step_of_agrees h.version.symm h.checkInput
      (fun t th _ _ => Agrees.of_refines h th) hs)

/-! ## What was committed -/

/-- What a task has committed, the executor has returned. -/
def Returned (D : Deployment τ ω) (s : State τ ω) : Prop :=
  ∀ i th txn o, s.cluster.threads (.message (.stateful i)) = some th →
    th.transaction = some txn → th.ready = true → o ∈ txn.outputIds → commit o ∉ th.todo →
      (D.executor.output txn th.readings o).isSome

theorem Returned.arrive {m : MessageId} {p : ProxyId} {msg : PrimaryToProxyMessage τ}
    (h : Returned D s) (ha : Cluster.arrive D.cluster s.cluster m p msg = some s'.cluster) :
    Returned D s' := by
  intro i th txn o ht htxn hready ho hc
  rcases Cluster.arrive_cases ha ht with ⟨-, rfl⟩ | hold
  · simp [Cluster.spawn] at hready
  · exact h i th txn o hold htxn hready ho hc

theorem Returned.run (hr : (system D).Reachable s) (h : Returned D s) {t : ThreadId}
    {th th' : Thread τ ω} {a : ProxyAction ω} {rest : List (ProxyAction ω)}
    (hrun : RunStep D.cluster s.cluster s'.cluster t th th' a rest) : Returned D s' := by
  intro i x txn o hx htxn hready ho hc
  rcases hrun.cases hx with ⟨rfl, rfl⟩ | ⟨-, hsp⟩ | ⟨-, hold⟩
  · have hframe := Cluster.perform_frame hrun.perform
    replace htxn : th.transaction = some txn := hframe.transaction.symm.trans htxn
    by_cases ha : a = commit o
    · subst ha
      have hready : th.ready = true := (hframe.ready (by simp) (by simp)).symm.trans hready
      have hperf := hrun.perform
      simp only [Cluster.perform, hready, if_true, htxn, Option.bind_eq_bind,
        Option.bind_some] at hperf
      obtain ⟨y, hy, -⟩ := Option.bind_eq_some_iff.mp hperf
      change (D.executor.output txn th'.readings o).isSome
      rw [hframe.readings (by simp)]
      exact Option.isSome_iff_exists.mpr ⟨y, hy⟩
    · -- the commit was done before, and nothing is read or checked after it
      have hc : commit o ∉ th.todo := hrun.notMem ha hc
      obtain ⟨txn', stateless, states, hs, -, htxn', hsuffix⟩ :=
        (follows_of_reachable hr).message hrun.thread
      obtain rfl := Option.some.inj (htxn.symm.trans htxn')
      have hrank : 15 ≤ Cluster.rank a := by
        by_contra hlt
        exact hc (hrun.todo ▸ List.mem_cons_of_mem _ (mem_of_head hs hsuffix hrun.todo
          (Cluster.commit_mem_messageProgram.mpr ho) (Nat.lt_of_not_le hlt)))
      have hne : ∀ b : ProxyAction ω, Cluster.rank b < 15 → a ≠ b := by
        rintro b hb rfl
        omega
      replace hready : th.ready = true :=
        (hframe.ready (hne _ (by simp [Cluster.rank]))
          fun x => hne _ (by simp [Cluster.rank])).symm.trans hready
      change (D.executor.output txn th'.readings o).isSome
      rw [hframe.readings fun o => hne _ (by simp [Cluster.rank])]
      exact h i th txn o hrun.thread htxn hready ho hc
  · exact absurd hsp (Cluster.spawned_ne_message _ _)
  · exact h i x txn o hold htxn hready ho hc

theorem returned_of_reachable (hr : (system D).Reachable s) : Returned D s := by
  refine hr.invariant (I := Returned D) ?_ ?_
  · rintro s rfl i th txn o ht
    simp [State.init, Cluster.State.init] at ht
  · intro s e s' hr h hs
    rcases step_cases hs with ⟨e', -, hc⟩ | ⟨m, p, msg, -, ha, -⟩ |
      ⟨t, th, th', a, rest, -, hrun, -⟩
    · intro i th txn o
      rw [hc]
      exact h i th txn o
    · exact h.arrive ha
    · exact h.run hr hrun

end Deployment

end Remora
