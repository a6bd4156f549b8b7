import Remora.ResultCollectors
import Mathlib.Logic.Relation

/-!
# What a failed verification spoils

A transaction that does not verify is skipped, and the version it was to produce is never
written. Its task signals the next accessors all the same. They find the object at the old
version, so that the check of the version fails, and they are skipped as well, and so on
(`Tainted`). All others are executed, and write what they would write if only the transactions
that fail were left out (`failure_isolation`). Nobody waits for a transaction that was skipped,
as long as the reply with its version, which has no object, has not been sent, and no proxy has
taken its result : the proxies are those that collect their results, and a proxy that takes the
result of a skipped transaction ends. That result is one of a spoiled transaction of its own
(`Sound.tainted_of_ended`).
-/

namespace Remora

open Function Rendezvous VersionedDependencyController Program

variable {τ ω : Type}

namespace Deployment

open ProxyAction
open Cluster (RunStep)

variable {D : Deployment τ ω} {s s' : State τ ω}

/-! ## Who is spoiled -/

/-- The transaction `j` accesses an object after `i`. -/
def Precedes (D : Deployment τ ω) (i j : ℕ) : Prop :=
  i < j ∧ ∃ o, o ∈ accessed D.primary.txns i ∧ o ∈ accessed D.primary.txns j

/-- The transaction `j` is one of those that fail, or comes after one in a chain of objects. -/
def Tainted (D : Deployment τ ω) (fails : ℕ → Bool) (j : ℕ) : Prop :=
  ∃ i, fails i = true ∧ Relation.ReflTransGen (Precedes D) i j

/-- The tasks that have begun have found out which transactions fail. -/
def FoundOut (fails : ℕ → Bool) (s : State τ ω) : Prop :=
  ∀ {i th}, s.cluster.threads (.message (.stateful i)) = some th → begin ∉ th.todo →
    th.gate.verdict = !fails i

theorem precedes_of_required {i j : ℕ} {k : ObjectVersion} (hk : k ∈ required D.primary.txns j)
    (hi : Produces D.primary.txns i k) : Precedes D i j :=
  ⟨(lastAccess_of_produces hk hi).1, k.1, (produces_iff.mp hi).1, accessed_of_required hk⟩

/-- A transaction is spoiled by what it requires. -/
theorem supplied_untainted (fails : ℕ → Bool) : Supplied D fun j => ¬Tainted D fails j := by
  rintro i j k hj hk hi ⟨l, hl, hli⟩
  exact hj ⟨l, hl, hli.tail (precedes_of_required hk hi)⟩

theorem judged_untainted {fails : ℕ → Bool} (h : FoundOut fails s) :
    Judged (fun j => ¬Tainted D fails j) s := by
  intro j th hj ht hbegin
  rw [h ht hbegin, Bool.not_eq_true', ← Bool.not_eq_true]
  exact fun hfails => hj ⟨j, hfails, .refl⟩

section Executed

variable {Valid : RemoraTransaction τ → Prop} {sim : ω → ω → Prop}

/-- A task that is ready was verified, and has begun. -/
def Verified (th : Thread τ ω) : Prop :=
  th.gate.verdict = true ∧ ∀ b ∈ th.todo, 11 ≤ Cluster.rank b

/-- It stays so, as it has no more to do with the verification. -/
theorem verified_of_run {i : ℕ} {th th' : Thread τ ω} {a : ProxyAction ω}
    {rest : List (ProxyAction ω)} (hF : Follows D s)
    (hrun : RunStep D.cluster s.cluster s'.cluster (.message (.stateful i)) th th' a rest)
    (hold : th.ready = true → Verified th) (hready : th'.ready = true) :
    Verified { th' with todo := rest } := by
  by_cases hbegin : a = begin
  · subst hbegin
    obtain ⟨txn, stateless, states, hsent, -, -, hsuffix⟩ := hF.message hrun.thread
    have hordered := (hsent.staged D.primary.mode).ordered.suffix hsuffix
    rw [hrun.todo] at hordered
    obtain ⟨-, rfl⟩ := Prod.mk.inj (Option.some.inj hrun.perform)
    exact ⟨hready, fun b hb => hordered.head_le (List.mem_cons_of_mem _ hb)⟩
  · obtain ⟨hverdict, hlate⟩ := hold (Cluster.ready_of_perform_of_ne hrun.perform hbegin hready)
    have hhead := hlate a hrun.head_mem
    refine ⟨?_, fun b hb => hlate b (hrun.mem_of_mem hb)⟩
    change th'.gate.verdict = true
    rw [(Cluster.perform_frame hrun.perform).locals]
    · exact hverdict
    · rintro g rfl
      cases g <;> simp [Cluster.rank] at hhead
    · rintro rfl
      simp [Cluster.rank] at hhead

theorem verified_of_ready (hr : (system D).Reachable s) {i : ℕ} {th : Thread τ ω}
    (ht : s.cluster.threads (.message (.stateful i)) = some th) (hready : th.ready = true) :
    Verified th := by
  revert i th
  refine hr.invariant (I := fun s => ∀ {i th},
    s.cluster.threads (.message (.stateful i)) = some th → th.ready = true → Verified th) ?_ ?_
  · rintro s rfl i th ht
    simp [State.init, Cluster.State.init] at ht
  · intro s e s' hr hI hs i x hx hready
    rcases step_cases hs with ⟨e', -, hc⟩ | ⟨m, p, msg, hsent, ha, -⟩ |
      ⟨t, th, th', a, rest, -, hrun, -⟩
    · exact hI (hc ▸ hx) hready
    · rcases Cluster.arrive_cases ha hx with ⟨-, rfl⟩ | hx
      · simp [Cluster.spawn] at hready
      · exact hI hx hready
    · rcases hrun.cases hx with ⟨rfl, rfl⟩ | ⟨-, hsp⟩ | ⟨-, hold⟩
      · exact verified_of_run (follows_of_reachable hr) hrun (hI hrun.thread) hready
      · exact absurd hsp (Cluster.spawned_ne_message _ _)
      · exact hI hold hready

/-- What an executed transaction has found was written by executed ones. -/
theorem executed_of_lastAccess (hD : Sound D Valid sim) (hr : (system D).Reachable s) {j l : ℕ}
    {o : ObjectID} (ho : o ∈ accessed D.primary.txns j) (hl : LastAccess D.primary.txns o j l)
    (hj : Executed s j) : Executed s l := by
  revert hj
  refine hr.invariant (I := fun s => Executed s j → Executed s l) ?_ ?_
  · rintro s rfl ⟨th, ht, -⟩
    simp [State.init, Cluster.State.init] at ht
  · intro s e s' hr hI hs hj
    have hF := follows_of_reachable hr
    have hV : Values D sim (fun _ => true) s := values_of_reachable hD hr fun _ _ => rfl
    suffices hbefore : Executed s l from executed_of_step hs hbefore hV
    obtain ⟨x, hx, hexec⟩ := hj
    rcases step_cases hs with ⟨e', -, hc⟩ | ⟨m, p, msg, hsent, ha, -⟩ |
      ⟨t, th, th', a, rest, -, hrun, -⟩
    · exact hI ⟨x, hc ▸ hx, hexec⟩
    · rcases Cluster.arrive_cases ha hx with ⟨-, rfl⟩ | hx
      · simp [Cluster.spawn] at hexec
      · exact hI ⟨x, hx, hexec⟩
    · rcases hrun.cases hx with ⟨rfl, rfl⟩ | ⟨-, hsp⟩ | ⟨-, hold⟩
      · by_cases ha : a = execute
        · subst ha
          -- it has checked the version
          have hready : th.ready = true := by
            obtain ⟨-, rfl⟩ := Prod.mk.inj (Option.some.inj hrun.perform)
            exact hexec
          have hpast : ∀ {b : ProxyAction ω}, Cluster.rank b < 13 → b ∉ th.todo := fun hb =>
            notMem_of_head hF hrun.thread hrun.todo hb
          obtain ⟨v, hv⟩ := exists_required ho
          obtain ⟨y, hy, -, hversion⟩ := hV.checked hrun.thread hready
            (hpast (by simp [Cluster.rank])) hv (hpast (by simp [Cluster.rank])) (b := execute)
            hrun.head_mem (by simp [Cluster.rank])
          exact hV.executed_of_version hv hl hy hversion
        · exact hI ⟨th, hrun.thread, ((Cluster.perform_frame hrun.perform).executed ha) ▸ hexec⟩
      · exact absurd hsp (Cluster.spawned_ne_message _ _)
      · exact hI ⟨x, hold, hexec⟩

/-- So was everything before it. -/
theorem executed_of_precedes (hD : Sound D Valid sim) (hr : (system D).Reachable s) {i j : ℕ}
    (hij : Precedes D i j) (hj : Executed s j) : Executed s i := by
  obtain ⟨hlt, o, hoi, hoj⟩ := hij
  induction j using Nat.strong_induction_on with
  | _ j ih =>
    obtain ⟨l, hil, hl⟩ := exists_lastAccess hlt hoi
    have hexec := executed_of_lastAccess hD hr hoj hl hj
    rcases hil.lt_or_eq with hil | rfl
    · exact ih l hl.1 hexec hil hl.2.1
    · exact hexec

/-- Nothing that is spoiled is executed. -/
theorem not_executed_of_tainted (hD : Sound D Valid sim) (hr : (system D).Reachable s)
    {fails : ℕ → Bool} (hfound : FoundOut fails s) {j : ℕ} (hj : Tainted D fails j) :
    ¬Executed s j := by
  obtain ⟨i, hi, hij⟩ := hj
  have hno : ¬Executed s i := by
    rintro ⟨th, ht, hexec⟩
    have hV : Values D sim (fun _ => true) s := values_of_reachable hD hr fun _ _ => rfl
    obtain ⟨hready, hlate⟩ := (hV.executed ht).2 hexec
    have hverdict := (verified_of_ready hr ht hready).1
    rw [hfound ht fun hm => by simpa [Cluster.rank] using hlate _ hm, hi] at hverdict
    simp at hverdict
  induction hij with
  | refl => exact hno
  | tail _ hjk ih => exact fun hexec => ih (executed_of_precedes hD hr hjk hexec)

/-- What the failures do not touch is executed, as if only they were left out. -/
structure Isolated (D : Deployment τ ω) (fails : ℕ → Bool) (s : State τ ω) : Prop where
  skipped : ∀ {j}, Tainted D fails j → ¬Executed s j
  executed : ∀ {j th}, s.cluster.threads (.message (.stateful j)) = some th →
    execute ∉ th.todo → ¬Tainted D fails j → th.executed = true
  written : ∀ {j th txn o}, s.cluster.threads (.message (.stateful j)) = some th →
    th.executed = true → th.transaction = some txn → (∀ o, ProxyAction.read o ∉ th.todo) →
    o ∈ txn.outputIds → D.executor.output txn th.readings o =
      sequential D.executor D.primary (fun i => !fails i) D.genesis (j + 1) o

theorem Sound.isolated (hD : Sound D Valid sim) (hI : Stocked D) (hr : (system D).Reachable s)
    {fails : ℕ → Bool} (hfound : FoundOut fails s) : Isolated D fails s where
  skipped := not_executed_of_tainted hD hr hfound
  executed {j th} ht hexec hj := by
    have hV : Values D sim (fun _ => true) s := values_of_reachable hD hr fun _ _ => rfl
    obtain ⟨txn, stateless, states, hs, -, -, hsuffix⟩ := (follows_of_reachable hr).message ht
    have hbegin : begin ∉ th.todo := done_of_done (hs.staged D.primary.mode).ordered hsuffix
      Cluster.execute_mem_messageProgram hexec (by simp [Cluster.rank])
    have hA := available_of_reachable hD (supplied_untainted fails) hI hr
      (judged_untainted hfound)
    rw [(hV.executed ht).1 hexec]
    exact hA.ready hj ht hbegin
  written {j th txn o} ht hexec htxn hread ho := by
    refine (hD.deterministic s hr).2 _ (fun i hi => ?_) j th txn ht hexec htxn hread o ho
    rw [Bool.not_eq_true', ← Bool.not_eq_true]
    exact fun hfails => not_executed_of_tainted hD hr hfound ⟨i, hfails, .refl⟩ hi

end Executed

/-! ## Failure isolation -/

/-- In every state, with the failures that are found out : what they do to other transactions,
and that these go on as long as all proxies collect their results. In the combined modes the
failures are those of the verifiers, and nobody waits for one. -/
def FailuresIsolated (D : Deployment τ ω) : Prop :=
  ∀ s, (Collecting.system D).Reachable s →
    (∀ fails, FoundOut fails s.deployment → Isolated D fails s.deployment) ∧
    (s.AllCollect → Answers s.deployment →
      (∀ i p, SharedObjTxnForwarder.forwardedTo s.deployment.forwarder i = some p →
        p ∈ D.primary.connections) →
      (∃ i, Forwarded s.deployment i ∧ ¬Finished s.deployment i) →
      Collecting.GoesOn D s ∨ GateStuck D s.deployment) ∧
    (D.primary.mode.isPrimarySeparation = false → D.primary.DistinctDigests →
      FoundOut (fun i => !D.outcome (verifier D i)) s.deployment ∧
        (s.AllCollect → GateStuck D s.deployment → Collecting.GoesOn D s))

section Collecting

variable {Valid : RemoraTransaction τ → Prop} {sim : ω → ω → Prop}

theorem Sound.failuresIsolated (hD : Sound D Valid sim) (hI : Stocked D) :
    D.FailuresIsolated := by
  intro s hs
  have hr := Collecting.reachable_deployment hs
  refine ⟨fun _ hfound => hD.isolated hI hr hfound, fun hall hans hconn h => ?_,
    fun hmode hdistinct => ⟨fun ht hbegin => ?_, fun hall hstuck => ?_⟩⟩
  · exact (moves_of_unfinished hr hD hI hans (hconn _ _) h).imp_left
      (Collecting.goesOn_of_moves hall)
  · rw [verdict_of_begun hdistinct hmode hr ht hbegin, Bool.not_not]
  · exact Collecting.goesOn_of_moves hall (moves_of_gateStuck hdistinct hmode hr hstuck)

/-- A proxy that was sent nothing that is spoiled collects its results. -/
theorem Sound.tainted_of_ended (hD : Sound D Valid sim) (hI : Stocked D) {s : Collecting τ ω}
    (hs : (Collecting.system D).Reachable s) {fails : ℕ → Bool}
    (hfound : FoundOut fails s.deployment) {p : ProxyId} (hp : s.ended p = true) :
    ∃ j, SharedObjTxnForwarder.forwardedTo s.deployment.forwarder j = some p ∧
      Tainted D fails j := by
  have hr := Collecting.reachable_deployment hs
  obtain ⟨j, th, ht, rfl, hexecute, hskipped⟩ := Collecting.skipped_of_ended hs hp
  obtain ⟨txn, stateless, states, hsent, -⟩ := (follows_of_reachable hr).message ht
  refine ⟨j, hsent.forwardedTo, ?_⟩
  by_contra hno
  rw [(hD.isolated hI hr hfound).executed ht hexecute hno] at hskipped
  cases hskipped

end Collecting

/-- One proxy `p`, two transactions on one object and one on another. -/
def oneProxy (p : ProxyId) : Primary Unit where
  mode := .NoSeparation
  policy := .RSDS
  connections := [p]
  numWorkers := 1
  bufferSize := 1
  txns := [.new () 10 [.sharedMoveObject 7] 1 1, .new () 11 [.sharedMoveObject 7] 1 1,
    .new () 12 [.sharedMoveObject 8] 1 1]
  nodup := List.nodup_singleton p

/-- The first transaction fails. -/
def spoiled : Deployment Unit FakeObject where
  primary := oneProxy 0
  executor := fakeExecutor Unit
  outcome := fun t => t != .message (.stateful 0)
  genesis := fun o => if o = 7 ∨ o = 8 then some ⟨o, 2, 1, .shared 2⟩ else none

/-- The worker forwards the next transaction, with `n` actions. -/
def forwardNext (n : ℕ) : List Event :=
  [.forwarder .sendTask, .forwarder (.recv 0)] ++ List.replicate n (.forwarder (.run 0)) ++
    [.forwarder (.finish 0)]

/-- The message of the transaction `i` arrives, and its task is run to the end. -/
def runMessage (i n : ℕ) : List Event :=
  .arrive (.stateful i) :: List.replicate n (.run (.message (.stateful i)))

def spoiledRun : List Event :=
  forwardNext 9 ++ forwardNext 11 ++ forwardNext 9 ++ runMessage 0 12 ++ runMessage 1 14 ++
    runMessage 2 12

/-- The task is done, and the transaction was executed if `b`. -/
def isDone (b : Bool) (th : Thread τ ω) : Bool :=
  th.todo.isEmpty && th.executed == b

theorem fails_spoiled (i : ℕ) : spoiled.outcome (verifier spoiled i) = false ↔ i = 0 := by
  simp [spoiled, oneProxy, verifier, SeparationMode.isProxySeparation]

/-- The result of the third transaction is taken, those of the others are sent after it. -/
def collectedRun : List Collecting.Event :=
  (forwardNext 9 ++ forwardNext 11 ++ forwardNext 9 ++ runMessage 2 12).map .deployment ++
    [.collect 0] ++ (runMessage 0 12 ++ runMessage 1 14).map .deployment

end Deployment

end Remora
