import Remora.ExecutorRefinement
import Remora.ForwardingProgress
import Remora.TpccCounters
import Remora.TpccReordering
import Mathlib.Algebra.Order.BigOperators.Group.List
import Mathlib.Algebra.Order.Group.Int

/-!
# TPC-C transactions in consensus order

`replay` executes some of the transactions of a primary on one node, one after the other. Its store
is one of the runs whose money and counters are known (`replayed`) : the accounts move by no more
than what is paid, so a bound on the payments excludes overflows, and the rows of the items stay as
they were.

A proxy has the inputs of a transaction as it has read them, and the other rows as at first
(`view`). With the inputs of a replay it computes the same (`output_view`). A panic is a result that
is missing, and any executor that returns at least what a proxy's does leaves the stores of the
replay (`sequential_of_replay`).
-/

namespace Remora

namespace Tpcc

open Function CachedReads Ledger

variable {β : Type} {P : Platform β}

/-! ## The executor of a proxy -/

section Executors

variable (P) (S₀ : Objects β)

/-- What a transaction sees at a proxy : its inputs, and the rows that nothing declares, as they
were at first. -/
def view (t : RemoraTransaction TpccTransaction) (S : Objects β) : Objects β :=
  fun o => if o ∈ t.outputIds then S o else S₀ o

/-- The executor of a proxy that started with `S₀`. -/
def proxyExecutor : Executor TpccTransaction (Object β) :=
  { executor P with output := fun t S => (executor P).output t (view S₀ t S) }

/-- An executor that, instead of a panic, only assigns the new version. -/
def totalExecutor : Executor TpccTransaction (Object β) :=
  { executor P with
    output := fun t S o => ((proxyExecutor P S₀).output t S o).or
      ((S o).map fun x => updateObjectWithVersion x t.nextVersion) }

theorem refines_totalExecutor : (proxyExecutor P S₀).Refines (totalExecutor P S₀) where
  version := rfl
  checkUnversioned := rfl
  output h := by
    simp only [totalExecutor, h, Option.some_or]

/-- The inputs are all that a transaction sees of a store. -/
theorem view_congr {t : RemoraTransaction TpccTransaction} {S S' : Objects β}
    (h : ∀ o ∈ t.outputIds, S o = S' o) : view S₀ t S = view S₀ t S' := by
  funext o
  unfold view
  split_ifs with ho
  · exact h o ho
  · rfl

theorem lawful_totalExecutor :
    (totalExecutor P S₀).Lawful AllShared fun _ _ => True where
  equivalence := ⟨fun _ => trivial, fun _ => trivial, fun _ _ => trivial⟩
  congr {t S S'} hvalid hshared _ o ho := by
    have hinput : ∀ o ∈ t.outputIds, S o = S' o := by
      intro o ho
      obtain ⟨x, hx, rfl⟩ := t.mem_outputIds.mp ho
      cases x with
      | sharedMoveObject id => exact hshared id hx
      | immOrOwnedMoveObject id => simpa [InputObjectKind.isShared] using hvalid _ hx
    simp only [totalExecutor, proxyExecutor, view_congr S₀ hinput, hinput o ho]
  isSome {t S} h o ho := by
    simp only [totalExecutor, Option.isSome_or, Option.isSome_map, h o ho, Bool.or_true]
  version {t S o x} h := by
    rcases Option.or_eq_some_iff.mp h with h | ⟨-, h⟩
    · exact version_of_output h
    · obtain ⟨y, -, rfl⟩ := Option.map_eq_some_iff.mp h
      rfl
  sim _ _ := trivial

end Executors

/-! ## One node -/

/-- The initial store is at the first version. -/
theorem version_initObjects {D : Draws} {W : ℕ} {o : ObjectID} {x : Object β}
    (h : initObjects P D W o = some x) : x.version = initialVersion := by
  have hfold : ∀ (l : List PrimaryKey) (S : Objects β),
      (∀ x, S o = some x → x.version = initialVersion) →
        ∀ x, l.foldl (writeRow P D) S o = some x → x.version = initialVersion := by
    intro l
    induction l with
    | nil => exact fun S hS => hS
    | cons k l ih =>
      refine fun S hS => ih _ fun x hx => ?_
      rw [writeRow, update_apply] at hx
      split_ifs at hx
      · obtain rfl := Option.some.inj hx
        rfl
      · exact hS x hx
  exact hfold _ (fun _ => none) (fun _ hx => by simp at hx) x h

section Replay

variable (P) (C : Primary TpccTransaction) (runs : ℕ → Bool) (S₀ : Objects β)

/-- The store after the first transactions, of which those in `runs` are executed, one after the
other. `none` : one of them has panicked. -/
def replay : ℕ → Option (Objects β)
  | 0 => some S₀
  | n + 1 => (replay n).bind fun S =>
    if runs n then (C.transaction n).bind fun t => apply P t S else some S

/-- Those of the first transactions that are in `runs`. -/
def executedTxns (txns : List (RemoraTransaction TpccTransaction)) (n : ℕ) :
    List TpccTransaction :=
  ((txns.take n).zipIdx.filter fun x => runs x.2).map fun x => x.1.transaction

variable {P C runs S₀}

variable (runs) in
theorem executedTxns_succ {txns : List (RemoraTransaction TpccTransaction)} {n : ℕ}
    {t : RemoraTransaction TpccTransaction} (h : txns[n]? = some t) :
    executedTxns runs txns (n + 1) =
      executedTxns runs txns n ++ if runs n then [t.transaction] else [] := by
  have hn : n < txns.length := (List.getElem?_eq_some_iff.mp h).1
  rw [executedTxns, List.take_add_one, h, Option.toList_some, List.zipIdx_append,
    List.length_take_of_le hn.le, List.filter_append, List.map_append, executedTxns]
  split_ifs with hr <;> simp [hr]

/-- A transaction with its versions is the one that was received. -/
theorem transaction_placed {K : Set PrimaryKey} (hplaced : ∀ t ∈ C.txns, Placed P K t) {i : ℕ}
    {t : RemoraTransaction TpccTransaction} (h : C.transaction i = some t) :
    Placed P K t ∧ ∃ t₀, C.txns[i]? = some t₀ ∧ t.transaction = t₀.transaction := by
  rw [Primary.transaction, versioned,
    VersionAssignmentTask.processVersionAssignments_getElem?, Option.map_map] at h
  obtain ⟨t₀, ht₀, rfl⟩ := Option.map_eq_some_iff.mp h
  obtain ⟨hbuilt, hrows, hquantity⟩ := hplaced t₀ (List.mem_of_getElem? ht₀)
  have htxn := (transaction_assign (versionsAt C.txns i) t₀).1
  refine ⟨⟨hbuilt.assign _, ?_, ?_⟩, t₀, ht₀, htxn⟩
  · intro k hk
    exact hrows k (htxn ▸ hk)
  · intro l hl
    exact hquantity l (htxn ▸ hl)

end Replay

/-! ## Amounts -/

/-- What is paid. -/
def TpccTransaction.amount : TpccTransaction → ℤ
  | newOrder .. => 0
  | payment _ _ _ _ _ hAmount => hAmount

/-- What is paid in all, whatever the signs are. -/
def spent (txns : List (RemoraTransaction TpccTransaction)) : ℤ :=
  (txns.map fun t => |t.transaction.amount|).sum

theorem spent_append (txns txns' : List (RemoraTransaction TpccTransaction)) :
    spent (txns ++ txns') = spent txns + spent txns' := by
  rw [spent, List.map_append, List.sum_append]
  rfl

theorem spent_nonneg (txns : List (RemoraTransaction TpccTransaction)) : 0 ≤ spent txns := by
  refine List.sum_nonneg fun x hx => ?_
  obtain ⟨t, -, rfl⟩ := List.mem_map.mp hx
  exact abs_nonneg _

theorem spent_take_succ {txns : List (RemoraTransaction TpccTransaction)} {n : ℕ}
    {t : RemoraTransaction TpccTransaction} (h : txns[n]? = some t) :
    spent (txns.take (n + 1)) = spent (txns.take n) + |t.transaction.amount| := by
  rw [List.take_add_one, h, spent_append]
  simp [spent]

theorem spent_take_le (txns : List (RemoraTransaction TpccTransaction)) (n : ℕ) :
    spent (txns.take n) ≤ spent txns := by
  have h := spent_append (txns.take n) (txns.drop n)
  rw [List.take_append_drop] at h
  have := spent_nonneg (txns.drop n)
  omega

section Amounts

variable {D : Draws} {W : ℕ} (hrows : Set.InjOn P.objectId {k | k ∈ initialRows W})
include hrows

/-- The accounts as they are opened. -/
theorem accounts_initObjects :
    (∀ w ∈ warehouses W, wYtd P (initObjects P D W) w = initialWYtdCents) ∧
    (∀ w ∈ warehouses W, ∀ d ∈ districts, dYtd P (initObjects P D W) (w, d) = initialDYtdCents) ∧
    ∀ c ∈ customers W, cBalance P (initObjects P D W) c = initialBalanceCents ∧
      cYtdPayment P (initObjects P D W) c = initialYtdPaymentCents := by
  refine ⟨fun w hw => ?_, fun w hw d hd => ?_, fun c hc => ?_⟩
  · rw [wYtd, row_initObjects D hrows (warehouse_mem.mpr hw)]
    rfl
  · rw [dYtd, row_initObjects D hrows (district_mem.mpr ⟨hw, hd⟩)]
    rfl
  · have hrow := row_initObjects D hrows (customer_mem.mpr hc)
    simp only [cBalance, cYtdPayment, hrow]
    exact ⟨rfl, rfl⟩

/-- Accounts that have not moved far do not overflow. -/
theorem noOverflow_of_within {S : Objects β} {y : ℤ}
    (h : Within (scope W) (books P (initObjects P D W)) (books P S) y) {txn : TpccTransaction}
    (hK : ∀ k ∈ txn.rows, k ∈ initialRows W)
    (hy : initialWYtdCents + (y + |txn.amount|) < 2 ^ 63) : NoOverflow P S txn := by
  cases txn with
  | newOrder wId dId cId items => trivial
  | payment wId dId cWId cDId cId hAmount =>
    obtain ⟨hw, ⟨-, hd⟩, hc⟩ := payment_rows_mem hK
    obtain ⟨hwarehouse, hdistrict, hcustomer⟩ := accounts_initObjects (D := D) hrows
    have h1 := abs_le.mp (h.group wId hw)
    have h2 := abs_le.mp (h.member wId hw dId hd)
    have h3 := abs_le.mp (h.balance (cWId, cDId, cId) hc)
    have h4 := abs_le.mp (h.paid (cWId, cDId, cId) hc)
    have hamount := abs_le.mp (le_refl |hAmount|)
    simp only [books, hwarehouse wId hw, hdistrict wId hw dId hd, (hcustomer _ hc).1,
      (hcustomer _ hc).2, initialWYtdCents, initialDYtdCents, initialBalanceCents,
      initialYtdPaymentCents] at h1 h2 h3 h4
    simp only [TpccTransaction.amount, initialWYtdCents] at hy
    simp only [NoOverflow, InI64]
    omega

/-- The accounts move by what is paid. -/
theorem within_of_apply {t : RemoraTransaction TpccTransaction} {S S' : Objects β} {y : ℤ}
    (ht : Allowed P W S t) (hS : Populated P S W) (h : apply P t S = some S')
    (hwithin : Within (scope W) (books P (initObjects P D W)) (books P S) y) :
    Within (scope W) (books P (initObjects P D W)) (books P S') (y + |t.transaction.amount|) := by
  cases htxn : t.transaction with
  | newOrder wId dId cId items =>
    obtain ⟨-, hagree⟩ := agree_of_newOrder hrows ht.built ht.rows h hS htxn
    exact (hwithin.congr hagree).mono (le_add_of_nonneg_right (abs_nonneg _))
  | payment wId dId cWId cDId cId hAmount =>
    exact (hwithin.post _).congr (agree_of_payment hrows ht.built ht.rows h htxn ht.fits)

end Amounts

/-! ## What one node computes -/

/-- What is known of the store after the first `n` transactions. -/
structure Replayed (P : Platform β) (D : Draws) (W : ℕ) (C : Primary TpccTransaction)
    (runs : ℕ → Bool) (n : ℕ) (S : Objects β) : Prop where
  logged : (loggedRuns P D W).ReachableVia (fun _ t => Placed P {k | k ∈ initialRows W} t)
    ⟨S, executedTxns runs C.txns n⟩
  money : (Tpcc.runs P D W).ReachableVia (Allowed P W) S
  within : Within (scope W) (books P (initObjects P D W)) (books P S) (spent (C.txns.take n))
  /-- What no transaction declares stays as it was. -/
  kept : ∀ o, (∀ i t, C.transaction i = some t → o ∉ t.outputIds) → S o = initObjects P D W o

section Replayed

variable {D : Draws} {W : ℕ} {C : Primary TpccTransaction} {runs : ℕ → Bool}
  (hrows : Set.InjOn P.objectId {k | k ∈ initialRows W})
  (hplaced : ∀ t ∈ C.txns, Placed P {k | k ∈ initialRows W} t)
include hplaced

/-- The executor commits the outputs and changes nothing else. -/
theorem output_of_apply {i : ℕ} {t : RemoraTransaction TpccTransaction}
    (ht : C.transaction i = some t) {S S' : Objects β} (h : apply P t S = some S') :
    (∀ o ∈ t.outputIds, (S o).isSome ∧ ∃ x, (executor P).output t S o = some x ∧ S' o = some x) ∧
      ∀ o ∉ t.outputIds, S' o = S o := by
  have hbuilt := (transaction_placed hplaced ht).1.built
  obtain ⟨houtputs, hothers⟩ := Executor.run_eq_some ((executor_run hbuilt).trans h)
  refine ⟨fun o ho => ⟨?_, ?_⟩, hothers⟩
  · obtain ⟨k, hk, rfl⟩ := TpccTransaction.mem_accessSet_iff.mp (hbuilt.mem_outputIds.mp ho)
    exact isSome_of_apply hbuilt h (List.mem_append_left _ hk)
  · obtain ⟨hsome, heq⟩ := houtputs o ho
    obtain ⟨x, hx⟩ := Option.isSome_iff_exists.mp hsome
    exact ⟨x, hx, heq.trans hx⟩

include hrows

/-- No transaction declares an item. -/
theorem item_notMem_outputIds {k : PrimaryKey} (hk : k ∈ initialRows W) (hitem : k.kind = .item)
    {i : ℕ} {t : RemoraTransaction TpccTransaction} (ht : C.transaction i = some t) :
    P.objectId k ∉ t.outputIds := by
  obtain ⟨hbuilt, hK, -⟩ := (transaction_placed hplaced ht).1
  rw [hbuilt.mem_outputIds, TpccTransaction.mem_accessSet_iff]
  rintro ⟨k', hk', heq⟩
  obtain rfl := hrows (hK k' (List.mem_append_left _ hk')) hk heq
  exact TpccTransaction.kind_of_mem_accessRows hk' hitem

/-- A proxy that has read the inputs computes what one node does. -/
theorem output_view {i : ℕ} {t : RemoraTransaction TpccTransaction}
    (ht : C.transaction i = some t) {S R : Objects β}
    (hS : ∀ o, (∀ i t, C.transaction i = some t → o ∉ t.outputIds) → S o = initObjects P D W o)
    (hR : ∀ o ∈ t.outputIds, R o = S o) (o : ObjectID) :
    (proxyExecutor P (initObjects P D W)).output t R o = (executor P).output t S o := by
  obtain ⟨hbuilt, hK, -⟩ := (transaction_placed hplaced ht).1
  have hview : ∀ o ∈ footprint P t.transaction, view (initObjects P D W) t R o = S o := by
    rintro o (ho | ho)
    · have ho := hbuilt.mem_outputIds.mpr ho
      rw [view, if_pos ho, hR o ho]
    · obtain ⟨k, hk, rfl⟩ := TpccTransaction.mem_itemIds_iff.mp ho
      have hno {j : ℕ} {u : RemoraTransaction TpccTransaction} (hu : C.transaction j = some u) :=
        item_notMem_outputIds hrows hplaced (hK k (List.mem_append_right _ hk))
          (TpccTransaction.kind_of_mem_itemRows hk) hu
      rw [view, if_neg (hno ht), hS _ fun j u hu => hno hu]
  simp only [proxyExecutor, executor, execute_congr hbuilt hview]

theorem replayed (hspent : initialWYtdCents + spent C.txns < 2 ^ 63) {n : ℕ}
    (hn : n ≤ C.txns.length) {S : Objects β}
    (h : replay P C runs (initObjects P D W) n = some S) : Replayed P D W C runs n S := by
  induction n generalizing S with
  | zero =>
    obtain rfl := Option.some.inj h
    exact ⟨.init (by simp [loggedRuns, executedTxns]), .init rfl, Within.refl _, fun _ _ => rfl⟩
  | succ n ih =>
    obtain ⟨S₁, h₁, h⟩ := Option.bind_eq_some_iff.mp h
    obtain ⟨hlogged, hmoney, hwithin, hkept⟩ := ih (Nat.le_of_succ_le hn) h₁
    have hget : C.txns[n]? = some C.txns[n] := List.getElem?_eq_getElem hn
    have hexecuted := executedTxns_succ runs hget
    have htake := spent_take_succ hget
    split_ifs at h with hr
    · obtain ⟨t, ht, h⟩ := Option.bind_eq_some_iff.mp h
      obtain ⟨hplace, t₀, ht₀, htxn⟩ := transaction_placed hplaced ht
      obtain rfl := Option.some.inj (hget.symm.trans ht₀)
      rw [if_pos hr, ← htxn] at hexecuted
      rw [← htxn] at htake
      have hfits : NoOverflow P S₁ t.transaction := by
        refine noOverflow_of_within hrows hwithin hplace.rows ?_
        have := spent_take_le C.txns (n + 1)
        omega
      have hallowed : Allowed P W S₁ t := ⟨hplace.built, hplace.rows, hfits⟩
      refine ⟨?_, reachable_apply hmoney hallowed h, ?_, fun o ho => ?_⟩
      · rw [hexecuted]
        exact reachable_loggedRuns hlogged hplace h
      · rw [htake]
        exact within_of_apply hrows hallowed (journal_of_reachable hrows hmoney).1 h hwithin
      · rw [(output_of_apply hplaced ht h).2 o (ho n t ht), hkept o ho]
    · obtain rfl := Option.some.inj h
      rw [if_neg hr, List.append_nil] at hexecuted
      refine ⟨hexecuted ▸ hlogged, hmoney, ?_, hkept⟩
      rw [htake]
      exact hwithin.mono (le_add_of_nonneg_right (abs_nonneg _))

omit hplaced in
/-- No money is lost. -/
theorem Replayed.moneyConserved {n : ℕ} {S : Objects β} (h : Replayed P D W C runs n S) :
    MoneyConserved P W (initObjects P D W) S := by
  obtain ⟨hpopulated, B, hB, hagree⟩ := journal_of_reachable hrows h.money
  have hbalanced := (balanced_of_reachable (balanced_initObjects hrows) hB).congr hagree
  exact ⟨hpopulated, hbalanced.group, hbalanced.client, hbalanced.total⟩

omit hplaced in
/-- The counters are those of the transactions executed. -/
theorem Replayed.counted {n : ℕ} {S : Objects β} (h : Replayed P D W C runs n S) :
    Counted P W ⟨S, executedTxns runs C.txns n⟩ :=
  counted_of_reachable hrows (fun _ hk => hk) h.logged

variable (hspent : initialWYtdCents + spent C.txns < 2 ^ 63)
include hspent

/-- An executor that returns at least what a proxy's does leaves the same stores. -/
theorem sequential_of_replay {E : Executor TpccTransaction (Object β)}
    (hE : (proxyExecutor P (initObjects P D W)).Refines E) {n : ℕ} (hn : n ≤ C.txns.length)
    {S : Objects β} (h : replay P C runs (initObjects P D W) n = some S) :
    sequential E C runs (initObjects P D W) n = S := by
  induction n generalizing S with
  | zero => exact Option.some.inj h
  | succ n ih =>
    obtain ⟨S₁, h₁, h⟩ := Option.bind_eq_some_iff.mp h
    have hkept := (replayed hrows hplaced hspent (Nat.le_of_succ_le hn) h₁).kept
    obtain rfl := ih (Nat.le_of_succ_le hn) h₁
    split_ifs at h with hr
    · obtain ⟨t, ht, h⟩ := Option.bind_eq_some_iff.mp h
      obtain ⟨houtputs, hothers⟩ := output_of_apply hplaced ht h
      have hsome : ∀ o ∈ t.outputIds,
          (sequential E C runs (initObjects P D W) n o).isSome := fun o ho => (houtputs o ho).1
      funext o
      by_cases ho : o ∈ t.outputIds
      · obtain ⟨-, x, hx, hS⟩ := houtputs o ho
        rw [sequential_succ ht hr hsome ho, hS]
        exact hE.output ((output_view hrows hplaced ht hkept (fun _ _ => rfl) o).trans hx)
      · rw [hothers o ho]
        refine sequential_succ_of_notMem fun u hu => ?_
        obtain rfl := Option.some.inj (ht.symm.trans hu)
        exact ho
    · rw [Option.some.inj h |>.symm]
      simp only [sequential, hr]
      cases C.transaction n <;> rfl

/-- Without overflow checks, nothing panics. -/
theorem isSome_replay (hb : P.build.overflowChecks = false) {n : ℕ} (hn : n ≤ C.txns.length) :
    (replay P C runs (initObjects P D W) n).isSome := by
  induction n with
  | zero => rfl
  | succ n ih =>
    obtain ⟨S, hS⟩ := Option.isSome_iff_exists.mp (ih (Nat.le_of_succ_le hn))
    rw [replay, hS, Option.bind_some]
    split_ifs with hr
    · obtain ⟨t, ht⟩ := SharedObjTxnForwarder.transaction_of_lt hn
      obtain ⟨hbuilt, hK, -⟩ := (transaction_placed hplaced ht).1
      rw [ht, Option.bind_some]
      exact isSome_apply_of_reachable hrows hb
        (replayed hrows hplaced hspent (Nat.le_of_succ_le hn) hS).money hbuilt hK
    · rfl

end Replayed

end Tpcc

end Remora
