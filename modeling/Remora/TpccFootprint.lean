import Remora.TpccExecutor

/-!
# The footprint of a TPC-C transaction

The business logic and the declared sets are two pieces of code. They agree : what a
transaction reads is in `accessSet`, the rows of its items apart (`reads_execute`), what its
logic updates is in `writeSet` (`mem_writeSet_of_updated`), and the loop over the inputs
commits all of it, and of the other inputs the old data at the new version
(`execute_eq_some`). So the outcome is a function of the objects in the footprint
(`execute_congr`). None of it needs the rows to have distinct identifiers.
-/

namespace Remora

namespace Tpcc

open Function CachedReads Reading

variable {β : Type} {P : Platform β}

/-! ## What is read -/

/-- The objects a transaction reads. -/
def footprint (P : Platform β) (txn : TpccTransaction) : Set ObjectID :=
  {o | o ∈ txn.accessSet P ∨ o ∈ txn.itemIds P}

section Reads

variable {F : Set ObjectID} {v : SequenceNumber} {wId : ℕ}

theorem readsIn_readTpccData {k : PrimaryKey} (hk : P.objectId k ∈ F) :
    ReadsIn F (readTpccData P k) :=
  (ReadsIn.read hk).bind fun _ => ReadsIn.lift _

theorem readsIn_orderLine {line : OrderItem} {s : OrderState}
    (hitem : P.objectId (.item line.iId) ∈ F)
    (hstock : P.objectId (.stock line.supplyWId line.iId) ∈ F) :
    ReadsIn F (orderLine P wId line s) := by
  refine (readsIn_readTpccData hitem).bind fun _ => ReadsIn.bind ?_ fun _ =>
    (ReadsIn.lift _).bind fun _ => (ReadsIn.lift _).bind fun _ => (ReadsIn.lift _).bind fun _ =>
      ReadsIn.pure _
  unfold stockEntry
  split
  · exact ReadsIn.pure _
  · exact readsIn_readTpccData hstock

theorem readsIn_orderLines {lines : List OrderItem} {s : OrderState}
    (hitem : ∀ line ∈ lines, P.objectId (.item line.iId) ∈ F)
    (hstock : ∀ line ∈ lines, P.objectId (.stock line.supplyWId line.iId) ∈ F) :
    ReadsIn F (orderLines P wId lines s) := by
  induction lines generalizing s with
  | nil => exact ReadsIn.pure _
  | cons line lines ih =>
    rw [List.forall_mem_cons] at hitem hstock
    exact (readsIn_orderLine hitem.1 hstock.1).bind fun _ => ih hitem.2 hstock.2

/-- The logic reads the declared objects and the items. -/
theorem readsIn_executeTpccLogic (txn : TpccTransaction) :
    ReadsIn (footprint P txn) (executeTpccLogic P v txn) := by
  have hread : ∀ o ∈ txn.readSet P, o ∈ footprint P txn := fun o ho =>
    Or.inl (TpccTransaction.mem_accessSet.mpr ho)
  cases txn with
  | newOrder wId dId cId items =>
    have hlines : ∀ s, ReadsIn (footprint P (.newOrder wId dId cId items))
        (orderLines P wId items s) := fun s => by
      refine readsIn_orderLines (fun line hline => Or.inr ?_) fun line hline => hread _ ?_
      · exact List.mem_map.mpr ⟨line, hline, rfl⟩
      · exact List.mem_append_right _ (List.mem_map.mpr ⟨line, hline, rfl⟩)
    exact (readsIn_readTpccData (hread _ (by simp [TpccTransaction.readSet]))).bind fun _ =>
      (readsIn_readTpccData (hread _ (by simp [TpccTransaction.readSet]))).bind fun _ =>
      (ReadsIn.lift _).bind fun _ =>
      (readsIn_readTpccData (hread _ (by simp [TpccTransaction.readSet]))).bind fun _ =>
      (hlines _).bind fun _ => (ReadsIn.lift _).bind fun _ => ReadsIn.pure _
  | payment wId dId cWId cDId cId hAmount =>
    exact (readsIn_readTpccData (hread _ (by simp [TpccTransaction.readSet]))).bind fun _ =>
      (ReadsIn.lift _).bind fun _ =>
      (readsIn_readTpccData (hread _ (by simp [TpccTransaction.readSet]))).bind fun _ =>
      (ReadsIn.lift _).bind fun _ =>
      (readsIn_readTpccData (hread _ (by simp [TpccTransaction.readSet]))).bind fun _ =>
      (ReadsIn.lift _).bind fun _ => (ReadsIn.lift _).bind fun _ => (ReadsIn.lift _).bind fun _ =>
      ReadsIn.pure _

theorem readsIn_outputObjects {U N : Objects β} {inputs : List InputObjectKind}
    (h : ∀ x ∈ inputs, x.objectId ∈ F) : ReadsIn F (outputObjects v U inputs N) := by
  induction inputs generalizing N with
  | nil => exact ReadsIn.pure _
  | cons x inputs ih =>
    rw [List.forall_mem_cons] at h
    refine ReadsIn.bind ?_ fun _ => ih h.2
    unfold outputObject
    split
    · exact ReadsIn.pure _
    · exact (ReadsIn.read h.1).bind fun _ => ReadsIn.pure _

variable {t : RemoraTransaction TpccTransaction} (ht : Built P t)
include ht

theorem readsIn_newState : ReadsIn (footprint P t.transaction) (newState P t) := by
  refine (readsIn_executeTpccLogic _).bind fun _ => readsIn_outputObjects fun x hx => Or.inl ?_
  rw [ht] at hx
  obtain ⟨o, ho, rfl⟩ := List.mem_map.mp hx
  exact ho

/-- The objects read from the store. -/
theorem reads_execute {S : Objects β} {o : ObjectID} (ho : o ∈ (execute P t S).2) :
    o ∈ footprint P t.transaction :=
  readsIn_newState ht S o (Reading.snd_cached_subset _ Reading.coherent_empty ho)

/-- The outcome depends on the footprint only. -/
theorem execute_congr {S S' : Objects β} (h : ∀ o ∈ footprint P t.transaction, S' o = S o) :
    (execute P t S').1 = (execute P t S).1 := by
  rw [fst_execute, fst_execute]
  exact (readsIn_newState ht).eval_congr h

end Reads

/-! ## What is written -/

section Writes

variable {v : SequenceNumber} {S U N : Objects β} {o : ObjectID}

/-- An order line updates the stock it is supplied from. -/
theorem stockUpdates_of_orderLine {wId : ℕ} {line : OrderItem} {s s' : OrderState}
    (h : (orderLine P wId line s).eval S = some s') :
    ∃ stock, s'.stockUpdates =
      update s.stockUpdates (P.objectId (.stock line.supplyWId line.iId)) (some stock) := by
  simp only [orderLine, eval_bind, Option.bind_eq_some_iff] at h
  obtain ⟨item, -, entry, -, stock, -, amount, -, total, -, hs'⟩ := h
  obtain rfl := Option.some.inj hs'
  exact ⟨stock, rfl⟩

theorem isSome_stockUpdates {wId : ℕ} {lines : List OrderItem} {s s' : OrderState}
    (h : (orderLines P wId lines s).eval S = some s') :
    (s'.stockUpdates o).isSome ↔
      (s.stockUpdates o).isSome ∨ o ∈ TpccTransaction.stockIds P lines := by
  induction lines generalizing s with
  | nil =>
    obtain rfl := Option.some.inj h
    simp [TpccTransaction.stockIds]
  | cons line lines ih =>
    rw [orderLines, eval_bind, Option.bind_eq_some_iff] at h
    obtain ⟨s₁, h₁, h⟩ := h
    obtain ⟨stock, hstock⟩ := stockUpdates_of_orderLine h₁
    rw [ih h, hstock]
    simp only [TpccTransaction.stockIds, List.map_cons, List.mem_cons]
    rcases eq_or_ne o (P.objectId (.stock line.supplyWId line.iId)) with rfl | hne
    · simp
    · simp [hne]

/-- The logic updates exactly the objects of `writeSet`. -/
theorem isSome_updated {txn : TpccTransaction}
    (h : (executeTpccLogic P v txn).eval S = some U) : (U o).isSome ↔ o ∈ txn.writeSet P := by
  cases txn with
  | newOrder wId dId cId items =>
    obtain ⟨district, dNextOId, s, -, -, hs, rfl⟩ := executeNewOrder_eq_some h
    have hstock := isSome_stockUpdates (o := o) hs
    simp only [Option.isSome_none, Bool.false_eq_true, false_or] at hstock
    rw [newOrderObjects, Option.isSome_or, Option.isSome_map, Bool.or_eq_true, hstock, or_comm,
      TpccTransaction.writeSet, List.mem_cons]
    refine or_congr_left ?_
    by_cases ho : o = P.objectId (.district wId dId) <;> simp [ho]
  | payment wId dId cWId cDId cId hAmount =>
    obtain ⟨warehouse, district, customer, wYtd, dYtd, cBalance, cYtdPayment, cPaymentCnt, -, -, -,
      -, -, -, -, rfl⟩ := executePayment_eq_some h
    simp only [paymentObjects, TpccTransaction.writeSet, List.mem_cons, List.not_mem_nil, or_false,
      update_apply]
    split_ifs <;> simp [*]

/-- The logic updates objects to the next version. -/
theorem version_of_updated {txn : TpccTransaction} {x : Object β}
    (h : (executeTpccLogic P v txn).eval S = some U) (hx : U o = some x) : x.version = v := by
  cases txn with
  | newOrder wId dId cId items =>
    obtain ⟨district, dNextOId, s, -, -, -, rfl⟩ := executeNewOrder_eq_some h
    rcases Option.or_eq_some_iff.mp hx with hx | ⟨-, hx⟩
    · obtain ⟨stock, -, rfl⟩ := Option.map_eq_some_iff.mp hx
      rfl
    · rw [update_apply] at hx
      split_ifs at hx
      obtain rfl := Option.some.inj hx
      rfl
  | payment wId dId cWId cDId cId hAmount =>
    obtain ⟨warehouse, district, customer, wYtd, dYtd, cBalance, cYtdPayment, cPaymentCnt, -, -, -,
      -, -, -, -, rfl⟩ := executePayment_eq_some h
    simp only [paymentObjects, update_apply] at hx
    split_ifs at hx <;> obtain rfl := Option.some.inj hx <;> rfl

theorem version_of_committed {txn : TpccTransaction} {x : Object β}
    (h : (executeTpccLogic P v txn).eval S = some U) (hx : committed v U S o = some x) :
    x.version = v := by
  rcases Option.or_eq_some_iff.mp hx with hx | ⟨-, hx⟩
  · exact version_of_updated h hx
  · obtain ⟨y, -, rfl⟩ := Option.map_eq_some_iff.mp hx
    rfl

variable {t : RemoraTransaction TpccTransaction}

/-- Every output is at the next version. -/
theorem version_of_output {x : Object β} (h : (executor P).output t S o = some x) :
    x.version = t.nextVersion := by
  obtain ⟨N, hN, hx⟩ := Option.bind_eq_some_iff.mp h
  rw [fst_execute] at hN
  obtain ⟨U, hU, -, hcommitted⟩ := newState_eq_some hN
  rw [hcommitted] at hx
  split_ifs at hx
  exact version_of_committed hU hx

variable (ht : Built P t)
include ht

/-- The new state : the objects of `accessSet`, with what the logic has updated. -/
theorem execute_eq_some (h : (execute P t S).1 = some N) :
    ∃ U, (executeTpccLogic P t.nextVersion t.transaction).eval S = some U ∧
      (∀ o ∈ t.transaction.accessSet P, (committed t.nextVersion U S o).isSome) ∧
      ∀ o, N o = if o ∈ t.transaction.accessSet P then committed t.nextVersion U S o else none := by
  rw [fst_execute] at h
  obtain ⟨U, hU, hsome, hN⟩ := newState_eq_some h
  have hmem : ∀ o, (∃ x ∈ t.inputs, x.objectId = o) ↔ o ∈ t.transaction.accessSet P := fun o =>
    (t.mem_outputIds).symm.trans ht.mem_outputIds
  refine ⟨U, hU, fun o ho => ?_, fun o => by rw [hN]; exact if_congr (hmem o) rfl rfl⟩
  obtain ⟨x, hx, rfl⟩ := (hmem o).mpr ho
  exact hsome x hx

theorem isSome_newState (h : (execute P t S).1 = some N) :
    (N o).isSome ↔ o ∈ t.transaction.accessSet P := by
  obtain ⟨U, -, hsome, hcommitted⟩ := execute_eq_some ht h
  rw [hcommitted]
  split_ifs with ho
  · exact iff_of_true (hsome o ho) ho
  · simp [ho]

/-- A proxy's execution commits the new state. -/
theorem executor_run : (executor P).run t S = apply P t S := by
  cases hN : (execute P t S).1 with
  | none =>
    have hnone : ¬((executor P).run t S).isSome := by
      rw [Executor.isSome_run]
      intro hall
      have hmem : ∃ o, o ∈ t.transaction.readSet P := by
        cases t.transaction <;> exact ⟨_, List.mem_cons_self⟩
      obtain ⟨o, ho⟩ := hmem
      have := hall o (ht.mem_outputIds.mpr (TpccTransaction.mem_accessSet.mpr ho))
      simp [executor, hN] at this
    rw [apply, hN, Option.not_isSome_iff_eq_none.mp hnone]
    rfl
  | some N =>
    have houtput : ∀ o, (executor P).output t S o = N o := fun o => by simp [executor, hN]
    have hrun : ((executor P).run t S).isSome := by
      refine Executor.isSome_run.mpr fun o ho => ?_
      rw [houtput]
      exact (isSome_newState ht hN).mpr (ht.mem_outputIds.mp ho)
    obtain ⟨S', hS'⟩ := Option.isSome_iff_exists.mp hrun
    obtain ⟨houtputs, hothers⟩ := Executor.run_eq_some hS'
    rw [hS', apply, hN, Option.map_some]
    congr 1
    funext o
    by_cases ho : o ∈ t.outputIds
    · obtain ⟨hsome, heq⟩ := houtputs o ho
      rw [heq, houtput] at *
      obtain ⟨x, hx⟩ := Option.isSome_iff_exists.mp hsome
      rw [commit, hx]
      rfl
    · have hnone : N o = none := by
        rw [← Option.not_isSome_iff_eq_none, isSome_newState ht hN, ← ht.mem_outputIds]
        exact ho
      rw [hothers o ho, commit, hnone]
      rfl

end Writes

/-! ## The declared footprint is exact -/

/-- The same object but for its version and the start version of its owner. -/
def Rebased (v : SequenceNumber) (x y : Object β) : Prop :=
  y = { x with version := v, owner := y.owner } ∧
    ((∃ u, x.owner = .shared u) ∧ y.owner = .shared v ∨ y.owner = x.owner)

theorem rebased_update (x : Object β) (v : SequenceNumber) :
    Rebased v x (updateObjectWithVersion x v) := by
  refine ⟨rfl, ?_⟩
  unfold updateObjectWithVersion
  cases x.owner with
  | shared u => exact Or.inl ⟨⟨u, rfl⟩, rfl⟩
  | address a => exact Or.inr rfl

/-- What the declared sets promise of an execution on `S`. -/
structure ExactFootprint (P : Platform β) (t : RemoraTransaction TpccTransaction)
    (S : Objects β) : Prop where
  /-- Only the footprint is read. -/
  reads : ∀ o ∈ (execute P t S).2, o ∈ t.transaction.accessSet P ∨ o ∈ t.transaction.itemIds P
  /-- What the logic updates is declared as written, and committed. -/
  updates : ∀ N, (execute P t S).1 = some N → ∃ U,
    ((executeTpccLogic P t.nextVersion t.transaction).cached S fun _ => none).1 = some U ∧
      ∀ o x, U o = some x → o ∈ t.transaction.writeSet P ∧ N o = some x
  /-- The declared objects are committed, and no others. -/
  committed : ∀ N, (execute P t S).1 = some N →
    ∀ o, (N o).isSome ↔ o ∈ t.transaction.accessSet P
  others : ∀ S', apply P t S = some S' → ∀ o ∉ t.transaction.accessSet P, S' o = S o
  /-- An object that is only read keeps its data. -/
  kept : ∀ S', apply P t S = some S' → ∀ o ∈ t.transaction.accessSet P,
    o ∉ t.transaction.writeSet P →
      ∃ x y, S o = some x ∧ S' o = some y ∧ Rebased t.nextVersion x y
  /-- The new state depends on the footprint only. -/
  agree : ∀ S', (∀ o, o ∈ t.transaction.accessSet P ∨ o ∈ t.transaction.itemIds P → S' o = S o) →
    (execute P t S').1 = (execute P t S).1

theorem exact_footprint {t : RemoraTransaction TpccTransaction} (ht : Built P t)
    (S : Objects β) : ExactFootprint P t S where
  reads o ho := reads_execute ht ho
  updates N hN := by
    obtain ⟨U, hU, -, hcommitted⟩ := execute_eq_some ht hN
    refine ⟨U, (Reading.fst_cached _ Reading.coherent_empty).trans hU, fun o x hx => ?_⟩
    have ho : o ∈ t.transaction.writeSet P := (isSome_updated hU).mp (by simp [hx])
    refine ⟨ho, ?_⟩
    rw [hcommitted, if_pos (TpccTransaction.writeSet_subset_accessSet ho), committed, hx]
    rfl
  committed N hN o := isSome_newState ht hN
  others S' h o ho := by
    obtain ⟨N, hN, rfl⟩ := Option.map_eq_some_iff.mp h
    obtain ⟨U, -, -, hcommitted⟩ := execute_eq_some ht hN
    rw [commit, hcommitted, if_neg ho]
    rfl
  kept S' h o ho hw := by
    obtain ⟨N, hN, rfl⟩ := Option.map_eq_some_iff.mp h
    obtain ⟨U, hU, hsome, hcommitted⟩ := execute_eq_some ht hN
    have hnone : U o = none := by
      rw [← Option.not_isSome_iff_eq_none, isSome_updated hU]
      exact hw
    have hS := hsome o ho
    rw [Tpcc.committed, hnone, Option.none_or, Option.isSome_map] at hS
    obtain ⟨x, hx⟩ := Option.isSome_iff_exists.mp hS
    refine ⟨x, updateObjectWithVersion x t.nextVersion, hx, ?_, rebased_update x _⟩
    rw [commit, hcommitted, if_pos ho, Tpcc.committed, hnone, hx]
    rfl
  agree S' h := execute_congr ht h

/-- A payment of one cent in a store of three rows. -/
def onePayment : RemoraTransaction TpccTransaction :=
  TpccExecutableTransaction.new (plainPlatform ⟨true, true⟩) (.payment 1 1 1 1 1 1) 7 0 0

def threeRows : Objects (Σ kind, ObjectID × Record kind) :=
  let P := plainPlatform ⟨true, true⟩
  commit (fun _ => none) (paymentObjects P initialVersion (P.objectId (.warehouse 1))
    (P.objectId (.district 1 1)) (P.objectId (.customer 1 1 1)) ⟨1, 0, 0, "W"⟩ ⟨1, 1, 0, 0, 1, "D"⟩
    ⟨1, 1, 1, 0, 0, 0, 0, "F", "L"⟩)

theorem exact_footprint_one_payment :
    (execute (plainPlatform ⟨true, true⟩) onePayment threeRows).1.isSome ∧
      ExactFootprint (plainPlatform ⟨true, true⟩) onePayment threeRows :=
  ⟨by decide, exact_footprint (built_new _ _ _ _) threeRows⟩

end Tpcc

end Remora
