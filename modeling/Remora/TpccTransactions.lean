import Remora.TpccData

/-!
# The transactions of TPC-C

`NewOrder` and `Payment`, and the objects they declare. The sets a transaction declares are
computed from its parameters alone, apart from the executor (`readSet`, `writeSet`), and the
inputs of a transaction are the objects in either (`accessSet`), all of them shared. The rows
of the items are read too, but nothing writes them and they are not declared.
-/

namespace Remora

namespace Tpcc

variable {β : Type}

/-- An order line. -/
structure OrderItem where
  iId : ℕ
  supplyWId : ℕ
  quantity : ℕ
  deriving DecidableEq, Repr

inductive TpccTransaction
  | newOrder (wId dId cId : ℕ) (items : List OrderItem)
  | payment (wId dId cWId cDId cId : ℕ) (hAmount : ℤ)
  deriving DecidableEq, Repr

namespace TpccTransaction

variable (P : Platform β) (txn : TpccTransaction)

/-- The rows of the stock of some order lines. -/
def stockIds (items : List OrderItem) : List ObjectID :=
  items.map fun item => P.objectId (.stock item.supplyWId item.iId)

def readSet : TpccTransaction → List ObjectID
  | newOrder wId dId cId items =>
    [P.objectId (.warehouse wId), P.objectId (.district wId dId),
      P.objectId (.customer wId dId cId)] ++ stockIds P items
  | payment wId dId cWId cDId cId _ =>
    [P.objectId (.warehouse wId), P.objectId (.district wId dId),
      P.objectId (.customer cWId cDId cId)]

def writeSet : TpccTransaction → List ObjectID
  | newOrder wId dId _ items => P.objectId (.district wId dId) :: stockIds P items
  | payment wId dId cWId cDId cId _ =>
    [P.objectId (.warehouse wId), P.objectId (.district wId dId),
      P.objectId (.customer cWId cDId cId)]

/-- The objects of both sets, each once. -/
def accessSet : List ObjectID :=
  (txn.readSet P ++ txn.writeSet P).eraseDups

/-- The rows of the items of the order lines. -/
def itemIds : TpccTransaction → List ObjectID
  | newOrder _ _ _ items => items.map fun item => P.objectId (.item item.iId)
  | payment .. => []

variable {P txn} {o : ObjectID}

theorem mem_accessSet : o ∈ txn.accessSet P ↔ o ∈ txn.readSet P := by
  rw [accessSet, List.mem_eraseDups, List.mem_append, or_iff_left_iff_imp]
  cases txn with
  | newOrder wId dId cId items =>
    intro h
    rcases List.mem_cons.mp h with rfl | h
    · simp [readSet]
    · exact List.mem_append_right _ h
  | payment => exact id

theorem writeSet_subset_accessSet (h : o ∈ txn.writeSet P) : o ∈ txn.accessSet P := by
  rw [accessSet, List.mem_eraseDups, List.mem_append]
  exact Or.inr h

end TpccTransaction

/-! ## The rows of a transaction -/

namespace TpccTransaction

/-- The rows of the objects a transaction declares. -/
def accessRows : TpccTransaction → List PrimaryKey
  | newOrder wId dId cId items =>
    [.warehouse wId, .district wId dId, .customer wId dId cId] ++
      items.map fun item => .stock item.supplyWId item.iId
  | payment wId dId cWId cDId cId _ =>
    [.warehouse wId, .district wId dId, .customer cWId cDId cId]

/-- The rows of the items of the order lines. -/
def itemRows : TpccTransaction → List PrimaryKey
  | newOrder _ _ _ items => items.map fun item => .item item.iId
  | payment .. => []

/-- The rows a transaction refers to. -/
def rows (txn : TpccTransaction) : List PrimaryKey :=
  txn.accessRows ++ txn.itemRows

variable {P : Platform β} {txn : TpccTransaction} {o : ObjectID} {k : PrimaryKey}

theorem mem_accessSet_iff : o ∈ txn.accessSet P ↔ ∃ k ∈ txn.accessRows, P.objectId k = o := by
  rw [mem_accessSet, ← List.mem_map]
  cases txn <;> simp [readSet, stockIds, accessRows]

theorem mem_itemIds_iff : o ∈ txn.itemIds P ↔ ∃ k ∈ txn.itemRows, P.objectId k = o := by
  rw [← List.mem_map]
  cases txn <;> simp [itemIds, itemRows]

theorem district_mem_rows {wId dId cId : ℕ} {items : List OrderItem} :
    .district wId dId ∈ (newOrder wId dId cId items).rows := by
  simp [rows, accessRows]

theorem stock_mem_rows {wId dId cId : ℕ} {items : List OrderItem} {line : OrderItem}
    (h : line ∈ items) : .stock line.supplyWId line.iId ∈ (newOrder wId dId cId items).rows :=
  List.mem_append_left _ (List.mem_append_right _ (List.mem_map.mpr ⟨line, h, rfl⟩))

/-- No item is declared. -/
theorem kind_of_mem_accessRows (h : k ∈ txn.accessRows) : k.kind ≠ .item := by
  cases txn with
  | newOrder wId dId cId items =>
    simp only [accessRows, List.mem_append, List.mem_cons, List.not_mem_nil, or_false,
      List.mem_map] at h
    rcases h with (rfl | rfl | rfl) | ⟨item, -, rfl⟩ <;> simp
  | payment wId dId cWId cDId cId hAmount =>
    simp only [accessRows, List.mem_cons, List.not_mem_nil, or_false] at h
    rcases h with rfl | rfl | rfl <;> simp

theorem kind_of_mem_itemRows (h : k ∈ txn.itemRows) : k.kind = .item := by
  cases txn with
  | newOrder wId dId cId items =>
    obtain ⟨item, -, rfl⟩ := List.mem_map.mp h
    rfl
  | payment => simp [itemRows] at h

end TpccTransaction

/-! ## Transactions as built -/

/-- The inputs of `TpccExecutableTransaction::new`. -/
def inputsOf (P : Platform β) (txn : TpccTransaction) : List InputObjectKind :=
  (txn.accessSet P).map .sharedMoveObject

namespace TpccExecutableTransaction

/-- `TpccExecutableTransaction::new`, with the digest it draws, and with its durations. -/
def new (P : Platform β) (txn : TpccTransaction) (digest : TransactionDigest)
    (verificationDuration expectedStatefulDuration : ℕ) : RemoraTransaction TpccTransaction :=
  .new txn digest (inputsOf P txn) verificationDuration expectedStatefulDuration

end TpccExecutableTransaction

/-- The transaction was built by `TpccExecutableTransaction::new`. Its shared objects may have
got versions since. -/
def Built (P : Platform β) (t : RemoraTransaction TpccTransaction) : Prop :=
  t.inputs = inputsOf P t.transaction

section Built

variable {P : Platform β} {t : RemoraTransaction TpccTransaction} {o : ObjectID}

theorem built_new (txn : TpccTransaction) (digest : TransactionDigest) (v s : ℕ) :
    Built P (TpccExecutableTransaction.new P txn digest v s) := rfl

theorem Built.mem_outputIds (h : Built P t) :
    o ∈ t.outputIds ↔ o ∈ t.transaction.accessSet P := by
  rw [t.mem_outputIds, h]
  simp [inputsOf, InputObjectKind.objectId]

theorem Built.isShared (h : Built P t) {x : InputObjectKind} (hx : x ∈ t.inputs) :
    x.isShared = true := by
  rw [h] at hx
  obtain ⟨o, -, rfl⟩ := List.mem_map.mp hx
  rfl

end Built

end Tpcc

end Remora
