import Remora.CachedReads
import Remora.TpccTransactions

/-!
# The TPC-C executor

The business logic of `NewOrder` and `Payment`, and around it the loop over the declared
inputs : an input that the logic has updated gets the updated object, any other one its old
data at the next version. The objects are read through a cache that lasts for one
transaction, so that all of it is one `Reading`, and `execute` runs it with an empty cache.

What the logic updates is a map from identifiers. Two rows with one identifier share its
entry, the later one wins, and if they are of different tables a read may panic.
-/

namespace Remora

namespace Tpcc

open Function CachedReads

variable {β : Type} (P : Platform β)

/-- A map of objects. -/
abbrev Objects (β : Type) := ObjectID → Option (Object β)

def readTpccData (k : PrimaryKey) : Reading ObjectID (Object β) (Record k.kind) := do
  let object ← Reading.read (P.objectId k)
  Reading.lift (decodeTpccData P object k.kind)

@[simp] theorem eval_readTpccData (S : Objects β) (k : PrimaryKey) :
    (readTpccData P k).eval S = row P S k := by
  simp [readTpccData, row]

/-! ## New orders -/

/-- What an order line does to the stock it is supplied from. -/
def updateStock (b : Build) (wId : ℕ) (line : OrderItem) (stock : Stock) : Option Stock := do
  let quantity := (line.quantity : ℤ).bmod (2 ^ 32)
  let bound ← b.signed 32 (quantity + 10)
  let sQuantity ←
    if bound ≤ stock.sQuantity then b.signed 32 (stock.sQuantity - quantity)
    else do
      let change ← b.signed 32 (91 - quantity)
      b.signed 32 (stock.sQuantity + change)
  let sYtd ← b.unsigned 32 (stock.sYtd + line.quantity)
  let sOrderCnt ← b.unsigned 32 (stock.sOrderCnt + 1)
  let sRemoteCnt ←
    if line.supplyWId ≠ wId then b.unsigned 32 (stock.sRemoteCnt + 1) else some stock.sRemoteCnt
  some { stock with
    sQuantity := sQuantity
    sYtd := sYtd
    sOrderCnt := sOrderCnt
    sRemoteCnt := sRemoteCnt }

/-- The variables of the loop over the order lines. -/
structure OrderState where
  stockUpdates : ObjectID → Option Stock
  totalCents : ℤ

/-- The entry of a stock row, read if it is not there yet. -/
def stockEntry (s : OrderState) (line : OrderItem) : Reading ObjectID (Object β) Stock :=
  match s.stockUpdates (P.objectId (.stock line.supplyWId line.iId)) with
  | some stock => pure stock
  | none => readTpccData P (.stock line.supplyWId line.iId)

def orderLine (wId : ℕ) (line : OrderItem) (s : OrderState) :
    Reading ObjectID (Object β) OrderState := do
  let item : Item ← readTpccData P (.item line.iId)
  let entry ← stockEntry P s line
  let stock ← Reading.lift (updateStock P.build wId line entry)
  let olAmountCents ← Reading.lift (P.build.signed 64 (item.iPrice * line.quantity))
  let totalCents ← Reading.lift (P.build.signed 64 (s.totalCents + olAmountCents))
  pure {
    stockUpdates :=
      update s.stockUpdates (P.objectId (.stock line.supplyWId line.iId)) (some stock)
    totalCents := totalCents }

def orderLines (wId : ℕ) : List OrderItem → OrderState → Reading ObjectID (Object β) OrderState
  | [], s => pure s
  | line :: lines, s => do
    let s ← orderLine P wId line s
    orderLines wId lines s

def rateScale : ℤ := 10000

/-- The total of an order, which nothing uses. Its operations may overflow. -/
def finalTotalCents (b : Build) (totalCents : ℤ) (wTax dTax cDiscount : ℕ) : Option ℤ := do
  let discounted ← b.signed 128 (totalCents * (rateScale - cDiscount))
  let taxed ← b.signed 128 (discounted * (rateScale + wTax + dTax))
  some (taxed.tdiv (rateScale * rateScale))

/-- `updated_objects` of a new order : the district, and the rows of the stock. -/
def newOrderObjects (nextVersion : SequenceNumber) (districtId : ObjectID) (district : District)
    (stockUpdates : ObjectID → Option Stock) : Objects β :=
  let updatedObjects := update (fun _ => none) districtId
    (some (encodeTpccObject P .district districtId nextVersion district))
  fun o => ((stockUpdates o).map fun stock =>
    encodeTpccObject P .stock o nextVersion stock).or (updatedObjects o)

def executeNewOrder (nextVersion : SequenceNumber) (wId dId cId : ℕ) (items : List OrderItem) :
    Reading ObjectID (Object β) (Objects β) := do
  let warehouse : Warehouse ← readTpccData P (.warehouse wId)
  let district : District ← readTpccData P (.district wId dId)
  let dNextOId ← Reading.lift (P.build.unsigned 32 (district.dNextOId + 1))
  let customer : Customer ← readTpccData P (.customer wId dId cId)
  let s ← orderLines P wId items ⟨fun _ => none, 0⟩
  let _ ← Reading.lift (finalTotalCents P.build s.totalCents warehouse.wTax district.dTax
    customer.cDiscount)
  pure (newOrderObjects P nextVersion (P.objectId (.district wId dId))
    { district with dNextOId := dNextOId } s.stockUpdates)

/-! ## Payments -/

/-- `updated_objects` of a payment : the warehouse, the district and the customer. -/
def paymentObjects (nextVersion : SequenceNumber) (warehouseId districtId customerId : ObjectID)
    (warehouse : Warehouse) (district : District) (customer : Customer) : Objects β :=
  let updatedObjects := update (fun _ => none) warehouseId
    (some (encodeTpccObject P .warehouse warehouseId nextVersion warehouse))
  let updatedObjects := update updatedObjects districtId
    (some (encodeTpccObject P .district districtId nextVersion district))
  update updatedObjects customerId
    (some (encodeTpccObject P .customer customerId nextVersion customer))

def executePayment (nextVersion : SequenceNumber) (wId dId cWId cDId cId : ℕ) (hAmount : ℤ) :
    Reading ObjectID (Object β) (Objects β) := do
  let warehouse : Warehouse ← readTpccData P (.warehouse wId)
  let wYtd ← Reading.lift (P.build.signed 64 (warehouse.wYtd + hAmount))
  let district : District ← readTpccData P (.district wId dId)
  let dYtd ← Reading.lift (P.build.signed 64 (district.dYtd + hAmount))
  let customer : Customer ← readTpccData P (.customer cWId cDId cId)
  let cBalance ← Reading.lift (P.build.signed 64 (customer.cBalance - hAmount))
  let cYtdPayment ← Reading.lift (P.build.signed 64 (customer.cYtdPayment + hAmount))
  let cPaymentCnt ← Reading.lift (P.build.unsigned 32 (customer.cPaymentCnt + 1))
  pure (paymentObjects P nextVersion (P.objectId (.warehouse wId))
    (P.objectId (.district wId dId)) (P.objectId (.customer cWId cDId cId))
    { warehouse with wYtd := wYtd } { district with dYtd := dYtd }
    { customer with
      cBalance := cBalance
      cYtdPayment := cYtdPayment
      cPaymentCnt := cPaymentCnt })

/-! ## The execution of a transaction -/

def executeTpccLogic (nextVersion : SequenceNumber) :
    TpccTransaction → Reading ObjectID (Object β) (Objects β)
  | .newOrder wId dId cId items => executeNewOrder P nextVersion wId dId cId items
  | .payment wId dId cWId cDId cId hAmount =>
    executePayment P nextVersion wId dId cWId cDId cId hAmount

/-- The object committed for an input. -/
def outputObject (nextVersion : SequenceNumber) (updatedObjects : Objects β) (id : ObjectID) :
    Reading ObjectID (Object β) (Object β) :=
  match updatedObjects id with
  | some updated => pure updated
  | none => do
    let inputObject ← Reading.read id
    pure (updateObjectWithVersion inputObject nextVersion)

/-- The loop over the inputs. -/
def outputObjects (nextVersion : SequenceNumber) (updatedObjects : Objects β) :
    List InputObjectKind → Objects β → Reading ObjectID (Object β) (Objects β)
  | [], newState => pure newState
  | x :: inputs, newState => do
    let output ← outputObject nextVersion updatedObjects x.objectId
    outputObjects nextVersion updatedObjects inputs (update newState x.objectId (some output))

/-- All of `execute` but the commit. -/
def newState (t : RemoraTransaction TpccTransaction) :
    Reading ObjectID (Object β) (Objects β) := do
  let updatedObjects ← executeTpccLogic P t.nextVersion t.transaction
  outputObjects t.nextVersion updatedObjects t.inputs fun _ => none

/-- `execute` on a store : the new state, unless it panics, and what it has read from the
store. -/
def execute (t : RemoraTransaction TpccTransaction) (S : Objects β) :
    Option (Objects β) × List ObjectID :=
  (newState P t).cached S fun _ => none

/-- `commit_objects`. -/
def commit (S newState : Objects β) : Objects β :=
  fun o => (newState o).or (S o)

/-- The store after a transaction. -/
def apply (t : RemoraTransaction TpccTransaction) (S : Objects β) : Option (Objects β) :=
  (execute P t S).1.map (commit S)

/-- The executor, for a proxy. -/
def executor : Executor TpccTransaction (Object β) where
  version := Object.version
  checkUnversioned := some true
  output t S o := (execute P t S).1.bind fun newState => newState o

/-! ## What the programs compute -/

section Spec

variable {P} {S U N : Objects β} {v : SequenceNumber} {wId dId cId cWId cDId : ℕ}

theorem executeNewOrder_eq_some {items : List OrderItem}
    (h : (executeNewOrder P v wId dId cId items).eval S = some U) :
    ∃ (district : District) (dNextOId : ℕ) (s : OrderState),
      row P S (.district wId dId) = some district ∧
      P.build.unsigned 32 (district.dNextOId + 1) = some dNextOId ∧
      (orderLines P wId items ⟨fun _ => none, 0⟩).eval S = some s ∧
      U = newOrderObjects P v (P.objectId (.district wId dId))
        { district with dNextOId := dNextOId } s.stockUpdates := by
  simp only [executeNewOrder, Reading.eval_bind, Option.bind_eq_some_iff] at h
  obtain ⟨warehouse, -, district, hdistrict, dNextOId, hnext, customer, -, s, hs, total, -, hU⟩ := h
  rw [eval_readTpccData] at hdistrict
  rw [Reading.eval_lift] at hnext
  exact ⟨district, dNextOId, s, hdistrict, hnext, hs, (Option.some.inj hU).symm⟩

theorem executePayment_eq_some {hAmount : ℤ}
    (h : (executePayment P v wId dId cWId cDId cId hAmount).eval S = some U) :
    ∃ (warehouse : Warehouse) (district : District) (customer : Customer)
      (wYtd dYtd cBalance cYtdPayment : ℤ) (cPaymentCnt : ℕ),
      row P S (.warehouse wId) = some warehouse ∧
      row P S (.district wId dId) = some district ∧
      row P S (.customer cWId cDId cId) = some customer ∧
      P.build.signed 64 (warehouse.wYtd + hAmount) = some wYtd ∧
      P.build.signed 64 (district.dYtd + hAmount) = some dYtd ∧
      P.build.signed 64 (customer.cBalance - hAmount) = some cBalance ∧
      P.build.signed 64 (customer.cYtdPayment + hAmount) = some cYtdPayment ∧
      U = paymentObjects P v (P.objectId (.warehouse wId)) (P.objectId (.district wId dId))
        (P.objectId (.customer cWId cDId cId)) { warehouse with wYtd := wYtd }
        { district with dYtd := dYtd }
        { customer with
          cBalance := cBalance
          cYtdPayment := cYtdPayment
          cPaymentCnt := cPaymentCnt } := by
  simp only [executePayment, Reading.eval_bind, Option.bind_eq_some_iff, Reading.eval_lift] at h
  obtain ⟨warehouse, hw, wYtd, hwYtd, district, hd, dYtd, hdYtd, customer, hc, cBalance, hb,
    cYtdPayment, hy, cPaymentCnt, -, hU⟩ := h
  rw [eval_readTpccData] at hw hd hc
  exact ⟨warehouse, district, customer, wYtd, dYtd, cBalance, cYtdPayment, cPaymentCnt, hw, hd, hc,
    hwYtd, hdYtd, hb, hy, (Option.some.inj hU).symm⟩

/-- What is committed under `o` : what the logic has updated, or the old data. -/
def committed (v : SequenceNumber) (U S : Objects β) (o : ObjectID) : Option (Object β) :=
  (U o).or ((S o).map fun x => updateObjectWithVersion x v)

theorem eval_outputObject {o : ObjectID} :
    (outputObject v U o).eval S = committed v U S o := by
  unfold outputObject committed
  cases U o with
  | some x => rfl
  | none => simp [Option.map_eq_bind]

theorem outputObjects_eq_some {inputs : List InputObjectKind} {N' : Objects β}
    (h : (outputObjects v U inputs N).eval S = some N') :
    (∀ x ∈ inputs, (committed v U S x.objectId).isSome) ∧
      ∀ o, N' o = if ∃ x ∈ inputs, x.objectId = o then committed v U S o else N o := by
  induction inputs generalizing N with
  | nil =>
    obtain rfl := Option.some.inj h
    simp
  | cons x inputs ih =>
    rw [outputObjects, Reading.eval_bind, Option.bind_eq_some_iff] at h
    obtain ⟨y, hy, h⟩ := h
    rw [eval_outputObject] at hy
    obtain ⟨hsome, hN⟩ := ih h
    refine ⟨List.forall_mem_cons.mpr ⟨by rw [hy]; rfl, hsome⟩, fun o => ?_⟩
    rw [hN]
    by_cases ho : x.objectId = o
    · subst ho
      simp [hy]
    · simp [ho, Ne.symm ho]

/-- The new state of a transaction. -/
theorem newState_eq_some {t : RemoraTransaction TpccTransaction}
    (h : (newState P t).eval S = some N) :
    ∃ U, (executeTpccLogic P t.nextVersion t.transaction).eval S = some U ∧
      (∀ x ∈ t.inputs, (committed t.nextVersion U S x.objectId).isSome) ∧
      ∀ o, N o = if ∃ x ∈ t.inputs, x.objectId = o then committed t.nextVersion U S o else none := by
  rw [newState, Reading.eval_bind, Option.bind_eq_some_iff] at h
  obtain ⟨U, hU, h⟩ := h
  exact ⟨U, hU, outputObjects_eq_some h⟩

end Spec

theorem fst_execute (t : RemoraTransaction TpccTransaction) (S : Objects β) :
    (execute P t S).1 = (newState P t).eval S :=
  Reading.fst_cached _ Reading.coherent_empty

/-! ## Builds without overflow checks

On a store that has the rows a transaction refers to, nothing panics. -/

section Returns

open Reading

variable {P} (hb : P.build.overflowChecks = false) {S : Objects β} {v : SequenceNumber}

theorem returns_readTpccData {k : PrimaryKey} (hk : (row P S k).isSome) :
    Returns S (readTpccData P k) := by
  rw [Returns, eval_readTpccData]
  exact hk

theorem isSome_of_row {k : PrimaryKey} (hk : (row P S k).isSome) : (S (P.objectId k)).isSome :=
  Option.isSome_of_isSome_bind hk

theorem returns_outputObjects {U N : Objects β} {inputs : List InputObjectKind}
    (h : ∀ x ∈ inputs, (S x.objectId).isSome) : Returns S (outputObjects v U inputs N) := by
  induction inputs generalizing N with
  | nil => exact Returns.pure _
  | cons x inputs ih =>
    rw [List.forall_mem_cons] at h
    refine Returns.bind ?_ fun _ => ih h.2
    rw [Returns, eval_outputObject, committed, Option.isSome_or, Option.isSome_map, h.1,
      Bool.or_true]

include hb

theorem isSome_updateStock (wId : ℕ) (line : OrderItem) (stock : Stock) :
    (updateStock P.build wId line stock).isSome := by
  simp only [updateStock, Build.signed_of_unchecked hb, Build.unsigned_of_unchecked hb,
    Option.bind_eq_bind, Option.bind_some]
  split_ifs <;> rfl

theorem returns_signed (bits : ℕ) (n : ℤ) :
    Returns S (Reading.lift (P.build.signed bits n) : Reading ObjectID (Object β) ℤ) :=
  Returns.lift (by rw [Build.signed_of_unchecked hb]; rfl)

theorem returns_unsigned (bits n : ℕ) :
    Returns S (Reading.lift (P.build.unsigned bits n) : Reading ObjectID (Object β) ℕ) :=
  Returns.lift (by rw [Build.unsigned_of_unchecked hb]; rfl)

theorem returns_orderLines {wId : ℕ} {lines : List OrderItem} {s : OrderState}
    (hitem : ∀ line ∈ lines, (row P S (.item line.iId)).isSome)
    (hstock : ∀ line ∈ lines, (row P S (.stock line.supplyWId line.iId)).isSome) :
    Returns S (orderLines P wId lines s) := by
  induction lines generalizing s with
  | nil => exact Returns.pure _
  | cons line lines ih =>
    rw [List.forall_mem_cons] at hitem hstock
    have hentry : Returns S (stockEntry P s line) := by
      unfold stockEntry
      split
      · exact Returns.pure _
      · exact returns_readTpccData hstock.1
    have hline : Returns S (orderLine P wId line s) :=
      (returns_readTpccData hitem.1).bind fun _ => hentry.bind fun _ =>
        (Returns.lift (isSome_updateStock hb _ _ _)).bind fun _ =>
        (returns_signed hb _ _).bind fun _ =>
        (returns_signed hb _ _).bind fun _ => Returns.pure _
    exact hline.bind fun _ => ih hitem.2 hstock.2

theorem returns_executeTpccLogic {txn : TpccTransaction} (h : ∀ k ∈ txn.rows, (row P S k).isSome) :
    Returns S (executeTpccLogic P v txn) := by
  cases txn with
  | newOrder wId dId cId items =>
    simp only [TpccTransaction.rows, TpccTransaction.accessRows, TpccTransaction.itemRows,
      List.forall_mem_append, List.forall_mem_cons, List.forall_mem_map] at h
    obtain ⟨⟨⟨hw, hd, hc, -⟩, hstock⟩, hitem⟩ := h
    have htotal : ∀ total wTax dTax cDiscount,
        (finalTotalCents P.build total wTax dTax cDiscount).isSome := fun _ _ _ _ => by
      simp only [finalTotalCents, Build.signed_of_unchecked hb]
      rfl
    exact (returns_readTpccData hw).bind fun _ => (returns_readTpccData hd).bind fun _ =>
      (returns_unsigned hb _ _).bind fun _ =>
      (returns_readTpccData hc).bind fun _ => (returns_orderLines hb hitem hstock).bind fun _ =>
      (Returns.lift (htotal _ _ _ _)).bind fun _ => Returns.pure _
  | payment wId dId cWId cDId cId hAmount =>
    simp only [TpccTransaction.rows, TpccTransaction.accessRows, TpccTransaction.itemRows,
      List.append_nil, List.forall_mem_cons] at h
    obtain ⟨hw, hd, hc, -⟩ := h
    exact (returns_readTpccData hw).bind fun _ =>
      (returns_signed hb _ _).bind fun _ =>
      (returns_readTpccData hd).bind fun _ =>
      (returns_signed hb _ _).bind fun _ =>
      (returns_readTpccData hc).bind fun _ =>
      (returns_signed hb _ _).bind fun _ =>
      (returns_signed hb _ _).bind fun _ =>
      (returns_unsigned hb _ _).bind fun _ => Returns.pure _

/-- A transaction whose rows are there is executed. -/
theorem isSome_apply {t : RemoraTransaction TpccTransaction} (ht : Built P t)
    (h : ∀ k ∈ t.transaction.rows, (row P S k).isSome) : (apply P t S).isSome := by
  rw [apply, Option.isSome_map, fst_execute]
  refine (returns_executeTpccLogic hb h).bind fun _ => returns_outputObjects fun x hx => ?_
  have ho : x.objectId ∈ t.transaction.accessSet P :=
    ht.mem_outputIds.mp (t.mem_outputIds.mpr ⟨x, hx, rfl⟩)
  obtain ⟨k, hk, heq⟩ := TpccTransaction.mem_accessSet_iff.mp ho
  exact heq ▸ isSome_of_row (h k (List.mem_append_left _ hk))

end Returns

end Tpcc

end Remora
