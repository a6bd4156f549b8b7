import Remora.TpccExecutor
import Mathlib.Order.Interval.Finset.Nat

/-!
# The initial TPC-C store

`init_objects` writes a row for every item, and for every warehouse its districts with their
customers, and its stock. Each row gets one number from a generator that starts from a fixed
seed : a price, a tax, a discount or a quantity. Nothing depends on which numbers these are, so
they are any numbers in their ranges (`Draws`).

If the rows have distinct identifiers, each of them is there (`row_initObjects`).
-/

namespace Remora

namespace Tpcc

open Function

/-! ## Constants -/

def numItems : ℕ := 100000

def districtsPerWarehouse : ℕ := 10

def customersPerDistrict : ℕ := 3000

def stockPerWarehouse : ℕ := 100000

def initialWYtdCents : ℤ := 30000000

def initialDYtdCents : ℤ := 3000000

def initialBalanceCents : ℤ := -1000

def initialYtdPaymentCents : ℤ := 1000

def initialPaymentCnt : ℕ := 1

def initialNextOId : ℕ := 3001

def maxOlQuantity : ℕ := 10

/-- The range of the number drawn for a row of the table. -/
def drawRange : TpccObjectKind → ℕ × ℕ
  | .warehouse | .district => (0, 2000)
  | .customer => (0, 5000)
  | .stock => (10, 100)
  | .item => (100, 10000)

/-- What the generator draws for the rows. -/
structure Draws where
  draw : PrimaryKey → ℕ
  mem_range : ∀ k, (drawRange k.kind).1 ≤ draw k ∧ draw k ≤ (drawRange k.kind).2

/-! ## Rows -/

/-- A row as it is written first. -/
def initialRecord (D : Draws) : ∀ k : PrimaryKey, Record k.kind
  | .warehouse wId => {
      wId := wId
      wYtd := initialWYtdCents
      wTax := D.draw (.warehouse wId)
      wName := s!"Warehouse_{wId}" }
  | .district wId dId => {
      dId := dId
      dWId := wId
      dYtd := initialDYtdCents
      dTax := D.draw (.district wId dId)
      dNextOId := initialNextOId
      dName := s!"District_{wId}_{dId}" }
  | .customer wId dId cId => {
      cId := cId
      cDId := dId
      cWId := wId
      cBalance := initialBalanceCents
      cYtdPayment := initialYtdPaymentCents
      cPaymentCnt := initialPaymentCnt
      cDiscount := D.draw (.customer wId dId cId)
      cFirst := s!"First_{cId}"
      cLast := s!"Last_{cId}" }
  | .stock wId iId => {
      sIId := iId
      sWId := wId
      sQuantity := D.draw (.stock wId iId)
      sYtd := 0
      sOrderCnt := 0
      sRemoteCnt := 0 }
  | .item iId => {
      iId := iId
      iPrice := D.draw (.item iId)
      iName := s!"Item_{iId}"
      iData := s!"ItemData_{iId}" }

/-- `1..=n`. -/
def oneTo (n : ℕ) : List ℕ :=
  List.range' 1 n

/-- The rows that belong to a district. -/
def districtRows (wId dId : ℕ) : List PrimaryKey :=
  .district wId dId :: (oneTo customersPerDistrict).map (.customer wId dId)

/-- The rows that belong to a warehouse. -/
def warehouseRows (wId : ℕ) : List PrimaryKey :=
  .warehouse wId :: (oneTo districtsPerWarehouse).flatMap (districtRows wId) ++
    (oneTo stockPerWarehouse).map (.stock wId)

/-- All rows, in the order in which they are written. The number of warehouses is cut to 32
bits. -/
@[irreducible] def initialRows (numWarehouses : ℕ) : List PrimaryKey :=
  (oneTo numItems).map .item ++ (oneTo (numWarehouses % 2 ^ 32)).flatMap warehouseRows

/-- The warehouses. -/
@[irreducible] def warehouses (numWarehouses : ℕ) : Finset ℕ :=
  Finset.Icc 1 (numWarehouses % 2 ^ 32)

/-- The districts of a warehouse. -/
@[irreducible] def districts : Finset ℕ :=
  Finset.Icc 1 districtsPerWarehouse

/-- The customers of all districts. -/
@[irreducible] def customers (numWarehouses : ℕ) : Finset (ℕ × ℕ × ℕ) :=
  warehouses numWarehouses ×ˢ districts ×ˢ Finset.Icc 1 customersPerDistrict

section Membership

variable {W wId dId cId : ℕ} {c : ℕ × ℕ × ℕ}

theorem mem_oneTo {n m : ℕ} : m ∈ oneTo n ↔ 1 ≤ m ∧ m ≤ n := by
  rw [oneTo, List.mem_range'_1]
  omega

theorem warehouse_mem : .warehouse wId ∈ initialRows W ↔ wId ∈ warehouses W := by
  simp [initialRows, warehouseRows, districtRows, warehouses, mem_oneTo]

theorem district_mem :
    .district wId dId ∈ initialRows W ↔ wId ∈ warehouses W ∧ dId ∈ districts := by
  simp [initialRows, warehouseRows, districtRows, warehouses, districts, mem_oneTo]

theorem customer_mem : .customer c.1 c.2.1 c.2.2 ∈ initialRows W ↔ c ∈ customers W := by
  simp [initialRows, warehouseRows, districtRows, customers, warehouses, districts, mem_oneTo,
    and_assoc]

theorem stock_mem {iId : ℕ} : .stock wId iId ∈ initialRows W ↔
    wId ∈ warehouses W ∧ 1 ≤ iId ∧ iId ≤ stockPerWarehouse := by
  simp [initialRows, warehouseRows, districtRows, warehouses, mem_oneTo]

theorem item_mem {iId : ℕ} : .item iId ∈ initialRows W ↔ 1 ≤ iId ∧ iId ≤ numItems := by
  simp [initialRows, warehouseRows, districtRows, mem_oneTo]

theorem mem_warehouses : wId ∈ warehouses W ↔ 1 ≤ wId ∧ wId ≤ W % 2 ^ 32 := by
  unfold warehouses
  exact Finset.mem_Icc

theorem mem_districts : dId ∈ districts ↔ 1 ≤ dId ∧ dId ≤ districtsPerWarehouse := by
  unfold districts
  exact Finset.mem_Icc

theorem customer_mem_iff : .customer wId dId cId ∈ initialRows W ↔
    wId ∈ warehouses W ∧ dId ∈ districts ∧ 1 ≤ cId ∧ cId ≤ customersPerDistrict := by
  have h : .customer wId dId cId ∈ initialRows W ↔ (wId, dId, cId) ∈ customers W :=
    customer_mem (c := (wId, dId, cId))
  rw [h, customers, Finset.mem_product, Finset.mem_product, Finset.mem_Icc]

end Membership

/-! ## The store -/

variable {β : Type} (P : Platform β) (D : Draws)

/-- `write_object` of a row at its first version. -/
def writeRow (S : Objects β) (k : PrimaryKey) : Objects β :=
  update S (P.objectId k)
    (some (encodeTpccObject P k.kind (P.objectId k) initialVersion (initialRecord D k)))

def initObjects (numWarehouses : ℕ) : Objects β :=
  (initialRows numWarehouses).foldl (writeRow P D) fun _ => none

theorem foldl_writeRow_of_notMem {l : List PrimaryKey} {S : Objects β} {o : ObjectID}
    (ho : ∀ k ∈ l, P.objectId k ≠ o) : l.foldl (writeRow P D) S o = S o := by
  induction l generalizing S with
  | nil => rfl
  | cons k l ih =>
    rw [List.forall_mem_cons] at ho
    rw [List.foldl_cons, ih ho.2]
    exact update_of_ne ho.1.symm _ _

/-- A row that is written stays, if no other row has its identifier. -/
theorem foldl_writeRow {l : List PrimaryKey} {S : Objects β}
    (hinj : Set.InjOn P.objectId {k | k ∈ l}) {k : PrimaryKey} (hk : k ∈ l) :
    l.foldl (writeRow P D) S (P.objectId k) =
      some (encodeTpccObject P k.kind (P.objectId k) initialVersion (initialRecord D k)) := by
  induction l generalizing S with
  | nil => simp at hk
  | cons k₀ l ih =>
    rw [List.foldl_cons]
    by_cases hkl : k ∈ l
    · exact ih (hinj.mono fun k' hk' => List.mem_cons_of_mem k₀ hk') hkl
    · obtain rfl : k = k₀ := (List.mem_cons.mp hk).resolve_right hkl
      rw [foldl_writeRow_of_notMem]
      · exact update_self _ _ _
      · intro k' hk' heq
        exact hkl (hinj (List.mem_cons_of_mem k hk') hk heq ▸ hk')

section Present

variable {P D} {W : ℕ}

theorem isSome_writeRow {S : Objects β} {o : ObjectID} (k : PrimaryKey) (h : (S o).isSome) :
    (writeRow P D S k o).isSome := by
  rw [writeRow, Function.update_apply]
  split_ifs
  · rfl
  · exact h

theorem isSome_foldl_writeRow {l : List PrimaryKey} {S : Objects β} {o : ObjectID}
    (h : (S o).isSome ∨ ∃ k ∈ l, P.objectId k = o) : (l.foldl (writeRow P D) S o).isSome := by
  induction l generalizing S with
  | nil => simpa using h
  | cons k l ih =>
    refine ih ?_
    rcases h with h | ⟨k', hk', rfl⟩
    · exact Or.inl (isSome_writeRow k h)
    rcases List.mem_cons.mp hk' with rfl | hk'
    · exact Or.inl (by simp [writeRow])
    · exact Or.inr ⟨k', hk', rfl⟩

/-- The objects of the initial rows are there, whatever their identifiers are. -/
theorem isSome_initObjects {k : PrimaryKey} (hk : k ∈ initialRows W) :
    (initObjects P D W (P.objectId k)).isSome :=
  isSome_foldl_writeRow (Or.inr ⟨k, hk, rfl⟩)

end Present

variable {P} {W : ℕ} (hrows : Set.InjOn P.objectId {k | k ∈ initialRows W})
include hrows

theorem row_initObjects {k : PrimaryKey} (hk : k ∈ initialRows W) :
    row P (initObjects P D W) k = some (initialRecord D k) := by
  rw [row, initObjects, foldl_writeRow P D hrows hk, Option.bind_some, decode_encode]

end Tpcc

end Remora
