import Remora.Ledger
import Remora.TpccFootprint
import Remora.TpccInit

/-!
# Money in TPC-C runs

A payment is booked with a warehouse, with one of its districts and with a customer, who may
belong to another district, and a new order rewrites the district and the stock. Over whole runs
from the initial store the rows are the accounts of `Ledger.Books` (`books`) : a new order posts
nothing and a payment posts its amount (`agree_of_newOrder`, `agree_of_payment`), so the books of
every store reached are books that a journal reaches, and those are balanced
(`money_conserved`).
-/

namespace Remora

namespace Tpcc

open Function CachedReads Ledger

variable {β : Type} {P : Platform β}

/-! ## Rows after a transaction -/

/-- A row after a transaction : what the logic has updated, or what it was. -/
theorem row_apply {t : RemoraTransaction TpccTransaction} (ht : Built P t) {S S' : Objects β}
    (h : apply P t S = some S') :
    ∃ U, (executeTpccLogic P t.nextVersion t.transaction).eval S = some U ∧
      ∀ k, row P S' k =
        (U (P.objectId k)).elim (row P S k) fun x => decodeTpccData P x k.kind := by
  obtain ⟨N, hN, rfl⟩ := Option.map_eq_some_iff.mp h
  obtain ⟨U, hU, hsome, hcommitted⟩ := execute_eq_some ht hN
  refine ⟨U, hU, fun k => ?_⟩
  rw [row, commit, hcommitted]
  by_cases ho : P.objectId k ∈ t.transaction.accessSet P
  · rw [if_pos ho]
    have hdata := hsome _ ho
    unfold committed at hdata ⊢
    cases hx : U (P.objectId k) with
    | some x => rfl
    | none =>
      rw [hx, Option.none_or, Option.isSome_map] at hdata
      obtain ⟨y, hy⟩ := Option.isSome_iff_exists.mp hdata
      simp [row, hy]
  · have hnone : U (P.objectId k) = none := by
      rw [← Option.not_isSome_iff_eq_none, isSome_updated hU]
      exact fun hw => ho (TpccTransaction.writeSet_subset_accessSet hw)
    rw [if_neg ho, hnone, Option.none_or]
    rfl

section Updated

variable {K : Set PrimaryKey} (hK : Set.InjOn P.objectId K) {v : SequenceNumber}
  {S U : Objects β} {k : PrimaryKey} {wId dId cId cWId cDId : ℕ}
include hK

/-- What a new order updates among rows with distinct identifiers : its district, of which the
next order number, and rows of the stock. -/
theorem updated_newOrder {items : List OrderItem}
    (h : (executeNewOrder P v wId dId cId items).eval S = some U)
    (hrows : ∀ k ∈ (TpccTransaction.newOrder wId dId cId items).rows, k ∈ K) (hk : k ∈ K)
    {x : Object β} (hx : U (P.objectId k) = some x) :
    (∃ district n, k = .district wId dId ∧ row P S (.district wId dId) = some district ∧
      x = encodeTpccObject P .district (P.objectId k) v { district with dNextOId := n }) ∨
    ∃ w i stock, k = .stock w i ∧ x = encodeTpccObject P .stock (P.objectId k) v stock := by
  obtain ⟨district, dNextOId, s, hdistrict, -, hs, rfl⟩ := executeNewOrder_eq_some h
  rcases Option.or_eq_some_iff.mp hx with hx | ⟨-, hx⟩
  · obtain ⟨stock, hstock, rfl⟩ := Option.map_eq_some_iff.mp hx
    have hmem : P.objectId k ∈ TpccTransaction.stockIds P items := by
      simpa [hstock] using isSome_stockUpdates (o := P.objectId k) hs
    obtain ⟨item, hitem, heq⟩ := List.mem_map.mp hmem
    have hstockK : .stock item.supplyWId item.iId ∈ K :=
      hrows _ (TpccTransaction.stock_mem_rows hitem)
    exact Or.inr ⟨_, _, stock, (hK hstockK hk heq).symm, rfl⟩
  · rw [update_apply] at hx
    split_ifs at hx with heq
    have hdistrictK : .district wId dId ∈ K := hrows _ TpccTransaction.district_mem_rows
    refine Or.inl ⟨district, dNextOId, hK hk hdistrictK heq, hdistrict, ?_⟩
    rw [heq]
    exact (Option.some.inj hx).symm

/-- What a payment updates among them. -/
theorem paymentObjects_apply (hw : .warehouse wId ∈ K) (hd : .district wId dId ∈ K)
    (hc : .customer cWId cDId cId ∈ K) (hk : k ∈ K) (warehouse : Warehouse) (district : District)
    (customer : Customer) :
    paymentObjects P v (P.objectId (.warehouse wId)) (P.objectId (.district wId dId))
      (P.objectId (.customer cWId cDId cId)) warehouse district customer (P.objectId k) =
      if k = .customer cWId cDId cId then
        some (encodeTpccObject P .customer (P.objectId k) v customer)
      else if k = .district wId dId then
        some (encodeTpccObject P .district (P.objectId k) v district)
      else if k = .warehouse wId then
        some (encodeTpccObject P .warehouse (P.objectId k) v warehouse)
      else none := by
  simp only [paymentObjects, update_apply, hK.eq_iff hk hw, hK.eq_iff hk hd, hK.eq_iff hk hc]
  split_ifs with h₁ h₂ h₃
  · rw [h₁]
  · rw [h₂]
  · rw [h₃]
  · rfl

end Updated

/-! ## The books of a store -/

section Amounts

variable (P) (S : Objects β)

def wYtd (wId : ℕ) : ℤ :=
  ((row P S (.warehouse wId)).map Warehouse.wYtd).getD 0

def dYtd (k : ℕ × ℕ) : ℤ :=
  ((row P S (.district k.1 k.2)).map District.dYtd).getD 0

def cBalance (k : ℕ × ℕ × ℕ) : ℤ :=
  ((row P S (.customer k.1 k.2.1 k.2.2)).map Customer.cBalance).getD 0

def cYtdPayment (k : ℕ × ℕ × ℕ) : ℤ :=
  ((row P S (.customer k.1 k.2.1 k.2.2)).map Customer.cYtdPayment).getD 0

/-- The amounts in the rows. -/
def books : Books ℕ ℕ (ℕ × ℕ × ℕ) ℤ where
  group := wYtd P S
  member := dYtd P S
  balance := cBalance P S
  paid := cYtdPayment P S

/-- The rows written at first are there. -/
def Populated (numWarehouses : ℕ) : Prop :=
  ∀ k ∈ initialRows numWarehouses, (row P S k).isSome

end Amounts

def scope (numWarehouses : ℕ) : Scope ℕ ℕ (ℕ × ℕ × ℕ) where
  groups := warehouses numWarehouses
  members := districts
  clients := customers numWarehouses

/-- A 64-bit integer. -/
def InI64 (n : ℤ) : Prop :=
  -2 ^ 63 ≤ n ∧ n < 2 ^ 63

/-- The sums of a payment do not overflow. -/
def NoOverflow (P : Platform β) (S : Objects β) : TpccTransaction → Prop
  | .newOrder .. => True
  | .payment wId dId cWId cDId cId hAmount =>
    InI64 (wYtd P S wId + hAmount) ∧ InI64 (dYtd P S (wId, dId) + hAmount) ∧
      InI64 (cBalance P S (cWId, cDId, cId) - hAmount) ∧
      InI64 (cYtdPayment P S (cWId, cDId, cId) + hAmount)

theorem signed_of_inI64 {b : Build} {n m : ℤ} (h : InI64 n) (hm : b.signed 64 n = some m) :
    m = n := by
  obtain ⟨hlo, hhi⟩ := h
  have hbmod : n.bmod (2 ^ 64) = n := Int.bmod_eq_of_le (by omega) (by omega)
  rw [b.signed_eq_some hbmod] at hm
  exact (Option.some.inj hm).symm

theorem payment_rows_mem {W wId dId cWId cDId cId : ℕ} {hAmount : ℤ}
    (hK : ∀ k ∈ (TpccTransaction.payment wId dId cWId cDId cId hAmount).rows, k ∈ initialRows W) :
    wId ∈ warehouses W ∧ (wId ∈ warehouses W ∧ dId ∈ districts) ∧
      (cWId, cDId, cId) ∈ customers W := by
  refine ⟨warehouse_mem.mp (hK _ ?_), district_mem.mp (hK _ ?_),
    customer_mem.mp (hK (.customer cWId cDId cId) ?_)⟩ <;>
  simp [TpccTransaction.rows, TpccTransaction.accessRows]

section Steps

variable {W : ℕ} (hrows : Set.InjOn P.objectId {k | k ∈ initialRows W})
  {t : RemoraTransaction TpccTransaction} {S S' : Objects β} (ht : Built P t)
  (hK : ∀ k ∈ t.transaction.rows, k ∈ initialRows W) (h : apply P t S = some S')
include hrows ht hK h

/-- A new order posts nothing. -/
theorem agree_of_newOrder (hS : Populated P S W) {wId dId cId : ℕ} {items : List OrderItem}
    (htxn : t.transaction = .newOrder wId dId cId items) :
    Populated P S' W ∧ Agree (scope W) (books P S') (books P S) := by
  obtain ⟨U, hU, hrow⟩ := row_apply ht h
  rw [htxn] at hU hK
  have hupdated {k : PrimaryKey} (hk : k ∈ initialRows W) {x : Object β}
      (hx : U (P.objectId k) = some x) := updated_newOrder hrows hU hK hk hx
  -- The rows of the other tables are not updated.
  have hwarehouse : ∀ w ∈ warehouses W, row P S' (.warehouse w) = row P S (.warehouse w) := by
    intro w hw
    rw [hrow]
    cases hx : U (P.objectId (.warehouse w)) with
    | none => rfl
    | some x => simpa using hupdated (warehouse_mem.mpr hw) hx
  have hcustomer : ∀ c ∈ customers W,
      row P S' (.customer c.1 c.2.1 c.2.2) = row P S (.customer c.1 c.2.1 c.2.2) := by
    intro c hc
    rw [hrow]
    cases hx : U (P.objectId (.customer c.1 c.2.1 c.2.2)) with
    | none => rfl
    | some x => simpa using hupdated (customer_mem.mpr hc) hx
  have hdistrict : ∀ w ∈ warehouses W, ∀ d ∈ districts, dYtd P S' (w, d) = dYtd P S (w, d) := by
    intro w hw d hd
    rw [dYtd, dYtd, hrow]
    cases hx : U (P.objectId (.district w d)) with
    | none => rfl
    | some x =>
      obtain ⟨district, n, heq, hdata, rfl⟩ | ⟨_, _, _, heq, -⟩ :=
        hupdated (district_mem.mpr ⟨hw, hd⟩) hx
      · obtain ⟨rfl, rfl⟩ := PrimaryKey.district.inj heq
        simp [hdata]
      · cases heq
  refine ⟨fun k hk => ?_, fun w hw => ?_, hdistrict, fun c hc => ?_, fun c hc => ?_⟩
  · rw [hrow]
    cases hx : U (P.objectId k) with
    | none => exact hS k hk
    | some x =>
      obtain ⟨_, _, rfl, -, rfl⟩ | ⟨_, _, _, rfl, rfl⟩ := hupdated hk hx
      · simp
      · simp
  · exact congrArg (fun r => (Option.map Warehouse.wYtd r).getD 0) (hwarehouse w hw)
  · exact congrArg (fun r => (Option.map Customer.cBalance r).getD 0) (hcustomer c hc)
  · exact congrArg (fun r => (Option.map Customer.cYtdPayment r).getD 0) (hcustomer c hc)

section Payments

variable {wId dId cWId cDId cId : ℕ} {hAmount : ℤ}
  (htxn : t.transaction = .payment wId dId cWId cDId cId hAmount)
  (hover : NoOverflow P S t.transaction)
include htxn

/-- The initial rows are there after a payment. -/
theorem populated_of_payment (hS : Populated P S W) : Populated P S' W := by
  obtain ⟨U, hU, hrow⟩ := row_apply ht h
  rw [htxn] at hU hK
  obtain ⟨hw, hd, hc⟩ := payment_rows_mem hK
  obtain ⟨warehouse, district, customer, wYtd', dYtd', cBalance', cYtdPayment', cPaymentCnt,
    -, -, -, -, -, -, -, rfl⟩ := executePayment_eq_some hU
  intro k hk
  rw [hrow, paymentObjects_apply hrows (warehouse_mem.mpr hw) (district_mem.mpr hd)
    (customer_mem.mpr hc) hk]
  split_ifs with h₁ h₂ h₃
  · subst h₁
    simp
  · subst h₂
    simp
  · subst h₃
    simp
  · exact hS k hk

include hover

/-- The rows after a payment. -/
theorem row_payment : ∃ (warehouse : Warehouse) (district : District) (customer : Customer)
    (cPaymentCnt : ℕ), row P S (.warehouse wId) = some warehouse ∧
    row P S (.district wId dId) = some district ∧
    row P S (.customer cWId cDId cId) = some customer ∧
    (∀ w ∈ warehouses W, row P S' (.warehouse w) =
      if w = wId then some { warehouse with wYtd := warehouse.wYtd + hAmount }
      else row P S (.warehouse w)) ∧
    (∀ w ∈ warehouses W, ∀ d ∈ districts, row P S' (.district w d) =
      if w = wId ∧ d = dId then some { district with dYtd := district.dYtd + hAmount }
      else row P S (.district w d)) ∧
    ∀ c ∈ customers W, row P S' (.customer c.1 c.2.1 c.2.2) =
      if c.1 = cWId ∧ c.2.1 = cDId ∧ c.2.2 = cId then some { customer with
        cBalance := customer.cBalance - hAmount
        cYtdPayment := customer.cYtdPayment + hAmount
        cPaymentCnt := cPaymentCnt }
      else row P S (.customer c.1 c.2.1 c.2.2) := by
  obtain ⟨U, hU, hrow⟩ := row_apply ht h
  rw [htxn] at hU hK hover
  obtain ⟨hw, hd, hc⟩ := payment_rows_mem hK
  obtain ⟨warehouse, district, customer, wYtd', dYtd', cBalance', cYtdPayment', cPaymentCnt,
    hwarehouse, hdistrict, hcustomer, hwYtd, hdYtd, hcBalance, hcYtdPayment, rfl⟩ :=
    executePayment_eq_some hU
  obtain ⟨hw64, hd64, hb64, hp64⟩ := hover
  simp only [wYtd, dYtd, cBalance, cYtdPayment, hwarehouse, hdistrict, hcustomer, Option.map_some,
    Option.getD_some] at hw64 hd64 hb64 hp64
  obtain rfl := signed_of_inI64 hw64 hwYtd
  obtain rfl := signed_of_inI64 hd64 hdYtd
  obtain rfl := signed_of_inI64 hb64 hcBalance
  obtain rfl := signed_of_inI64 hp64 hcYtdPayment
  have hupdated {k : PrimaryKey} (hk : k ∈ initialRows W) :=
    paymentObjects_apply (v := t.nextVersion) hrows (warehouse_mem.mpr hw) (district_mem.mpr hd)
      (customer_mem.mpr hc) hk
  refine ⟨warehouse, district, customer, cPaymentCnt, hwarehouse, hdistrict, hcustomer,
    fun w hw => ?_, fun w hw d hd => ?_, fun c hc => ?_⟩
  · rw [hrow, hupdated (warehouse_mem.mpr hw)]
    simp only [reduceCtorEq, if_false, PrimaryKey.warehouse.injEq]
    split_ifs
    · exact decode_encode P _ _ _ _
    · rfl
  · rw [hrow, hupdated (district_mem.mpr ⟨hw, hd⟩)]
    simp only [reduceCtorEq, if_false, PrimaryKey.district.injEq]
    split_ifs
    · exact decode_encode P _ _ _ _
    · rfl
  · rw [hrow, hupdated (customer_mem.mpr hc)]
    simp only [reduceCtorEq, if_false, PrimaryKey.customer.injEq]
    split_ifs
    · exact decode_encode P _ _ _ _
    · rfl

/-- A payment posts its amount. -/
theorem agree_of_payment : Agree (scope W) (books P S')
    ((books P S).post ⟨wId, dId, (cWId, cDId, cId), hAmount⟩) := by
  obtain ⟨warehouse, district, customer, cPaymentCnt, hwarehouse, hdistrict, hcustomer, hw', hd',
    hc'⟩ := row_payment hrows ht hK h htxn hover
  refine ⟨fun w hw => ?_, fun w hw d hd => ?_, fun c hc => ?_, fun c hc => ?_⟩
  · simp only [books, Books.post, credit, update_apply, wYtd, hw' w hw]
    split_ifs <;> simp [hwarehouse]
  · simp only [books, Books.post, credit, update_apply, dYtd, hd' w hw d hd, Prod.mk.injEq]
    split_ifs <;> simp [hdistrict]
  · simp only [books, Books.post, credit, update_apply, cBalance, hc' c hc, Prod.ext_iff]
    split_ifs <;> simp [hcustomer, sub_eq_add_neg]
  · simp only [books, Books.post, credit, update_apply, cYtdPayment, hc' c hc, Prod.ext_iff]
    split_ifs <;> simp [hcustomer]

end Payments

end Steps

/-! ## Runs -/

/-- The store, while transactions are executed one after the other. One that panics commits
nothing. -/
def runs (P : Platform β) (D : Draws) (W : ℕ) :
    Transition.System (Objects β) (RemoraTransaction TpccTransaction) where
  init S := S = initObjects P D W
  step S t := some ((apply P t S).getD S)

/-- The transaction refers to rows of the initial store, and does not overflow. -/
structure Allowed (P : Platform β) (W : ℕ) (S : Objects β)
    (t : RemoraTransaction TpccTransaction) : Prop where
  built : Built P t
  rows : ∀ k ∈ t.transaction.rows, k ∈ initialRows W
  fits : NoOverflow P S t.transaction

/-- A step posts one payment or nothing. -/
theorem posts_of_apply {W : ℕ} (hrows : Set.InjOn P.objectId {k | k ∈ initialRows W})
    {t : RemoraTransaction TpccTransaction} {S S' : Objects β} (ht : Allowed P W S t)
    (hS : Populated P S W) (h : apply P t S = some S') :
    Populated P S' W ∧ (Agree (scope W) (books P S') (books P S) ∨
      ∃ p, (scope W).Covers p ∧ Agree (scope W) (books P S') ((books P S).post p)) := by
  cases htxn : t.transaction with
  | newOrder wId dId cId items =>
    obtain ⟨hS', hagree⟩ := agree_of_newOrder hrows ht.built ht.rows h hS htxn
    exact ⟨hS', Or.inl hagree⟩
  | payment wId dId cWId cDId cId hAmount =>
    refine ⟨populated_of_payment hrows ht.built ht.rows h htxn hS, Or.inr ⟨_, ?_,
      agree_of_payment hrows ht.built ht.rows h htxn ht.fits⟩⟩
    have hK := ht.rows
    rw [htxn] at hK
    obtain ⟨hw, ⟨-, hd⟩, hc⟩ := payment_rows_mem hK
    exact ⟨hw, hd, hc⟩

section Runs

variable {D : Draws} {W : ℕ} (hrows : Set.InjOn P.objectId {k | k ∈ initialRows W})
include hrows

/-- The books of the initial store balance. -/
theorem balanced_initObjects : Balanced (scope W) (books P (initObjects P D W))
    (books P (initObjects P D W)) where
  group w hw := by
    have hdistrict : ∀ d ∈ districts, dYtd P (initObjects P D W) (w, d) = initialDYtdCents := by
      intro d hd
      rw [dYtd, row_initObjects D hrows (district_mem.mpr ⟨hw, hd⟩)]
      rfl
    have hwarehouse : wYtd P (initObjects P D W) w = initialWYtdCents := by
      rw [wYtd, row_initObjects D hrows (warehouse_mem.mpr hw)]
      rfl
    calc wYtd P (initObjects P D W) w = initialWYtdCents := hwarehouse
      _ = ∑ _d ∈ districts, initialDYtdCents := by
        simp [districts, districtsPerWarehouse, initialDYtdCents, initialWYtdCents]
      _ = ∑ d ∈ districts, dYtd P (initObjects P D W) (w, d) :=
        (Finset.sum_congr rfl hdistrict).symm
  client c hc := by
    have hrow := row_initObjects D hrows (customer_mem.mpr hc)
    simp only [books, cBalance, cYtdPayment, hrow]
    rfl
  total := by simp

/-- The store is refined by a journal of payments. -/
theorem journal_of_reachable {S : Objects β} (hS : (runs P D W).ReachableVia (Allowed P W) S) :
    Populated P S W ∧ ∃ B, (journal (scope W) (books P (initObjects P D W))).Reachable B ∧
      Agree (scope W) (books P S) B := by
  refine hS.invariant (I := fun S => Populated P S W ∧ ∃ B,
    (journal (scope W) (books P (initObjects P D W))).Reachable B ∧ Agree (scope W) (books P S) B)
    ?_ ?_
  · rintro S rfl
    refine ⟨fun k hk => ?_, _, Transition.System.Reachable.init rfl, Agree.refl _⟩
    rw [row_initObjects D hrows hk]
    rfl
  · rintro S t S' - ⟨hpopulated, B, hB, hagree⟩ hok hstep
    obtain rfl := Option.some.inj hstep
    cases h : apply P t S with
    | none => exact ⟨hpopulated, B, hB, hagree⟩
    | some S' =>
      obtain ⟨hpopulated', hsame | ⟨p, hp, hpost⟩⟩ := posts_of_apply hrows hok hpopulated h
      · exact ⟨hpopulated', B, hB, hsame.trans hagree⟩
      · exact ⟨hpopulated', B.post p, hB.step (if_pos hp), hpost.trans (hagree.post hp)⟩

omit hrows in
theorem reachable_apply {S S' : Objects β} {t : RemoraTransaction TpccTransaction}
    (hS : (runs P D W).ReachableVia (Allowed P W) S) (ht : Allowed P W S t)
    (h : apply P t S = some S') : (runs P D W).ReachableVia (Allowed P W) S' :=
  hS.step ht (by simp [runs, h])

/-- Without overflow checks, runs go on with any transaction on existing rows. -/
theorem isSome_apply_of_reachable (hb : P.build.overflowChecks = false) {S : Objects β}
    (hS : (runs P D W).ReachableVia (Allowed P W) S) {t : RemoraTransaction TpccTransaction}
    (ht : Built P t) (hK : ∀ k ∈ t.transaction.rows, k ∈ initialRows W) :
    (apply P t S).isSome :=
  isSome_apply hb ht fun k hk => (journal_of_reachable hrows hS).1 k (hK k hk)

end Runs

/-- The rows of the initial store are in `S`, and the money in them is conserved since `S₀`. -/
structure MoneyConserved (P : Platform β) (W : ℕ) (S₀ S : Objects β) : Prop where
  populated : Populated P S W
  warehouse : ∀ w ∈ warehouses W, wYtd P S w = ∑ d ∈ districts, dYtd P S (w, d)
  customer : ∀ c ∈ customers W, cBalance P S c + cYtdPayment P S c = 0
  total : ∑ c ∈ customers W, (cYtdPayment P S c - cYtdPayment P S₀ c) =
    ∑ w ∈ warehouses W, (wYtd P S w - wYtd P S₀ w)

/-- Whatever new orders and payments on existing rows are executed, a warehouse has received what
its districts have, a customer's balance is what they have paid, and all customers together have
paid what all warehouses have received. -/
theorem money_conserved {D : Draws} {W : ℕ}
    (hrows : Set.InjOn P.objectId {k | k ∈ initialRows W}) {S : Objects β}
    (hS : (runs P D W).ReachableVia (Allowed P W) S) :
    MoneyConserved P W (initObjects P D W) S := by
  obtain ⟨hpopulated, B, hB, hagree⟩ := journal_of_reachable hrows hS
  have hbalanced := (balanced_of_reachable (balanced_initObjects hrows) hB).congr hagree
  exact ⟨hpopulated, hbalanced.group, hbalanced.client, hbalanced.total⟩

/-- The least numbers. -/
def leastDraws : Draws where
  draw k := (drawRange k.kind).1
  mem_range k := ⟨Nat.le_refl _, by cases k <;> simp [drawRange]⟩

/-- A payment by a customer of another district. -/
def remotePayment : TpccTransaction :=
  .payment 1 1 1 2 5 100

/-- An order of one item. -/
def oneOrder : TpccTransaction :=
  .newOrder 1 1 5 [⟨3, 1, 4⟩]

theorem rows_of_one_warehouse :
    ∀ k ∈ remotePayment.rows ++ oneOrder.rows, k ∈ initialRows 1 := by
  have hw : 1 ∈ warehouses 1 := by simp [warehouses]
  have hd : 1 ∈ districts ∧ 2 ∈ districts := by simp [districts, districtsPerWarehouse]
  have hc : (1, 1, 5) ∈ customers 1 ∧ (1, 2, 5) ∈ customers 1 := by
    simp [customers, hw, hd, customersPerDistrict]
  simp only [remotePayment, oneOrder, TpccTransaction.rows, TpccTransaction.accessRows,
    TpccTransaction.itemRows, List.append_nil, List.map_cons, List.map_nil,
    List.forall_mem_append, List.forall_mem_cons]
  have hwarehouse := warehouse_mem.mpr hw
  have hdistrict := district_mem.mpr ⟨hw, hd.1⟩
  exact ⟨⟨hwarehouse, hdistrict, customer_mem.mpr hc.2, by simp⟩,
    ⟨⟨hwarehouse, hdistrict, customer_mem.mpr hc.1, by simp⟩,
      stock_mem.mpr ⟨hw, by decide, by decide⟩, by simp⟩, item_mem.mpr ⟨by decide, by decide⟩,
    by simp⟩

/-- The payment, and then the order, in the initial store of one warehouse. -/
theorem money_conserved_payment_then_order :
    let P := plainPlatform ⟨false, false⟩
    let S₀ := initObjects P leastDraws 1
    ∃ S₁ S₂, apply P (TpccExecutableTransaction.new P remotePayment 7 0 0) S₀ = some S₁ ∧
      apply P (TpccExecutableTransaction.new P oneOrder 8 0 0) S₁ = some S₂ ∧
      MoneyConserved P 1 S₀ S₂ := by
  intro P S₀
  have hrows : Set.InjOn P.objectId {k | k ∈ initialRows 1} := plainObjectId_injective.injOn
  obtain ⟨hpayment, horder⟩ := List.forall_mem_append.mp rows_of_one_warehouse
  have hS₀ : (runs P leastDraws 1).ReachableVia (Allowed P 1) S₀ := .init rfl
  have hfits : NoOverflow P S₀ remotePayment := by
    have hw := row_initObjects leastDraws hrows (hpayment (.warehouse 1) (by decide))
    have hd := row_initObjects leastDraws hrows (hpayment (.district 1 1) (by decide))
    have hc := row_initObjects leastDraws hrows (hpayment (.customer 1 2 5) (by decide))
    simp only [NoOverflow, remotePayment, InI64, wYtd, dYtd, cBalance, cYtdPayment, S₀, hw, hd, hc]
    decide
  obtain ⟨S₁, h₁⟩ := Option.isSome_iff_exists.mp (isSome_apply_of_reachable hrows rfl hS₀
    (built_new remotePayment 7 0 0) hpayment)
  have hS₁ := reachable_apply hS₀ ⟨built_new _ _ _ _, hpayment, hfits⟩ h₁
  obtain ⟨S₂, h₂⟩ := Option.isSome_iff_exists.mp (isSome_apply_of_reachable hrows rfl hS₁
    (built_new oneOrder 8 0 0) horder)
  have hS₂ := reachable_apply hS₁ ⟨built_new _ _ _ _, horder, trivial⟩ h₂
  exact ⟨S₁, S₂, h₁, h₂, money_conserved hrows hS₂⟩

end Tpcc

end Remora
