import Remora.TpccMoney

/-!
# Counters in TPC-C runs

Every row of the stock counts the order lines it has supplied, and every district numbers its
orders. A new order may have several lines for one row. The loop over its lines sees such a row
as the lines before have left it (`stockSeen`), so that what it has counted so far is an invariant
of the loop (`seenCounts_of_orderLines`), and with the store it leaves an invariant of the run.

The counters are exact up to 2 ^ 32 (`Stock.Counts`), whether an overflow wraps or is a panic : a
transaction that panics is not executed. A quantity below 20 is filled up by 91, so that it stays
between 10 and 100.
-/

namespace Remora

namespace Tpcc

open Function CachedReads

variable {β : Type} {P : Platform β}

/-! ## Counters of a row -/

/-- An order line, and the warehouse of its order. -/
structure PlacedLine where
  wId : ℕ
  line : OrderItem
  deriving DecidableEq, Repr

/-- The line is supplied by another warehouse. -/
def PlacedLine.isRemote (l : PlacedLine) : Bool :=
  l.line.supplyWId ≠ l.wId

/-- The lines for a row of the stock. -/
def supplied (w i : ℕ) (lines : List PlacedLine) : List PlacedLine :=
  lines.filter fun l => l.line.supplyWId = w ∧ l.line.iId = i

theorem supplied_append (w i : ℕ) (lines lines' : List PlacedLine) :
    supplied w i (lines ++ lines') = supplied w i lines ++ supplied w i lines' :=
  List.filter_append _ _

theorem supplied_concat (w i : ℕ) (lines : List PlacedLine) (l : PlacedLine) :
    supplied w i (lines ++ [l]) =
      if l.line.supplyWId = w ∧ l.line.iId = i then supplied w i lines ++ [l]
      else supplied w i lines := by
  rw [supplied_append]
  unfold supplied
  split_ifs with h <;> simp [h]

/-- The sum of the quantities. -/
def quantities (lines : List PlacedLine) : ℕ :=
  (lines.map fun l => l.line.quantity).sum

/-- The row has counted the lines. -/
structure Stock.Counts (lines : List PlacedLine) (stock : Stock) : Prop where
  quantity : 10 ≤ stock.sQuantity ∧ stock.sQuantity ≤ 100
  ytd : stock.sYtd = quantities lines % 2 ^ 32
  orderCnt : stock.sOrderCnt = lines.length % 2 ^ 32
  remoteCnt : stock.sRemoteCnt = lines.countP PlacedLine.isRemote % 2 ^ 32

/-- One counter after the other. -/
theorem updateStock_eq (b : Build) (wId : ℕ) (line : OrderItem) (stock : Stock) :
    updateStock b wId line stock =
      let quantity := (line.quantity : ℤ).bmod (2 ^ 32)
      (b.signed 32 (quantity + 10)).bind fun bound =>
      (if bound ≤ stock.sQuantity then b.signed 32 (stock.sQuantity - quantity)
        else (b.signed 32 (91 - quantity)).bind fun change =>
          b.signed 32 (stock.sQuantity + change)).bind fun sQuantity =>
      (b.unsigned 32 (stock.sYtd + line.quantity)).bind fun sYtd =>
      (b.unsigned 32 (stock.sOrderCnt + 1)).bind fun sOrderCnt =>
      (if line.supplyWId ≠ wId then b.unsigned 32 (stock.sRemoteCnt + 1)
        else some stock.sRemoteCnt).bind fun sRemoteCnt =>
      some { stock with
        sQuantity := sQuantity
        sYtd := sYtd
        sOrderCnt := sOrderCnt
        sRemoteCnt := sRemoteCnt } := by
  unfold updateStock
  simp only [Option.bind_eq_bind, Option.bind_some]
  refine congrArg _ (funext fun bound => ?_)
  split_ifs <;> simp only [Option.bind_assoc, Option.bind_some]

theorem bmod_of_quantity {quantity : ℕ} (h : quantity ≤ maxOlQuantity) :
    (quantity : ℤ).bmod (2 ^ 32) = quantity := by
  unfold maxOlQuantity at h
  exact Int.bmod_eq_of_le (by omega) (by omega)

/-- A quantity in the range stays there. -/
theorem quantity_of_update {b : Build} {n m bound : ℤ} {quantity : ℕ} (hq : 1 ≤ quantity)
    (hq' : quantity ≤ maxOlQuantity) (hn : 10 ≤ n ∧ n ≤ 100)
    (hbound : b.signed 32 ((quantity : ℤ) + 10) = some bound)
    (h : (if bound ≤ n then b.signed 32 (n - quantity)
      else (b.signed 32 (91 - quantity)).bind fun change => b.signed 32 (n + change)) = some m) :
    10 ≤ m ∧ m ≤ 100 := by
  unfold maxOlQuantity at hq'
  rw [Build.signed_of_mem_i32 (by omega) (by omega), Option.some.injEq] at hbound
  split_ifs at h with hle
  · rw [Build.signed_of_mem_i32 (by omega) (by omega), Option.some.injEq] at h
    omega
  · rw [Build.signed_of_mem_i32 (by omega) (by omega), Option.bind_some,
      Build.signed_of_mem_i32 (by omega) (by omega), Option.some.injEq] at h
    omega

/-- A row counts one line more. -/
theorem Stock.Counts.updateStock {b : Build} {lines : List PlacedLine} {stock stock' : Stock}
    {wId : ℕ} {line : OrderItem} (h : stock.Counts lines) (hq : 1 ≤ line.quantity)
    (hq' : line.quantity ≤ maxOlQuantity) (hupdate : updateStock b wId line stock = some stock') :
    stock'.Counts (lines ++ [⟨wId, line⟩]) := by
  rw [updateStock_eq, bmod_of_quantity hq'] at hupdate
  obtain ⟨bound, hbound, hupdate⟩ := Option.bind_eq_some_iff.mp hupdate
  obtain ⟨sQuantity, hquantity, hupdate⟩ := Option.bind_eq_some_iff.mp hupdate
  obtain ⟨sYtd, hytd, hupdate⟩ := Option.bind_eq_some_iff.mp hupdate
  obtain ⟨sOrderCnt, horder, hupdate⟩ := Option.bind_eq_some_iff.mp hupdate
  obtain ⟨sRemoteCnt, hremote, hupdate⟩ := Option.bind_eq_some_iff.mp hupdate
  obtain rfl := Option.some.inj hupdate
  refine ⟨quantity_of_update hq hq' h.quantity hbound hquantity, ?_, ?_, ?_⟩
  · rw [Build.eq_mod_of_unsigned hytd, h.ytd, Nat.mod_add_mod]
    simp [quantities]
  · rw [Build.eq_mod_of_unsigned horder, h.orderCnt, Nat.mod_add_mod, List.length_append,
      List.length_singleton]
  · rw [List.countP_append, List.countP_singleton]
    by_cases hne : line.supplyWId ≠ wId
    · rw [if_pos hne] at hremote
      rw [Build.eq_mod_of_unsigned hremote, h.remoteCnt, Nat.mod_add_mod]
      simp [PlacedLine.isRemote, hne]
    · rw [if_neg hne, Option.some.injEq] at hremote
      change sRemoteCnt = _
      rw [← hremote, h.remoteCnt]
      simp [PlacedLine.isRemote, not_not.mp hne]

/-! ## The loop over the lines -/

section Loop

variable (P) (S : Objects β) (s : OrderState) (w i : ℕ)

/-- A row of the stock as the loop sees it. -/
def stockSeen : Option Stock :=
  (s.stockUpdates (P.objectId (.stock w i))).or (row P S (.stock w i))

theorem eval_stockEntry (line : OrderItem) :
    (stockEntry P s line).eval S = stockSeen P S s line.supplyWId line.iId := by
  unfold stockEntry stockSeen
  cases s.stockUpdates (P.objectId (.stock line.supplyWId line.iId)) with
  | none => rw [eval_readTpccData, Option.none_or]
  | some stock => rfl

end Loop

theorem orderLine_eq_some {S : Objects β} {s s' : OrderState} {wId : ℕ} {line : OrderItem}
    (h : (orderLine P wId line s).eval S = some s') :
    ∃ stock stock', stockSeen P S s line.supplyWId line.iId = some stock ∧
      updateStock P.build wId line stock = some stock' ∧
      s'.stockUpdates =
        update s.stockUpdates (P.objectId (.stock line.supplyWId line.iId)) (some stock') ∧
      (row P S (.item line.iId)).isSome := by
  simp only [orderLine, Reading.eval_bind, Reading.eval_lift, eval_stockEntry,
    Option.bind_eq_some_iff] at h
  obtain ⟨item, hitem, stock, hstock, stock', hupdate, amount, -, total, -, hs'⟩ := h
  obtain rfl := Option.some.inj hs'
  rw [eval_readTpccData] at hitem
  exact ⟨stock, stock', hstock, hupdate, rfl, by rw [hitem]; rfl⟩

/-- All rows of the stock have counted the lines, as the loop sees them. -/
def SeenCounts (P : Platform β) (K : Set PrimaryKey) (S : Objects β) (s : OrderState)
    (lines : List PlacedLine) : Prop :=
  ∀ w i, .stock w i ∈ K → ∃ stock, stockSeen P S s w i = some stock ∧
    stock.Counts (supplied w i lines)

section Lines

variable {K : Set PrimaryKey} (hK : Set.InjOn P.objectId K) {S : Objects β} {wId : ℕ}
include hK

theorem seenCounts_of_orderLine {line : OrderItem} {s s' : OrderState} {lines : List PlacedLine}
    (hs : SeenCounts P K S s lines) (hrow : .stock line.supplyWId line.iId ∈ K)
    (hq : 1 ≤ line.quantity) (hq' : line.quantity ≤ maxOlQuantity)
    (h : (orderLine P wId line s).eval S = some s') :
    SeenCounts P K S s' (lines ++ [⟨wId, line⟩]) := by
  obtain ⟨stock, stock', hseen, hupdate, hs', -⟩ := orderLine_eq_some h
  intro w i hk
  rw [stockSeen, hs']
  by_cases heq : line.supplyWId = w ∧ line.iId = i
  · obtain ⟨rfl, rfl⟩ := heq
    obtain ⟨stock₀, hseen₀, hcounts⟩ := hs _ _ hk
    obtain rfl := Option.some.inj (hseen₀.symm.trans hseen)
    refine ⟨stock', by rw [update_self, Option.some_or], ?_⟩
    rw [supplied_concat, if_pos ⟨rfl, rfl⟩]
    exact hcounts.updateStock hq hq' hupdate
  · have hne : P.objectId (.stock w i) ≠ P.objectId (.stock line.supplyWId line.iId) := by
      rw [Ne, hK.eq_iff hk hrow, PrimaryKey.stock.injEq, eq_comm, @eq_comm _ i]
      exact heq
    rw [update_of_ne hne, supplied_concat, if_neg heq]
    exact hs w i hk

theorem seenCounts_of_orderLines {items : List OrderItem} {s s' : OrderState}
    {lines : List PlacedLine} (hs : SeenCounts P K S s lines)
    (hrows : ∀ line ∈ items, .stock line.supplyWId line.iId ∈ K)
    (hq : ∀ line ∈ items, 1 ≤ line.quantity ∧ line.quantity ≤ maxOlQuantity)
    (h : (orderLines P wId items s).eval S = some s') :
    SeenCounts P K S s' (lines ++ items.map (PlacedLine.mk wId)) := by
  induction items generalizing s lines with
  | nil =>
    obtain rfl := Option.some.inj h
    simpa using hs
  | cons line items ih =>
    rw [orderLines, Reading.eval_bind, Option.bind_eq_some_iff] at h
    obtain ⟨s₁, h₁, h⟩ := h
    rw [List.forall_mem_cons] at hrows hq
    have hs₁ := seenCounts_of_orderLine hK hs hrows.1 hq.1.1 hq.1.2 h₁
    rw [List.map_cons, List.append_cons]
    exact ih hs₁ hrows.2 hq.2 h

end Lines

/-! ## Rows that are there -/

section Present

variable {S U : Objects β} {v : SequenceNumber}

theorem isSome_of_orderLines {wId : ℕ} {items : List OrderItem} {s s' : OrderState}
    (hs : ∀ o, (s.stockUpdates o).isSome → (S o).isSome)
    (h : (orderLines P wId items s).eval S = some s') : ∀ line ∈ items,
      (S (P.objectId (.item line.iId))).isSome ∧
        (S (P.objectId (.stock line.supplyWId line.iId))).isSome := by
  induction items generalizing s with
  | nil => simp
  | cons line items ih =>
    rw [orderLines, Reading.eval_bind, Option.bind_eq_some_iff] at h
    obtain ⟨s₁, h₁, h⟩ := h
    obtain ⟨stock, stock', hseen, -, hs₁, hitem⟩ := orderLine_eq_some h₁
    have hstock : (S (P.objectId (.stock line.supplyWId line.iId))).isSome := by
      rcases Option.or_eq_some_iff.mp hseen with hseen | ⟨-, hseen⟩
      · exact hs _ (by rw [hseen]; rfl)
      · exact isSome_of_row (by rw [hseen]; rfl)
    refine List.forall_mem_cons.mpr ⟨⟨isSome_of_row hitem, hstock⟩, ih (fun o ho => ?_) h⟩
    rw [hs₁, update_apply] at ho
    split_ifs at ho with heq
    · exact heq ▸ hstock
    · exact hs o ho

/-- A transaction that is executed has found the objects of its rows. -/
theorem isSome_of_executeTpccLogic {txn : TpccTransaction}
    (h : (executeTpccLogic P v txn).eval S = some U) :
    ∀ k ∈ txn.rows, (S (P.objectId k)).isSome := by
  cases txn with
  | newOrder wId dId cId items =>
    simp only [executeTpccLogic, executeNewOrder, Reading.eval_bind, Reading.eval_lift,
      Option.bind_eq_some_iff] at h
    obtain ⟨warehouse, hw, district, hd, dNextOId, -, customer, hc, s, hs, -⟩ := h
    have hlines := isSome_of_orderLines (by simp) hs
    have hrow {k : PrimaryKey} {x : Record k.kind}
        (hx : (readTpccData P k).eval S = some x) : (S (P.objectId k)).isSome := by
      rw [eval_readTpccData] at hx
      exact isSome_of_row (by rw [hx]; rfl)
    simp only [TpccTransaction.rows, TpccTransaction.accessRows, TpccTransaction.itemRows,
      List.forall_mem_append, List.forall_mem_cons, List.forall_mem_map]
    exact ⟨⟨⟨hrow hw, hrow hd, hrow hc, by simp⟩, fun line hline => (hlines line hline).2⟩,
      fun line hline => (hlines line hline).1⟩
  | payment wId dId cWId cDId cId hAmount =>
    obtain ⟨warehouse, district, customer, -, -, -, -, -, hw, hd, hc, -⟩ :=
      executePayment_eq_some h
    have hrow {k : PrimaryKey} {x : Record k.kind} (hx : row P S k = some x) :
        (S (P.objectId k)).isSome := isSome_of_row (by rw [hx]; rfl)
    simp only [TpccTransaction.rows, TpccTransaction.accessRows, TpccTransaction.itemRows,
      List.append_nil, List.forall_mem_cons]
    exact ⟨hrow hw, hrow hd, hrow hc, by simp⟩

variable {t : RemoraTransaction TpccTransaction} (ht : Built P t) {S' : Objects β}
  (h : apply P t S = some S')
include ht h

theorem isSome_of_apply {k : PrimaryKey} (hk : k ∈ t.transaction.rows) :
    (S (P.objectId k)).isSome := by
  obtain ⟨U, hU, -⟩ := row_apply ht h
  exact isSome_of_executeTpccLogic hU k hk

/-- No object is added or removed. -/
theorem isSome_apply_iff (o : ObjectID) : (S' o).isSome ↔ (S o).isSome := by
  obtain ⟨N, hN, rfl⟩ := Option.map_eq_some_iff.mp h
  rw [commit, Option.isSome_or, Bool.or_eq_true, isSome_newState ht hN, or_iff_right_iff_imp]
  intro ho
  obtain ⟨k, hk, rfl⟩ := TpccTransaction.mem_accessSet_iff.mp ho
  exact isSome_of_apply ht h (List.mem_append_left _ hk)

end Present

/-! ## Steps -/

namespace TpccTransaction

/-- The order lines of a transaction. -/
def lines : TpccTransaction → List PlacedLine
  | newOrder wId _ _ items => items.map (PlacedLine.mk wId)
  | payment .. => []

/-- The transaction is a new order of the district. -/
def isOrderOf (w d : ℕ) : TpccTransaction → Bool
  | newOrder wId dId _ _ => wId = w ∧ dId = d
  | payment .. => false

end TpccTransaction

theorem newOrderObjects_apply (v : SequenceNumber) (districtId : ObjectID) (district : District)
    (stockUpdates : ObjectID → Option Stock) (o : ObjectID) :
    newOrderObjects P v districtId district stockUpdates o =
      ((stockUpdates o).map fun stock => encodeTpccObject P .stock o v stock).or
        (if o = districtId then some (encodeTpccObject P .district districtId v district)
          else none) := by
  simp only [newOrderObjects, update_apply]

section Steps

variable {K : Set PrimaryKey} (hK : Set.InjOn P.objectId K) {t : RemoraTransaction TpccTransaction}
  (ht : Built P t) (hrows : ∀ k ∈ t.transaction.rows, k ∈ K) {S S' : Objects β}
  (h : apply P t S = some S')
include hK ht hrows h

/-- The rows of the stock and of the districts after a new order. -/
theorem rows_of_newOrder {wId dId cId : ℕ} {items : List OrderItem}
    (htxn : t.transaction = .newOrder wId dId cId items) :
    ∃ (district : District) (dNextOId : ℕ) (s : OrderState),
      row P S (.district wId dId) = some district ∧
      P.build.unsigned 32 (district.dNextOId + 1) = some dNextOId ∧
      (orderLines P wId items ⟨fun _ => none, 0⟩).eval S = some s ∧
      (∀ w i, .stock w i ∈ K → row P S' (.stock w i) = stockSeen P S s w i) ∧
      ∀ w d, .district w d ∈ K → row P S' (.district w d) =
        if w = wId ∧ d = dId then some { district with dNextOId := dNextOId }
        else row P S (.district w d) := by
  obtain ⟨U, hU, hrow⟩ := row_apply ht h
  rw [htxn] at hU hrows
  obtain ⟨district, dNextOId, s, hdistrict, hnext, hs, rfl⟩ := executeNewOrder_eq_some hU
  have hdistrictK : .district wId dId ∈ K := hrows _ TpccTransaction.district_mem_rows
  refine ⟨district, dNextOId, s, hdistrict, hnext, hs, fun w i hk => ?_, fun w d hk => ?_⟩
  · have hne : P.objectId (.stock w i) ≠ P.objectId (.district wId dId) := fun heq =>
      absurd (hK hk hdistrictK heq) (by simp)
    rw [hrow, newOrderObjects_apply, stockSeen, if_neg hne]
    cases s.stockUpdates (P.objectId (.stock w i)) with
    | none => rfl
    | some stock => exact decode_encode P _ _ _ _
  · have hnone : s.stockUpdates (P.objectId (.district w d)) = none := by
      rw [← Option.not_isSome_iff_eq_none, isSome_stockUpdates hs]
      rintro (hsome | hmem)
      · simp at hsome
      obtain ⟨item, hitem, heq⟩ := List.mem_map.mp hmem
      have hstockK : .stock item.supplyWId item.iId ∈ K :=
        hrows _ (TpccTransaction.stock_mem_rows hitem)
      exact absurd (hK hstockK hk heq) (by simp)
    rw [hrow, newOrderObjects_apply, hnone, Option.map_none, Option.none_or]
    simp only [hK.eq_iff hk hdistrictK, PrimaryKey.district.injEq]
    split_ifs
    · exact decode_encode P _ _ _ _
    · rfl

/-- A payment leaves the stock and the next order numbers. -/
theorem rows_of_payment {wId dId cWId cDId cId : ℕ} {hAmount : ℤ}
    (htxn : t.transaction = .payment wId dId cWId cDId cId hAmount) :
    (∀ w i, .stock w i ∈ K → row P S' (.stock w i) = row P S (.stock w i)) ∧
      ∀ w d, .district w d ∈ K → (row P S' (.district w d)).map District.dNextOId =
        (row P S (.district w d)).map District.dNextOId := by
  obtain ⟨U, hU, hrow⟩ := row_apply ht h
  rw [htxn] at hU hrows
  simp only [TpccTransaction.rows, TpccTransaction.accessRows, TpccTransaction.itemRows,
    List.append_nil, List.forall_mem_cons] at hrows
  obtain ⟨hw, hd, hc, -⟩ := hrows
  obtain ⟨warehouse, district, customer, wYtd', dYtd', cBalance', cYtdPayment', cPaymentCnt, -,
    hdistrict, -, -, -, -, -, rfl⟩ := executePayment_eq_some hU
  refine ⟨fun w i hk => ?_, fun w d hk => ?_⟩
  · rw [hrow, paymentObjects_apply hK hw hd hc hk]
    rfl
  · rw [hrow, paymentObjects_apply hK hw hd hc hk]
    simp only [reduceCtorEq, if_false]
    split_ifs with heq
    · obtain ⟨rfl, rfl⟩ := PrimaryKey.district.inj heq
      have hdata := congrArg (Option.map District.dNextOId) (decode_encode P .district
        (P.objectId (.district w d)) t.nextVersion { district with dYtd := dYtd' })
      exact hdata.trans (by rw [hdistrict]; rfl)
    · rfl

/-- The stock counts the lines of the transaction. -/
theorem counts_of_apply {lines : List PlacedLine}
    (hq : ∀ l ∈ t.transaction.lines, 1 ≤ l.line.quantity ∧ l.line.quantity ≤ maxOlQuantity)
    (hS : ∀ w i, .stock w i ∈ K → ∃ stock, row P S (.stock w i) = some stock ∧
      stock.Counts (supplied w i lines)) (w i : ℕ) (hk : .stock w i ∈ K) :
    ∃ stock, row P S' (.stock w i) = some stock ∧
      stock.Counts (supplied w i (lines ++ t.transaction.lines)) := by
  cases htxn : t.transaction with
  | newOrder wId dId cId items =>
    obtain ⟨district, dNextOId, s, -, -, hs, hstock, -⟩ := rows_of_newOrder hK ht hrows h htxn
    rw [htxn] at hrows hq
    have hlines : ∀ line ∈ items, .stock line.supplyWId line.iId ∈ K := fun line hline =>
      hrows _ (TpccTransaction.stock_mem_rows hline)
    rw [hstock w i hk]
    exact seenCounts_of_orderLines hK (s := ⟨fun _ => none, 0⟩) hS hlines
      (fun line hline => hq _ (List.mem_map_of_mem hline)) hs w i hk
  | payment wId dId cWId cDId cId hAmount =>
    rw [(rows_of_payment hK ht hrows h htxn).1 w i hk, TpccTransaction.lines, List.append_nil]
    exact hS w i hk

/-- A district numbers its new orders. -/
theorem dNextOId_of_apply {w d n : ℕ} (hk : .district w d ∈ K)
    (hS : ∃ district, row P S (.district w d) = some district ∧
      district.dNextOId = n % 2 ^ 32) :
    ∃ district, row P S' (.district w d) = some district ∧
      district.dNextOId = (n + if t.transaction.isOrderOf w d then 1 else 0) % 2 ^ 32 := by
  obtain ⟨district, hdistrict, hn⟩ := hS
  cases htxn : t.transaction with
  | newOrder wId dId cId items =>
    obtain ⟨district', dNextOId, s, hdistrict', hnext, -, -, hrow⟩ :=
      rows_of_newOrder hK ht hrows h htxn
    rw [hrow w d hk]
    by_cases heq : w = wId ∧ d = dId
    · obtain ⟨rfl, rfl⟩ := heq
      obtain rfl := Option.some.inj (hdistrict.symm.trans hdistrict')
      refine ⟨_, if_pos ⟨rfl, rfl⟩, ?_⟩
      rw [Build.eq_mod_of_unsigned hnext, hn, Nat.mod_add_mod]
      simp [TpccTransaction.isOrderOf]
    · refine ⟨district, by rw [if_neg heq, hdistrict], ?_⟩
      rw [eq_comm, @eq_comm _ d] at heq
      simp [TpccTransaction.isOrderOf, heq, hn]
  | payment wId dId cWId cDId cId hAmount =>
    have hrow := (rows_of_payment hK ht hrows h htxn).2 w d hk
    rw [hdistrict, Option.map_some, Option.map_eq_some_iff] at hrow
    obtain ⟨district', hdistrict', heq⟩ := hrow
    exact ⟨district', hdistrict', heq.trans hn⟩

end Steps

/-! ## Runs -/

/-- The store, and the transactions that have been executed on it. -/
structure LoggedStore (β : Type) where
  store : Objects β
  executed : List TpccTransaction

/-- Transactions are executed one after the other. One that panics commits nothing. -/
def loggedRuns (P : Platform β) (D : Draws) (W : ℕ) :
    Transition.System (LoggedStore β) (RemoraTransaction TpccTransaction) where
  init s := s = ⟨initObjects P D W, []⟩
  step s t := some (match apply P t s.store with
    | some S => ⟨S, s.executed ++ [t.transaction]⟩
    | none => s)

/-- The transaction refers to rows in `K`, there or not, and orders from 1 to 10 of each item. -/
structure Placed (P : Platform β) (K : Set PrimaryKey) (t : RemoraTransaction TpccTransaction) :
    Prop where
  built : Built P t
  rows : ∀ k ∈ t.transaction.rows, k ∈ K
  quantity : ∀ l ∈ t.transaction.lines, 1 ≤ l.line.quantity ∧ l.line.quantity ≤ maxOlQuantity

namespace LoggedStore

variable (s : LoggedStore β)

/-- The order lines that have been executed. -/
def lines : List PlacedLine :=
  s.executed.flatMap TpccTransaction.lines

/-- How many new orders have been executed for a district. -/
def orders (w d : ℕ) : ℕ :=
  s.executed.countP (TpccTransaction.isOrderOf w d)

end LoggedStore

/-- The rows in the store are those written at first. Its stock has counted the lines executed, and
its districts the orders. -/
structure Counted (P : Platform β) (W : ℕ) (s : LoggedStore β) : Prop where
  present : ∀ o, (s.store o).isSome → ∃ k ∈ initialRows W, P.objectId k = o
  stock : ∀ w i, .stock w i ∈ initialRows W → ∃ stock,
    row P s.store (.stock w i) = some stock ∧ stock.Counts (supplied w i s.lines)
  district : ∀ w d, .district w d ∈ initialRows W → ∃ district,
    row P s.store (.district w d) = some district ∧
      district.dNextOId = (initialNextOId + s.orders w d) % 2 ^ 32

section Runs

variable {K : Set PrimaryKey} (hK : Set.InjOn P.objectId K) {W : ℕ}
  (hW : ∀ k ∈ initialRows W, k ∈ K) {D : Draws} {s : LoggedStore β}
include hK hW

theorem counted_init : Counted P W ⟨initObjects P D W, []⟩ := by
  have hrows : Set.InjOn P.objectId {k | k ∈ initialRows W} := hK.mono hW
  refine ⟨fun o ho => ?_, fun w i hk => ?_, fun w d hk => ?_⟩
  · by_contra hnone
    have hne : ∀ k ∈ initialRows W, P.objectId k ≠ o := fun k hk heq => hnone ⟨k, hk, heq⟩
    simp [initObjects, foldl_writeRow_of_notMem P D hne] at ho
  · refine ⟨initialRecord D (.stock w i), row_initObjects D hrows hk, ?_, ?_, ?_, ?_⟩
    · obtain ⟨hlo, hhi⟩ := D.mem_range (.stock w i)
      exact ⟨Int.ofNat_le.mpr hlo, Int.ofNat_le.mpr hhi⟩
    · simp [initialRecord, LoggedStore.lines, supplied, quantities]
    · simp [initialRecord, LoggedStore.lines, supplied]
    · simp [initialRecord, LoggedStore.lines, supplied]
  · refine ⟨initialRecord D (.district w d), row_initObjects D hrows hk, ?_⟩
    simp [initialRecord, LoggedStore.orders, initialNextOId]

omit hK hW in
theorem reachable_loggedRuns {ok : LoggedStore β → RemoraTransaction TpccTransaction → Prop}
    (hs : (loggedRuns P D W).ReachableVia ok s) {t : RemoraTransaction TpccTransaction}
    (ht : ok s t) {S : Objects β} (h : apply P t s.store = some S) :
    (loggedRuns P D W).ReachableVia ok ⟨S, s.executed ++ [t.transaction]⟩ :=
  hs.step ht (by simp [loggedRuns, h])

theorem Counted.apply {t : RemoraTransaction TpccTransaction} (ht : Placed P K t)
    (hs : Counted P W s) {S : Objects β} (h : apply P t s.store = some S) :
    Counted P W ⟨S, s.executed ++ [t.transaction]⟩ := by
  have hinj : Set.InjOn P.objectId {k | k ∈ initialRows W} := hK.mono hW
  -- What is executed refers to rows that are there.
  have hrows : ∀ k ∈ t.transaction.rows, k ∈ initialRows W := fun k hk => by
    obtain ⟨k', hk', heq⟩ := hs.present _ (isSome_of_apply ht.built h hk)
    exact hK (hW k' hk') (ht.rows k hk) heq ▸ hk'
  have hlines : LoggedStore.lines ⟨S, s.executed ++ [t.transaction]⟩ =
      s.lines ++ t.transaction.lines := by
    simp [LoggedStore.lines]
  have horders (w d : ℕ) : LoggedStore.orders ⟨S, s.executed ++ [t.transaction]⟩ w d =
      s.orders w d + if t.transaction.isOrderOf w d then 1 else 0 := by
    simp [LoggedStore.orders, List.countP_append, List.countP_singleton]
  refine ⟨fun o ho => hs.present o ((isSome_apply_iff ht.built h o).mp ho), fun w i hk => ?_,
    fun w d hk => ?_⟩
  · rw [hlines]
    exact counts_of_apply hinj ht.built hrows h ht.quantity hs.stock w i hk
  · rw [horders, ← Nat.add_assoc]
    exact dNextOId_of_apply hinj ht.built hrows h hk (hs.district w d hk)

theorem counted_of_reachable
    (hs : (loggedRuns P D W).ReachableVia (fun _ t => Placed P K t) s) : Counted P W s := by
  refine hs.invariant (fun s h => h ▸ counted_init hK hW) fun s t s' _ hI ht hstep => ?_
  obtain rfl := Option.some.inj hstep
  cases h : Tpcc.apply P t s.store with
  | none => exact hI
  | some S => exact hI.apply hK hW ht h

end Runs

/-- No counter has gone beyond 32 bits. -/
structure CountersFit (W : ℕ) (s : LoggedStore β) : Prop where
  ytd : ∀ w i, .stock w i ∈ initialRows W → quantities (supplied w i s.lines) < 2 ^ 32
  orderCnt : ∀ w i, .stock w i ∈ initialRows W → (supplied w i s.lines).length < 2 ^ 32
  nextOId : ∀ w d, .district w d ∈ initialRows W → initialNextOId + s.orders w d < 2 ^ 32

/-- The counters of the rows are those of the executed transactions. -/
structure CountersExact (P : Platform β) (W : ℕ) (s : LoggedStore β) : Prop where
  stock : ∀ w i, .stock w i ∈ initialRows W → ∃ stock : Stock,
    row P s.store (.stock w i) = some stock ∧
      (10 ≤ stock.sQuantity ∧ stock.sQuantity ≤ 100) ∧
      stock.sOrderCnt = (supplied w i s.lines).length ∧
      stock.sYtd = quantities (supplied w i s.lines) ∧
      stock.sRemoteCnt = (supplied w i s.lines).countP PlacedLine.isRemote
  district : ∀ w d, .district w d ∈ initialRows W → ∃ district : District,
    row P s.store (.district w d) = some district ∧
      district.dNextOId = initialNextOId + s.orders w d

/-- Whatever transactions are executed from the initial store, the counters of the stock and of the
districts are exact, and the quantities stay between 10 and 100. -/
theorem stock_and_order_counters {K : Set PrimaryKey} (hK : Set.InjOn P.objectId K) {W : ℕ}
    (hW : ∀ k ∈ initialRows W, k ∈ K) {D : Draws} {s : LoggedStore β}
    (hs : (loggedRuns P D W).ReachableVia (fun _ t => Placed P K t) s) (hfit : CountersFit W s) :
    CountersExact P W s := by
  have hcounted := counted_of_reachable hK hW hs
  refine ⟨fun w i hk => ?_, fun w d hk => ?_⟩
  · obtain ⟨stock, hrow, hquantity, hytd, horder, hremote⟩ := hcounted.stock w i hk
    have hle := List.countP_le_length (p := PlacedLine.isRemote) (l := supplied w i s.lines)
    refine ⟨stock, hrow, hquantity, ?_, ?_, ?_⟩
    · rw [horder, Nat.mod_eq_of_lt (hfit.orderCnt w i hk)]
    · rw [hytd, Nat.mod_eq_of_lt (hfit.ytd w i hk)]
    · rw [hremote, Nat.mod_eq_of_lt (hle.trans_lt (hfit.orderCnt w i hk))]
  · obtain ⟨district, hrow, hnext⟩ := hcounted.district w d hk
    exact ⟨district, hrow, hnext.trans (Nat.mod_eq_of_lt (hfit.nextOId w d hk))⟩

/-- An order of two lines for the same row of another warehouse. -/
def remoteOrder : TpccTransaction :=
  .newOrder 1 1 5 [⟨3, 2, 4⟩, ⟨3, 2, 10⟩]

theorem placed_remote_order (P : Platform β) :
    Placed P Set.univ (TpccExecutableTransaction.new P remoteOrder 7 0 0) where
  built := built_new _ _ _ _
  rows _ _ := trivial
  quantity := by
    simp [TpccExecutableTransaction.new, RemoraTransaction.new, remoteOrder,
      TpccTransaction.lines, maxOlQuantity]

/-- Two lines are far from `2 ^ 32`. -/
theorem countersFit_of_remote_order (W : ℕ) (S : Objects β) :
    CountersFit W ⟨S, [remoteOrder]⟩ where
  ytd w i _ := by
    simp only [LoggedStore.lines, remoteOrder, TpccTransaction.lines, List.flatMap_singleton,
      supplied, quantities, List.map_cons, List.map_nil]
    by_cases h : 2 = w ∧ 3 = i
    · obtain ⟨rfl, rfl⟩ := h
      simp
    · simp [h]
  orderCnt w i _ := by
    refine (List.length_filter_le _ _).trans_lt ?_
    simp [LoggedStore.lines, remoteOrder, TpccTransaction.lines]
  nextOId w d _ := by
    have hle : LoggedStore.orders (⟨S, [remoteOrder]⟩ : LoggedStore β) w d ≤ 1 :=
      List.countP_le_length
    unfold initialNextOId
    omega

theorem rows_of_two_warehouses : ∀ k ∈ remoteOrder.rows, k ∈ initialRows 2 := by
  have hw : 1 ∈ warehouses 2 ∧ 2 ∈ warehouses 2 := by simp [warehouses]
  have hd : 1 ∈ districts := by simp [districts, districtsPerWarehouse]
  have hc : (1, 1, 5) ∈ customers 2 := by simp [customers, hw, hd, customersPerDistrict]
  have hstock : .stock 2 3 ∈ initialRows 2 := stock_mem.mpr ⟨hw.2, by decide, by decide⟩
  have hitem : .item 3 ∈ initialRows 2 := item_mem.mpr ⟨by decide, by decide⟩
  simp only [remoteOrder, TpccTransaction.rows, TpccTransaction.accessRows,
    TpccTransaction.itemRows, List.map_cons, List.map_nil, List.forall_mem_append,
    List.forall_mem_cons]
  exact ⟨⟨⟨warehouse_mem.mpr hw.1, district_mem.mpr ⟨hw.1, hd⟩, customer_mem.mpr hc, by simp⟩,
    hstock, hstock, by simp⟩, hitem, hitem, by simp⟩

/-- The order in the initial store of two warehouses. -/
theorem stock_and_order_counters_remote_order :
    let P := plainPlatform ⟨false, false⟩
    ∃ S, apply P (TpccExecutableTransaction.new P remoteOrder 7 0 0)
        (initObjects P leastDraws 2) = some S ∧
      CountersExact P 2 ⟨S, [remoteOrder]⟩ := by
  intro P
  have hK : Set.InjOn P.objectId Set.univ := plainObjectId_injective.injOn
  have hrows : Set.InjOn P.objectId {k | k ∈ initialRows 2} := plainObjectId_injective.injOn
  have ht := placed_remote_order P
  have hpresent : ∀ k ∈ remoteOrder.rows, (row P (initObjects P leastDraws 2) k).isSome :=
    fun k hk => by
      rw [row_initObjects leastDraws hrows (rows_of_two_warehouses k hk), Option.isSome_some]
  have hb : P.build.overflowChecks = false := rfl
  obtain ⟨S, hS⟩ := Option.isSome_iff_exists.mp (isSome_apply hb ht.built hpresent)
  have hinit : (loggedRuns P leastDraws 2).ReachableVia (fun _ t => Placed P Set.univ t)
      ⟨initObjects P leastDraws 2, []⟩ := .init rfl
  exact ⟨S, hS, stock_and_order_counters hK (fun _ _ => trivial)
    (reachable_loggedRuns hinit ht hS) (countersFit_of_remote_order 2 S)⟩

end Tpcc

end Remora
