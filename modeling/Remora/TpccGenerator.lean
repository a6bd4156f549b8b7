import Remora.Sampling
import Remora.TpccMoney

/-!
# The generator of TPC-C transactions

The generator draws the parameters of a transaction, each from the range of its table. A warehouse
is drawn from all of them, or with some probability from those of the hotspot node, of which a
rotation changes the number. Some order lines are supplied by another warehouse, and some payments
are made by a customer of another one, who is drawn again as long as it is the home warehouse.

Whatever is drawn, a transaction refers to rows of the initial store only, so that none of its
objects is unknown (`generated_transactions_closed`). The draws for another warehouse can come to
an end unless there is none, or all draws go to the hotspot node and it has the home warehouse
alone (`remote_selection_finishes_iff`).
-/

namespace Remora

namespace Tpcc

open Sampling Sampling.Sampler

/-! ## Constants -/

def minOlCnt : ℕ := 5

def maxOlCnt : ℕ := 15

def remoteWarehouseProb : F64 := some (15 / 100)

def remoteCustomerProb : F64 := some (15 / 100)

def minPaymentCents : ℕ := 100

def maxPaymentCents : ℕ := 500000

/-- `TpccGenerator`. The seed of the random numbers is left out. -/
structure TpccGenerator where
  numWarehouses : ℕ
  paymentRatio : F64
  numNodes : ℕ
  hotspotPercentage : F64
  rotationIntervalSecs : ℕ
  currentHotspotNode : ℕ
  txnCountSinceRotation : ℕ
  expectedTps : ℕ
  numNodes_pos : 1 ≤ numNodes
  hotspot_mem : ∀ p, hotspotPercentage = some p → 0 ≤ p ∧ p ≤ 1

/-- A transaction, and the warehouses that were drawn as remote for it. -/
structure Generated where
  transaction : TpccTransaction
  remote : List ℕ
  deriving DecidableEq, Repr

namespace TpccGenerator

def new (numWarehouses : ℕ) (paymentRatio : F64) (numNodes : ℕ) (hotspotPercentage : F64)
    (rotationIntervalSecs expectedTps : ℕ) : TpccGenerator where
  numWarehouses := numWarehouses
  paymentRatio := paymentRatio
  numNodes := max numNodes 1
  hotspotPercentage := hotspotPercentage.map fun p => max 0 (min p 1)
  rotationIntervalSecs := rotationIntervalSecs
  currentHotspotNode := 0
  txnCountSinceRotation := 0
  expectedTps := expectedTps
  numNodes_pos := Nat.le_max_right _ _
  hotspot_mem p hp := by
    obtain ⟨q, -, rfl⟩ := Option.map_eq_some_iff.mp hp
    exact ⟨le_max_left _ _, max_le (by norm_num) (min_le_right _ _)⟩

variable (g : TpccGenerator)

/-- The number of warehouses, cut to 32 bits. -/
def lastWarehouse : ℕ :=
  g.numWarehouses % 2 ^ 32

/-! ## Warehouses -/

def warehouseToNode (warehouseId : ℕ) : ℕ :=
  (warehouseId - 1) % g.numNodes

def warehousesOnNode (nodeId : ℕ) : List ℕ :=
  (oneTo g.lastWarehouse).filter fun wId => g.warehouseToNode wId = nodeId

def randomWarehouseFromNode (nodeId : ℕ) : Sampler ℕ :=
  let warehouses := g.warehousesOnNode nodeId
  if warehouses.isEmpty then genRange 1 g.lastWarehouse
  else do
    let idx ← genRange 0 (warehouses.length - 1)
    lift warehouses[idx]?

def randomWarehouse : Sampler ℕ :=
  if g.hotspotPercentage = some 0 ∨ g.numNodes ≤ 1 then genRange 1 g.lastWarehouse
  else do
    let hotspot ← genBool g.hotspotPercentage
    if hotspot then g.randomWarehouseFromNode g.currentHotspotNode
    else genRange 1 g.lastWarehouse

theorem consumes_randomWarehouse : g.randomWarehouse.Consumes := by
  have hnode (nodeId : ℕ) : (g.randomWarehouseFromNode nodeId).Consumes := by
    simp only [randomWarehouseFromNode]
    split_ifs
    · exact consumes_genRange _ _
    · exact (consumes_genRange _ _).bind fun idx => Keeps.lift _
  unfold randomWarehouse
  split_ifs
  · exact consumes_genRange _ _
  · refine (keeps_genBool _).bind fun hotspot => ?_
    split_ifs
    · exact hnode _
    · exact consumes_genRange _ _

/-- Another warehouse than `exclude`. -/
def randomWarehouseExcluding (exclude : ℕ) : Sampler ℕ :=
  loopUntil g.randomWarehouse g.consumes_randomWarehouse fun wId => wId ≠ exclude

/-! ## Other rows -/

def randomDistrict : Sampler ℕ :=
  genRange 1 districtsPerWarehouse

def randomCustomer : Sampler ℕ :=
  genRange 1 customersPerDistrict

def randomItem : Sampler ℕ :=
  genRange 1 numItems

/-! ## Transactions -/

/-- Another warehouse with this probability, if there are several, and whether it was drawn as
remote. -/
def randomRemote (prob : F64) (wId : ℕ) : Sampler (ℕ × Bool) := do
  let remote ← (if 1 < g.numWarehouses then genBool prob else pure false)
  let other ← (if remote then g.randomWarehouseExcluding wId else pure wId)
  pure (other, remote)

/-- An order line, and its warehouse if it was drawn as remote. -/
def orderItem (wId : ℕ) : Sampler (OrderItem × List ℕ) := do
  let iId ← randomItem
  let (supplyWId, remote) ← g.randomRemote remoteWarehouseProb wId
  let quantity ← genRange 1 maxOlQuantity
  pure (⟨iId, supplyWId, quantity⟩, if remote then [supplyWId] else [])

def generateNewOrder : Sampler Generated := do
  let wId ← g.randomWarehouse
  let dId ← randomDistrict
  let cId ← randomCustomer
  let olCnt ← genRange minOlCnt maxOlCnt
  let items ← replicate (g.orderItem wId) olCnt
  pure ⟨.newOrder wId dId cId (items.map Prod.fst), items.flatMap Prod.snd⟩

def generatePayment : Sampler Generated := do
  let wId ← g.randomWarehouse
  let dId ← randomDistrict
  let (cWId, remote) ← g.randomRemote remoteCustomerProb wId
  let cDId ← (if remote then randomDistrict else pure dId)
  let cId ← randomCustomer
  let hAmount ← genRange minPaymentCents maxPaymentCents
  pure ⟨.payment wId dId cWId cDId cId hAmount, if remote then [cWId] else []⟩

/-- `maybe_rotate_hotspot`. `none` : an overflow that is a panic. -/
def maybeRotateHotspot (b : Build) : Option TpccGenerator :=
  if g.rotationIntervalSecs = 0 ∨ g.numNodes ≤ 1 then some g
  else do
    let txnCountSinceRotation ← b.unsigned 64 (g.txnCountSinceRotation + 1)
    let txnsPerRotation ← b.unsigned 64 (g.expectedTps * g.rotationIntervalSecs)
    if txnsPerRotation ≤ txnCountSinceRotation then
      some { g with
        currentHotspotNode := (g.currentHotspotNode + 1) % g.numNodes
        txnCountSinceRotation := 0 }
    else some { g with txnCountSinceRotation := txnCountSinceRotation }

/-- The next transaction, and the generator after it. -/
def generateTransaction (b : Build) : Sampler (Generated × TpccGenerator) := do
  let g ← lift (g.maybeRotateHotspot b)
  let payment ← genBool g.paymentRatio
  let generated ← (if payment then g.generatePayment else g.generateNewOrder)
  pure (generated, g)

/-! ## What is drawn -/

variable {g}

theorem mem_warehousesOnNode {nodeId wId : ℕ} : wId ∈ g.warehousesOnNode nodeId ↔
    wId ∈ warehouses g.numWarehouses ∧ g.warehouseToNode wId = nodeId := by
  rw [warehousesOnNode, List.mem_filter, mem_oneTo, decide_eq_true_iff, mem_warehouses,
    lastWarehouse]

theorem ensures_uniform :
    Ensures (genRange 1 g.lastWarehouse) fun wId => wId ∈ warehouses g.numWarehouses :=
  (ensures_genRange 1 g.lastWarehouse).mono fun _ => mem_warehouses.mpr

/-- A node that has no warehouse is replaced by all of them. -/
theorem ensures_randomWarehouseFromNode (nodeId : ℕ) :
    Ensures (g.randomWarehouseFromNode nodeId) fun wId => wId ∈ warehouses g.numWarehouses ∧
      (g.warehousesOnNode nodeId ≠ [] → wId ∈ g.warehousesOnNode nodeId) := by
  refine Ensures.ite (fun hempty => ?_) fun _ => ?_
  · exact ensures_uniform.mono fun wId h => ⟨h, fun hne => absurd (List.isEmpty_iff.mp hempty) hne⟩
  · refine (ensures_genRange _ _).bind fun idx _ => Ensures.lift fun wId hwId => ?_
    have hmem := List.mem_of_getElem? hwId
    exact ⟨(mem_warehousesOnNode.mp hmem).1, fun _ => hmem⟩

theorem ensures_randomWarehouse :
    Ensures g.randomWarehouse fun wId => wId ∈ warehouses g.numWarehouses := by
  refine Ensures.ite (fun _ => ensures_uniform) fun _ => ?_
  refine (Ensures.trivial _).bind fun hotspot _ => Ensures.ite (fun _ => ?_) fun _ =>
    ensures_uniform
  exact (ensures_randomWarehouseFromNode _).mono fun _ h => h.1

/-- What was drawn as remote is not the home warehouse. -/
theorem ensures_randomRemote (prob : F64) {wId : ℕ} (hw : wId ∈ warehouses g.numWarehouses) :
    Ensures (g.randomRemote prob wId) fun x =>
      x.1 ∈ warehouses g.numWarehouses ∧ (x.2 = true → x.1 ≠ wId) := by
  refine (Ensures.trivial _).bind fun remote _ => ?_
  have hother : Ensures (if remote then g.randomWarehouseExcluding wId else pure wId) fun other =>
      other ∈ warehouses g.numWarehouses ∧ (remote = true → other ≠ wId) := by
    refine Ensures.ite (fun _ => ?_) fun hlocal => Ensures.pure ⟨hw, fun h => absurd h hlocal⟩
    exact (ensures_loopUntil ensures_randomWarehouse).mono fun other h =>
      ⟨h.2, fun _ => of_decide_eq_true h.1⟩
  exact hother.bind fun other h => Ensures.pure h

theorem ensures_orderItem {wId : ℕ} (hw : wId ∈ warehouses g.numWarehouses) :
    Ensures (g.orderItem wId) fun x =>
      (.item x.1.iId ∈ initialRows g.numWarehouses ∧
        .stock x.1.supplyWId x.1.iId ∈ initialRows g.numWarehouses ∧
        1 ≤ x.1.quantity ∧ x.1.quantity ≤ maxOlQuantity) ∧ ∀ r ∈ x.2, r ≠ wId := by
  refine (ensures_genRange _ _).bind fun iId hi => ?_
  refine (ensures_randomRemote _ hw).bind fun (supplyWId, remote) hsupply => ?_
  refine (ensures_genRange _ _).bind fun quantity hq => Ensures.pure
    ⟨⟨item_mem.mpr hi, stock_mem.mpr ⟨hsupply.1, hi⟩, hq⟩, fun r hr => ?_⟩
  split_ifs at hr with hremote
  · exact List.mem_singleton.mp hr ▸ hsupply.2 hremote
  · simp at hr

end TpccGenerator

namespace TpccTransaction

/-- The home warehouse. -/
def home : TpccTransaction → ℕ
  | newOrder wId _ _ _ => wId
  | payment wId _ _ _ _ _ => wId

end TpccTransaction

/-- The transaction is within the initial store of this many warehouses. -/
structure GeneratedWithin (W : ℕ) (x : Generated) : Prop where
  rows : ∀ k ∈ x.transaction.rows, k ∈ initialRows W
  lines : ∀ wId dId cId items, x.transaction = .newOrder wId dId cId items →
    minOlCnt ≤ items.length ∧ items.length ≤ maxOlCnt ∧
      ∀ line ∈ items, 1 ≤ line.quantity ∧ line.quantity ≤ maxOlQuantity
  remote : ∀ wId ∈ x.remote, wId ≠ x.transaction.home

namespace TpccGenerator

variable {g : TpccGenerator}

theorem ensures_generateNewOrder :
    Ensures g.generateNewOrder (GeneratedWithin g.numWarehouses) := by
  refine ensures_randomWarehouse.bind fun wId hw => (ensures_genRange _ _).bind fun dId hd =>
    (ensures_genRange _ _).bind fun cId hc => (ensures_genRange _ _).bind fun olCnt hcnt => ?_
  refine (ensures_replicate (ensures_orderItem hw) olCnt).bind fun items ⟨hlength, hitems⟩ =>
    Ensures.pure ⟨?_, ?_, ?_⟩
  · simp only [TpccTransaction.rows, TpccTransaction.accessRows, TpccTransaction.itemRows,
      List.forall_mem_append, List.forall_mem_cons, List.forall_mem_map]
    exact ⟨⟨⟨warehouse_mem.mpr hw, district_mem.mpr ⟨hw, mem_districts.mpr hd⟩,
      customer_mem_iff.mpr ⟨hw, mem_districts.mpr hd, hc⟩, by simp⟩,
      fun x hx => (hitems x hx).1.2.1⟩, fun x hx => (hitems x hx).1.1⟩
  · rintro _ _ _ _ ⟨⟩
    rw [List.length_map, hlength]
    exact ⟨hcnt.1, hcnt.2, List.forall_mem_map.mpr fun x hx => (hitems x hx).1.2.2⟩
  · intro r hr
    obtain ⟨x, hx, hr⟩ := List.mem_flatMap.mp hr
    exact (hitems x hx).2 r hr

theorem ensures_generatePayment :
    Ensures g.generatePayment (GeneratedWithin g.numWarehouses) := by
  refine ensures_randomWarehouse.bind fun wId hw => (ensures_genRange _ _).bind fun dId hd => ?_
  refine (ensures_randomRemote _ hw).bind fun (cWId, remote) hremote => ?_
  have hdistrict : Ensures (if remote then randomDistrict else pure dId) fun cDId =>
      1 ≤ cDId ∧ cDId ≤ districtsPerWarehouse :=
    Ensures.ite (fun _ => ensures_genRange _ _) fun _ => Ensures.pure hd
  refine hdistrict.bind fun cDId hcd => (ensures_genRange _ _).bind fun cId hc =>
    (Ensures.trivial _).bind fun hAmount _ => Ensures.pure ⟨?_, ?_, ?_⟩
  · simp only [TpccTransaction.rows, TpccTransaction.accessRows, TpccTransaction.itemRows,
      List.append_nil, List.forall_mem_cons]
    exact ⟨warehouse_mem.mpr hw, district_mem.mpr ⟨hw, mem_districts.mpr hd⟩,
      customer_mem_iff.mpr ⟨hremote.1, mem_districts.mpr hcd, hc⟩, by simp⟩
  · rintro _ _ _ _ ⟨⟩
  · intro r hr
    dsimp only at hr
    split_ifs at hr with h
    · exact List.mem_singleton.mp hr ▸ hremote.2 h
    · simp at hr

theorem numWarehouses_of_rotate {b : Build} {g' : TpccGenerator}
    (h : g.maybeRotateHotspot b = some g') : g'.numWarehouses = g.numWarehouses := by
  unfold maybeRotateHotspot at h
  split_ifs at h
  · rw [← Option.some.inj h]
  · obtain ⟨count, -, h⟩ := Option.bind_eq_some_iff.mp h
    obtain ⟨limit, -, h⟩ := Option.bind_eq_some_iff.mp h
    split_ifs at h <;> rw [← Option.some.inj h]

theorem ensures_generateTransaction (g : TpccGenerator) (b : Build) :
    Ensures (g.generateTransaction b) fun x => GeneratedWithin g.numWarehouses x.1 := by
  have hrotate : Ensures (lift (g.maybeRotateHotspot b)) fun g' =>
      g'.numWarehouses = g.numWarehouses := Ensures.lift fun _ => numWarehouses_of_rotate
  refine hrotate.bind fun g' hg => (Ensures.trivial _).bind fun payment _ => ?_
  have hgenerated : Ensures (if payment then g'.generatePayment else g'.generateNewOrder)
      (GeneratedWithin g.numWarehouses) := by
    rw [← hg]
    exact Ensures.ite (fun _ => ensures_generatePayment) fun _ => ensures_generateNewOrder
  exact hgenerated.bind fun x hx => Ensures.pure hx

end TpccGenerator

/-! ## Executions of generated transactions -/

section Known

variable {β : Type} {P : Platform β} {D : Draws} {W : ℕ}

/-- No transaction removes an object. -/
theorem isSome_of_run {ok : Objects β → RemoraTransaction TpccTransaction → Prop} {S : Objects β}
    (hS : (runs P D W).ReachableVia ok S) {o : ObjectID}
    (ho : (initObjects P D W o).isSome) : (S o).isSome := by
  refine hS.invariant (I := fun S => (S o).isSome) (fun S h => h ▸ ho) fun S t S' _ h _ hstep => ?_
  obtain rfl := Option.some.inj hstep
  cases hN : (execute P t S).1 with
  | none => simpa [apply, hN] using h
  | some N => simp [apply, hN, commit, h]

/-- The footprint of a transaction on initial rows is in the initial store. -/
theorem isSome_of_footprint {txn : TpccTransaction} (hrows : ∀ k ∈ txn.rows, k ∈ initialRows W)
    {o : ObjectID} (ho : o ∈ footprint P txn) : (initObjects P D W o).isSome := by
  rcases ho with ho | ho
  · obtain ⟨k, hk, rfl⟩ := TpccTransaction.mem_accessSet_iff.mp ho
    exact isSome_initObjects (hrows k (List.mem_append_left _ hk))
  · obtain ⟨k, hk, rfl⟩ := TpccTransaction.mem_itemIds_iff.mp ho
    exact isSome_initObjects (hrows k (List.mem_append_right _ hk))

end Known

/-- A generator for so many warehouses returns the transaction for some draws. -/
def IsGenerated (W : ℕ) (t : RemoraTransaction TpccTransaction) : Prop :=
  ∃ g b draws x g' rest, g.numWarehouses = W ∧
    TpccGenerator.generateTransaction g b draws = some ((x, g'), rest) ∧
    x.transaction = t.transaction

/-- Whatever is drawn, a transaction that is returned refers to rows of the initial store only, has
from 5 to 15 lines of quantities from 1 to 10, and a warehouse drawn as remote is not the home
warehouse. After any run of such transactions its execution finds every object it reads. -/
theorem generated_transactions_closed {β : Type} (P : Platform β) (D : Draws) {g : TpccGenerator}
    {b : Build} {draws rest : List ℕ} {x : Generated} {g' : TpccGenerator}
    (h : g.generateTransaction b draws = some ((x, g'), rest)) :
    GeneratedWithin g.numWarehouses x ∧
      (∀ o, o ∈ x.transaction.accessSet P ∨ o ∈ x.transaction.itemIds P →
        (initObjects P D g.numWarehouses o).isSome) ∧
      ∀ S, (runs P D g.numWarehouses).ReachableVia
          (fun _ t => Built P t ∧ IsGenerated g.numWarehouses t) S →
        ∀ t, Built P t → t.transaction = x.transaction →
          ∀ o ∈ (execute P t S).2, (S o).isSome := by
  have hwithin := TpccGenerator.ensures_generateTransaction g b _ _ _ h
  have hknown : ∀ o ∈ footprint P x.transaction, (initObjects P D g.numWarehouses o).isSome :=
    fun o ho => isSome_of_footprint hwithin.rows ho
  refine ⟨hwithin, hknown, fun S hS t ht htxn o ho => isSome_of_run hS (hknown o ?_)⟩
  exact htxn ▸ reads_execute ht ho

/-- New orders for two warehouses, without a hotspot. -/
def uniformOrders : TpccGenerator :=
  .new 2 (some 0) 2 (some 0) 0 1000

/-- The draws for an order of five lines. The first line is remote, and its warehouse is drawn
twice. -/
def orderDraws : List ℕ :=
  [0, 0, 0, 0, 0] ++ [6, 0, 0, 1, 3] ++ (List.replicate 4 [8, 2 ^ 64 - 1, 0]).flatten

theorem generated_transactions_closed_remote_order :
    let P := plainPlatform ⟨true, true⟩
    ∃ x g' rest, uniformOrders.generateTransaction ⟨true, true⟩ orderDraws =
        some ((x, g'), rest) ∧ x.remote = [2] ∧ GeneratedWithin 2 x ∧
      ∀ S, (runs P leastDraws 2).ReachableVia (fun _ t => Built P t ∧ IsGenerated 2 t) S →
        ∀ t, Built P t → t.transaction = x.transaction →
          ∀ o ∈ (execute P t S).2, (S o).isSome := by
  intro P
  have hview : (uniformOrders.generateTransaction ⟨true, true⟩ orderDraws).map
      (fun x => x.1.1.remote) = some [2] := by
    decide +kernel
  obtain ⟨⟨⟨x, g'⟩, rest⟩, h, hremote⟩ := Option.map_eq_some_iff.mp hview
  obtain ⟨hwithin, -, hknown⟩ := generated_transactions_closed P leastDraws h
  exact ⟨x, g', rest, h, hremote, hwithin, hknown⟩

/-! ## Another warehouse -/

namespace TpccGenerator

variable {g : TpccGenerator} {p : ℚ} {exclude : ℕ}

/-- Without a hotspot any warehouse can be drawn. -/
theorem exists_draws_uniform (h : g.hotspotPercentage = some 0 ∨ g.numNodes ≤ 1) {wId : ℕ}
    (hw : wId ∈ warehouses g.numWarehouses) :
    ∃ draws, g.randomWarehouse draws = some (wId, []) := by
  obtain ⟨hlo, hhi⟩ := mem_warehouses.mp hw
  rw [randomWarehouse, if_pos h]
  exact ⟨_, genRange_cons hlo hhi []⟩

/-- So it can if only some draws go to the hotspot node. -/
theorem exists_draws_of_lt_one (hp : g.hotspotPercentage = some p) (hlt : p < 1) {wId : ℕ}
    (hw : wId ∈ warehouses g.numWarehouses) :
    ∃ draws, g.randomWarehouse draws = some (wId, []) := by
  by_cases huniform : g.hotspotPercentage = some 0 ∨ g.numNodes ≤ 1
  · exact exists_draws_uniform huniform hw
  obtain ⟨hlo, hhi⟩ := mem_warehouses.mp hw
  have hbool := genBool_false (g.hotspot_mem p hp).1 hlt [wId - 1]
  refine ⟨(2 ^ 64 - 1) :: [wId - 1], ?_⟩
  rw [randomWarehouse, if_neg huniform, hp, bind_of_some hbool]
  exact genRange_cons hlo hhi []

section Hotspot

variable (hp : g.hotspotPercentage = some 1) (hnodes : 1 < g.numNodes)
include hp hnodes

/-- All draws go to the hotspot node. -/
theorem randomWarehouse_of_hotspot :
    g.randomWarehouse = g.randomWarehouseFromNode g.currentHotspotNode := by
  have hhot : ¬(g.hotspotPercentage = some 0 ∨ g.numNodes ≤ 1) := by
    rw [hp, not_or]
    exact ⟨by simp, by omega⟩
  funext draws
  rw [randomWarehouse, if_neg hhot, hp, bind_of_some (genBool_one draws)]
  rfl

theorem exists_draws_of_empty (hempty : g.warehousesOnNode g.currentHotspotNode = []) {wId : ℕ}
    (hw : wId ∈ warehouses g.numWarehouses) :
    ∃ draws, g.randomWarehouse draws = some (wId, []) := by
  obtain ⟨hlo, hhi⟩ := mem_warehouses.mp hw
  rw [randomWarehouse_of_hotspot hp hnodes, randomWarehouseFromNode, hempty]
  exact ⟨_, genRange_cons hlo hhi []⟩

theorem exists_draws_of_mem {wId : ℕ} (hw : wId ∈ g.warehousesOnNode g.currentHotspotNode) :
    ∃ draws, g.randomWarehouse draws = some (wId, []) := by
  obtain ⟨idx, hidx⟩ := List.mem_iff_getElem?.mp hw
  have hlt := (List.getElem?_eq_some_iff.mp hidx).1
  have hempty : ¬(g.warehousesOnNode g.currentHotspotNode).isEmpty := by
    rw [List.isEmpty_iff]
    exact List.ne_nil_of_mem hw
  have hrange := genRange_cons (Nat.zero_le idx) (Nat.le_sub_one_of_lt hlt) []
  refine ⟨[idx - 0], ?_⟩
  simp only [randomWarehouse_of_hotspot hp hnodes, randomWarehouseFromNode, if_neg hempty]
  rw [bind_of_some hrange, hidx]
  rfl

end Hotspot

/-- A list that is not one element has another one, if it has any. -/
theorem exists_ne_of_nodup {l : List ℕ} (hl : l.Nodup) (hne : l ≠ []) {a : ℕ} (h : l ≠ [a]) :
    ∃ b ∈ l, b ≠ a := by
  match l with
  | [] => exact absurd rfl hne
  | [b] => exact ⟨b, List.mem_singleton_self b, fun hb => h (hb ▸ rfl)⟩
  | b :: c :: l =>
    rcases eq_or_ne b a with rfl | hb
    · have hbc := (List.nodup_cons.mp hl).1
      exact ⟨c, by simp, fun hc => hbc (by simp [hc])⟩
    · exact ⟨b, List.mem_cons_self, hb⟩

theorem nodup_warehousesOnNode (nodeId : ℕ) : (g.warehousesOnNode nodeId).Nodup :=
  List.Nodup.filter _ List.nodup_range'

/-- A warehouse other than `exclude` can be drawn. -/
theorem exists_other_iff (hp : g.hotspotPercentage = some p) :
    (∃ draws wId rest, g.randomWarehouse draws = some (wId, rest) ∧ wId ≠ exclude) ↔
      (∃ wId ∈ warehouses g.numWarehouses, wId ≠ exclude) ∧
        ¬(p = 1 ∧ 1 < g.numNodes ∧ g.warehousesOnNode g.currentHotspotNode = [exclude]) := by
  constructor
  · rintro ⟨draws, wId, rest, h, hne⟩
    refine ⟨⟨wId, ensures_randomWarehouse _ _ _ h, hne⟩, ?_⟩
    rintro ⟨rfl, hnodes, hnode⟩
    rw [randomWarehouse_of_hotspot hp hnodes] at h
    have hmem := (ensures_randomWarehouseFromNode _ _ _ _ h).2 (by simp [hnode])
    rw [hnode, List.mem_singleton] at hmem
    exact hne hmem
  · rintro ⟨⟨wId, hw, hne⟩, hnot⟩
    suffices ∃ wId, wId ≠ exclude ∧ ∃ draws, g.randomWarehouse draws = some (wId, []) by
      obtain ⟨wId, hne, draws, h⟩ := this
      exact ⟨draws, wId, [], h, hne⟩
    by_cases huniform : g.hotspotPercentage = some 0 ∨ g.numNodes ≤ 1
    · exact ⟨wId, hne, exists_draws_uniform huniform hw⟩
    rcases (g.hotspot_mem p hp).2.lt_or_eq with hlt | rfl
    · exact ⟨wId, hne, exists_draws_of_lt_one hp hlt hw⟩
    have hnodes : 1 < g.numNodes := Nat.not_le.mp (not_or.mp huniform).2
    by_cases hempty : g.warehousesOnNode g.currentHotspotNode = []
    · exact ⟨wId, hne, exists_draws_of_empty hp hnodes hempty hw⟩
    obtain ⟨wId, hmem, hne⟩ := exists_ne_of_nodup (nodup_warehousesOnNode _) hempty
      fun hnode => hnot ⟨rfl, hnodes, hnode⟩
    exact ⟨wId, hne, exists_draws_of_mem hp hnodes hmem⟩

theorem exists_excluding_iff : (∃ draws, (g.randomWarehouseExcluding exclude draws).isSome) ↔
    ∃ draws wId rest, g.randomWarehouse draws = some (wId, rest) ∧ wId ≠ exclude := by
  rw [randomWarehouseExcluding, exists_loopUntil_iff]
  simp only [decide_eq_true_eq]

end TpccGenerator

/-- Some draws lead to another warehouse, and out of the loop, if and only if there is one and not
all draws go to a node that has the excluded warehouse alone. -/
theorem remote_selection_finishes_iff {g : TpccGenerator} {p : ℚ}
    (hp : g.hotspotPercentage = some p) (exclude : ℕ) :
    ((∃ draws wId rest, g.randomWarehouse draws = some (wId, rest) ∧ wId ≠ exclude) ∧
        ∃ draws, (g.randomWarehouseExcluding exclude draws).isSome) ↔
      (∃ wId ∈ warehouses g.numWarehouses, wId ≠ exclude) ∧
        ¬(p = 1 ∧ 1 < g.numNodes ∧ g.warehousesOnNode g.currentHotspotNode = [exclude]) := by
  rw [TpccGenerator.exists_excluding_iff, and_self_iff, TpccGenerator.exists_other_iff hp]

/-- Without a hotspot, the other one of two warehouses. -/
theorem remote_selection_finishes_uniform :
    ∃ draws, (uniformOrders.randomWarehouseExcluding 1 draws).isSome := by
  have hp : uniformOrders.hotspotPercentage = some 0 := by decide +kernel
  refine ((remote_selection_finishes_iff hp 1).mpr ⟨⟨2, ?_, by decide⟩, ?_⟩).2
  · rw [mem_warehouses]
    decide
  · rintro ⟨h, -⟩
    exact absurd h (by decide)

/-- Two warehouses on two nodes, and all draws go to the first node. -/
def hotspotOrders : TpccGenerator :=
  .new 2 (some 0) 2 (some 1) 0 1000

/-- Every home warehouse is the first one, and the draws for another one never end. -/
theorem remote_selection_never_finishes :
    1 < hotspotOrders.numWarehouses ∧
      (∀ draws wId rest, hotspotOrders.randomWarehouse draws = some (wId, rest) → wId = 1) ∧
      ∀ draws, hotspotOrders.randomWarehouseExcluding 1 draws = none := by
  have hp : hotspotOrders.hotspotPercentage = some 1 := by decide +kernel
  have hnode : hotspotOrders.warehousesOnNode hotspotOrders.currentHotspotNode = [1] := by
    decide +kernel
  have hfirst : ∀ draws wId rest,
      hotspotOrders.randomWarehouse draws = some (wId, rest) → wId = 1 := by
    intro draws wId rest h
    rw [TpccGenerator.randomWarehouse_of_hotspot hp (by decide)] at h
    have hmem := (TpccGenerator.ensures_randomWarehouseFromNode _ _ _ _ h).2
    rw [hnode, List.mem_singleton] at hmem
    exact hmem (List.cons_ne_nil _ _)
  refine ⟨by decide, hfirst, fun draws => ?_⟩
  rw [← Option.not_isSome_iff_eq_none]
  intro h
  obtain ⟨draws, wId, rest, h, hne⟩ := TpccGenerator.exists_excluding_iff.mp ⟨draws, h⟩
  exact hne (hfirst _ _ _ h)

end Tpcc

end Remora
