import Remora.LoadSplit
import Remora.RoundRobin

/-!
# The hotspot of a benchmark

A generator counts its transactions and moves the hotspot to the next node when so many of them are
generated as the load has in the rotation interval. All sixteen generators start at the same node,
and each is given its part of the load. So they take the same turns, and since a client replays what
one of them has generated, the clients do.

If the whole load is on the hotspot, the place of a transaction in its client tells the node of its
home warehouse, and no node has more of the load than another over all turns (`hotspot_rotates`).
The first turn has one transaction less, which is counted before it is generated.
-/

namespace Remora

namespace Tpcc

open Sampling Sampling.Sampler EvenSplit RoundRobin

/-! ## The generator -/

namespace TpccGenerator

variable (g : TpccGenerator)

/-- The transactions from one rotation to the next. -/
def txnsPerRotation : ℕ :=
  g.expectedTps * g.rotationIntervalSecs

/-- What becomes of a new generator with `n` transactions. -/
def rotated (n : ℕ) : TpccGenerator :=
  { g with
    currentHotspotNode := turn g.txnsPerRotation g.numNodes n
    txnCountSinceRotation := n % g.txnsPerRotation }

/-- The hotspot rotates, and nothing overflows. -/
structure Rotates : Prop where
  pos : 0 < g.txnsPerRotation
  lt : g.txnsPerRotation < 2 ^ 64
  nodes : 1 < g.numNodes

/-- All home warehouses are drawn from the hotspot node, which has one. -/
structure AllHotspot : Prop where
  percentage : g.hotspotPercentage = some 1
  nodes : 1 < g.numNodes
  warehouses : ∀ node < g.numNodes, g.warehousesOnNode node ≠ []

variable {g}

theorem maybeRotateHotspot_rotated (hg : g.Rotates) (b : Build) (n : ℕ) :
    (g.rotated n).maybeRotateHotspot b = some (g.rotated (n + 1)) := by
  have hinterval : g.rotationIntervalSecs ≠ 0 := by
    intro hzero
    have hpos := hg.pos
    rw [txnsPerRotation, hzero, Nat.mul_zero] at hpos
    exact Nat.lt_irrefl 0 hpos
  have hcount : b.unsigned 64 (n % g.txnsPerRotation + 1) = some (n % g.txnsPerRotation + 1) :=
    if_pos (Nat.lt_of_le_of_lt (Nat.mod_lt n hg.pos) hg.lt)
  have hlimit : b.unsigned 64 (g.expectedTps * g.rotationIntervalSecs) =
      some g.txnsPerRotation := if_pos hg.lt
  have hrotates : ¬((g.rotated n).rotationIntervalSecs = 0 ∨ (g.rotated n).numNodes ≤ 1) :=
    not_or.mpr ⟨hinterval, Nat.not_le.mpr hg.nodes⟩
  rw [maybeRotateHotspot, if_neg hrotates]
  simp only [rotated, hcount, hlimit, Option.bind_eq_bind, Option.bind_some, turn_succ hg.pos,
    succ_mod hg.pos]
  split_ifs <;> rfl

theorem ensures_home (hg : g.AllHotspot) (hnode : g.currentHotspotNode < g.numNodes)
    (payment : Bool) : Ensures (if payment then g.generatePayment else g.generateNewOrder) fun x =>
      g.warehouseToNode x.transaction.home = g.currentHotspotNode := by
  have hwarehouse : Ensures g.randomWarehouse fun wId =>
      g.warehouseToNode wId = g.currentHotspotNode := by
    rw [randomWarehouse_of_hotspot hg.percentage hg.nodes]
    exact (ensures_randomWarehouseFromNode _).mono fun wId h =>
      (mem_warehousesOnNode.mp (h.2 (hg.warehouses _ hnode))).2
  refine Ensures.ite (fun _ => ?_) fun _ => ?_
  · exact hwarehouse.bind fun wId h => (Ensures.trivial _).bind fun dId _ =>
      (Ensures.trivial _).bind fun x _ => (Ensures.trivial _).bind fun cDId _ =>
        (Ensures.trivial _).bind fun cId _ => (Ensures.trivial _).bind fun hAmount _ =>
          Ensures.pure h
  · exact hwarehouse.bind fun wId h => (Ensures.trivial _).bind fun dId _ =>
      (Ensures.trivial _).bind fun cId _ => (Ensures.trivial _).bind fun olCnt _ =>
        (Ensures.trivial _).bind fun items _ => Ensures.pure h

/-- The next transaction is at the node of the next turn. -/
theorem ensures_generateTransaction_rotated (hg : g.Rotates) (hall : g.AllHotspot) (b : Build)
    (n : ℕ) : Ensures ((g.rotated n).generateTransaction b) fun x =>
      g.warehouseToNode x.1.transaction.home = turn g.txnsPerRotation g.numNodes (n + 1) ∧
        x.2 = g.rotated (n + 1) := by
  have hrotate : Ensures (lift ((g.rotated n).maybeRotateHotspot b)) fun g' =>
      g' = g.rotated (n + 1) := Ensures.lift fun g' h =>
    Option.some.inj (h.symm.trans (maybeRotateHotspot_rotated hg b n))
  have hnext : (g.rotated (n + 1)).AllHotspot := ⟨hall.percentage, hall.nodes, hall.warehouses⟩
  refine hrotate.bind fun g' hg' => ?_
  subst hg'
  refine (Ensures.trivial _).bind fun payment _ => ?_
  have hnode : (g.rotated (n + 1)).currentHotspotNode < (g.rotated (n + 1)).numNodes :=
    turn_lt (Nat.zero_lt_of_lt hg.nodes) _
  exact (ensures_home hnext hnode payment).bind fun x hx => Ensures.pure ⟨hx, rfl⟩

/-- The places of the transactions tell their nodes. -/
theorem ensures_generateAll_rotated {β : Type} (P : Platform β) (hg : g.Rotates)
    (hall : g.AllHotspot) (count n : ℕ) :
    Ensures ((g.rotated n).generateAll P count) fun transactions =>
      ∀ k t, transactions[k]? = some t →
        g.warehouseToNode t.txn.home = turn g.txnsPerRotation g.numNodes (n + k + 1) := by
  induction count generalizing n with
  | zero => exact Ensures.pure (by simp)
  | succ count ih =>
    refine (ensures_generateTransaction_rotated hg hall P.build n).bind fun x hx => ?_
    obtain ⟨generated, g'⟩ := x
    obtain ⟨hhome, rfl⟩ := hx
    refine (Ensures.trivial _).bind fun digest _ => (ih (n + 1)).bind fun transactions h =>
      Ensures.pure fun k t ht => ?_
    cases k with
    | zero =>
      obtain rfl := Option.some.inj ht
      exact hhome
    | succ k =>
      rw [Nat.add_right_comm n (k + 1) 1]
      exact h k t ht

end TpccGenerator

/-! ## The benchmark -/

/-- The node of the home warehouse. -/
def TpccWorkload.homeNode (w : TpccWorkload) (t : UntimedTransaction) : ℕ :=
  (t.txn.home - 1) % w.numNodes

namespace Generation

variable {β : Type} (r : Generation β) (w : TpccWorkload)

/-- The transactions of a task from one rotation to the next. -/
def turnLength : ℕ :=
  r.perTaskTps * w.rotationIntervalSecs

/-- The whole load is on a hotspot that rotates over nodes that have warehouses. -/
structure HotspotLoad : Prop where
  workload : r.config.workload = some w
  percentage : ∃ p, w.hotspotPercentage = some p ∧ 1 ≤ p
  nodes : 1 < w.numNodes
  le : w.numNodes ≤ w.numWarehouses % 2 ^ 32
  interval : 0 < w.rotationIntervalSecs
  lt : r.turnLength w < 2 ^ 64

variable {r w}

/-- The generator that the tasks start with. -/
def HotspotLoad.generator (_ : r.HotspotLoad w) : TpccGenerator :=
  .new w.numWarehouses w.paymentRatio w.numNodes w.hotspotPercentage w.rotationIntervalSecs
    r.perTaskTps

namespace HotspotLoad

variable (hr : r.HotspotLoad w)
include hr

theorem numNodes_generator : hr.generator.numNodes = w.numNodes :=
  Nat.max_eq_left hr.nodes.le

theorem rotates (hpos : 0 < r.turnLength w) : hr.generator.Rotates :=
  ⟨hpos, hr.lt, hr.numNodes_generator ▸ hr.nodes⟩

theorem allHotspot : hr.generator.AllHotspot where
  percentage := by
    obtain ⟨p, hp, hle⟩ := hr.percentage
    change w.hotspotPercentage.map (fun p => max 0 (min p 1)) = some 1
    rw [hp, Option.map_some, min_eq_right hle, max_eq_right zero_le_one]
  nodes := hr.numNodes_generator ▸ hr.nodes
  warehouses node hnode := by
    rw [numNodes_generator] at hnode
    -- The first one is `node + 1`.
    have hmem : node + 1 ∈ hr.generator.warehousesOnNode node := by
      rw [TpccGenerator.mem_warehousesOnNode, mem_warehouses, TpccGenerator.warehouseToNode,
        numNodes_generator, Nat.add_sub_cancel, Nat.mod_eq_of_lt hnode]
      exact ⟨⟨Nat.succ_pos _, (Nat.succ_le_of_lt hnode).trans hr.le⟩, rfl⟩
    exact List.ne_nil_of_mem hmem

/-- What a task generates. -/
theorem homeNode_of_generated (hload : r.config.load + numGeneratorTasks < 2 ^ 64)
    (hpos : 0 < r.turnLength w) {count : ℕ} {draws rest : List ℕ}
    {chunk : List UntimedTransaction} (h : r.generatorTask count draws = some (chunk, rest))
    {k : ℕ} {t : UntimedTransaction} (ht : chunk[k]? = some t) :
    w.homeNode t = turn (r.turnLength w) w.numNodes (k + 1) := by
  rw [generatorTask, ceilDiv_eq _ (by decide) hload, hr.workload] at h
  have hnew : hr.generator = hr.generator.rotated 0 := by
    simp [TpccGenerator.rotated, turn, generator, TpccGenerator.new]
  have hensures := TpccGenerator.ensures_generateAll_rotated r.platform (hr.rotates hpos)
    hr.allHotspot count 0
  rw [← hnew] at hensures
  have hhome := hensures draws chunk rest h k t ht
  rw [TpccGenerator.warehouseToNode, numNodes_generator, Nat.zero_add] at hhome
  exact hhome

end HotspotLoad

/-- A load that is generated at all has turns. -/
theorem turnLength_pos {transactions : List UntimedTransaction}
    {split : List (List UntimedTransaction)} (hr : r.HotspotLoad w)
    (h : r.LinedUp transactions split) :
    0 < r.turnLength w ∧ r.config.load + numGeneratorTasks < 2 ^ 64 := by
  have htotal := h.total_pos
  have hfits := (isSome_of_generateTransactions h.generated h.length_transactions).1
  have hload : 0 < r.config.load := Nat.pos_of_mul_pos_right htotal
  refine ⟨Nat.mul_pos (Nat.div_pos ?_ (by decide)) hr.interval, load_lt_of_fits htotal hfits⟩
  rw [numGeneratorTasks]
  omega

theorem taskEnd_eq_returned {taskId count : ℕ} {chunk : List UntimedTransaction}
    (h : r.taskEnd taskId count = .returned chunk) :
    ∃ rest, r.generatorTask count (r.draws taskId) = some (chunk, rest) := by
  cases htask : r.generatorTask count (r.draws taskId) with
  | none =>
    rw [taskEnd, htask] at h
    dsimp only at h
    split_ifs at h
  | some x =>
    obtain ⟨chunk', rest⟩ := x
    rw [taskEnd_of_some htask] at h
    obtain rfl := TaskEnd.returned.inj h
    exact ⟨rest, rfl⟩

/-- Each chunk of a client was generated by a task. -/
theorem LinedUp.exists_task {transactions : List UntimedTransaction}
    {split : List (List UntimedTransaction)} (h : r.LinedUp transactions split) {i : ℕ}
    {chunk : List UntimedTransaction} (hi : split[i]? = some chunk) :
    ∃ count draws rest, r.generatorTask count draws = some (chunk, rest) := by
  obtain ⟨ends, hends, hend⟩ := h.output i chunk hi
  obtain ⟨totalTxns, htotal, hspawn⟩ := Option.bind_eq_some_iff.mp hends
  have hmem := List.mem_of_getElem? hend
  obtain ⟨totalTxns', ends', htotal', hends', hfits, -, -⟩ :=
    generateTransactions_eq_some.mp h.generated
  obtain rfl := Option.some.inj (htotal'.symm.trans htotal)
  rw [spawnTasks_eq (lt_of_fits hfits)] at hspawn
  obtain rfl := Option.some.inj hspawn
  obtain ⟨taskId, -, htask⟩ := List.mem_map.mp hmem
  obtain ⟨rest, hrest⟩ := taskEnd_eq_returned htask
  exact ⟨_, _, rest, hrest⟩

end Generation

/-- If the whole load is on the hotspot, the `k`-th transaction of a client is at the node whose
turn it is, and in all turns in a row each node has the same number of them. -/
theorem hotspot_rotates {β : Type} {r : Generation β} {w : TpccWorkload} (hr : r.HotspotLoad w)
    {transactions : List UntimedTransaction} {split : List (List UntimedTransaction)}
    (h : r.LinedUp transactions split) {i : ℕ} {chunk : List UntimedTransaction}
    (hi : split[i]? = some chunk) :
    (∀ k t, chunk[k]? = some t →
      w.homeNode t = (k + 1) / r.turnLength w % w.numNodes) ∧
    ∀ a, a + w.numNodes * r.turnLength w ≤ chunk.length → ∀ node < w.numNodes,
      ((chunk.drop a).take (w.numNodes * r.turnLength w)).countP
        (fun t => w.homeNode t = node) = r.turnLength w := by
  obtain ⟨hpos, hload⟩ := Generation.turnLength_pos hr h
  obtain ⟨count, draws, rest, htask⟩ := h.exists_task hi
  have hhome : ∀ k t, chunk[k]? = some t →
      w.homeNode t = turn (r.turnLength w) w.numNodes (k + 1) := fun k t =>
    hr.homeNode_of_generated hload hpos htask
  refine ⟨hhome, fun a ha node hnode => ?_⟩
  have hlength : ((chunk.drop a).take (w.numNodes * r.turnLength w)).length =
      w.numNodes * r.turnLength w := by
    rw [List.length_take, List.length_drop]
    omega
  rw [countP_eq_count (p := fun k => turn (r.turnLength w) w.numNodes (a + 1 + k) = node), hlength]
  · exact count_turn hpos hnode (a + 1)
  · intro k t ht
    have hlt : k < w.numNodes * r.turnLength w :=
      hlength ▸ (List.getElem?_eq_some_iff.mp ht).1
    rw [List.getElem?_take_of_lt hlt, List.getElem?_drop] at ht
    rw [decide_eq_true_iff, hhome _ _ ht, Nat.add_right_comm a 1 k]

/-- Payments at two nodes, of which the hotspot moves with every transaction. -/
def movingHotspot : Generation (Σ kind, ObjectID × Record kind) where
  platform := plainPlatform ⟨true, true⟩
  config := { load := 1, duration := 17 * 10 ^ 9, workload := some ⟨2, some 1, 2, some 1, 1⟩ }
  size := 200
  size_pos := Nat.le_add_left 1 199
  draws _ := (List.replicate 2 [0, 0, 2 ^ 64 - 1, 0, 0, 7]).flatten
  hasPanicked _ := false

/-- The first client has a transaction at the second node, and then one at the first. -/
theorem hotspot_rotates_moving : ∃ transactions split chunk,
    movingHotspot.LinedUp transactions split ∧ split[0]? = some chunk ∧
      chunk.map (TpccWorkload.homeNode ⟨2, some 1, 2, some 1, 1⟩) = [1, 0] := by
  have hr : movingHotspot.HotspotLoad ⟨2, some 1, 2, some 1, 1⟩ :=
    ⟨rfl, ⟨1, rfl, le_rfl⟩, by decide, by decide, by decide, by decide⟩
  have hdrawn : 0 < movingHotspot.config.total ∧
      movingHotspot.config.total * movingHotspot.size < 2 ^ 63 ∧
      ∀ i < numGeneratorTasks, 0 < movingHotspot.config.taskShare i →
        (movingHotspot.generatorTask (movingHotspot.config.taskShare i)
          (movingHotspot.draws i)).isSome := by
    decide +kernel
  obtain ⟨hpos, hfits, htasks⟩ := hdrawn
  obtain ⟨transactions, split, h⟩ := Generation.linesUp_of_isSome hpos hfits htasks
  have htotal : transactions.length = 17 := h.length_transactions
  obtain ⟨t₀, t₁, rest, rfl⟩ : ∃ t₀ t₁ rest, transactions = t₀ :: t₁ :: rest := by
    match transactions, htotal with
    | t₀ :: t₁ :: rest, _ => exact ⟨t₀, t₁, rest, rfl⟩
  have hlen : 0 < (t₀ :: t₁ :: rest).length ∧ (t₀ :: t₁ :: rest).length < 2 ^ 63 := by
    omega
  obtain ⟨-, hsplit⟩ := splitTransactions_eq movingHotspot.platform.build hlen.1 hlen.2
  rw [h.splits, htotal, chunks_of_ne_nil (by decide) (List.cons_ne_nil _ _)] at hsplit
  obtain rfl := Option.some.inj hsplit
  obtain ⟨hhome, -⟩ := hotspot_rotates hr h (i := 0) rfl
  have hfirst := hhome 0 t₀ rfl
  have hsecond := hhome 1 t₁ rfl
  refine ⟨_, _, _, h, rfl, ?_⟩
  exact congrArg₂ (fun a b => [a, b]) hfirst hsecond

end Tpcc

end Remora
