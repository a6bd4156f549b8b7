import Remora.TpccGenerator

/-!
# The generator on endless draws

A generator that does not run out of random numbers generates every transaction it is asked for,
unless it panics or draws another warehouse for ever. It panics on a payment ratio that is no
probability, on a hotspot percentage that is not a number, without warehouses, and where an overflow
in the length of a turn is a panic (`WellConfigured`). It does so at its first transaction, or
never.
-/

namespace Remora

namespace Tpcc

open Sampling Sampling.Sampler

namespace TpccGenerator

variable (g : TpccGenerator)

/-- The generator at another moment. -/
def atNode (node count : ℕ) : TpccGenerator :=
  { g with currentHotspotNode := node, txnCountSinceRotation := count }

/-- No draw and no rotation panics. -/
structure WellConfigured (b : Build) : Prop where
  payment : ∃ p, g.paymentRatio = some p ∧ 0 ≤ p ∧ p ≤ 1
  warehouses : 1 ≤ g.lastWarehouse
  hotspot : g.numNodes ≤ 1 ∨ g.hotspotPercentage ≠ none
  rotation : b.overflowChecks = true → g.rotationIntervalSecs = 0 ∨ g.numNodes ≤ 1 ∨
    g.expectedTps * g.rotationIntervalSecs < 2 ^ 64

/-- Wherever on the stream the draws for another warehouse begin, they come to an end. -/
def Redraws (σ : ℕ → ℕ) : Prop :=
  ∀ node < g.numNodes, ∀ count, ∀ wId ∈ Tpcc.warehouses g.numWarehouses,
    EndsOn σ ((g.atNode node count).randomWarehouseExcluding wId)

variable {g} {b : Build} {σ : ℕ → ℕ}

/-! ## What ends -/

theorem endsOn_randomWarehouseFromNode (h : 1 ≤ g.lastWarehouse) (nodeId : ℕ) :
    EndsOn σ (g.randomWarehouseFromNode nodeId) := by
  refine EndsOn.ite (fun _ => endsOn_genRange h) fun hempty => ?_
  refine (endsOn_genRange (Nat.zero_le _)).bind (ensures_genRange _ _) fun idx hidx => ?_
  have hpos : 0 < (g.warehousesOnNode nodeId).length :=
    List.length_pos_iff.mpr fun hnil => hempty (List.isEmpty_iff.mpr hnil)
  exact EndsOn.lift (by rw [List.getElem?_eq_getElem (by omega)]; rfl)

theorem endsOn_randomWarehouse (h : 1 ≤ g.lastWarehouse)
    (hhotspot : g.numNodes ≤ 1 ∨ g.hotspotPercentage ≠ none) : EndsOn σ g.randomWarehouse := by
  refine EndsOn.ite (fun _ => endsOn_genRange h) fun hnot => ?_
  obtain ⟨p, hp⟩ := Option.ne_none_iff_exists'.mp (hhotspot.resolve_left (not_or.mp hnot).2)
  obtain ⟨hlo, hhi⟩ := g.hotspot_mem p hp
  rw [hp]
  refine (endsOn_genBool hlo hhi).seq fun hot => ?_
  exact EndsOn.ite (fun _ => endsOn_randomWarehouseFromNode h _) fun _ => endsOn_genRange h

/-- Without a hotspot, the draws end if another warehouse comes again and again. -/
theorem redraws_of_uniform (huniform : g.hotspotPercentage = some 0 ∨ g.numNodes ≤ 1)
    (h : 1 ≤ g.lastWarehouse) (hagain : ∀ wId ∈ Tpcc.warehouses g.numWarehouses, ∀ k, ∃ n,
      1 + σ (k + n) % (g.lastWarehouse - 1 + 1) ≠ wId) : g.Redraws σ := by
  intro node _ count wId hw
  refine endsOn_loopUntil (fun d => 1 + d % (g.lastWarehouse - 1 + 1)) (fun d rest => ?_)
    fun k => ?_
  · have hwarehouse : (g.atNode node count).randomWarehouse = genRange 1 g.lastWarehouse :=
      if_pos huniform
    rw [hwarehouse, genRange, if_pos h]
    rfl
  · obtain ⟨n, hn⟩ := hagain wId hw k
    exact ⟨n, decide_eq_true hn⟩

section Generate

variable (hwarehouses : 1 ≤ g.lastWarehouse)
  (hhotspot : g.numNodes ≤ 1 ∨ g.hotspotPercentage ≠ none)
  (hredraws : 1 < g.numWarehouses → ∀ wId ∈ Tpcc.warehouses g.numWarehouses,
    EndsOn σ (g.randomWarehouseExcluding wId))
include hredraws

/-- A remote warehouse is drawn only if there are several. -/
theorem endsOn_randomRemote {wId : ℕ} (hw : wId ∈ Tpcc.warehouses g.numWarehouses) {p : ℚ}
    (hlo : 0 ≤ p) (hhi : p ≤ 1) : EndsOn σ (g.randomRemote (some p) wId) := by
  have hends : EndsOn σ (if 1 < g.numWarehouses then genBool (some p) else pure false) :=
    EndsOn.ite (fun _ => endsOn_genBool hlo hhi) fun _ => EndsOn.pure _
  have hensures : Ensures (if 1 < g.numWarehouses then genBool (some p) else pure false)
      fun remote => remote = true → 1 < g.numWarehouses :=
    Ensures.ite (fun h => (Ensures.trivial _).mono fun _ _ _ => h) fun _ => Ensures.pure nofun
  refine hends.bind hensures fun remote hremote => ?_
  have hother : EndsOn σ (if remote then g.randomWarehouseExcluding wId else pure wId) :=
    EndsOn.ite (fun h => hredraws (hremote h) wId hw) fun _ => EndsOn.pure _
  exact hother.seq fun other => EndsOn.pure _

theorem endsOn_orderItem {wId : ℕ} (hw : wId ∈ Tpcc.warehouses g.numWarehouses) :
    EndsOn σ (g.orderItem wId) := by
  refine (endsOn_genRange (by decide)).seq fun iId => ?_
  refine (endsOn_randomRemote hredraws hw (by norm_num) (by norm_num)).seq fun x => ?_
  exact (endsOn_genRange (by decide)).seq fun quantity => EndsOn.pure _

include hwarehouses hhotspot

theorem endsOn_generateNewOrder : EndsOn σ g.generateNewOrder := by
  refine (endsOn_randomWarehouse hwarehouses hhotspot).bind ensures_randomWarehouse
    fun wId hw => ?_
  refine (endsOn_genRange (by decide)).seq fun dId => ?_
  refine (endsOn_genRange (by decide)).seq fun cId => ?_
  refine (endsOn_genRange (by decide)).seq fun olCnt => ?_
  exact (endsOn_replicate (endsOn_orderItem hredraws hw) olCnt).seq fun items => EndsOn.pure _

theorem endsOn_generatePayment : EndsOn σ g.generatePayment := by
  refine (endsOn_randomWarehouse hwarehouses hhotspot).bind ensures_randomWarehouse
    fun wId hw => ?_
  refine (endsOn_genRange (by decide)).seq fun dId => ?_
  refine (endsOn_randomRemote hredraws hw (by norm_num) (by norm_num)).seq fun x => ?_
  have hdistrict : EndsOn σ (if x.2 then randomDistrict else pure dId) :=
    EndsOn.ite (fun _ => endsOn_genRange (by decide)) fun _ => EndsOn.pure _
  refine hdistrict.seq fun cDId => ?_
  refine (endsOn_genRange (by decide)).seq fun cId => ?_
  exact (endsOn_genRange (by decide)).seq fun hAmount => EndsOn.pure _

end Generate

/-! ## Rotations -/

/-- A rotation changes the node and the count only, and the count by no more than one. -/
theorem maybeRotateHotspot_eq_some {node count : ℕ} {g' : TpccGenerator}
    (h : (g.atNode node count).maybeRotateHotspot b = some g') (hnode : node < g.numNodes) :
    ∃ node' < g.numNodes, ∃ count', (count + 1 < 2 ^ 64 → count' ≤ count + 1) ∧
      g' = g.atNode node' count' := by
  unfold maybeRotateHotspot at h
  split_ifs at h
  · exact ⟨node, hnode, count, fun _ => Nat.le_succ _, (Option.some.inj h).symm⟩
  · obtain ⟨count', hcount, h⟩ := Option.bind_eq_some_iff.mp h
    obtain ⟨limit, -, h⟩ := Option.bind_eq_some_iff.mp h
    split_ifs at h
    · exact ⟨(node + 1) % g.numNodes, Nat.mod_lt _ g.numNodes_pos, 0, fun _ => Nat.zero_le _,
        (Option.some.inj h).symm⟩
    · refine ⟨node, hnode, count', fun hlt => ?_, (Option.some.inj h).symm⟩
      exact (Option.some.inj ((b.unsigned_of_lt hlt).symm.trans hcount)).ge

theorem isSome_maybeRotateHotspot (hg : g.WellConfigured b) {node count : ℕ}
    (hcount : count + 1 < 2 ^ 64) : ((g.atNode node count).maybeRotateHotspot b).isSome := by
  unfold maybeRotateHotspot
  split_ifs with hrotates
  · rfl
  · obtain ⟨hinterval, hnodes⟩ := not_or.mp hrotates
    have hlimit : (b.unsigned 64 (g.expectedTps * g.rotationIntervalSecs)).isSome :=
      (Build.isSome_unsigned _ _).mpr fun hb =>
        ((hg.rotation hb).resolve_left hinterval).resolve_left hnodes
    obtain ⟨limit, hlimit⟩ := Option.isSome_iff_exists.mp hlimit
    simp only [atNode, b.unsigned_of_lt hcount, hlimit, Option.bind_eq_bind, Option.bind_some]
    split_ifs <;> rfl

/-- The length of a turn is computed in every rotation. -/
theorem rotation_of_isSome {node count : ℕ}
    (h : ((g.atNode node count).maybeRotateHotspot b).isSome) (hb : b.overflowChecks = true) :
    g.rotationIntervalSecs = 0 ∨ g.numNodes ≤ 1 ∨
      g.expectedTps * g.rotationIntervalSecs < 2 ^ 64 := by
  obtain ⟨g', h⟩ := Option.isSome_iff_exists.mp h
  unfold maybeRotateHotspot at h
  split_ifs at h with hrotates
  · exact hrotates.imp_right Or.inl
  · obtain ⟨count', -, h⟩ := Option.bind_eq_some_iff.mp h
    obtain ⟨limit, hlimit, -⟩ := Option.bind_eq_some_iff.mp h
    exact Or.inr (Or.inr
      ((Build.isSome_unsigned _ _).mp (Option.isSome_iff_exists.mpr ⟨limit, hlimit⟩) hb))

/-! ## Transactions -/

theorem endsOn_generateTransaction (hg : g.WellConfigured b)
    (hredraws : 1 < g.numWarehouses → g.Redraws σ) {node count : ℕ} (hnode : node < g.numNodes)
    (hcount : count + 1 < 2 ^ 64) : EndsOn σ ((g.atNode node count).generateTransaction b) := by
  obtain ⟨p, hp, hlo, hhi⟩ := hg.payment
  refine (EndsOn.lift (isSome_maybeRotateHotspot hg hcount)).bind (Ensures.lift fun g' h =>
    maybeRotateHotspot_eq_some h hnode) ?_
  rintro _ ⟨node', hnode', count', -, rfl⟩
  have hpayment : EndsOn σ (genBool (g.atNode node' count').paymentRatio) := by
    rw [show (g.atNode node' count').paymentRatio = some p from hp]
    exact endsOn_genBool hlo hhi
  refine hpayment.seq fun payment => ?_
  have hredraws' : 1 < g.numWarehouses → ∀ wId ∈ Tpcc.warehouses g.numWarehouses,
      EndsOn σ ((g.atNode node' count').randomWarehouseExcluding wId) :=
    fun h => hredraws h node' hnode' count'
  have hgenerate : EndsOn σ (if payment then (g.atNode node' count').generatePayment
      else (g.atNode node' count').generateNewOrder) :=
    EndsOn.ite (fun _ => endsOn_generatePayment hg.warehouses hg.hotspot hredraws')
      fun _ => endsOn_generateNewOrder hg.warehouses hg.hotspot hredraws'
  exact hgenerate.seq fun generated => EndsOn.pure _

/-- The generator after a transaction. -/
theorem ensures_atNode {node count : ℕ} (hnode : node < g.numNodes) (hcount : count + 1 < 2 ^ 64) :
    Ensures ((g.atNode node count).generateTransaction b) fun x =>
      ∃ node' < g.numNodes, ∃ count' ≤ count + 1, x.2 = g.atNode node' count' := by
  refine (Ensures.lift fun g' h => maybeRotateHotspot_eq_some h hnode).bind ?_
  rintro g' ⟨node', hnode', count', hle, rfl⟩
  exact (Ensures.trivial _).bind fun payment _ => (Ensures.trivial _).bind fun generated _ =>
    Ensures.pure ⟨node', hnode', count', hle hcount, rfl⟩

/-! ## What panics -/

theorem of_isSome_randomWarehouse {draws : List ℕ} (h : (g.randomWarehouse draws).isSome) :
    1 ≤ g.lastWarehouse ∧ (g.numNodes ≤ 1 ∨ g.hotspotPercentage ≠ none) := by
  obtain ⟨⟨wId, rest⟩, h⟩ := Option.isSome_iff_exists.mp h
  obtain ⟨hlo, hhi⟩ := mem_warehouses.mp (ensures_randomWarehouse _ _ _ h)
  refine ⟨hlo.trans hhi, or_iff_not_imp_left.mpr fun hnodes hnone => ?_⟩
  have hnot : ¬(g.hotspotPercentage = some 0 ∨ g.numNodes ≤ 1) := by simp [hnone, hnodes]
  rw [randomWarehouse, if_neg hnot, hnone] at h
  cases h

theorem isSome_randomWarehouse {payment : Bool} {x : Generated} {draws rest : List ℕ}
    (h : (if payment then g.generatePayment else g.generateNewOrder) draws = some (x, rest)) :
    (g.randomWarehouse draws).isSome := by
  split_ifs at h
  all_goals
    obtain ⟨wId, rest', hw, -⟩ := bind_eq_some h
    exact Option.isSome_iff_exists.mpr ⟨_, hw⟩

/-- A generator that returns a transaction is well configured. -/
theorem wellConfigured_of_isSome {draws : List ℕ} {node count : ℕ} (hnode : node < g.numNodes)
    (h : ((g.atNode node count).generateTransaction b draws).isSome) : g.WellConfigured b := by
  obtain ⟨⟨x, rest⟩, h⟩ := Option.isSome_iff_exists.mp h
  obtain ⟨g', draws₁, hrotate, h⟩ := bind_eq_some h
  obtain ⟨payment, draws₂, hpayment, h⟩ := bind_eq_some h
  obtain ⟨generated, draws₃, hgenerated, -⟩ := bind_eq_some h
  obtain ⟨hrotate, -⟩ := lift_eq_some hrotate
  obtain ⟨node', -, count', -, rfl⟩ := maybeRotateHotspot_eq_some hrotate hnode
  obtain ⟨hwarehouses, hhotspot⟩ := of_isSome_randomWarehouse (isSome_randomWarehouse hgenerated)
  exact {
    payment := exists_of_isSome_genBool (Option.isSome_iff_exists.mpr ⟨_, hpayment⟩)
    warehouses := hwarehouses
    hotspot := hhotspot
    rotation := rotation_of_isSome (Option.isSome_iff_exists.mpr ⟨_, hrotate⟩) }

end TpccGenerator

end Tpcc

end Remora
