import Mathlib.Algebra.Order.BigOperators.Group.List
import Mathlib.Algebra.Order.Floor.Semifield
import Mathlib.Data.List.Sort
import Mathlib.Data.Rat.Floor
import Mathlib.Order.Interval.Finset.Nat
import Mathlib.Tactic.Common
import Mathlib.Tactic.Linarith

/-!
# Calibration

The nodes burn the time of an execution or a verification in a spin loop, whose number of iterations
is calibrated when the executor is created. One attempt is a binary search that measures the loop
with the number of iterations in the middle (`Calibration.calibrateOnce`). The calibration takes
five samples of it, drops the least and the greatest, and tries again if the others vary too much
(`Calibration.calibrate`).

A clock may show any time for a measurement, as another process may run meanwhile. A search that is
not disturbed ends where the loop begins to be too slow (`Calibration.search_within`). A disturbed
measurement spoils one sample (`Calibration.countP_collect_le`), and one spoiled sample is dropped
(`Trimming.mem_of_countP_le_one`).
-/

/-! ## Dropping the outliers -/

namespace Trimming

variable {α : Type*} [LinearOrder α] {lo hi : α}

/-- If one element of a sorted list is outside of an interval, it is the first or the last one. -/
theorem mem_of_countP_le_one {l : List α} (hl : l.Pairwise (· ≤ ·))
    (h : l.countP (fun x => ¬(lo ≤ x ∧ x ≤ hi)) ≤ 1) {x : α} (hx : x ∈ l.tail.dropLast) :
    lo ≤ x ∧ x ≤ hi := by
  cases l with
  | nil => simp at hx
  | cons a t =>
    rw [List.tail_cons] at hx
    have hne : t ≠ [] := by
      rintro rfl
      simp at hx
    have hsplit := List.dropLast_append_getLast hne
    set init := t.dropLast
    set b := t.getLast hne
    rw [← hsplit, List.pairwise_cons, List.pairwise_append] at hl
    obtain ⟨hfirst, -, -, hlast⟩ := hl
    have hax : a ≤ x := hfirst x (List.mem_append_left _ hx)
    have hxb : x ≤ b := hlast x hx b (List.mem_singleton_self b)
    by_contra hout
    have hinit : 0 < init.countP (fun x => ¬(lo ≤ x ∧ x ≤ hi)) :=
      List.countP_pos_iff.mpr ⟨x, hx, decide_eq_true hout⟩
    rw [← hsplit, List.countP_cons, List.countP_append, List.countP_singleton] at h
    -- If `x` is below the interval, so is `a`, and if it is above, so is `b`.
    rcases not_and_or.mp hout with hlt | hgt
    · have ha : ¬(lo ≤ a ∧ a ≤ hi) := fun ha => hlt (ha.1.trans hax)
      rw [if_pos (decide_eq_true ha)] at h
      omega
    · have hb : ¬(lo ≤ b ∧ b ≤ hi) := fun hb => hgt (hxb.trans hb.2)
      rw [if_pos (decide_eq_true hb)] at h
      omega

end Trimming

namespace Remora

namespace Calibration

variable (elapsed : ℕ → ℕ → ℕ) (target : ℕ)

/-! ## The calibration

The clock shows the time `elapsed m n` for `n` iterations in the measurement `m`. Each function
returns the number of measurements that were made, before it and by it. -/

/-- The loop of a calibration attempt. -/
def search (low high best m : ℕ) : ℕ × ℕ :=
  if low ≤ high then
    if target < elapsed m ((low + high) / 2) then
      if (low + high) / 2 = 0 then ((low + high) / 2, m + 1)
      else search low ((low + high) / 2 - 1) ((low + high) / 2) (m + 1)
    else search ((low + high) / 2 + 1) high best (m + 1)
  else (best, m)
termination_by high + 1 - low

def maxIterations : ℕ := 1000000

def calibrateOnce (m : ℕ) : ℕ × ℕ :=
  search elapsed target 1 maxIterations maxIterations m

def maxRetries : ℕ := 5

def sampleSize : ℕ := 5

def variationThreshold : ℚ := 1 / 20

/-- So many samples, one after the other. -/
def collect : ℕ → ℕ → List ℕ × ℕ
  | 0, m => ([], m)
  | k + 1, m =>
    let sample := calibrateOnce elapsed target m
    let samples := collect k sample.2
    (sample.1 :: samples.1, samples.2)

def removeOutliers (samples : List ℕ) : List ℕ :=
  let sorted := samples.insertionSort (· ≤ ·)
  if 2 < sorted.length then sorted.tail.dropLast else sorted

/-- In the source a float. The floor of the rounded average of three numbers of iterations is the
floor of the average. -/
def average (samples : List ℕ) : ℚ :=
  samples.sum / samples.length

/-- In the source a float, which is rounded to the threshold only if it is the threshold. -/
def variation (samples : List ℕ) : ℚ :=
  if 0 < average samples then
    ((samples.max?.getD 0 : ℕ) - (samples.min?.getD 0 : ℕ) : ℚ) / average samples
  else 0

/-- The attempts that are left. -/
def retry : ℕ → ℕ → ℕ × ℕ
  | 0, m => calibrateOnce elapsed target m
  | retries + 1, m =>
    let collected := collect elapsed target sampleSize m
    let samples := removeOutliers collected.1
    if samples ≠ [] ∧ variation samples ≤ variationThreshold then
      (⌊average samples⌋₊, collected.2)
    else retry retries collected.2

def calibrate (m : ℕ) : ℕ × ℕ :=
  retry elapsed target maxRetries m

/-! ## One search -/

variable {elapsed target} {low high best m lo hi : ℕ}

/-- The measurement does not tell that less than `lo` iterations are fast and that `hi` or more are
slow. -/
def Disturbed (elapsed : ℕ → ℕ → ℕ) (target lo hi m : ℕ) : Prop :=
  ¬∀ n, (n < lo → elapsed m n ≤ target) ∧ (hi ≤ n → target < elapsed m n)

/-- An interval is halved by every measurement. -/
theorem search_measurements {k : ℕ} (h : high + 1 - low < 2 ^ k) :
    m ≤ (search elapsed target low high best m).2 ∧
      (search elapsed target low high best m).2 ≤ m + k := by
  fun_induction search elapsed target low high best m generalizing k with
  | case1 low high best m hle hslow hzero =>
    cases k with
    | zero => omega
    | succ k => exact ⟨Nat.le_succ m, by omega⟩
  | case2 low high best m hle hslow hzero ih =>
    cases k with
    | zero => omega
    | succ k =>
      rw [Nat.pow_succ] at h
      have hk := @ih k (by omega)
      omega
  | case3 low high best m hle hfast ih =>
    cases k with
    | zero => omega
    | succ k =>
      rw [Nat.pow_succ] at h
      have hk := @ih k (by omega)
      omega
  | case4 low high best m hlt => exact ⟨le_rfl, Nat.le_add_right m k⟩

theorem le_search : m ≤ (search elapsed target low high best m).2 :=
  (search_measurements Nat.lt_two_pow_self).1

theorem search_range {a b : ℕ} (ha : 0 < a) (hlow : a ≤ low) (hhigh : high ≤ b)
    (hbest : a ≤ best ∧ best ≤ b) : a ≤ (search elapsed target low high best m).1 ∧
      (search elapsed target low high best m).1 ≤ b := by
  fun_induction search elapsed target low high best m with
  | case1 low high best m hle hslow hzero => omega
  | case2 low high best m hle hslow hzero ih => exact ih hlow (by omega) (by omega)
  | case3 low high best m hle hfast ih => exact ih (by omega) hhigh hbest
  | case4 low high best m hlt => exact hbest

/-- While no measurement is disturbed, what is below the interval was fast, and the best number of
iterations was slow and is next to the interval. -/
theorem search_within (hbest : lo ≤ best) (hlow : low ≤ hi) (hnext : best ≤ high + 1)
    (h : ∀ i, m ≤ i → i < (search elapsed target low high best m).2 →
      ¬Disturbed elapsed target lo hi i) :
    lo ≤ (search elapsed target low high best m).1 ∧
      (search elapsed target low high best m).1 ≤ hi := by
  fun_induction search elapsed target low high best m with
  | case1 low high best m hle hslow hzero =>
    obtain ⟨hlo, -⟩ := not_not.mp (h m le_rfl (Nat.lt_succ_self m)) ((low + high) / 2)
    omega
  | case2 low high best m hle hslow hzero ih =>
    obtain ⟨hlo, -⟩ := not_not.mp (h m le_rfl le_search) ((low + high) / 2)
    refine ih (by omega) hlow (by omega) fun i hi => h i (by omega)
  | case3 low high best m hle hfast ih =>
    obtain ⟨-, hhi⟩ := not_not.mp (h m le_rfl le_search) ((low + high) / 2)
    refine ih hbest (by omega) hnext fun i hi => h i (by omega)
  | case4 low high best m hlt => omega

variable (elapsed target) in
theorem calibrateOnce_measurements (m : ℕ) : m ≤ (calibrateOnce elapsed target m).2 ∧
    (calibrateOnce elapsed target m).2 ≤ m + 20 :=
  search_measurements (by decide)

theorem calibrateOnce_range (m : ℕ) : 1 ≤ (calibrateOnce elapsed target m).1 ∧
    (calibrateOnce elapsed target m).1 ≤ maxIterations :=
  search_range Nat.one_pos le_rfl le_rfl ⟨by decide, le_rfl⟩

theorem calibrateOnce_within (hlo : lo ≤ maxIterations) (hhi : 1 ≤ hi)
    (h : ∀ i, m ≤ i → i < (calibrateOnce elapsed target m).2 →
      ¬Disturbed elapsed target lo hi i) :
    lo ≤ (calibrateOnce elapsed target m).1 ∧ (calibrateOnce elapsed target m).1 ≤ hi :=
  search_within hlo hhi (Nat.le_succ _) h

/-! ## Samples -/

theorem length_collect (k m : ℕ) : (collect elapsed target k m).1.length = k := by
  induction k generalizing m with
  | zero => rfl
  | succ k ih => exact congrArg Nat.succ (ih _)

variable (elapsed target) in
theorem collect_measurements (k m : ℕ) : m ≤ (collect elapsed target k m).2 ∧
    (collect elapsed target k m).2 ≤ m + 20 * k := by
  induction k generalizing m with
  | zero => exact ⟨le_rfl, le_rfl⟩
  | succ k ih =>
    have hsample := calibrateOnce_measurements elapsed target m
    have hsamples := ih (calibrateOnce elapsed target m).2
    rw [collect]
    omega

/-- What is known of every sample. -/
theorem mem_collect {p : ℕ → Prop} {k : ℕ} (h : ∀ i, m ≤ i → p (calibrateOnce elapsed target i).1)
    {x : ℕ} (hx : x ∈ (collect elapsed target k m).1) : p x := by
  induction k generalizing m with
  | zero => exact absurd hx List.not_mem_nil
  | succ k ih =>
    rcases List.mem_cons.mp hx with rfl | hx
    · exact h m le_rfl
    · exact ih (fun i hi => h i ((calibrateOnce_measurements elapsed target m).1.trans hi)) hx

open Classical in
/-- A disturbed measurement spoils one sample. -/
theorem countP_collect_le (hlo : lo ≤ maxIterations) (hhi : 1 ≤ hi) (k m : ℕ) :
    (collect elapsed target k m).1.countP (fun x => ¬(lo ≤ x ∧ x ≤ hi)) ≤
      {i ∈ Finset.Ico m (collect elapsed target k m).2 |
        Disturbed elapsed target lo hi i}.card := by
  induction k generalizing m with
  | zero => exact Nat.zero_le _
  | succ k ih =>
    let m₁ := (calibrateOnce elapsed target m).2
    let m₂ := (collect elapsed target k m₁).2
    let disturbed (a b : ℕ) := {i ∈ Finset.Ico a b | Disturbed elapsed target lo hi i}
    have hm₁ : m ≤ m₁ := (calibrateOnce_measurements elapsed target m).1
    have hm₂ : m₁ ≤ m₂ := (collect_measurements elapsed target k m₁).1
    have hsplit : disturbed m m₂ = disturbed m m₁ ∪ disturbed m₁ m₂ := by
      rw [← Finset.filter_union, Finset.Ico_union_Ico_eq_Ico hm₁ hm₂]
    have hdisjoint : Disjoint (disturbed m m₁) (disturbed m₁ m₂) :=
      Finset.disjoint_filter_filter (Finset.Ico_disjoint_Ico_consecutive m m₁ m₂)
    have hsample : (if (decide ¬(lo ≤ (calibrateOnce elapsed target m).1 ∧
        (calibrateOnce elapsed target m).1 ≤ hi)) = true then 1 else 0) ≤
          (disturbed m m₁).card := by
      split_ifs with hout
      · obtain ⟨i, hi, hlt, hdisturbed⟩ : ∃ i, m ≤ i ∧ i < m₁ ∧
            Disturbed elapsed target lo hi i := by
          by_contra hnone
          push Not at hnone
          exact of_decide_eq_true hout (calibrateOnce_within hlo hhi hnone)
        exact Finset.card_pos.mpr
          ⟨i, Finset.mem_filter.mpr ⟨Finset.mem_Ico.mpr ⟨hi, hlt⟩, hdisturbed⟩⟩
      · exact Nat.zero_le _
    calc (collect elapsed target (k + 1) m).1.countP (fun x => ¬(lo ≤ x ∧ x ≤ hi))
        ≤ (disturbed m₁ m₂).card + (disturbed m m₁).card := by
          rw [collect, List.countP_cons]
          exact Nat.add_le_add (ih m₁) hsample
      _ = (disturbed m m₂).card := by
          rw [hsplit, Finset.card_union_of_disjoint hdisjoint, Nat.add_comm]

/-! ## The average of the samples -/

theorem removeOutliers_spec {samples : List ℕ} (h : 2 < samples.length) :
    removeOutliers samples = (samples.insertionSort (· ≤ ·)).tail.dropLast ∧
      removeOutliers samples ≠ [] := by
  have hlength := List.length_insertionSort (· ≤ ·) samples
  have hsome : removeOutliers samples = (samples.insertionSort (· ≤ ·)).tail.dropLast :=
    if_pos (hlength ▸ h)
  refine ⟨hsome, fun hnil => ?_⟩
  have hzero := congrArg List.length (hsome.symm.trans hnil)
  rw [List.length_dropLast, List.length_tail, hlength, List.length_nil] at hzero
  omega

theorem mem_of_mem_removeOutliers {samples : List ℕ} {x : ℕ} (hx : x ∈ removeOutliers samples) :
    x ∈ samples := by
  rw [← List.mem_insertionSort (· ≤ ·)]
  rw [removeOutliers] at hx
  split_ifs at hx
  · exact List.mem_of_mem_tail (List.mem_of_mem_dropLast hx)
  · exact hx

/-- One spoiled sample is dropped. -/
theorem mem_removeOutliers {samples : List ℕ} (h : 2 < samples.length)
    (hout : samples.countP (fun x => ¬(lo ≤ x ∧ x ≤ hi)) ≤ 1) {x : ℕ}
    (hx : x ∈ removeOutliers samples) : lo ≤ x ∧ x ≤ hi := by
  rw [(removeOutliers_spec h).1] at hx
  refine Trimming.mem_of_countP_le_one (List.pairwise_insertionSort _ _) ?_ hx
  rwa [(List.perm_insertionSort _ _).countP_eq]

section Average

variable {samples : List ℕ} (hne : samples ≠ []) (h : ∀ x ∈ samples, lo ≤ x ∧ x ≤ hi)
include hne h

theorem average_within : lo ≤ ⌊average samples⌋₊ ∧ ⌊average samples⌋₊ ≤ hi := by
  have hpos : 0 < samples.length := List.length_pos_iff.mpr hne
  have hge := List.card_nsmul_le_sum samples lo fun x hx => (h x hx).1
  have hle := List.sum_le_card_nsmul samples hi fun x hx => (h x hx).2
  rw [nsmul_eq_mul, Nat.cast_id] at hge hle
  rw [average, Nat.floor_div_eq_div]
  constructor
  · rw [Nat.le_div_iff_mul_le hpos, Nat.mul_comm]
    exact hge
  · exact Nat.div_le_of_le_mul hle

/-- Samples from a narrow interval do not vary too much. -/
theorem variation_le (hnarrow : 20 * (hi - lo) ≤ lo) :
    variation samples ≤ variationThreshold := by
  obtain ⟨greatest, hmax⟩ := Option.isSome_iff_exists.mp (List.isSome_max?_of_ne_nil hne)
  obtain ⟨least, hmin⟩ := Option.isSome_iff_exists.mp (List.isSome_min?_of_ne_nil hne)
  have hgreatest := (h greatest (List.max?_mem hmax)).2
  have hleast := (h least (List.min?_mem hmin)).1
  have hspread : (20 * (greatest - least) : ℚ) ≤ lo := by
    have hcast : 20 * greatest ≤ lo + 20 * least := by omega
    have hrat : (20 * greatest : ℚ) ≤ lo + 20 * least := by exact_mod_cast hcast
    linarith
  have hlo : (lo : ℚ) ≤ average samples :=
    (Nat.cast_le.mpr (average_within hne h).1).trans (Nat.floor_le (by rw [average]; positivity))
  rw [variation, variationThreshold, hmax, hmin, Option.getD_some, Option.getD_some]
  split_ifs with havg
  · rw [div_le_iff₀ havg]
    linarith
  · norm_num

end Average

/-! ## The whole calibration -/

/-- What every search finds, the calibration does. -/
theorem retry_within {retries : ℕ} (h : ∀ i, m ≤ i → lo ≤ (calibrateOnce elapsed target i).1 ∧
    (calibrateOnce elapsed target i).1 ≤ hi) : lo ≤ (retry elapsed target retries m).1 ∧
      (retry elapsed target retries m).1 ≤ hi := by
  induction retries generalizing m with
  | zero => exact h m le_rfl
  | succ retries ih =>
    rw [retry]
    split_ifs with hstable
    · exact average_within hstable.1 fun x hx =>
        mem_collect (p := fun x => lo ≤ x ∧ x ≤ hi) h (mem_of_mem_removeOutliers hx)
    · exact ih fun i hi => h i ((collect_measurements elapsed target sampleSize m).1.trans hi)

theorem retry_measurements (retries m : ℕ) :
    (retry elapsed target retries m).2 ≤ m + 100 * retries + 20 := by
  induction retries generalizing m with
  | zero => exact (calibrateOnce_measurements elapsed target m).2
  | succ retries ih =>
    have hcollect := (collect_measurements elapsed target sampleSize m).2
    have hrest := ih (collect elapsed target sampleSize m).2
    rw [sampleSize] at hcollect hrest
    rw [retry, sampleSize]
    split_ifs <;> omega

open Classical in
/-- If one measurement is disturbed at most, the first attempt is stable. -/
theorem retry_of_one_disturbed {retries : ℕ} (hlo : lo ≤ maxIterations) (hhi : 1 ≤ hi)
    (hnarrow : 20 * (hi - lo) ≤ lo)
    (hone : {i ∈ Finset.Ico m (collect elapsed target sampleSize m).2 |
      Disturbed elapsed target lo hi i}.card ≤ 1) :
    (lo ≤ (retry elapsed target (retries + 1) m).1 ∧
      (retry elapsed target (retries + 1) m).1 ≤ hi) ∧
      (retry elapsed target (retries + 1) m).2 ≤ m + 100 := by
  have hlength : 2 < (collect elapsed target sampleSize m).1.length := by
    rw [length_collect, sampleSize]
    decide
  have hne := (removeOutliers_spec hlength).2
  have hwithin : ∀ x ∈ removeOutliers (collect elapsed target sampleSize m).1,
      lo ≤ x ∧ x ≤ hi := fun x hx =>
    mem_removeOutliers hlength ((countP_collect_le hlo hhi sampleSize m).trans hone) hx
  rw [retry, if_pos ⟨hne, variation_le hne hwithin hnarrow⟩]
  exact ⟨average_within hne hwithin, (collect_measurements elapsed target sampleSize m).2⟩

/-- The calibration ends with a number of iterations of the interval it searches. If no measurement
is disturbed, it is where the loop begins to be too slow, and if the disturbed measurements are far
apart, one attempt is enough for that. -/
theorem calibrate_withstands (hlo : lo ≤ maxIterations) (hhi : 1 ≤ hi) (m : ℕ) :
    ((1 ≤ (calibrate elapsed target m).1 ∧ (calibrate elapsed target m).1 ≤ maxIterations) ∧
      (calibrate elapsed target m).2 ≤ m + 520) ∧
    ((∀ i, m ≤ i → ¬Disturbed elapsed target lo hi i) →
      lo ≤ (calibrate elapsed target m).1 ∧ (calibrate elapsed target m).1 ≤ hi) ∧
    (20 * (hi - lo) ≤ lo →
      (∀ i j, m ≤ i → i < j → Disturbed elapsed target lo hi i →
        Disturbed elapsed target lo hi j → i + 100 ≤ j) →
      (lo ≤ (calibrate elapsed target m).1 ∧ (calibrate elapsed target m).1 ≤ hi) ∧
        (calibrate elapsed target m).2 ≤ m + 100) := by
  classical
  refine ⟨⟨retry_within fun i _ => calibrateOnce_range i, retry_measurements maxRetries m⟩,
    fun h => retry_within fun i hi =>
      calibrateOnce_within hlo hhi fun j hj _ => h j (hi.trans hj), fun hnarrow hapart =>
    retry_of_one_disturbed hlo hhi hnarrow (Finset.card_le_one.mpr fun i hi j hj => ?_)⟩
  have hwindow := (collect_measurements elapsed target sampleSize m).2
  rw [Finset.mem_filter, Finset.mem_Ico] at hi hj
  rw [sampleSize] at hwindow hi hj
  by_contra hij
  rcases Nat.lt_or_gt_of_ne hij with hlt | hlt
  · have hfar := hapart i j hi.1.1 hlt hi.2 hj.2
    omega
  · have hfar := hapart j i hj.1.1 hlt hj.2 hi.2
    omega

/-- A microsecond for an iteration, and a preemption in the measurement 7. -/
def preempted (m n : ℕ) : ℕ :=
  if m = 7 then 10000000 else 1000 * n

/-- The result is exact. -/
theorem calibrate_withstands_preemption : (calibrate preempted 800000 0).1 = 801 := by
  have hdisturbed : ∀ i, Disturbed preempted 800000 801 801 i → i = 7 := by
    intro i h
    by_contra hne
    refine h fun n => ?_
    rw [preempted, if_neg hne]
    omega
  obtain ⟨-, -, hone⟩ := @calibrate_withstands preempted 800000 801 801 (by decide) (by decide) 0
  obtain ⟨⟨hge, hle⟩, -⟩ := hone (by decide) fun i j _ hlt hi hj => by
    rw [hdisturbed i hi, hdisturbed j hj] at hlt
    omega
  exact le_antisymm hle hge

end Calibration

end Remora
