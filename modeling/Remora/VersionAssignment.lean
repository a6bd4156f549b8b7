import Remora.Types
import Mathlib.Order.Bounds.Basic
import Mathlib.Data.List.Nodup

/-!
# Version assignment

`VersionAssignmentTask` is the one thread that sees the transactions in consensus order.
It keeps the version each shared object will have after the transactions seen so far. A
transaction requires each of its objects at the recorded version, 2 if there is none, and
lifts all of them to one more than the largest version it requires.

`versionsAt txns j` is the map before the `j`-th transaction and `required txns j` what
that transaction requires. Two equations say all there is to say about them :
`mem_required` and `versionsAt_succ`. A required version is therefore recorded by the
last earlier transaction that accesses the object (`versionsAt_of_lastAccess`), and an
object's versions only grow (`lt_of_required`), so that a version above 2 names its
producer and its consumer (`producer_unique`, `consumer_unique`).
-/

namespace Remora

open Function

variable {τ : Type}

/-- The version of every object before the first transaction. -/
def initialVersion : SequenceNumber := 2

/-- The loop `if v > max_version` over a list of versions, from 2. -/
def maxVersion (ks : List ObjectVersion) : SequenceNumber :=
  ks.foldl (fun m k => if k.2 > m then k.2 else m) initialVersion

/-- The version after `ks` : the largest of them, plus one. -/
def nextVersion (ks : List ObjectVersion) : SequenceNumber :=
  maxVersion ks + 1

namespace VersionAssignmentTask

/-- `shared_object_versions`. -/
abbrev Versions := ObjectID → Option SequenceNumber

/-- The versions `ids` have now. -/
def currentVersions (V : Versions) (ids : List ObjectID) : List ObjectVersion :=
  ids.map fun o => (o, (V o).getD initialVersion)

/-- Record `v` for every object of `ids`. -/
def record (V : Versions) (ids : List ObjectID) (v : SequenceNumber) : Versions :=
  ids.foldl (fun V o => update V o (some v)) V

/-- The transaction with its required versions filled in. -/
def fill (V : Versions) (t : RemoraTransaction τ) : RemoraTransaction τ :=
  { t with
    sharedObjects := (currentVersions V t.sharedObjectIds).map fun k => (k.1, some k.2)
    sorted := by
      simpa [currentVersions, comp_def, RemoraTransaction.sharedObjectIds] using t.sorted
    shared_iff := by
      simpa [currentVersions, comp_def, RemoraTransaction.sharedObjectIds] using t.shared_iff }

/-- Assign versions to the shared objects of a transaction. Returns the map, the
transaction with its versions, and the versions it requires. -/
def assignSharedObjectVersions (V : Versions) (t : RemoraTransaction τ) :
    Versions × RemoraTransaction τ × List ObjectVersion :=
  if t.sharedObjectIds.isEmpty then (V, t, [])
  else
    let result := currentVersions V t.sharedObjectIds
    (record V t.sharedObjectIds (nextVersion result), fill V t, result)

/-- The transactions received, in order, each with the versions it requires. -/
def processVersionAssignments : Versions → List (RemoraTransaction τ) →
    List (RemoraTransaction τ × List ObjectVersion)
  | _, [] => []
  | V, t :: ts =>
    let (V', t', result) := assignSharedObjectVersions V t
    (t', result) :: processVersionAssignments V' ts

/-- The map after the transactions received. -/
def versionsAfter : Versions → List (RemoraTransaction τ) → Versions
  | V, [] => V
  | V, t :: ts => versionsAfter (assignSharedObjectVersions V t).1 ts

theorem record_apply (V : Versions) (v : SequenceNumber) (ids : List ObjectID) (o : ObjectID) :
    record V ids v o = if o ∈ ids then some v else V o := by
  induction ids generalizing V with
  | nil => simp [record]
  | cons a ids ih =>
    rw [record, List.foldl_cons, ← record, ih]
    rcases eq_or_ne o a with rfl | h
    · simp
    · simp [h]

theorem assign_required (V : Versions) (t : RemoraTransaction τ) :
    (assignSharedObjectVersions V t).2.2 = currentVersions V t.sharedObjectIds := by
  unfold assignSharedObjectVersions
  split_ifs with h
  · rw [List.isEmpty_iff.mp h]
    rfl
  · rfl

theorem assign_versions (V : Versions) (t : RemoraTransaction τ) (o : ObjectID) :
    (assignSharedObjectVersions V t).1 o =
      if o ∈ t.sharedObjectIds then some (nextVersion (currentVersions V t.sharedObjectIds))
      else V o := by
  unfold assignSharedObjectVersions
  split_ifs with h h'
  · simp [List.isEmpty_iff.mp h] at h'
  · rfl
  · simp [record_apply, *]
  · simp [record_apply, *]

theorem processVersionAssignments_getElem? (V : Versions) (txns : List (RemoraTransaction τ))
    (j : ℕ) : (processVersionAssignments V txns)[j]? =
      txns[j]?.map fun t => (assignSharedObjectVersions (versionsAfter V (txns.take j)) t).2 := by
  induction txns generalizing V j with
  | nil => simp [processVersionAssignments]
  | cons t ts ih =>
    cases j with
    | zero => simp [processVersionAssignments, versionsAfter]
    | succ j => simpa [processVersionAssignments, versionsAfter] using ih _ j

theorem versionsAfter_append (V : Versions) (ts us : List (RemoraTransaction τ)) :
    versionsAfter V (ts ++ us) = versionsAfter (versionsAfter V ts) us := by
  induction ts generalizing V with
  | nil => rfl
  | cons t ts ih => exact ih _

end VersionAssignmentTask

open VersionAssignmentTask

/-! ## The sequence of versioned transactions -/

section Chains

variable (txns : List (RemoraTransaction τ))

/-- The consensus sequence, versioned from an empty map. -/
def versioned : List (RemoraTransaction τ × List ObjectVersion) :=
  processVersionAssignments (fun _ => none) txns

/-- The shared objects of the `j`-th transaction. -/
def accessed (j : ℕ) : List ObjectID :=
  (txns[j]?.map RemoraTransaction.sharedObjectIds).getD []

/-- The versions the `j`-th transaction requires. -/
def required (j : ℕ) : List ObjectVersion :=
  ((versioned txns)[j]?.map Prod.snd).getD []

/-- The recorded versions before the `j`-th transaction. -/
def versionsAt (j : ℕ) : Versions :=
  versionsAfter (fun _ => none) (txns.take j)

/-- The version the `j`-th transaction lifts its objects to. -/
def produced (j : ℕ) : SequenceNumber :=
  nextVersion (required txns j)

/-- The `i`-th transaction records `k` for the object of `k`. -/
def Produces (i : ℕ) (k : ObjectVersion) : Prop :=
  k.1 ∈ accessed txns i ∧ versionsAt txns (i + 1) k.1 = some k.2

/-- `i` is the last transaction before `j` that accesses `o`. -/
def LastAccess (o : ObjectID) (j i : ℕ) : Prop :=
  i < j ∧ o ∈ accessed txns i ∧ ∀ l, i < l → l < j → o ∉ accessed txns l

variable {txns}

theorem required_eq (j : ℕ) :
    required txns j = currentVersions (versionsAt txns j) (accessed txns j) := by
  rw [required, versioned, processVersionAssignments_getElem?, accessed, versionsAt]
  cases txns[j]? with
  | none => rfl
  | some t => simp [assign_required]

theorem mem_required {j : ℕ} {o : ObjectID} {v : SequenceNumber} :
    (o, v) ∈ required txns j ↔
      o ∈ accessed txns j ∧ v = (versionsAt txns j o).getD initialVersion := by
  rw [required_eq]
  simp only [currentVersions, List.mem_map, Prod.mk.injEq]
  constructor
  · rintro ⟨a, ha, rfl, rfl⟩
    exact ⟨ha, rfl⟩
  · rintro ⟨ho, rfl⟩
    exact ⟨o, ho, rfl, rfl⟩

theorem versionsAt_zero (o : ObjectID) : versionsAt txns 0 o = none := rfl

theorem versionsAt_succ (j : ℕ) (o : ObjectID) :
    versionsAt txns (j + 1) o =
      if o ∈ accessed txns j then some (produced txns j) else versionsAt txns j o := by
  have hstep : versionsAt txns (j + 1) =
      versionsAfter (versionsAt txns j) txns[j]?.toList := by
    rw [versionsAt, versionsAt, List.take_add_one, versionsAfter_append]
  rw [hstep, produced, required_eq]
  cases h : txns[j]? with
  | none => simp [versionsAfter, accessed, h]
  | some t => simp [versionsAfter, accessed, h, assign_versions]

theorem map_fst_required (j : ℕ) : (required txns j).map Prod.fst = accessed txns j := by
  simp [required_eq, currentVersions, comp_def]

theorem nodup_accessed (j : ℕ) : (accessed txns j).Nodup := by
  unfold accessed
  cases txns[j]? with
  | none => simp
  | some t => exact t.nodup_sharedObjectIds

theorem nodup_required (j : ℕ) : (required txns j).Nodup :=
  List.Nodup.of_map Prod.fst (by rw [map_fst_required]; exact nodup_accessed j)

theorem lt_length_of_accessed {j : ℕ} {o : ObjectID} (h : o ∈ accessed txns j) :
    j < txns.length := by
  by_contra hj
  rw [accessed, List.getElem?_eq_none (by omega)] at h
  simp at h

theorem accessed_of_required {j : ℕ} {k : ObjectVersion} (h : k ∈ required txns j) :
    k.1 ∈ accessed txns j :=
  (mem_required.mp h).1

theorem exists_required {j : ℕ} {o : ObjectID} (h : o ∈ accessed txns j) :
    ∃ v, (o, v) ∈ required txns j :=
  ⟨_, mem_required.mpr ⟨h, rfl⟩⟩

/-- An object is required at one version. -/
theorem required_unique {j : ℕ} {o : ObjectID} {v w : SequenceNumber}
    (hv : (o, v) ∈ required txns j) (hw : (o, w) ∈ required txns j) : v = w :=
  (mem_required.mp hv).2.trans (mem_required.mp hw).2.symm

/-! ## The maximum -/

theorem foldl_max_ge (ks : List ObjectVersion) (m : SequenceNumber) :
    m ≤ ks.foldl (fun m k => if k.2 > m then k.2 else m) m := by
  induction ks generalizing m with
  | nil => exact Nat.le_refl m
  | cons k ks ih =>
    refine le_trans ?_ (ih _)
    dsimp only
    split_ifs with h
    · exact Nat.le_of_lt h
    · exact Nat.le_refl m

theorem le_foldl_max {ks : List ObjectVersion} {k : ObjectVersion} (h : k ∈ ks)
    (m : SequenceNumber) : k.2 ≤ ks.foldl (fun m k => if k.2 > m then k.2 else m) m := by
  induction ks generalizing m with
  | nil => simp at h
  | cons a ks ih =>
    rcases List.mem_cons.mp h with rfl | h
    · refine le_trans ?_ (foldl_max_ge ks _)
      dsimp only
      split_ifs with h
      · exact Nat.le_refl _
      · exact Nat.le_of_not_lt h
    · exact ih h _

theorem foldl_max_mem (ks : List ObjectVersion) (m : SequenceNumber) :
    ks.foldl (fun m k => if k.2 > m then k.2 else m) m = m ∨
      ∃ k ∈ ks, k.2 = ks.foldl (fun m k => if k.2 > m then k.2 else m) m := by
  induction ks generalizing m with
  | nil => exact Or.inl rfl
  | cons a ks ih =>
    simp only [List.foldl_cons, List.mem_cons]
    rcases ih (if a.2 > m then a.2 else m) with h | ⟨k, hk, h⟩
    · rw [h]
      split_ifs
      · exact Or.inr ⟨a, Or.inl rfl, rfl⟩
      · exact Or.inl rfl
    · exact Or.inr ⟨k, Or.inr hk, h⟩

theorem initialVersion_le_maxVersion (ks : List ObjectVersion) :
    initialVersion ≤ maxVersion ks :=
  foldl_max_ge ks _

theorem le_maxVersion {ks : List ObjectVersion} {k : ObjectVersion} (h : k ∈ ks) :
    k.2 ≤ maxVersion ks :=
  le_foldl_max h _

/-- A required version is below the version its transaction produces. -/
theorem lt_produced {j : ℕ} {k : ObjectVersion} (h : k ∈ required txns j) :
    k.2 < produced txns j :=
  Nat.lt_succ_of_le (le_maxVersion h)

theorem initialVersion_lt_produced (j : ℕ) : initialVersion < produced txns j :=
  Nat.lt_succ_of_le (initialVersion_le_maxVersion _)

/-- Recorded versions are never below 2. -/
theorem initialVersion_le_getD (j : ℕ) (o : ObjectID) :
    initialVersion ≤ (versionsAt txns j o).getD initialVersion := by
  induction j with
  | zero => simp [versionsAt_zero]
  | succ j ih =>
    rw [versionsAt_succ]
    split_ifs
    · exact (initialVersion_lt_produced j).le
    · exact ih

theorem initialVersion_le_of_required {j : ℕ} {k : ObjectVersion} (h : k ∈ required txns j) :
    initialVersion ≤ k.2 := by
  rw [(mem_required.mp h).2]
  exact initialVersion_le_getD j k.1

/-- The largest version a transaction requires is the maximum the loop computes. -/
theorem isGreatest_maxVersion {j : ℕ} {o : ObjectID} (ho : o ∈ accessed txns j) :
    IsGreatest {v | ∃ k ∈ required txns j, k.2 = v} (maxVersion (required txns j)) := by
  refine ⟨?_, fun v ⟨k, hk, hv⟩ => hv ▸ le_maxVersion hk⟩
  rcases foldl_max_mem (required txns j) initialVersion with h | h
  · obtain ⟨v, hv⟩ := exists_required ho
    refine ⟨(o, v), hv, le_antisymm (le_maxVersion hv) ?_⟩
    rw [maxVersion, h]
    exact initialVersion_le_of_required hv
  · exact h

/-! ## Chains -/

theorem versionsAt_of_no_access {j : ℕ} {o : ObjectID} (h : ∀ i < j, o ∉ accessed txns i) :
    versionsAt txns j o = none := by
  induction j with
  | zero => rfl
  | succ j ih =>
    rw [versionsAt_succ, if_neg (h j (by omega))]
    exact ih fun i hi => h i (by omega)

/-- The record of an object is what its last accessor produced. -/
theorem versionsAt_of_lastAccess {j i : ℕ} {o : ObjectID} (h : LastAccess txns o j i) :
    versionsAt txns j o = some (produced txns i) := by
  obtain ⟨hij, ho, hno⟩ := h
  induction j with
  | zero => omega
  | succ j ih =>
    rw [versionsAt_succ]
    rcases Nat.lt_or_ge i j with hlt | hge
    · rw [if_neg (hno j hlt (by omega))]
      exact ih hlt fun l h1 h2 => hno l h1 (by omega)
    · obtain rfl : i = j := by omega
      rw [if_pos ho]

theorem exists_lastAccess {j i : ℕ} {o : ObjectID} (hij : i < j) (ho : o ∈ accessed txns i) :
    ∃ l, i ≤ l ∧ LastAccess txns o j l := by
  induction j with
  | zero => omega
  | succ j ih =>
    by_cases hj : o ∈ accessed txns j
    · exact ⟨j, by omega, by omega, hj, fun l h1 h2 => by omega⟩
    · rcases Nat.lt_or_ge i j with hlt | hge
      · obtain ⟨l, hil, hlj, hol, hno⟩ := ih hlt
        refine ⟨l, hil, by omega, hol, fun m h1 h2 => ?_⟩
        rcases Nat.lt_or_ge m j with hm | hm
        · exact hno m h1 hm
        · obtain rfl : m = j := by omega
          exact hj
      · obtain rfl : i = j := by omega
        exact absurd ho hj

theorem lastAccess_unique {j i i' : ℕ} {o : ObjectID} (h : LastAccess txns o j i)
    (h' : LastAccess txns o j i') : i = i' := by
  obtain ⟨h1, h2, h3⟩ := h
  obtain ⟨h1', h2', h3'⟩ := h'
  rcases Nat.lt_trichotomy i i' with hlt | heq | hlt
  · exact absurd h2' (h3 i' hlt h1')
  · exact heq
  · exact absurd h2 (h3' i hlt h1)

theorem required_of_no_access {j : ℕ} {o : ObjectID} {v : SequenceNumber}
    (h : (o, v) ∈ required txns j) (hno : ∀ i < j, o ∉ accessed txns i) :
    v = initialVersion := by
  rw [(mem_required.mp h).2, versionsAt_of_no_access hno]
  rfl

theorem required_of_lastAccess {j i : ℕ} {o : ObjectID} {v : SequenceNumber}
    (h : (o, v) ∈ required txns j) (hi : LastAccess txns o j i) : v = produced txns i := by
  rw [(mem_required.mp h).2, versionsAt_of_lastAccess hi]
  rfl

theorem produces_iff {i : ℕ} {k : ObjectVersion} :
    Produces txns i k ↔ k.1 ∈ accessed txns i ∧ k.2 = produced txns i := by
  constructor
  · rintro ⟨ho, hv⟩
    rw [versionsAt_succ, if_pos ho] at hv
    exact ⟨ho, (Option.some.inj hv).symm⟩
  · rintro ⟨ho, hv⟩
    exact ⟨ho, by rw [versionsAt_succ, if_pos ho, hv]⟩

/-- Along the accessors of an object, a version required later is larger. -/
theorem lt_of_required {i j : ℕ} {o : ObjectID} {v w : SequenceNumber} (hij : i < j)
    (hv : (o, v) ∈ required txns i) (hw : (o, w) ∈ required txns j) : v < w := by
  induction j using Nat.strong_induction_on generalizing w with
  | _ j ih =>
    obtain ⟨l, hil, hl⟩ := exists_lastAccess hij (accessed_of_required hv)
    have hlw : w = produced txns l := required_of_lastAccess hw hl
    rcases Nat.lt_or_ge i l with hlt | hge
    · obtain ⟨u, hu⟩ := exists_required hl.2.1
      exact (ih l hl.1 hlt hu).trans (hlw ▸ lt_produced hu)
    · obtain rfl : i = l := by omega
      exact hlw ▸ lt_produced hv

/-- A version is required by one transaction. -/
theorem consumer_unique {i j : ℕ} {k : ObjectVersion} (hi : k ∈ required txns i)
    (hj : k ∈ required txns j) : i = j := by
  rcases Nat.lt_trichotomy i j with h | h | h
  · exact absurd (lt_of_required h hi hj) (Nat.lt_irrefl _)
  · exact h
  · exact absurd (lt_of_required h hj hi) (Nat.lt_irrefl _)

/-- An object's produced versions grow with the accessor. -/
theorem produced_lt {i j : ℕ} {o : ObjectID} (hij : i < j) (hi : o ∈ accessed txns i)
    (hj : o ∈ accessed txns j) : produced txns i < produced txns j := by
  obtain ⟨l, hil, hl⟩ := exists_lastAccess hij hi
  obtain ⟨w, hw⟩ := exists_required hj
  have hlj : produced txns l < produced txns j := by
    rw [← required_of_lastAccess hw hl]
    exact lt_produced hw
  rcases Nat.lt_or_ge i l with hlt | hge
  · exact (produced_lt hlt hi hl.2.1).trans hlj
  · obtain rfl : i = l := by omega
    exact hlj
termination_by j
decreasing_by exact hl.1

/-- A version is produced by one transaction. -/
theorem producer_unique {i j : ℕ} {k : ObjectVersion} (hi : Produces txns i k)
    (hj : Produces txns j k) : i = j := by
  rw [produces_iff] at hi hj
  rcases Nat.lt_trichotomy i j with h | h | h
  · exact absurd (hi.2.symm.trans hj.2) (produced_lt h hi.1 hj.1).ne
  · exact h
  · exact absurd (hj.2.symm.trans hi.2) (produced_lt h hj.1 hi.1).ne

/-- A required version above 2 was produced by the last accessor before. -/
theorem exists_producer {j : ℕ} {k : ObjectVersion} (h : k ∈ required txns j)
    (hk : initialVersion < k.2) : ∃ i, LastAccess txns k.1 j i ∧ Produces txns i k := by
  by_cases hno : ∀ i < j, k.1 ∉ accessed txns i
  · rw [required_of_no_access h hno] at hk
    exact absurd hk (Nat.lt_irrefl _)
  · simp only [not_forall, not_not] at hno
    obtain ⟨i, hij, hi⟩ := hno
    obtain ⟨l, -, hl⟩ := exists_lastAccess hij hi
    exact ⟨l, hl, produces_iff.mpr ⟨hl.2.1, required_of_lastAccess h hl⟩⟩

/-- The producer of a required version is the last accessor before its consumer. -/
theorem lastAccess_of_produces {i j : ℕ} {k : ObjectVersion} (h : k ∈ required txns j)
    (hi : Produces txns i k) : LastAccess txns k.1 j i := by
  have hk : initialVersion < k.2 := by
    rw [(produces_iff.mp hi).2]
    exact initialVersion_lt_produced i
  obtain ⟨l, hl, hp⟩ := exists_producer h hk
  rwa [producer_unique hi hp]

/-- A version that is not the last one of its object is required by the next accessor. -/
theorem exists_next {i l : ℕ} {o : ObjectID} (hil : i < l) (hi : o ∈ accessed txns i)
    (hl : o ∈ accessed txns l) :
    ∃ j ≤ l, LastAccess txns o j i ∧ (o, produced txns i) ∈ required txns j := by
  classical
  have hex : ∃ j, i < j ∧ o ∈ accessed txns j := ⟨l, hil, hl⟩
  have hj := Nat.find_spec hex
  have hlast : LastAccess txns o (Nat.find hex) i :=
    ⟨hj.1, hi, fun m h1 h2 ho => Nat.find_min hex h2 ⟨h1, ho⟩⟩
  obtain ⟨v, hv⟩ := exists_required hj.2
  exact ⟨_, Nat.find_min' hex ⟨hil, hl⟩, hlast, required_of_lastAccess hv hlast ▸ hv⟩

/-- An object that has been accessed has a record, and no other one. -/
theorem isSome_versionsAt {n : ℕ} {o : ObjectID} :
    (versionsAt txns n o).isSome ↔ ∃ i < n, o ∈ accessed txns i := by
  constructor
  · intro h
    by_contra hno
    rw [versionsAt_of_no_access fun i hi ho => hno ⟨i, hi, ho⟩] at h
    simp at h
  · rintro ⟨i, hi, ho⟩
    obtain ⟨l, -, hl⟩ := exists_lastAccess hi ho
    rw [versionsAt_of_lastAccess hl]
    rfl

/-- The recorded versions are the ones that are produced and not required yet. -/
theorem versionsAt_eq_some {n : ℕ} {k : ObjectVersion} :
    versionsAt txns n k.1 = some k.2 ↔
      (∃ i < n, Produces txns i k) ∧ ∀ j < n, k ∉ required txns j := by
  constructor
  · intro h
    obtain ⟨i, hi, ho⟩ := isSome_versionsAt.mp (show (versionsAt txns n k.1).isSome by simp [h])
    obtain ⟨l, -, hl⟩ := exists_lastAccess hi ho
    have hk : Produces txns l k := by
      rw [versionsAt_of_lastAccess hl] at h
      exact produces_iff.mpr ⟨hl.2.1, (Option.some.inj h).symm⟩
    refine ⟨⟨l, hl.1, hk⟩, fun j hj hr => ?_⟩
    exact hl.2.2 j (lastAccess_of_produces hr hk).1 hj (accessed_of_required hr)
  · rintro ⟨⟨i, hi, hk⟩, hno⟩
    obtain ⟨ho, hv⟩ := produces_iff.mp hk
    obtain ⟨l, hil, hl⟩ := exists_lastAccess hi ho
    rcases Nat.lt_or_ge i l with hlt | hge
    · obtain ⟨j, hj, -, hr⟩ := exists_next hlt ho hl.2.1
      rw [← hv] at hr
      exact absurd hr (hno j (hj.trans_lt hl.1))
    · obtain rfl : i = l := le_antisymm hil hge
      rw [versionsAt_of_lastAccess hl, hv]

/-! ## Versions count accesses -/

/-- How many of the transactions access `o`. -/
def accesses (txns : List (RemoraTransaction τ)) (o : ObjectID) : ℕ :=
  txns.countP fun t => o ∈ t.sharedObjectIds

theorem accesses_take_succ {n : ℕ} (hn : n < txns.length) (o : ObjectID) :
    accesses (txns.take (n + 1)) o =
      accesses (txns.take n) o + if o ∈ accessed txns n then 1 else 0 := by
  have hacc : accessed txns n = txns[n].sharedObjectIds := by
    rw [accessed, List.getElem?_eq_getElem hn]
    rfl
  rw [hacc, accesses, List.take_add_one, List.getElem?_eq_getElem hn, Option.toList_some,
    List.countP_append, List.countP_singleton, accesses]
  simp only [decide_eq_true_eq]

/-- Every access lifts the version. -/
theorem initialVersion_add_accesses_le {n : ℕ} (hn : n ≤ txns.length) (o : ObjectID) :
    initialVersion + accesses (txns.take n) o ≤ (versionsAt txns n o).getD initialVersion := by
  induction n with
  | zero => exact Nat.le_refl _
  | succ n ih =>
    have ih := ih (Nat.le_of_succ_le hn)
    rw [accesses_take_succ hn, versionsAt_succ]
    split_ifs with ho
    · have hlt := lt_produced (mem_required.mpr ⟨ho, rfl⟩)
      exact Nat.succ_le_of_lt (ih.trans_lt hlt)
    · exact ih

/-- A transaction lifts versions above the largest one by one only. -/
theorem versionsAt_le (n : ℕ) (o : ObjectID) :
    (versionsAt txns n o).getD initialVersion ≤ initialVersion + n := by
  induction n generalizing o with
  | zero => exact Nat.le_refl _
  | succ n ih =>
    rw [versionsAt_succ]
    split_ifs
    · refine Nat.succ_le_succ ?_
      rcases foldl_max_mem (required txns n) initialVersion with h | ⟨⟨o', v⟩, hk, h⟩
      · exact h.trans_le (Nat.le_add_right _ _)
      · rw [maxVersion, ← h, (mem_required.mp hk).2]
        exact ih o'
    · exact (ih o).trans (Nat.le_succ _)

/-- If no other object is accessed with `o`, its version is a counter. -/
theorem versionsAt_of_alone {o : ObjectID}
    (ho : ∀ t ∈ txns, o ∈ t.sharedObjectIds → ∀ o' ∈ t.sharedObjectIds, o' = o) {n : ℕ}
    (hn : n ≤ txns.length) :
    (versionsAt txns n o).getD initialVersion = initialVersion + accesses (txns.take n) o := by
  induction n with
  | zero => rfl
  | succ n ih =>
    have ih := ih (Nat.le_of_succ_le hn)
    rw [accesses_take_succ hn, versionsAt_succ]
    split_ifs with hmem
    · have hall : ∀ o' ∈ accessed txns n, o' = o := by
        simp only [accessed, List.getElem?_eq_getElem hn, Option.map_some, Option.getD_some]
          at hmem ⊢
        exact ho _ (List.getElem_mem hn) hmem
      obtain ⟨⟨⟨o', v⟩, hk, h⟩, -⟩ := isGreatest_maxVersion hmem
      obtain rfl := hall o' (accessed_of_required hk)
      rw [(mem_required.mp hk).2, ih] at h
      exact congrArg Nat.succ h.symm
    · exact ih

end Chains

/-- The versions a consensus sequence is given form one chain per object. A transaction
requires each object it accesses once and no other. No version is required twice, an
object's versions grow along its accessors, the first accessor requires version 2 and any
other one more than the largest version its predecessor requires, so that a version above
2 has exactly one producer before its consumer, the accessor right before. -/
theorem version_chains (txns : List (RemoraTransaction τ)) :
    (∀ j, (required txns j).map Prod.fst = accessed txns j) ∧
    (∀ i j k, k ∈ required txns i → k ∈ required txns j → i = j) ∧
    (∀ i j o v w, i < j → (o, v) ∈ required txns i → (o, w) ∈ required txns j → v < w) ∧
    (∀ j o v, (o, v) ∈ required txns j →
      ((∀ i < j, o ∉ accessed txns i) → v = 2) ∧
      ∀ i, LastAccess txns o j i →
        ∃ m, IsGreatest {w | ∃ k ∈ required txns i, k.2 = w} m ∧ v = 1 + m) ∧
    (∀ j o v, (o, v) ∈ required txns j → 2 < v →
      ∃ i, (i < j ∧ Produces txns i (o, v)) ∧ LastAccess txns o j i ∧
        ∀ i', Produces txns i' (o, v) → i' = i) := by
  refine ⟨map_fst_required, fun i j k => consumer_unique, fun i j o v w => lt_of_required, ?_, ?_⟩
  · refine fun j o v h => ⟨required_of_no_access h, fun i hi => ?_⟩
    refine ⟨_, isGreatest_maxVersion hi.2.1, ?_⟩
    rw [required_of_lastAccess h hi, produced, nextVersion, Nat.add_comm]
  · intro j o v h hv
    obtain ⟨i, hi, hp⟩ := exists_producer h hv
    exact ⟨i, ⟨hi.1, hp⟩, hi, fun i' hi' => producer_unique hi' hp⟩

/-- Three transactions with objects 1 and 2, 2 and 3, and 1. -/
def overlapping : List (RemoraTransaction Unit) :=
  [.new () 0 [.sharedMoveObject 1, .sharedMoveObject 2] 0 0,
    .new () 1 [.sharedMoveObject 2, .sharedMoveObject 3] 0 0,
    .new () 2 [.sharedMoveObject 1] 0 0]

/-- The second transaction lifts object 3 past its own chain, and the third requires what
the first produced. -/
theorem version_chains_overlapping :
    required overlapping 0 = [(1, 2), (2, 2)] ∧ required overlapping 1 = [(2, 3), (3, 2)] ∧
    required overlapping 2 = [(1, 3)] ∧ versionsAt overlapping 3 3 = some 4 ∧
    ∃ i, (i < 2 ∧ Produces overlapping i (1, 3)) ∧ LastAccess overlapping 1 2 i ∧
      ∀ i', Produces overlapping i' (1, 3) → i' = i := by
  have hrequired : (1, 3) ∈ required overlapping 2 := by decide
  obtain ⟨-, -, -, -, hproducer⟩ := version_chains overlapping
  exact ⟨by decide, by decide, by decide, by decide, hproducer 2 1 3 hrequired (by decide)⟩

end Remora
