import Remora.Executor
import Remora.SharedObjTxnForwarder

/-!
# Sequential execution

What the transactions do on one node, one after the other in consensus order. `sequential`
is the store after the first transactions, of which only those in `runs` are executed. A
shared object is then what its last accessor has left (`sequential_of_lastAccess`), and any
object keeps its owner (`same_sequential`).

A transaction comes to its proxy with the versions it requires filled in, so that the version
of its outputs is the one the assignment recorded for them (`nextVersion_eq_produced`).
-/

namespace Remora

variable {τ ω : Type}

/-! ## The transactions of a primary -/

namespace Primary

variable {C : Primary τ} {i : ℕ} {t : RemoraTransaction τ}

/-- No object is both shared and owned. -/
def Consistent (C : Primary τ) : Prop :=
  ∀ t ∈ C.txns, ∀ t' ∈ C.txns, ∀ o, .sharedMoveObject o ∈ t.inputs →
    .immOrOwnedMoveObject o ∉ t'.inputs

theorem transaction_eq_some (h : C.transaction i = some t) :
    ∃ t₀, C.txns[i]? = some t₀ ∧ t.inputs = t₀.inputs ∧
      t.sharedObjects = (required C.txns i).map fun k => (k.1, some k.2) := by
  rw [transaction, versioned, VersionAssignmentTask.processVersionAssignments_getElem?,
    Option.map_map] at h
  obtain ⟨t₀, ht₀, rfl⟩ := Option.map_eq_some_iff.mp h
  refine ⟨t₀, ht₀, ?_⟩
  have hrequired : required C.txns i = VersionAssignmentTask.currentVersions
      (versionsAt C.txns i) t₀.sharedObjectIds := by
    rw [required_eq, Remora.accessed, ht₀]
    rfl
  rw [hrequired]
  simp only [Function.comp_apply, VersionAssignmentTask.assignSharedObjectVersions]
  split_ifs with hempty
  · have hids := List.isEmpty_iff.mp hempty
    refine ⟨rfl, ?_⟩
    rw [hids]
    exact List.map_eq_nil_iff.mp hids
  · exact ⟨rfl, rfl⟩

theorem mem_accessed (h : C.transaction i = some t) {o : ObjectID} :
    o ∈ accessed C.txns i ↔ .sharedMoveObject o ∈ t.inputs := by
  obtain ⟨t₀, ht₀, hinputs, -⟩ := transaction_eq_some h
  rw [hinputs, ← t₀.shared_iff, accessed, ht₀]
  rfl

/-- The versions a transaction is sent with are those it requires. -/
theorem assignedVersions_eq (h : C.transaction i = some t) :
    t.assignedVersions = required C.txns i := by
  obtain ⟨-, -, -, hshared⟩ := transaction_eq_some h
  rw [RemoraTransaction.assignedVersions, hshared]
  simp

theorem nextVersion_eq_produced (h : C.transaction i = some t) :
    t.nextVersion = produced C.txns i := by
  rw [RemoraTransaction.nextVersion, assignedVersions_eq h]
  rfl

/-- The version the check of a shared input looks for. -/
theorem find_sharedObjects (h : C.transaction i = some t) {k : ObjectVersion}
    (hk : k ∈ required C.txns i) :
    (t.sharedObjects.find? fun x => x.1 = k.1) = some (k.1, some k.2) := by
  obtain ⟨-, -, -, hshared⟩ := transaction_eq_some h
  rw [hshared]
  cases hf : ((required C.txns i).map fun k => (k.1, some k.2)).find? fun x => x.1 = k.1 with
  | none =>
    rw [List.find?_eq_none] at hf
    exact absurd (by simp) (hf _ (List.mem_map.mpr ⟨k, hk, rfl⟩))
  | some x =>
    obtain ⟨k', hk', rfl⟩ := List.mem_map.mp (List.mem_of_find?_eq_some hf)
    have hid : k'.1 = k.1 := by simpa using List.find?_some hf
    obtain ⟨o, v⟩ := k
    obtain ⟨o', v'⟩ := k'
    obtain rfl : o' = o := hid
    rw [required_unique hk hk']

/-- The check of a shared input compares its version with the required one. -/
theorem checkInput_eq_true {E : Executor τ ω} (h : C.transaction i = some t) {k : ObjectVersion}
    (hk : k ∈ required C.txns i) {object : Option ω} :
    E.checkInput t (.sharedMoveObject k.1) object = some true ↔
      ∃ x, object = some x ∧ E.version x = k.2 := by
  cases object with
  | none => simp [Executor.checkInput]
  | some x => simp [Executor.checkInput, find_sharedObjects h hk]

/-- A shared object is an output of its accessors only. -/
theorem Consistent.mem_accessed (hC : C.Consistent) (h : C.transaction i = some t) {j : ℕ}
    {o : ObjectID} (hj : o ∈ accessed C.txns j) (ho : o ∈ t.outputIds) :
    o ∈ accessed C.txns i := by
  rw [Primary.mem_accessed h]
  obtain ⟨t₀, ht₀, hinputs, -⟩ := transaction_eq_some h
  obtain ⟨x, hx, rfl⟩ := t.mem_outputIds.mp ho
  cases x with
  | sharedMoveObject id => exact hx
  | immOrOwnedMoveObject id =>
    obtain ⟨t', ht', hshared⟩ : ∃ t', C.txns[j]? = some t' ∧ .sharedMoveObject id ∈ t'.inputs := by
      rw [accessed] at hj
      cases hj' : C.txns[j]? with
      | none => simp [hj'] at hj
      | some t' =>
        rw [hj'] at hj
        exact ⟨t', rfl, (t'.shared_iff id).mp hj⟩
    rw [hinputs] at hx
    exact absurd hx (hC t' (List.mem_of_getElem? ht') t₀ (List.mem_of_getElem? ht₀) id hshared)

theorem outputIds_of_accessed (h : C.transaction i = some t) {o : ObjectID}
    (ho : o ∈ accessed C.txns i) : o ∈ t.outputIds :=
  t.mem_outputIds.mpr ⟨_, (Primary.mem_accessed h).mp ho, rfl⟩

end Primary

/-! ## One transaction after the other -/

/-- The store after a transaction, unchanged if an input is missing. -/
def Executor.apply (E : Executor τ ω) (t : RemoraTransaction τ) (S : ObjectID → Option ω) :
    ObjectID → Option ω :=
  if t.outputIds.all fun o => (S o).isSome then
    fun o => if o ∈ t.outputIds then E.output t S o else S o
  else S

/-- The store before the `n`-th transaction, when the transactions in `runs` are executed. -/
def sequential (E : Executor τ ω) (C : Primary τ) (runs : ℕ → Bool)
    (genesis : ObjectID → Option ω) : ℕ → ObjectID → Option ω
  | 0 => genesis
  | n + 1 =>
    match C.transaction n with
    | some t =>
      if runs n then E.apply t (sequential E C runs genesis n) else sequential E C runs genesis n
    | none => sequential E C runs genesis n

section Sequential

variable {E : Executor τ ω} {C : Primary τ} {runs : ℕ → Bool} {genesis : ObjectID → Option ω}

theorem sequential_succ {n : ℕ} {t : RemoraTransaction τ} (h : C.transaction n = some t)
    (hruns : runs n = true)
    (hsome : ∀ o ∈ t.outputIds, (sequential E C runs genesis n o).isSome) {o : ObjectID}
    (ho : o ∈ t.outputIds) :
    sequential E C runs genesis (n + 1) o = E.output t (sequential E C runs genesis n) o := by
  have hall : (t.outputIds.all fun o => (sequential E C runs genesis n o).isSome) = true :=
    List.all_eq_true.mpr hsome
  simp only [sequential, h, hruns, if_true, Executor.apply, hall, ho]

/-- A transaction writes its outputs only. -/
theorem sequential_succ_of_notMem {n : ℕ} {o : ObjectID}
    (h : ∀ t, C.transaction n = some t → o ∉ t.outputIds) :
    sequential E C runs genesis (n + 1) o = sequential E C runs genesis n o := by
  cases ht : C.transaction n with
  | none => simp [sequential, ht]
  | some t =>
    simp only [sequential, ht, Executor.apply]
    split_ifs with hr hall
    · simp [h t ht]
    · rfl
    · rfl

theorem sequential_eq_of_notMem {m n : ℕ} {o : ObjectID} (hmn : m ≤ n)
    (h : ∀ l, m ≤ l → l < n → ∀ t, C.transaction l = some t → o ∉ t.outputIds) :
    sequential E C runs genesis n o = sequential E C runs genesis m o := by
  induction n, hmn using Nat.le_induction with
  | base => rfl
  | succ n hmn ih =>
    rw [sequential_succ_of_notMem (h n hmn (Nat.lt_succ_self n))]
    exact ih fun l h1 h2 => h l h1 (Nat.lt_succ_of_lt h2)

variable (hC : C.Consistent)
include hC

/-- A shared object is what its last accessor has left. -/
theorem sequential_of_lastAccess {i j : ℕ} {o : ObjectID} (h : LastAccess C.txns o j i) :
    sequential E C runs genesis j o = sequential E C runs genesis (i + 1) o := by
  obtain ⟨hij, hoi, hno⟩ := h
  refine sequential_eq_of_notMem hij fun l h1 h2 t ht ho => ?_
  exact hno l h1 h2 (hC.mem_accessed ht hoi ho)

theorem sequential_of_no_access {j : ℕ} {o : ObjectID} (hj : o ∈ accessed C.txns j)
    (h : ∀ i < j, o ∉ accessed C.txns i) : sequential E C runs genesis j o = genesis o := by
  refine sequential_eq_of_notMem (m := 0) (Nat.zero_le j) fun l _ h2 t ht ho => ?_
  exact h l h2 (hC.mem_accessed ht hj ho)

variable (runs genesis) in
/-- A shared object is what the last accessor that was executed has left. -/
theorem sequential_cases {l : ℕ} {o : ObjectID} (ho : o ∈ accessed C.txns l) (n : ℕ) :
    ((∀ i < n, o ∈ accessed C.txns i → runs i = false) ∧
      sequential E C runs genesis n o = genesis o) ∨
    ∃ i < n, o ∈ accessed C.txns i ∧ runs i = true ∧
      (∀ j, i < j → j < n → o ∈ accessed C.txns j → runs j = false) ∧
      sequential E C runs genesis n o = sequential E C runs genesis (i + 1) o := by
  induction n with
  | zero => exact Or.inl ⟨fun i hi => absurd hi (Nat.not_lt_zero i), rfl⟩
  | succ n ih =>
    by_cases hn : o ∈ accessed C.txns n ∧ runs n = true
    · exact Or.inr ⟨n, Nat.lt_succ_self n, hn.1, hn.2, fun j h1 h2 => by omega, rfl⟩
    · have hskip : o ∈ accessed C.txns n → runs n = false := fun hm => by
        simpa using fun hr => hn ⟨hm, hr⟩
      have hsame : sequential E C runs genesis (n + 1) o = sequential E C runs genesis n o := by
        by_cases hm : o ∈ accessed C.txns n
        · cases ht : C.transaction n <;> simp [sequential, ht, hskip hm]
        · exact sequential_succ_of_notMem fun t ht h => hm (hC.mem_accessed ht ho h)
      have hle : ∀ {i}, i < n + 1 → o ∈ accessed C.txns i → (i < n → runs i = false) →
          runs i = false := by
        intro i hi hm h
        rcases Nat.lt_succ_iff_lt_or_eq.mp hi with hlt | rfl
        · exact h hlt
        · exact hskip hm
      rcases ih with ⟨hno, hseq⟩ | ⟨i, hi, hm, hr, hno, hseq⟩
      · exact Or.inl ⟨fun i hi hm => hle hi hm fun hlt => hno i hlt hm, hsame.trans hseq⟩
      · exact Or.inr ⟨i, hi.trans (Nat.lt_succ_self n), hm, hr,
          fun j h1 h2 hm => hle h2 hm fun hlt => hno j h1 hlt hm, hsame.trans hseq⟩

end Sequential

/-! ## Owners -/

namespace Executor.Lawful

variable {E : Executor τ ω} {Valid : RemoraTransaction τ → Prop} {sim : ω → ω → Prop}
  (hE : E.Lawful Valid sim)
include hE

theorem same_refl (x : Option ω) : Same sim x x := by
  cases x with
  | none => exact .none
  | some x => exact .some (hE.equivalence.refl x)

theorem same_trans {x y z : Option ω} (h : Same sim x y) (h' : Same sim y z) : Same sim x z := by
  cases h with
  | none => exact h'
  | some h =>
    cases h' with
    | some h' => exact .some (hE.equivalence.trans h h')

theorem same_symm {x y : Option ω} (h : Same sim x y) : Same sim y x := by
  cases h with
  | none => exact .none
  | some h => exact .some (hE.equivalence.symm h)

/-- Every object of a sequential execution stays with its owner. -/
theorem same_sequential {C : Primary τ} {runs : ℕ → Bool} {genesis : ObjectID → Option ω} (n : ℕ)
    (o : ObjectID) : Same sim (genesis o) (sequential E C runs genesis n o) := by
  induction n generalizing o with
  | zero => exact hE.same_refl _
  | succ n ih =>
    by_cases ho : ∃ t, C.transaction n = some t ∧ o ∈ t.outputIds
    · obtain ⟨t, ht, ho⟩ := ho
      by_cases hrun : runs n = true ∧
          ∀ o ∈ t.outputIds, (sequential E C runs genesis n o).isSome
      · rw [sequential_succ ht hrun.1 hrun.2 ho]
        obtain ⟨x, hx⟩ := Option.isSome_iff_exists.mp (hrun.2 o ho)
        obtain ⟨y, hy⟩ := Option.isSome_iff_exists.mp (hE.isSome hrun.2 o ho)
        rw [hy]
        refine hE.same_trans (ih o) ?_
        rw [hx]
        exact .some (hE.sim hx hy)
      · have hskip : sequential E C runs genesis (n + 1) = sequential E C runs genesis n := by
          have hall : ¬(runs n = true ∧
              (t.outputIds.all fun o => (sequential E C runs genesis n o).isSome) = true) :=
            fun h => hrun ⟨h.1, List.all_eq_true.mp h.2⟩
          simp only [sequential, ht, Executor.apply]
          split_ifs with h1 h2
          · exact absurd ⟨h1, h2⟩ hall
          · rfl
          · rfl
        rw [hskip]
        exact ih o
    · rw [sequential_succ_of_notMem fun t ht hmem => ho ⟨t, ht, hmem⟩]
      exact ih o

end Executor.Lawful

theorem isSome_of_same {sim : ω → ω → Prop} {x y : Option ω} (h : Executor.Same sim x y) :
    x.isSome = y.isSome := by
  cases h <;> rfl

end Remora
