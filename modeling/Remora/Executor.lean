import Remora.VersionAssignment

/-!
# Executors

A proxy executes transactions through an `Executor`. What matters of one here is the
version of an object, the check it makes of each input before it executes, and the
objects it writes, a function of the objects it has read. `pre_execute_check` is the same
in the Fake and in the TPC-C executor but for a shared input without a version.

`Executor.Lawful` is what both have in common : the objects written depend on the shared
inputs only, up to who owns the others, they all get one version, and they stay with
their owners.
-/

namespace Remora

variable {τ ω : Type}

/-- An executor. -/
structure Executor (τ ω : Type) where
  version : ω → SequenceNumber
  /-- The result of the check of a shared input that has no version. `none` : a panic. -/
  checkUnversioned : Option Bool
  /-- The object written for an input, from the objects read. -/
  output : RemoraTransaction τ → (ObjectID → Option ω) → ObjectID → Option ω

namespace Executor

/-- One round of the loop in `pre_execute_check`, on the object found in the store. -/
def checkInput (E : Executor τ ω) (t : RemoraTransaction τ) (input : InputObjectKind)
    (object : Option ω) : Option Bool :=
  match object, input with
  | none, _ => some false
  | some _, .immOrOwnedMoveObject _ => some true
  | some x, .sharedMoveObject id =>
    match t.sharedObjects.find? fun o => o.1 = id with
    | none => some true
    | some (_, none) => E.checkUnversioned
    | some (_, some v) => some (E.version x = v)

/-- The loop, which the first input that fails its check ends. -/
def checkInputs (E : Executor τ ω) (t : RemoraTransaction τ) (store : ObjectID → Option ω) :
    List InputObjectKind → Option Bool
  | [] => some true
  | x :: rest => (E.checkInput t x (store x.objectId)).bind fun ok =>
    if ok then checkInputs E t store rest else some false

/-- `pre_execute_check`. `none` : a panic. -/
def preExecuteCheck (E : Executor τ ω) (t : RemoraTransaction τ) (store : ObjectID → Option ω) :
    Option Bool :=
  E.checkInputs t store t.inputs

theorem checkInputs_eq_true {E : Executor τ ω} {t : RemoraTransaction τ}
    {store : ObjectID → Option ω} {l : List InputObjectKind} :
    E.checkInputs t store l = some true ↔
      ∀ x ∈ l, E.checkInput t x (store x.objectId) = some true := by
  induction l with
  | nil => simp [checkInputs]
  | cons x l ih =>
    rw [checkInputs, List.forall_mem_cons, ← ih]
    rcases E.checkInput t x (store x.objectId) with _ | _ | _ <;> simp

end Executor

namespace RemoraTransaction

variable (t : RemoraTransaction τ)

/-- The versions of the shared objects that have one. -/
def assignedVersions : List ObjectVersion :=
  t.sharedObjects.filterMap fun o => o.2.map fun v => (o.1, v)

/-- The version the objects get : one more than the largest assigned one. -/
def nextVersion : SequenceNumber :=
  Remora.nextVersion t.assignedVersions

/-- The inputs' identifiers, in the order of a map. -/
def outputIds : List ObjectID :=
  (t.inputs.map InputObjectKind.objectId).dedup.insertionSort (· ≤ ·)

theorem mem_outputIds {o : ObjectID} :
    o ∈ t.outputIds ↔ ∃ x ∈ t.inputs, x.objectId = o := by
  simp [outputIds]

theorem nodup_outputIds : t.outputIds.Nodup :=
  (List.perm_insertionSort (· ≤ ·) _).nodup_iff.mpr (List.nodup_dedup _)

end RemoraTransaction

namespace Executor

/-- Equal owners' kinds of an object that may be missing. -/
abbrev Same (sim : ω → ω → Prop) : Option ω → Option ω → Prop :=
  Option.Rel sim

/-- What the executors guarantee of the transactions they build. -/
structure Lawful (E : Executor τ ω) (Valid : RemoraTransaction τ → Prop)
    (sim : ω → ω → Prop) : Prop where
  equivalence : Equivalence sim
  congr : ∀ {t S S'}, Valid t → (∀ o, .sharedMoveObject o ∈ t.inputs → S o = S' o) →
    (∀ o, .immOrOwnedMoveObject o ∈ t.inputs → Same sim (S o) (S' o)) →
    ∀ o ∈ t.outputIds, E.output t S o = E.output t S' o
  isSome : ∀ {t S}, (∀ o ∈ t.outputIds, (S o).isSome) →
    ∀ o ∈ t.outputIds, (E.output t S o).isSome
  version : ∀ {t S o x}, E.output t S o = some x → E.version x = t.nextVersion
  sim : ∀ {t S o x y}, S o = some x → E.output t S o = some y → sim x y

end Executor

/-! ## Results -/

inductive ExecutionStatus
  | success
  | failure
  deriving DecidableEq, Repr

/-- What an executed transaction reports : the versions it has read. -/
structure TransactionEffects where
  transactionDigest : TransactionDigest
  modifiedAtVersions : List ObjectVersion
  deriving DecidableEq, Repr

/-- The effects of both executors say nothing but success. -/
def TransactionEffects.status (_ : TransactionEffects) : ExecutionStatus :=
  .success

/-- What a stateful task sends when it is done. -/
structure ExecutionResults (τ ω : Type) where
  transaction : RemoraTransaction τ
  updates : Option TransactionEffects
  newState : Option (List (ObjectID × ω))

/-- `success`. `none` : the panic of `unwrap` on a result without effects. -/
def ExecutionResults.success (r : ExecutionResults τ ω) : Option Bool :=
  r.updates.map fun u => u.status = .success

namespace Executor

/-- The objects `execute` writes. `none` : a panic. -/
def newState (E : Executor τ ω) (t : RemoraTransaction τ) (store : ObjectID → Option ω) :
    Option (List (ObjectID × ω)) :=
  t.outputIds.mapM fun o => (E.output t store o).map fun x => (o, x)

/-- `execute` without its commit. -/
def execute (E : Executor τ ω) (t : RemoraTransaction τ) (store : ObjectID → Option ω) :
    Option (ExecutionResults τ ω) :=
  (E.newState t store).map fun objects => ⟨t, some ⟨t.digest, t.assignedVersions⟩, some objects⟩

end Executor

/-- `commit_objects`, and `commit_new_objects`. -/
def commitObjects (store : ObjectID → Option ω) (objects : List (ObjectID × ω)) :
    ObjectID → Option ω :=
  objects.foldl (fun s o => Function.update s o.1 (some o.2)) store

theorem commitObjects_of_notMem {store : ObjectID → Option ω} {objects : List (ObjectID × ω)}
    {o : ObjectID} (h : o ∉ objects.map Prod.fst) : commitObjects store objects o = store o := by
  induction objects generalizing store with
  | nil => rfl
  | cons c objects ih =>
    rw [List.map_cons, List.mem_cons, not_or] at h
    exact (ih h.2).trans (Function.update_of_ne h.1 ..)

/-- What is committed is in the store, if no identifier comes with two objects. -/
theorem commitObjects_of_mem {store final : ObjectID → Option ω} {objects : List (ObjectID × ω)}
    (h : ∀ o x, (o, x) ∈ objects → final o = some x) {o : ObjectID} {x : ω}
    (hx : (o, x) ∈ objects) : commitObjects store objects o = some x := by
  induction objects generalizing store with
  | nil => exact absurd hx List.not_mem_nil
  | cons c objects ih =>
    have htail : ∀ o x, (o, x) ∈ objects → final o = some x := fun o x hm =>
      h o x (List.mem_cons_of_mem _ hm)
    by_cases ho : o ∈ objects.map Prod.fst
    · obtain ⟨⟨o', x'⟩, hm, rfl⟩ := List.mem_map.mp ho
      obtain rfl := Option.some.inj ((htail o' x' hm).symm.trans (h o' x hx))
      exact ih htail hm
    · rcases List.mem_cons.mp hx with rfl | hm
      · exact (commitObjects_of_notMem ho).trans (Function.update_self ..)
      · exact absurd (List.mem_map.mpr ⟨_, hm, rfl⟩) ho

namespace Executor

variable {E : Executor τ ω} {t : RemoraTransaction τ} {store store' : ObjectID → Option ω}

variable (E t store) in
/-- `execute`, with its commit. -/
def run : Option (ObjectID → Option ω) :=
  (E.newState t store).map (commitObjects store)

theorem mapM_eq_some {f : ObjectID → Option ω} {l : List ObjectID}
    {objects : List (ObjectID × ω)} : (l.mapM fun o => (f o).map fun x => (o, x)) = some objects ↔
      objects.map Prod.fst = l ∧ ∀ o x, (o, x) ∈ objects → f o = some x := by
  induction l generalizing objects with
  | nil =>
    rw [List.mapM_nil, List.map_eq_nil_iff]
    constructor
    · intro h
      obtain rfl := Option.some.inj h
      exact ⟨rfl, fun _ _ hm => absurd hm List.not_mem_nil⟩
    · rintro ⟨rfl, -⟩
      rfl
  | cons o l ih =>
    simp only [List.mapM_cons, Option.bind_eq_bind, Option.bind_eq_some_iff,
      Option.map_eq_some_iff]
    constructor
    · rintro ⟨-, ⟨x, hx, rfl⟩, rest, hrest, heq⟩
      obtain rfl := Option.some.inj heq
      obtain ⟨rfl, hall⟩ := ih.mp hrest
      refine ⟨rfl, fun o' x' hm => ?_⟩
      rcases List.mem_cons.mp hm with he | hm
      · obtain ⟨rfl, rfl⟩ := Prod.mk.inj he
        exact hx
      · exact hall o' x' hm
    · rintro ⟨hl, hall⟩
      obtain ⟨⟨o', x⟩, rest, rfl, rfl, rfl⟩ := List.map_eq_cons_iff.mp hl
      exact ⟨_, ⟨x, hall _ x List.mem_cons_self, rfl⟩, rest,
        ih.mpr ⟨rfl, fun o x hm => hall o x (List.mem_cons_of_mem _ hm)⟩, rfl⟩

/-- The outputs are in the store after the execution, and nothing else has changed. -/
theorem run_eq_some (h : E.run t store = some store') :
    (∀ o ∈ t.outputIds, (E.output t store o).isSome ∧ store' o = E.output t store o) ∧
      ∀ o ∉ t.outputIds, store' o = store o := by
  obtain ⟨objects, hobjects, rfl⟩ := Option.map_eq_some_iff.mp h
  obtain ⟨hids, houtput⟩ := mapM_eq_some.mp hobjects
  refine ⟨fun o ho => ?_, fun o ho => commitObjects_of_notMem (hids ▸ ho)⟩
  rw [← hids] at ho
  obtain ⟨⟨o, x⟩, hx, rfl⟩ := List.mem_map.mp ho
  have hsome := houtput o x hx
  exact ⟨by rw [hsome]; rfl, (commitObjects_of_mem houtput hx).trans hsome.symm⟩

theorem isSome_run : (E.run t store).isSome ↔ ∀ o ∈ t.outputIds, (E.output t store o).isSome := by
  constructor
  · intro h
    obtain ⟨store', h⟩ := Option.isSome_iff_exists.mp h
    exact fun o ho => ((run_eq_some h).1 o ho).1
  · intro h
    have hobjects : E.newState t store = some (t.outputIds.attach.map fun o =>
        (o.1, (E.output t store o.1).get (h o.1 o.2))) := by
      refine mapM_eq_some.mpr ⟨by simp [Function.comp_def], fun o x hm => ?_⟩
      obtain ⟨⟨o', ho'⟩, -, he⟩ := List.mem_map.mp hm
      obtain ⟨rfl, rfl⟩ := Prod.mk.inj he
      exact (Option.some_get _).symm
    rw [run, hobjects]
    rfl

end Executor

/-! ## The Fake executor -/

/-- Who an object belongs to. -/
inductive Owner
  | shared (initialSharedVersion : SequenceNumber)
  | address (a : ℕ)
  deriving DecidableEq, Repr

/-- An object of the Fake executor : a gas coin. -/
structure FakeObject where
  id : ObjectID
  version : SequenceNumber
  value : ℕ
  owner : Owner
  deriving DecidableEq, Repr

namespace FakeExecutor

def updateObjectWithVersion (input : FakeObject) (version : SequenceNumber) : FakeObject where
  id := input.id
  version := version
  value := 10
  owner :=
    match input.owner with
    | .shared _ => .shared version
    | .address a => .address a

/-- The owner without the version at which an object was shared. -/
def ownerOf (x : FakeObject) : Option ℕ :=
  match x.owner with
  | .shared _ => none
  | .address a => some a

def isShared (x : FakeObject) : Bool :=
  (ownerOf x).isNone

/-- `FakeTransaction::from_store` on one identifier. `none` : the panic on an unknown object. -/
def fromStore (store : ObjectID → Option FakeObject) (id : ObjectID) : Option InputObjectKind :=
  (store id).map fun x => if isShared x then .sharedMoveObject id else .immOrOwnedMoveObject id

/-- The transaction was built by `from_store`. -/
def BuiltFrom (store : ObjectID → Option FakeObject) (t : RemoraTransaction τ) : Prop :=
  ∀ x ∈ t.inputs, fromStore store x.objectId = some x

theorem BuiltFrom.isShared {store : ObjectID → Option FakeObject} {t : RemoraTransaction τ}
    (h : BuiltFrom store t) {x : InputObjectKind} (hx : x ∈ t.inputs) :
    ∃ y, store x.objectId = some y ∧ x.isShared = isShared y := by
  obtain ⟨y, hy, hyx⟩ := Option.map_eq_some_iff.mp (h x hx)
  refine ⟨y, hy, ?_⟩
  split_ifs at hyx with hs <;> rw [← hyx]
  · exact hs.symm
  · simpa [InputObjectKind.isShared] using hs

/-- The same object with the same kind of owner. -/
def Similar (x y : FakeObject) : Prop :=
  x.id = y.id ∧ ownerOf x = ownerOf y

/-- An update keeps nothing of its input but the identifier and the owner. -/
theorem updateObjectWithVersion_congr {x y : FakeObject} (h : Similar x y)
    (v : SequenceNumber) : updateObjectWithVersion x v = updateObjectWithVersion y v := by
  obtain ⟨hid, howner⟩ := h
  rcases x with ⟨xi, xv, xw, xo⟩
  rcases y with ⟨yi, yv, yw, yo⟩
  cases xo <;> cases yo <;> simp_all [updateObjectWithVersion, ownerOf]

end FakeExecutor

open FakeExecutor in
/-- Each input gets the next version and the value 10, whatever it was. -/
def fakeExecutor (τ : Type) : Executor τ FakeObject where
  version := FakeObject.version
  checkUnversioned := none
  output t S o := (S o).map fun x => updateObjectWithVersion x t.nextVersion

open FakeExecutor in
theorem lawful_fakeExecutor (τ : Type) :
    (fakeExecutor τ).Lawful (fun _ => True) Similar where
  equivalence := ⟨fun _ => ⟨rfl, rfl⟩, fun h => ⟨h.1.symm, h.2.symm⟩,
    fun h h' => ⟨h.1.trans h'.1, h.2.trans h'.2⟩⟩
  congr {t S S'} _ hshared howned o ho := by
    obtain ⟨x, hx, rfl⟩ := t.mem_outputIds.mp ho
    cases x with
    | sharedMoveObject id =>
      have := hshared id hx
      simp only [fakeExecutor, InputObjectKind.objectId, this]
    | immOrOwnedMoveObject id =>
      have hsim := howned id hx
      simp only [fakeExecutor, InputObjectKind.objectId]
      generalize S id = a at hsim
      generalize S' id = b at hsim
      cases hsim with
      | some h => simp [updateObjectWithVersion_congr h]
      | none => rfl
  isSome {t S} h o ho := by simpa [fakeExecutor] using h o ho
  version {t S o x} h := by
    obtain ⟨y, -, rfl⟩ := Option.map_eq_some_iff.mp h
    rfl
  sim {t S o x y} hx hy := by
    simp only [fakeExecutor, hx, Option.map_some, Option.some.injEq] at hy
    subst hy
    refine ⟨rfl, ?_⟩
    rcases x with ⟨xi, xv, xw, xo⟩
    cases xo <;> rfl

/-! ## The TPC-C executor -/

/-- A row. -/
structure TpccObject (δ : Type) where
  id : ObjectID
  version : SequenceNumber
  data : δ

/-- The business logic computes new rows from the rows of the inputs, and the item table,
which nothing writes. Inputs it does not update keep their data and get the next version
too. -/
def tpccExecutor {τ δ : Type}
    (logic : τ → (ObjectID → Option (TpccObject δ)) → ObjectID → Option δ) :
    Executor τ (TpccObject δ) where
  version := TpccObject.version
  checkUnversioned := some true
  output t S o :=
    let inputs := fun o => if o ∈ t.inputs.map InputObjectKind.objectId then S o else none
    (S o).map fun x => ⟨x.id, t.nextVersion, (logic t.transaction inputs o).getD x.data⟩

/-- `TpccExecutableTransaction::new` declares every input as shared. -/
def AllShared (t : RemoraTransaction τ) : Prop :=
  ∀ x ∈ t.inputs, x.isShared = true

theorem lawful_tpccExecutor {δ : Type}
    (logic : τ → (ObjectID → Option (TpccObject δ)) → ObjectID → Option δ) :
    (tpccExecutor logic).Lawful AllShared fun _ _ => True where
  equivalence := ⟨fun _ => trivial, fun _ => trivial, fun _ _ => trivial⟩
  congr {t S S'} hvalid hshared _ o ho := by
    have hinput : ∀ o ∈ t.inputs.map InputObjectKind.objectId, S o = S' o := by
      intro o ho
      obtain ⟨x, hx, rfl⟩ := List.mem_map.mp ho
      cases x with
      | sharedMoveObject id => exact hshared id hx
      | immOrOwnedMoveObject id => exact absurd (hvalid _ hx) (by simp [InputObjectKind.isShared])
    have hrestrict : (fun o => if o ∈ t.inputs.map InputObjectKind.objectId then S o else none) =
        fun o => if o ∈ t.inputs.map InputObjectKind.objectId then S' o else none := by
      funext o
      split_ifs with h
      · exact hinput o h
      · rfl
    have ho' : S o = S' o := hinput o (by simpa using t.mem_outputIds.mp ho)
    simp only [tpccExecutor, hrestrict, ho']
  isSome {t S} h o ho := by simpa [tpccExecutor] using h o ho
  version {t S o x} h := by
    obtain ⟨y, -, rfl⟩ := Option.map_eq_some_iff.mp h
    rfl
  sim _ _ := trivial

end Remora
