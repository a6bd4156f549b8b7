import Remora.Build
import Remora.Executor
import Mathlib.Algebra.Group.Nat.Defs
import Mathlib.Data.Nat.Pairing

/-!
# The tables of TPC-C

The records of the five tables, the objects that hold them, and the keys of their rows. A
record is stored as the contents of an object, the bytes that the BCS encoder makes of it
and of the object's identifier. What the decoder makes of bytes that hold a record of
another table is up to it (`Bcs`).

The identifier of a row is a hash of its key, and everything here is for any function from
keys to identifiers (`Platform`). The limit on the size of an object is left out : an update
of a record does not change its size.
-/

namespace Remora

namespace Tpcc

/-! ## Records -/

structure Warehouse where
  wId : ℕ
  wYtd : ℤ
  wTax : ℕ
  wName : String
  deriving DecidableEq, Repr

structure District where
  dId : ℕ
  dWId : ℕ
  dYtd : ℤ
  dTax : ℕ
  dNextOId : ℕ
  dName : String
  deriving DecidableEq, Repr

structure Customer where
  cId : ℕ
  cDId : ℕ
  cWId : ℕ
  cBalance : ℤ
  cYtdPayment : ℤ
  cPaymentCnt : ℕ
  cDiscount : ℕ
  cFirst : String
  cLast : String
  deriving DecidableEq, Repr

structure Stock where
  sIId : ℕ
  sWId : ℕ
  sQuantity : ℤ
  sYtd : ℕ
  sOrderCnt : ℕ
  sRemoteCnt : ℕ
  deriving DecidableEq, Repr

structure Item where
  iId : ℕ
  iPrice : ℕ
  iName : String
  iData : String
  deriving DecidableEq, Repr

inductive TpccObjectKind
  | warehouse
  | district
  | customer
  | stock
  | item
  deriving DecidableEq, Repr

/-- The records of a table. -/
abbrev Record : TpccObjectKind → Type
  | .warehouse => Warehouse
  | .district => District
  | .customer => Customer
  | .stock => Stock
  | .item => Item

/-- The key of a row. -/
inductive PrimaryKey
  | warehouse (wId : ℕ)
  | district (wId dId : ℕ)
  | customer (wId dId cId : ℕ)
  | stock (wId iId : ℕ)
  | item (iId : ℕ)
  deriving DecidableEq, Repr

/-- The table of a row. -/
abbrev PrimaryKey.kind : PrimaryKey → TpccObjectKind
  | warehouse _ => .warehouse
  | district _ _ => .district
  | customer _ _ _ => .customer
  | stock _ _ => .stock
  | item _ => .item

/-! ## Objects -/

/-- An object, with its contents `β`. -/
structure Object (β : Type) where
  id : ObjectID
  version : SequenceNumber
  type : TpccObjectKind
  contents : β
  owner : Owner
  deriving DecidableEq, Repr

/-- The encoder and the decoder of records, each with the identifier of its object. -/
structure Bcs (β : Type) where
  toBytes : ∀ kind, ObjectID × Record kind → β
  fromBytes : ∀ kind, β → Option (ObjectID × Record kind)
  fromBytes_toBytes : ∀ kind x, fromBytes kind (toBytes kind x) = some x

/-- What the program runs with : its build, the encoding, and the identifiers of the rows. -/
structure Platform (β : Type) where
  build : Build
  bcs : Bcs β
  objectId : PrimaryKey → ObjectID

variable {β : Type} (P : Platform β)

def encodeTpccObject (kind : TpccObjectKind) (id : ObjectID) (version : SequenceNumber)
    (data : Record kind) : Object β where
  id := id
  version := version
  type := kind
  contents := P.bcs.toBytes kind (id, data)
  owner := .shared version

/-- `decode_tpcc_data`. `none` : the decoder fails, or a debug assertion. -/
def decodeTpccData (object : Object β) (kind : TpccObjectKind) : Option (Record kind) :=
  if P.build.debugAssertions ∧ object.type ≠ kind then none
  else (P.bcs.fromBytes kind object.contents).bind fun decoded =>
    if P.build.debugAssertions ∧ decoded.1 ≠ object.id then none else some decoded.2

@[simp] theorem decode_encode (kind : TpccObjectKind) (id : ObjectID) (version : SequenceNumber)
    (data : Record kind) :
    decodeTpccData P (encodeTpccObject P kind id version data) kind = some data := by
  simp [decodeTpccData, encodeTpccObject, P.bcs.fromBytes_toBytes]

/-- The object at a new version, with the same data. -/
def updateObjectWithVersion (input : Object β) (version : SequenceNumber) : Object β :=
  { input with
    version := version
    owner :=
      match input.owner with
      | .shared _ => .shared version
      | .address a => .address a }

@[simp] theorem decode_update (x : Object β) (version : SequenceNumber) (kind : TpccObjectKind) :
    decodeTpccData P (updateObjectWithVersion x version) kind = decodeTpccData P x kind := rfl

/-- The record under a key. -/
def row (S : ObjectID → Option (Object β)) (k : PrimaryKey) : Option (Record k.kind) :=
  (S (P.objectId k)).bind fun x => decodeTpccData P x k.kind

/-! ## A platform without serialization -/

/-- Contents that are the records themselves. -/
def plainBcs : Bcs (Σ kind, ObjectID × Record kind) where
  toBytes kind x := ⟨kind, x⟩
  fromBytes kind y := if h : y.1 = kind then some (h ▸ y.2) else none
  fromBytes_toBytes kind x := by simp

/-- Identifiers that number all keys. -/
def plainObjectId : PrimaryKey → ObjectID
  | .warehouse wId => Nat.pair 0 wId
  | .district wId dId => Nat.pair 1 (Nat.pair wId dId)
  | .customer wId dId cId => Nat.pair 2 (Nat.pair wId (Nat.pair dId cId))
  | .stock wId iId => Nat.pair 3 (Nat.pair wId iId)
  | .item iId => Nat.pair 4 iId

theorem plainObjectId_injective : Function.Injective plainObjectId := by
  intro k k' h
  cases k <;> cases k' <;> simp_all [plainObjectId, Nat.pair_eq_pair]

def plainPlatform (b : Build) : Platform (Σ kind, ObjectID × Record kind) :=
  ⟨b, plainBcs, plainObjectId⟩

end Tpcc

end Remora
