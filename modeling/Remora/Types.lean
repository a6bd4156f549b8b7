import Mathlib.Data.List.Basic
import Mathlib.Data.List.Dedup
import Mathlib.Data.List.Sort
import Mathlib.Tactic.Common

/-!
# Transactions, messages and modes

The data the primary and the proxies exchange. Object identifiers and digests are opaque
in this part of the program, compared and ordered only, so they are numbers here, the
32-byte identifiers read big-endian. A version is a `SequenceNumber`, a counter that
starts at 2.

A transaction is a `TransactionWithTimestamp` around the executor's own transaction : the
executor's parameters `τ`, its digest and its inputs are one record here. Its shared
objects are a `BTreeMap`, a list sorted by identifier, and they are the identifiers of
its shared inputs, as `TransactionWithTimestamp::new` is called with
`shared_object_ids`.
-/

namespace Remora

abbrev ObjectID := ℕ

abbrev SequenceNumber := ℕ

abbrev TransactionDigest := ℕ

abbrev ProxyId := ℕ

/-- A shared object at a version : the key of the dependency controllers. -/
abbrev ObjectVersion := ObjectID × SequenceNumber

instance (k : ObjectVersion) (ks : List ObjectVersion) : Decidable (k ∈ ks) :=
  List.instDecidableMemOfLawfulBEq k ks

/-- A lookup that finds every element of a list. -/
theorem mapM_of_forall_eq_some {α β : Type} {f : α → Option β} {g : α → β} {l : List α}
    (h : ∀ a ∈ l, f a = some (g a)) : l.mapM f = some (l.map g) := by
  induction l with
  | nil => rfl
  | cons a l ih =>
    rw [List.forall_mem_cons] at h
    rw [List.mapM_cons, h.1, ih h.2]
    rfl

/-- How stateless and stateful work is separated. -/
inductive SeparationMode
  /-- The proxy verifies a transaction in its stateful task. -/
  | NoSeparation
  /-- The proxy separates the two. -/
  | ProxySeparation
  /-- The primary separates the two, before consensus. -/
  | PrimaryPreSeparation
  /-- The primary separates the two, after consensus. -/
  | PrimaryPostSeparation
  deriving DecidableEq, Repr

namespace SeparationMode

def isProxySeparation : SeparationMode → Bool
  | NoSeparation => false
  | _ => true

def isPrimarySeparation : SeparationMode → Bool
  | PrimaryPreSeparation | PrimaryPostSeparation => true
  | _ => false

end SeparationMode

/-- An input of a transaction. -/
inductive InputObjectKind
  | sharedMoveObject (id : ObjectID)
  | immOrOwnedMoveObject (id : ObjectID)
  deriving DecidableEq, Repr

namespace InputObjectKind

def objectId : InputObjectKind → ObjectID
  | sharedMoveObject id | immOrOwnedMoveObject id => id

def isShared : InputObjectKind → Bool
  | sharedMoveObject _ => true
  | immOrOwnedMoveObject _ => false

end InputObjectKind

/-- A transaction as clients submit it and proxies execute it. The version of a shared
object is `none` until the primary assigns it. Durations are in microseconds. -/
structure RemoraTransaction (τ : Type) where
  transaction : τ
  digest : TransactionDigest
  inputs : List InputObjectKind
  sharedObjects : List (ObjectID × Option SequenceNumber)
  verificationDuration : ℕ
  expectedStatefulDuration : ℕ
  sorted : (sharedObjects.map Prod.fst).Pairwise (· < ·)
  shared_iff : ∀ o, o ∈ sharedObjects.map Prod.fst ↔ .sharedMoveObject o ∈ inputs

namespace RemoraTransaction

variable {τ : Type} (t : RemoraTransaction τ)

/-- The identifiers of the shared objects, in the order of the map. -/
def sharedObjectIds : List ObjectID :=
  t.sharedObjects.map Prod.fst

theorem nodup_sharedObjectIds : t.sharedObjectIds.Nodup :=
  t.sorted.imp Nat.ne_of_lt

/-- The shared objects of a list of inputs, without versions. -/
def unversioned (inputs : List InputObjectKind) : List (ObjectID × Option SequenceNumber) :=
  (((inputs.filter InputObjectKind.isShared).map InputObjectKind.objectId).dedup.insertionSort
    (· ≤ ·)).map fun o => (o, none)

theorem map_fst_unversioned (inputs : List InputObjectKind) :
    (unversioned inputs).map Prod.fst =
      ((inputs.filter InputObjectKind.isShared).map InputObjectKind.objectId).dedup.insertionSort
        (· ≤ ·) := by
  simp [unversioned, Function.comp_def]

/-- `TransactionWithTimestamp::new` on the transaction's `shared_object_ids`. -/
def new (transaction : τ) (digest : TransactionDigest) (inputs : List InputObjectKind)
    (verificationDuration expectedStatefulDuration : ℕ) : RemoraTransaction τ where
  transaction := transaction
  digest := digest
  inputs := inputs
  sharedObjects := unversioned inputs
  verificationDuration := verificationDuration
  expectedStatefulDuration := expectedStatefulDuration
  sorted := by
    rw [map_fst_unversioned]
    have hn := (List.perm_insertionSort (· ≤ ·)
      ((inputs.filter InputObjectKind.isShared).map InputObjectKind.objectId).dedup).nodup_iff.mpr
        (List.nodup_dedup _)
    exact (List.pairwise_insertionSort (· ≤ ·) _).imp₂ (fun a b h hne => Nat.lt_of_le_of_ne h hne) hn
  shared_iff o := by
    rw [map_fst_unversioned, List.mem_insertionSort, List.mem_dedup]
    constructor
    · intro h
      obtain ⟨i, hi, rfl⟩ := List.mem_map.mp h
      obtain ⟨hi, hs⟩ := List.mem_filter.mp hi
      cases i with
      | sharedMoveObject id => exact hi
      | immOrOwnedMoveObject id => simp [InputObjectKind.isShared] at hs
    · intro h
      exact List.mem_map.mpr ⟨_, List.mem_filter.mpr ⟨h, rfl⟩, rfl⟩

end RemoraTransaction

/-- A required state and the proxy to fetch it from, `none` if it is not to be fetched. -/
abbrev RequiredStates := List (ObjectVersion × Option ProxyId)

/-- A request for stateless verification. Its cost is in microseconds. -/
structure StatelessVerificationRequest where
  digest : TransactionDigest
  costHint : ℕ
  deriving DecidableEq, Repr

/-- Messages from the primary to a proxy. -/
inductive PrimaryToProxyMessage (τ : Type)
  /-- Stateful work, and the proxy that verifies the transaction. -/
  | txn (t : RemoraTransaction τ) (statelessProxy : ProxyId) (states : RequiredStates)
  /-- Verification only. -/
  | statelessTxn (request : StatelessVerificationRequest)
  /-- Both. -/
  | combinedTxn (t : RemoraTransaction τ) (statelessProxy : ProxyId) (states : RequiredStates)

namespace PrimaryToProxyMessage

variable {τ : Type}

/-- The states a transaction comes with. -/
def requiredStates : PrimaryToProxyMessage τ → RequiredStates
  | txn _ _ states | combinedTxn _ _ states => states
  | statelessTxn _ => []

/-- The proxy that verifies a transaction, as its message says. -/
def statelessProxyId : PrimaryToProxyMessage τ → Option ProxyId
  | txn _ p _ | combinedTxn _ p _ => some p
  | statelessTxn _ => none

end PrimaryToProxyMessage

/-- A proxy asks another one for states, or for the result of a verification. -/
inductive InterProxyRequest
  | stateful (requester : ProxyId) (states : List ObjectVersion)
  | stateless (requester : ProxyId) (digest : TransactionDigest)

/-- The reply, the objects by identifier or the result. -/
inductive InterProxyReply (ω : Type)
  | stateful (objects : List (ObjectID × ω))
  | stateless (digest : TransactionDigest) (result : Bool)

inductive ProxyToProxyMessage (ω : Type)
  | request (r : InterProxyRequest)
  | reply (r : InterProxyReply ω)

end Remora
