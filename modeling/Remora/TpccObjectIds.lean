import Remora.TpccInit
import Mathlib.Data.Nat.Digits.Lemmas

/-!
# The identifiers of the rows of TPC-C

The identifier of a row is made from the hash of its key, a text of the table's letter and the
decimal numbers of the key, joined by underscores. A number has no underscore, so that the text
can be split again and is the text of no other row (`rowKey_injective`). The first 8 of the 32
bytes are the hash itself, and the others are cut out of it, so that different hashes give
different identifiers (`objectIdOfHash_injective`).

What is left is the hash. If it does not collide on the keys of some rows, their identifiers are
distinct (`row_identities_injective`), which is what everything about the executor asks of a
`Platform` (`Platform.ofHasher_injOn`).
-/

namespace Remora

namespace Tpcc

open Function

/-! ## From the hash to the identifier -/

/-- `make_object_id` : the hash with its lowest byte first, and then a pattern. -/
def objectIdBytes (hash : UInt64) : Vector UInt8 32 :=
  Vector.ofFn fun i =>
    if (i : ℕ) < 8 then (hash >>> (8 * i : ℕ).toUInt64).toUInt8
    else ((hash >>> ((i - 8) % 8 : ℕ).toUInt64) &&& 0xFF).toUInt8

/-- `ObjectID::from_bytes`. -/
def fromBytes (bytes : Vector UInt8 32) : ObjectID :=
  Nat.ofDigits 256 (bytes.toList.reverse.map UInt8.toNat)

def objectIdOfHash (hash : UInt64) : ObjectID :=
  fromBytes (objectIdBytes hash)

theorem fromBytes_injective : Injective fromBytes := by
  intro bytes bytes' h
  have hlt (l : List UInt8) : ∀ d ∈ l.map UInt8.toNat, d < 256 := by
    simp only [List.mem_map, forall_exists_index, and_imp, forall_apply_eq_imp_iff₂]
    exact fun b _ => b.toNat_lt
  have hdigits := Nat.ofDigits_inj_of_len_eq (by decide) (by simp) (hlt _) (hlt _) h
  have hlist := List.map_injective_iff.mpr (fun _ _ => UInt8.toNat_inj.mp) hdigits
  exact Vector.toList_inj.mp (List.reverse_injective hlist)

/-- Numbers of at most `k` digits with the same digits are the same. -/
theorem eq_of_digits {b : ℕ} (k : ℕ) : ∀ {n m : ℕ}, n < b ^ k → m < b ^ k →
    (∀ i < k, n / b ^ i % b = m / b ^ i % b) → n = m := by
  induction k with
  | zero =>
    intro n m hn hm _
    rw [pow_zero, Nat.lt_one_iff] at hn hm
    rw [hn, hm]
  | succ k ih =>
    intro n m hn hm h
    have hdiv : n / b = m / b := by
      refine ih (Nat.div_lt_of_lt_mul (pow_succ' b k ▸ hn))
        (Nat.div_lt_of_lt_mul (pow_succ' b k ▸ hm)) fun i hi => ?_
      have := h (i + 1) (Nat.succ_lt_succ hi)
      rwa [pow_succ', ← Nat.div_div_eq_div_mul, ← Nat.div_div_eq_div_mul] at this
    have hmod := h 0 (Nat.succ_pos k)
    rw [pow_zero, Nat.div_one, Nat.div_one] at hmod
    rw [← Nat.div_add_mod n b, hdiv, hmod, Nat.div_add_mod]

theorem toNat_byte (hash : UInt64) {i : ℕ} (hi : i < 8) :
    (hash >>> (8 * i : ℕ).toUInt64).toUInt8.toNat = hash.toNat / 256 ^ i % 256 := by
  have hmod : 8 * i % 2 ^ 64 % 64 = 8 * i := by omega
  rw [UInt64.toNat_toUInt8, UInt64.toNat_shiftRight, Nat.toUInt64, UInt64.toNat_ofNat', hmod,
    Nat.shiftRight_eq_div_pow, pow_mul]
  norm_num

/-- The first 8 bytes are the hash. -/
theorem objectIdBytes_injective : Injective objectIdBytes := by
  intro x y h
  have hbyte : ∀ i < 8, x.toNat / 256 ^ i % 256 = y.toNat / 256 ^ i % 256 := by
    intro i hi
    have := congrArg (fun bytes => bytes[i]) h
    simp only [objectIdBytes, Vector.getElem_ofFn, hi, if_true] at this
    rw [← toNat_byte x hi, ← toNat_byte y hi, this]
  have hlt (hash : UInt64) : hash.toNat < 256 ^ 8 := hash.toNat_lt.trans_eq (by norm_num)
  exact UInt64.toNat_inj.mp (eq_of_digits 8 (hlt x) (hlt y) hbyte)

theorem objectIdOfHash_injective : Injective objectIdOfHash := by
  intro x y h
  apply objectIdBytes_injective
  exact fromBytes_injective h

/-! ## Keys -/

section Rows

variable (hash : String → UInt64)

def makeObjectId (key : String) : ObjectID :=
  objectIdOfHash (hash key)

def objectIdForWarehouse (wId : ℕ) : ObjectID :=
  makeObjectId hash s!"W_{wId}"

def objectIdForDistrict (wId dId : ℕ) : ObjectID :=
  makeObjectId hash s!"D_{wId}_{dId}"

def objectIdForCustomer (wId dId cId : ℕ) : ObjectID :=
  makeObjectId hash s!"C_{wId}_{dId}_{cId}"

def objectIdForStock (wId iId : ℕ) : ObjectID :=
  makeObjectId hash s!"S_{wId}_{iId}"

def objectIdForItem (iId : ℕ) : ObjectID :=
  makeObjectId hash s!"I_{iId}"

/-- The identifier of a row. -/
def rowObjectId : PrimaryKey → ObjectID
  | .warehouse wId => objectIdForWarehouse hash wId
  | .district wId dId => objectIdForDistrict hash wId dId
  | .customer wId dId cId => objectIdForCustomer hash wId dId cId
  | .stock wId iId => objectIdForStock hash wId iId
  | .item iId => objectIdForItem hash iId

end Rows

/-- The text that is hashed for a row. -/
def rowKey : PrimaryKey → String
  | .warehouse wId => s!"W_{wId}"
  | .district wId dId => s!"D_{wId}_{dId}"
  | .customer wId dId cId => s!"C_{wId}_{dId}_{cId}"
  | .stock wId iId => s!"S_{wId}_{iId}"
  | .item iId => s!"I_{iId}"

theorem rowObjectId_eq (hash : String → UInt64) (k : PrimaryKey) :
    rowObjectId hash k = makeObjectId hash (rowKey k) := by
  cases k <;> rfl

/-- What the underscores of a key separate. -/
def keyFields : PrimaryKey → List (List Char)
  | .warehouse wId => [['W'], Nat.toDigits 10 wId]
  | .district wId dId => [['D'], Nat.toDigits 10 wId, Nat.toDigits 10 dId]
  | .customer wId dId cId =>
    [['C'], Nat.toDigits 10 wId, Nat.toDigits 10 dId, Nat.toDigits 10 cId]
  | .stock wId iId => [['S'], Nat.toDigits 10 wId, Nat.toDigits 10 iId]
  | .item iId => [['I'], Nat.toDigits 10 iId]

theorem toList_rowKey (k : PrimaryKey) : (rowKey k).toList = ['_'].intercalate (keyFields k) := by
  cases k <;> simp [rowKey, keyFields, ToString.toString]

/-- A key can be split again. -/
theorem splitOn_rowKey (k : PrimaryKey) : (rowKey k).toList.splitOn '_' = keyFields k := by
  rw [toList_rowKey]
  refine List.splitOn_intercalate '_' ?_ ?_
  · have hdigits (n : ℕ) : '_' ∉ Nat.toDigits 10 n := Nat.underscore_not_in_toDigits
    cases k <;> simp [keyFields, hdigits]
  · cases k <;> simp [keyFields]

theorem toDigits_injective : Injective (Nat.toDigits 10) := by
  intro n m h
  rw [← Nat.ofDigitChars_ten_toDigits (n := n), h, Nat.ofDigitChars_ten_toDigits]

theorem keyFields_injective : Injective keyFields := by
  intro k k' h
  cases k <;> cases k' <;> simp_all [keyFields, toDigits_injective.eq_iff]

theorem rowKey_injective : Injective rowKey := by
  intro k k' h
  apply keyFields_injective
  rw [← splitOn_rowKey, h, splitOn_rowKey]

/-- Two rows share an identifier only where the hasher collides. -/
theorem rowObjectId_eq_iff (hash : String → UInt64) (k k' : PrimaryKey) :
    rowObjectId hash k = rowObjectId hash k' ↔ hash (rowKey k) = hash (rowKey k') := by
  rw [rowObjectId_eq, rowObjectId_eq]
  exact objectIdOfHash_injective.eq_iff

/-- The platform that identifies a row as the code does. -/
def Platform.ofHasher {β : Type} (build : Build) (bcs : Bcs β) (hash : String → UInt64) :
    Platform β :=
  { build, bcs, objectId := rowObjectId hash }

theorem Platform.ofHasher_injOn {β : Type} (build : Build) (bcs : Bcs β) {hash : String → UInt64}
    {used : Set PrimaryKey} (hhash : Set.InjOn (hash ∘ rowKey) used) :
    Set.InjOn (Platform.ofHasher build bcs hash).objectId used :=
  fun k hk k' hk' h => hhash hk hk' ((rowObjectId_eq_iff hash k k').mp h)

/-! ## The hasher of the standard library -/

/-- The state of SipHash. -/
structure SipState where
  v0 : UInt64
  v1 : UInt64
  v2 : UInt64
  v3 : UInt64

def rotateLeft (x k : UInt64) : UInt64 :=
  x <<< k ||| x >>> (64 - k)

def SipState.round (s : SipState) : SipState :=
  let v0 := s.v0 + s.v1
  let v1 := rotateLeft s.v1 13 ^^^ v0
  let v0 := rotateLeft v0 32
  let v2 := s.v2 + s.v3
  let v3 := rotateLeft s.v3 16 ^^^ v2
  let v0 := v0 + v3
  let v3 := rotateLeft v3 21 ^^^ v0
  let v2 := v2 + v1
  let v1 := rotateLeft v1 17 ^^^ v2
  { v0, v1, v2 := rotateLeft v2 32, v3 }

/-- A word goes in with one round. -/
def SipState.absorb (s : SipState) (m : UInt64) : SipState :=
  let s := { s with v3 := s.v3 ^^^ m }.round
  { s with v0 := s.v0 ^^^ m }

/-- Up to 8 bytes, the lowest first. -/
def leWord : List UInt8 → UInt64
  | [] => 0
  | b :: bytes => b.toUInt64 ||| leWord bytes <<< 8

/-- The words of a text of `length` bytes. The last one carries the length. -/
def absorbAll (length : ℕ) (s : SipState) : List UInt8 → SipState
  | b₀ :: b₁ :: b₂ :: b₃ :: b₄ :: b₅ :: b₆ :: b₇ :: bytes =>
    absorbAll length (s.absorb (leWord [b₀, b₁, b₂, b₃, b₄, b₅, b₆, b₇])) bytes
  | bytes => s.absorb (leWord bytes ||| length.toUInt64 <<< 56)

/-- SipHash-1-3 with zero keys. -/
def sipHash13 (bytes : List UInt8) : UInt64 :=
  let s := absorbAll bytes.length
    ⟨0x736f6d6570736575, 0x646f72616e646f6d, 0x6c7967656e657261, 0x7465646279746573⟩ bytes
  let s := { s with v2 := s.v2 ^^^ 0xff }.round.round.round
  s.v0 ^^^ s.v1 ^^^ s.v2 ^^^ s.v3

/-- `DefaultHasher` on a text, which is hashed with a closing byte. -/
def defaultHasher (key : String) : UInt64 :=
  sipHash13 (key.toUTF8.data.toList ++ [0xff])

/-! ## Distinct rows -/

/-- **Distinct rows have distinct identifiers**, of one table or of two, if the hasher does not
collide on their keys. -/
theorem row_identities_injective (hash : String → UInt64) (used : Set PrimaryKey)
    (hhash : Set.InjOn hash (rowKey '' used)) : Set.InjOn (rowObjectId hash) used := by
  intro k hk k' hk' h
  have hkeys := hhash ⟨k, hk, rfl⟩ ⟨k', hk', rfl⟩ ((rowObjectId_eq_iff hash k k').mp h)
  exact rowKey_injective hkeys

/-- The rows of `test_object_id_uniqueness`. -/
def uniquenessRows : List PrimaryKey :=
  [.warehouse 1, .district 1 1, .customer 1 1 1, .stock 1 1, .item 1]

theorem row_identities_of_uniqueness_test :
    (uniquenessRows.map (defaultHasher ∘ rowKey)).Nodup ∧
      Set.InjOn (rowObjectId defaultHasher) {k | k ∈ uniquenessRows} := by
  have hnodup : (uniquenessRows.map (defaultHasher ∘ rowKey)).Nodup := by decide +kernel
  refine ⟨hnodup, row_identities_injective defaultHasher _ ?_⟩
  rintro _ ⟨k, hk, rfl⟩ _ ⟨k', hk', rfl⟩ h
  rw [List.inj_on_of_nodup_map hnodup hk hk' h]

end Tpcc

end Remora
