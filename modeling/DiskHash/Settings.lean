import DiskHash.Lib.Prog
import Mathlib.Data.List.Basic

/-!
# DiskHash.Settings — hashes, bytes and the ways a call can fail

`hash_t` is a 32-bit unsigned; `size_t` is 64 bits wide and is modelled by `ℕ`: every size and address
the code computes is the size of a mapping that exists, so it stays far below `2^64`.  Where the code
shifts, the width of the promoted operand matters and the shift amount is checked.
-/

namespace DiskHash

/-- `hash_t`. -/
abbrev Hash := BitVec 32

abbrev Bytes := List UInt8

/-- `HASH_BITS`. -/
def hashBits : ℕ := 32

/-- `DEFAULT_BUCKET_SIZE`: a page less the three `size_t` of a bucket header. -/
def defaultBucketSize : ℕ := 4096 - 3 * 8

/-- What can end a call other than a return. -/
inductive Fault
  /-- a `system_error` thrown by `file_map` -/
  | systemError
  /-- the `runtime_error` of a constructor -/
  | badSignature
  /-- an access outside the mapping, through a stale pointer or outside an array -/
  | outOfBounds
  /-- a shift by at least the width of the promoted operand -/
  | badShift
  /-- a failed `assert` -/
  | assertFailed
  /-- a loop that needed more turns than it was given -/
  | outOfFuel
  deriving DecidableEq

/-- `hash_t(1) << n`. -/
def oneShl (n : ℕ) : Except Fault Hash := if n < hashBits then .ok (1#32 <<< n) else .error .badShift

/-! ### Hashes in memory -/

/-- The bytes of a `hash_t`, least significant first. -/
def hashBytes (h : Hash) : Bytes :=
  [UInt8.ofNat h.toNat, UInt8.ofNat (h.toNat / 256), UInt8.ofNat (h.toNat / 65536),
    UInt8.ofNat (h.toNat / 16777216)]

/-- The `hash_t` that four bytes hold. -/
def hashOfBytes (bs : Bytes) : Hash :=
  BitVec.ofNat 32 (bs.foldr (fun b n => b.toNat + 256 * n) 0)

@[simp] theorem length_hashBytes (h : Hash) : (hashBytes h).length = 4 := rfl

@[simp] theorem hashOfBytes_hashBytes (h : Hash) : hashOfBytes (hashBytes h) = h := by
  apply BitVec.eq_of_toNat_eq
  have := h.isLt
  simp only [hashOfBytes, hashBytes, List.foldr_cons, List.foldr_nil, UInt8.toNat_ofNat',
    BitVec.toNat_ofNat]
  omega

end DiskHash
