import DiskHash.FileMap
import DiskHash.Vbe

/-!
# DiskHash.Container — the bucket file (`container.h`, `container.cpp`)

`B` is the template parameter `BucketSize`.  The file is a header followed by buckets; a bucket is
addressed by its id, and `INVALID_BUCKET_ID` is `none`.  A pointer into the mapping keeps the address the
mapping had when the pointer was computed: `resize` may move the mapping, and an access through a pointer
from before the move faults, as does an access to a bucket past the mapped length.

Loops along a chain carry fuel; the loops over the bytes of one bucket pass at least one of its `B` bytes
in each turn and get `B + 1` turns.
-/

namespace DiskHash

/-! ## Buckets and their bytes -/

/-- `data` with `bs` written at `ptr`. -/
def patch (data : Bytes) (ptr : ℕ) (bs : Bytes) : Bytes :=
  data.take ptr ++ bs ++ data.drop (ptr + bs.length)

theorem length_patch {data : Bytes} {ptr : ℕ} {bs : Bytes} (h : ptr + bs.length ≤ data.length) :
    (patch data ptr bs).length = data.length := by
  unfold patch
  simp
  omega

/-- The `n` bytes at `ptr`. -/
def readBytes (data : Bytes) (ptr n : ℕ) : Except Fault Bytes :=
  if ptr + n ≤ data.length then .ok ((data.drop ptr).take n) else .error .outOfBounds

/-- `bucket_t`. -/
structure Bucket (B : ℕ) where
  prefixBits : ℕ
  bytesUsed : ℕ
  nextBucketId : Option ℕ
  data : Bytes
  length_data : data.length = B

namespace Bucket

variable {B : ℕ}

/-- A bucket of a file that was never written there. -/
def zero (B : ℕ) : Bucket B := ⟨0, 0, some 0, List.replicate B 0, List.length_replicate⟩

/-- Copy `bs` to `ptr`; the result is the bucket and the pointer past the copy. -/
def put (b : Bucket B) (ptr : ℕ) (bs : Bytes) : Except Fault (Bucket B × ℕ) :=
  if h : ptr + bs.length ≤ B then
    .ok ({ b with
            data := patch b.data ptr bs
            length_data := (length_patch (by rw [b.length_data]; exact h)).trans b.length_data },
          ptr + bs.length)
  else .error .outOfBounds

end Bucket

/-- What a record starts with: its hash, the lengths of key and value, and the pointer to the key. -/
structure RecordHeader where
  hash : Hash
  keyLength : ℕ
  valueLength : ℕ
  cursor : ℕ

def readHeader (data : Bytes) (cursor : ℕ) : Except Fault RecordHeader := do
  let hash ← readBytes data cursor 4
  let (keyLength, cursor) ← Vbe.read 64 data (cursor + 4)
  let (valueLength, cursor) ← Vbe.read 64 data cursor
  return ⟨hashOfBytes hash, keyLength, valueLength, cursor⟩

/-! ## The container -/

/-- `offsetof(layout_t, buckets)`. -/
def headerBytes : ℕ := 4 + 8 + 8

/-- `sizeof(bucket_t)`. -/
def bucketBytes (B : ℕ) : ℕ := 3 * 8 + B

/-- `sizeof(layout_t)`: the header and one bucket. -/
def layoutBytes (B : ℕ) : ℕ := headerBytes + bucketBytes B

/-- `layout_t`, with all the buckets the file has room for. -/
structure Layout (B : ℕ) where
  signature : ℕ
  bucketsCount : ℕ
  firstFreeBucketId : Option ℕ
  buckets : ℕ → Bucket B

/-- A file at rest: its size and what it holds. -/
structure Stored (L : Type) where
  size : ℕ
  layout : L

/-- `container`: `layout_` is the start of the mapping whenever it is used. -/
structure Container (B : ℕ) where
  fileMap : FileMap
  layout : Layout B

/-- `bucket_t *`. -/
structure BucketPtr where
  base : ℕ
  id : ℕ
  deriving DecidableEq

/-- `unsigned char *` into the data of a bucket. -/
structure BytePtr where
  bucket : BucketPtr
  offset : ℕ
  deriving DecidableEq

def BucketPtr.data (p : BucketPtr) : BytePtr := ⟨p, 0⟩

def BytePtr.add (p : BytePtr) (n : ℕ) : BytePtr := ⟨p.bucket, p.offset + n⟩

/-- `std::string_view` into the data of a bucket. -/
structure View where
  bucketId : ℕ
  offset : ℕ
  length : ℕ
  deriving DecidableEq

namespace Container

variable {B : ℕ}

/-- `container::SIGNATURE`. -/
def signature : ℕ := 0x69d3db7a

/-- The file of a container that does not exist yet. -/
def emptyFile (B : ℕ) : Stored (Layout B) := ⟨0, 0, 0, some 0, fun _ => Bucket.zero B⟩

/-- `container::container`. -/
def new (kernel : Kernel) (readOnly : Bool) (file : Stored (Layout B)) : Except Fault (Container B) := do
  let fm ← FileMap.new kernel readOnly file.size (layoutBytes B)
  if file.layout.signature = 0 then
    return ⟨fm, { file.layout with signature := signature, firstFreeBucketId := none }⟩
  else if file.layout.signature ≠ signature then throw .badSignature
  else return ⟨fm, file.layout⟩

/-- The file that `container::close` leaves behind. -/
def close (c : Container B) : Stored (Layout B) := ⟨c.fileMap.size, c.layout⟩

/-- `container::bytes_allocated`. -/
def bytesAllocated (c : Container B) : ℕ := c.fileMap.length

/-- All bytes of the bucket are in the mapping. -/
def Mapped (c : Container B) (id : ℕ) : Prop :=
  headerBytes + (id + 1) * bucketBytes B ≤ c.fileMap.length

instance (c : Container B) (id : ℕ) : Decidable (c.Mapped id) := by
  unfold Mapped
  infer_instance

def setBucket (c : Container B) (id : ℕ) (b : Bucket B) : Container B :=
  { c with layout := { c.layout with buckets := Function.update c.layout.buckets id b } }

def setFirstFree (c : Container B) (id : Option ℕ) : Container B :=
  { c with layout := { c.layout with firstFreeBucketId := id } }

/-- The bytes a view shows. -/
def view (c : Container B) (v : View) : Bytes :=
  ((c.layout.buckets v.bucketId).data.drop v.offset).take v.length

/-- `&layout_->buckets[id]`. -/
def bucketPtr (id : ℕ) : Prog Fault (Container B) BucketPtr := do
  let c ← Prog.get
  return ⟨c.fileMap.start, id⟩

/-- Read the bucket behind a pointer. -/
def load (p : BucketPtr) : Prog Fault (Container B) (Bucket B) := do
  let c ← Prog.get
  Prog.check (p.base = c.fileMap.start ∧ c.Mapped p.id) .outOfBounds
  return c.layout.buckets p.id

/-- Write the bucket behind a pointer. -/
def store (p : BucketPtr) (b : Bucket B) : Prog Fault (Container B) Unit := do
  let c ← Prog.get
  Prog.check (p.base = c.fileMap.start ∧ c.Mapped p.id) .outOfBounds
  Prog.modify fun c => c.setBucket p.id b

/-- `layout_->buckets[id]`. -/
def bucketAt (id : ℕ) : Prog Fault (Container B) (Bucket B) := do
  load (← bucketPtr id)

/-- `std::copy(src, src + n, dst)`; the result is the pointer past the copy. -/
def copy (src : BytePtr) (n : ℕ) (dst : BytePtr) : Prog Fault (Container B) BytePtr := do
  let source ← load src.bucket
  let bs ← Prog.lift (readBytes source.data src.offset n)
  let target ← load dst.bucket
  let r ← Prog.lift (target.put dst.offset bs)
  store dst.bucket r.1
  return ⟨dst.bucket, r.2⟩

/-! ### Buckets -/

/-- The part of `create_bucket` that makes the file longer when it has to be. -/
def reserve (kernel : Kernel) (bytesNeeded : ℕ) : Prog Fault (Container B) Unit := do
  let c ← Prog.get
  if c.fileMap.length < bytesNeeded then
    Prog.zoom Container.fileMap (fun fm c => { c with fileMap := fm })
      (FileMap.resize kernel (bytesNeeded * 11 / 10))
  else return ()

/-- The id `create_bucket` takes: a new one, or the head of the free list. -/
def takeBucketId (kernel : Kernel) : Prog Fault (Container B) ℕ := do
  let c ← Prog.get
  match c.layout.firstFreeBucketId with
  | none => do
    reserve kernel (c.layout.bucketsCount * bucketBytes B + layoutBytes B)
    Prog.modify fun c =>
      { c with layout := { c.layout with bucketsCount := c.layout.bucketsCount + 1 } }
    return c.layout.bucketsCount
  | some bucketId => do
    let bucket ← bucketAt bucketId
    Prog.modify fun c => c.setFirstFree bucket.nextBucketId
    return bucketId

/-- `container::create_bucket`. -/
def createBucket (kernel : Kernel) (prefixBits : ℕ) : Prog Fault (Container B) ℕ := do
  let bucketId ← takeBucketId kernel
  let bucketPtr ← bucketPtr bucketId
  let bucket ← load bucketPtr
  store bucketPtr { bucket with prefixBits := prefixBits, bytesUsed := 0, nextBucketId := none }
  return bucketId

/-- `layout_->buckets[id].next_bucket_id = next`. -/
def setNext (id : ℕ) (next : Option ℕ) : Prog Fault (Container B) Unit := do
  let p ← bucketPtr id
  let bucket ← load p
  store p { bucket with nextBucketId := next }

/-- `container::bucket_to_split`. -/
def bucketToSplit (bucketId : ℕ) : Prog Fault (Container B) Bool := do
  let first ← bucketAt bucketId
  match first.nextBucketId with
  | none => return false
  | some next => do
    let second ← bucketAt next
    if second.nextBucketId ≠ none then return true
    else return decide (3 * B / 2 < first.bytesUsed + second.bytesUsed)

/-! ### Records -/

/-- `bytes_required` of `create_record`. -/
def bytesRequired (key value : Bytes) : ℕ :=
  4 + Vbe.length key.length + key.length + Vbe.length value.length + value.length

/-- The loop of `create_record`: the first bucket of the chain with room, or a new one at its end. -/
def findRoom (kernel : Kernel) (required : ℕ) :
    ℕ → ℕ → BucketPtr → Prog Fault (Container B) BucketPtr
  | 0, _, _ => Prog.throw .outOfFuel
  | fuel + 1, bucketId, bucketPtr_ => do
    let bucket ← load bucketPtr_
    if B < bucket.bytesUsed + required then
      match bucket.nextBucketId with
      | none => do
        let newBucketId ← createBucket kernel bucket.prefixBits
        setNext bucketId (some newBucketId)
        let p ← bucketPtr newBucketId
        findRoom kernel required fuel newBucketId p
      | some next => do
        let p ← bucketPtr next
        findRoom kernel required fuel next p
    else return bucketPtr_

/-- The part of `create_record` after the loop: the record is written behind the records of the bucket. -/
def writeRecord (bucketPtr_ : BucketPtr) (hash : Hash) (key value : Bytes) :
    Prog Fault (Container B) View := do
  let bucket ← load bucketPtr_
  let r ← Prog.lift (bucket.put bucket.bytesUsed (hashBytes hash))
  let r ← Prog.lift (r.1.put r.2 (Vbe.write key.length))
  let r ← Prog.lift (r.1.put r.2 (Vbe.write value.length))
  let r ← Prog.lift (r.1.put r.2 key)
  let cursor := r.2
  let r ← Prog.lift (r.1.put r.2 value)
  store bucketPtr_ { r.1 with bytesUsed := r.1.bytesUsed + bytesRequired key value }
  return ⟨bucketPtr_.id, cursor, value.length⟩

/-- `container::create_record`. -/
def createRecord (kernel : Kernel) (fuel : ℕ) (bucketId : ℕ) (hash : Hash) (key value : Bytes) :
    Prog Fault (Container B) View := do
  let p ← bucketPtr bucketId
  let p ← findRoom kernel (bytesRequired key value) fuel bucketId p
  writeRecord p hash key value

/-- Whether the record behind a header is `(hash, key)`; the key is only compared at equal lengths. -/
def sameKey (data : Bytes) (h : RecordHeader) (hash : Hash) (key : Bytes) : Except Fault Bool :=
  if h.hash = hash ∧ key.length = h.keyLength then do
    let bytes ← readBytes data h.cursor h.keyLength
    return decide (bytes = key)
  else return false

/-- The record `(hash, key)` in a bucket: where it starts and its header. -/
def scan (data : Bytes) (bytesUsed : ℕ) (hash : Hash) (key : Bytes) :
    ℕ → ℕ → Except Fault (Option (ℕ × RecordHeader))
  | 0, _ => .error .outOfFuel
  | fuel + 1, recordStart =>
    if recordStart = bytesUsed then .ok none
    else do
      let h ← readHeader data recordStart
      let found ← sameKey data h hash key
      if found then return some (recordStart, h)
      else if h.cursor + h.keyLength + h.valueLength ≤ bytesUsed then
        scan data bytesUsed hash key fuel (h.cursor + h.keyLength + h.valueLength)
      else throw .assertFailed

/-- `container::find_value` (`find_record` is the same function). -/
def findRecord (hash : Hash) (key : Bytes) : ℕ → Option ℕ → Prog Fault (Container B) (Option View)
  | _, none => return none
  | 0, some _ => Prog.throw .outOfFuel
  | fuel + 1, some bucketId => do
    let bucket ← bucketAt bucketId
    let found ← Prog.lift (scan bucket.data bucket.bytesUsed hash key (B + 1) 0)
    match found with
    | some (_, h) => return some ⟨bucketId, h.cursor + h.keyLength, h.valueLength⟩
    | none => findRecord hash key fuel bucket.nextBucketId

/-- The end of `remove_record`: the bytes behind the record move down over it. -/
def eraseRecord (bucketId : ℕ) (recordStart recordLength : ℕ) : Prog Fault (Container B) Unit := do
  let p ← bucketPtr bucketId
  let bucket ← load p
  let recordEnd := recordStart + recordLength
  let bs ← Prog.lift (readBytes bucket.data recordEnd (bucket.bytesUsed - recordEnd))
  let r ← Prog.lift (bucket.put recordStart bs)
  store p { r.1 with bytesUsed := bucket.bytesUsed - recordLength }

/-- `container::remove_record`. -/
def removeRecord (hash : Hash) (key : Bytes) : ℕ → Option ℕ → Prog Fault (Container B) Bool
  | _, none => return false
  | 0, some _ => Prog.throw .outOfFuel
  | fuel + 1, some bucketId => do
    let bucket ← bucketAt bucketId
    let found ← Prog.lift (scan bucket.data bucket.bytesUsed hash key (B + 1) 0)
    match found with
    | some (recordStart, h) => do
      eraseRecord bucketId recordStart (h.cursor - recordStart + h.keyLength + h.valueLength)
      return true
    | none => removeRecord hash key fuel bucket.nextBucketId

/-- `record_view`. -/
structure RecordView where
  hash : Hash
  key : View
  value : View

/-- `container::read_record`: the record at `byteOffset` and the offset past it, or `none` at the end. -/
def readRecord (bucketId byteOffset : ℕ) : Prog Fault (Container B) (Option (RecordView × ℕ)) := do
  let bucket ← bucketAt bucketId
  if bucket.bytesUsed ≤ byteOffset then return none
  else do
    let h ← Prog.lift (readHeader bucket.data byteOffset)
    return some (⟨h.hash, ⟨bucketId, h.cursor, h.keyLength⟩,
      ⟨bucketId, h.cursor + h.keyLength, h.valueLength⟩⟩, h.cursor + h.keyLength + h.valueLength)

/-! ### Splitting a chain -/

/-- The local variables of `split`. -/
structure SplitVars where
  bit0BucketId : ℕ
  bit1BucketId : ℕ
  bit0BucketPtr : BucketPtr
  bit1BucketPtr : BucketPtr
  bit0BucketPut : BytePtr
  bit1BucketPut : BytePtr
  getBucketPtr : BucketPtr
  getPtr : BytePtr

/-- The bit-1 bucket is full: chain a new one behind it.  The mapping may have moved, so every pointer is
computed again. -/
def chainBit1 (kernel : Kernel) (prefixBits getBucketId : ℕ) (v : SplitVars) :
    Prog Fault (Container B) SplitVars := do
  let bit1 ← load v.bit1BucketPtr
  Prog.check (v.bit1BucketPut.offset = bit1.bytesUsed) .assertFailed
  let offset := v.getPtr.offset
  let newBucketId ← createBucket kernel prefixBits
  setNext v.bit1BucketId (some newBucketId)
  let bit0BucketPtr ← bucketPtr v.bit0BucketId
  let bit1BucketPtr ← bucketPtr newBucketId
  let bit0 ← load bit0BucketPtr
  let getBucketPtr ← bucketPtr getBucketId
  return { v with
    bit1BucketId := newBucketId
    bit0BucketPtr := bit0BucketPtr
    bit1BucketPtr := bit1BucketPtr
    bit0BucketPut := ⟨bit0BucketPtr, bit0.bytesUsed⟩
    bit1BucketPut := bit1BucketPtr.data
    getBucketPtr := getBucketPtr
    getPtr := ⟨getBucketPtr, offset⟩ }

/-- The bit-0 bucket is full: go on to the next bucket of the old chain, or chain a new one. -/
def chainBit0 (kernel : Kernel) (prefixBits getBucketId : ℕ) (v : SplitVars) :
    Prog Fault (Container B) SplitVars := do
  let bit0 ← load v.bit0BucketPtr
  Prog.check (v.bit0BucketPut.offset = bit0.bytesUsed) .assertFailed
  match bit0.nextBucketId with
  | some next => do
    let p ← bucketPtr next
    let bucket ← load p
    store p { bucket with prefixBits := prefixBits }
    return { v with bit0BucketId := next, bit0BucketPtr := p, bit0BucketPut := p.data }
  | none => do
    let offset := v.getPtr.offset
    let newBucketId ← createBucket kernel prefixBits
    setNext v.bit0BucketId (some newBucketId)
    let bit0BucketPtr ← bucketPtr newBucketId
    let getBucketPtr ← bucketPtr getBucketId
    let bit1BucketPtr ← bucketPtr v.bit1BucketId
    let bit1 ← load bit1BucketPtr
    let bucket ← load bit0BucketPtr
    store bit0BucketPtr { bucket with prefixBits := prefixBits }
    return { v with
      bit0BucketId := newBucketId
      bit0BucketPtr := bit0BucketPtr
      bit0BucketPut := bit0BucketPtr.data
      getBucketPtr := getBucketPtr
      getPtr := ⟨getBucketPtr, offset⟩
      bit1BucketPtr := bit1BucketPtr
      bit1BucketPut := ⟨bit1BucketPtr, bit1.bytesUsed⟩ }

/-- Make sure that the bit-1 bucket has room for the record. -/
def makeRoom1 (kernel : Kernel) (prefixBits getBucketId recordLength : ℕ) (v : SplitVars) :
    Prog Fault (Container B) SplitVars := do
  let bit1 ← load v.bit1BucketPtr
  if B < bit1.bytesUsed + recordLength then chainBit1 kernel prefixBits getBucketId v else return v

/-- Make sure that the bit-0 bucket has room for the record. -/
def makeRoom0 (kernel : Kernel) (prefixBits getBucketId recordLength : ℕ) (v : SplitVars) :
    Prog Fault (Container B) SplitVars := do
  let bit0 ← load v.bit0BucketPtr
  if B < bit0.bytesUsed + recordLength then chainBit0 kernel prefixBits getBucketId v else return v

/-- The record at `src` is copied to `put`, which is in the bucket `bucketPtr_`, and counted there. -/
def moveRecord (src : BytePtr) (recordLength : ℕ) (bucketPtr_ : BucketPtr) (put : BytePtr) :
    Prog Fault (Container B) BytePtr := do
  let put ← copy src recordLength put
  let bucket ← load bucketPtr_
  store bucketPtr_ { bucket with bytesUsed := bucket.bytesUsed + recordLength }
  return put

/-- Move the record at `get_ptr` to the bit-1 bucket. -/
def moveToBit1 (recordLength : ℕ) (v : SplitVars) : Prog Fault (Container B) SplitVars := do
  let put ← moveRecord v.getPtr recordLength v.bit1BucketPtr v.bit1BucketPut
  return { v with bit1BucketPut := put, getPtr := v.getPtr.add recordLength }

/-- Move the record at `get_ptr` to the bit-0 bucket. -/
def moveToBit0 (recordLength : ℕ) (v : SplitVars) : Prog Fault (Container B) SplitVars := do
  let put ← moveRecord v.getPtr recordLength v.bit0BucketPtr v.bit0BucketPut
  return { v with bit0BucketPut := put, getPtr := v.getPtr.add recordLength }

/-- One turn of the inner loop of `split`. -/
def splitStep (kernel : Kernel) (prefixBits : ℕ) (newBit : Hash) (getBucketId : ℕ) (v : SplitVars) :
    Prog Fault (Container B) SplitVars := do
  let bucket ← load v.getPtr.bucket
  let h ← Prog.lift (readHeader bucket.data v.getPtr.offset)
  let recordLength := h.cursor - v.getPtr.offset + h.keyLength + h.valueLength
  Prog.check (recordLength = 4 + Vbe.length h.keyLength + h.keyLength
    + Vbe.length h.valueLength + h.valueLength) .assertFailed
  if h.hash &&& newBit ≠ 0 then do
    let v ← makeRoom1 kernel prefixBits getBucketId recordLength v
    moveToBit1 recordLength v
  else do
    let v ← makeRoom0 kernel prefixBits getBucketId recordLength v
    moveToBit0 recordLength v

/-- The inner loop of `split`: the records of one bucket. -/
def splitRecords (kernel : Kernel) (prefixBits : ℕ) (newBit : Hash) (getBucketId getLast : ℕ) :
    ℕ → SplitVars → Prog Fault (Container B) SplitVars
  | 0, _ => Prog.throw .outOfFuel
  | fuel + 1, v =>
    if v.getPtr = v.getBucketPtr.data.add getLast then return v
    else do
      let v ← splitStep kernel prefixBits newBit getBucketId v
      splitRecords kernel prefixBits newBit getBucketId getLast fuel v

/-- The outer loop of `split`: the buckets of the old chain. -/
def splitChain (kernel : Kernel) (prefixBits : ℕ) (newBit : Hash) :
    ℕ → Option ℕ → SplitVars → Prog Fault (Container B) SplitVars
  | _, none, v => return v
  | 0, some _, _ => Prog.throw .outOfFuel
  | fuel + 1, some getBucketId, v => do
    let getBucketPtr ← bucketPtr getBucketId
    let bucket ← load getBucketPtr
    let getLast := bucket.bytesUsed
    store getBucketPtr { bucket with bytesUsed := 0 }
    let v ← splitRecords kernel prefixBits newBit getBucketId getLast (B + 1)
      { v with getBucketPtr := getBucketPtr, getPtr := getBucketPtr.data }
    let bucket ← bucketAt getBucketId
    splitChain kernel prefixBits newBit fuel bucket.nextBucketId v

/-- The last loop of `split`: the buckets of a chain go to the free list. -/
def freeChain : ℕ → Option ℕ → Prog Fault (Container B) Unit
  | _, none => return ()
  | 0, some _ => Prog.throw .outOfFuel
  | fuel + 1, some freeBucketId => do
    let p ← bucketPtr freeBucketId
    let bucket ← load p
    Prog.check (bucket.bytesUsed = 0) .assertFailed
    let c ← Prog.get
    store p { bucket with nextBucketId := c.layout.firstFreeBucketId }
    Prog.modify fun c => c.setFirstFree (some freeBucketId)
    freeChain fuel bucket.nextBucketId

/-- `container::split`. -/
def split (kernel : Kernel) (fuel : ℕ) (bucketId : ℕ) : Prog Fault (Container B) ℕ := do
  let p ← bucketPtr bucketId
  let bucket ← load p
  let prefixBits := bucket.prefixBits + 1
  store p { bucket with prefixBits := prefixBits }
  let bit1BucketId ← createBucket kernel prefixBits
  let newBit ← Prog.lift (if prefixBits ≤ hashBits then oneShl (hashBits - prefixBits)
    else .error .badShift)
  let bit0BucketPtr ← bucketPtr bucketId
  let bit1BucketPtr ← bucketPtr bit1BucketId
  let v ← splitChain kernel prefixBits newBit fuel (some bucketId)
    { bit0BucketId := bucketId
      bit1BucketId := bit1BucketId
      bit0BucketPtr := bit0BucketPtr
      bit1BucketPtr := bit1BucketPtr
      bit0BucketPut := bit0BucketPtr.data
      bit1BucketPut := bit1BucketPtr.data
      getBucketPtr := bit0BucketPtr
      getPtr := bit0BucketPtr.data }
  let bit0 ← load v.bit0BucketPtr
  store v.bit0BucketPtr { bit0 with nextBucketId := none }
  freeChain fuel bit0.nextBucketId
  return bit1BucketId

end Container

end DiskHash
