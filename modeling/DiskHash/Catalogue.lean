import DiskHash.Container

/-!
# DiskHash.Catalogue — the directory file (`catalogue.h`, `catalogue.cpp`)

The top `prefix_bits` bits of a hash are the index of its entry; an entry is the id of a bucket.  An access
to an entry past the mapped length faults.
-/

namespace DiskHash

/-- `catalogue::layout_t`, with all the entries the file has room for. -/
structure CatalogueLayout where
  signature : ℕ
  prefixBits : ℕ
  prefixShift : ℕ
  prefixMask : Hash
  bufferSize : ℕ
  buffer : ℕ → ℕ

structure Catalogue where
  fileMap : FileMap
  layout : CatalogueLayout

namespace Catalogue

/-- `catalogue::SIGNATURE`. -/
def signature : ℕ := 0x99fa7e8e

/-- `catalogue::INVALID_BLOCK_ID`. -/
def invalidBlockId : ℕ := 2 ^ 64 - 1

/-- `offsetof(layout_t, buffer)`. -/
def headerBytes : ℕ := 4 + 8 + 8 + 4 + 8

/-- `sizeof(value_type)`. -/
def entryBytes : ℕ := 8

/-- `sizeof(layout_t)`: the header and one entry. -/
def layoutBytes : ℕ := headerBytes + entryBytes

/-- The file of a catalogue that does not exist yet. -/
def emptyFile : Stored CatalogueLayout := ⟨0, 0, 0, 0, 0, 0, fun _ => 0⟩

/-- The file that `catalogue::close` leaves behind. -/
def close (c : Catalogue) : Stored CatalogueLayout := ⟨c.fileMap.size, c.layout⟩

/-- `catalogue::bytes_allocated`. -/
def bytesAllocated (c : Catalogue) : ℕ := c.fileMap.length

/-- All bytes of the entry are in the mapping. -/
def Mapped (c : Catalogue) (i : ℕ) : Prop := headerBytes + (i + 1) * entryBytes ≤ c.fileMap.length

instance (c : Catalogue) (i : ℕ) : Decidable (c.Mapped i) := by
  unfold Mapped
  infer_instance

/-- `buffer[i]`. -/
def entry (i : ℕ) : Prog Fault Catalogue ℕ := do
  let c ← Prog.get
  Prog.check (c.Mapped i) .outOfBounds
  return c.layout.buffer i

/-- `buffer[i] = value`. -/
def setEntry (i value : ℕ) : Prog Fault Catalogue Unit := do
  let c ← Prog.get
  Prog.check (c.Mapped i) .outOfBounds
  Prog.modify fun c => { c with layout :=
    { c.layout with buffer := Function.update c.layout.buffer i value } }

/-- `(hash & prefix_mask) >> prefix_shift`. -/
def index (c : Catalogue) (hash : Hash) : Except Fault ℕ :=
  if c.layout.prefixShift < hashBits then
    .ok ((hash &&& c.layout.prefixMask) >>> c.layout.prefixShift).toNat
  else .error .badShift

/-- `catalogue::find`, read. -/
def find (hash : Hash) : Prog Fault Catalogue ℕ := do
  let c ← Prog.get
  let i ← Prog.lift (c.index hash)
  entry i

/-- `catalogue::find`, assigned to. -/
def assign (hash : Hash) (value : ℕ) : Prog Fault Catalogue Unit := do
  let c ← Prog.get
  let i ← Prog.lift (c.index hash)
  setEntry i value

/-- `count` entries from `put` on are set to `value`. -/
def fillEntries (value : ℕ) : ℕ → ℕ → Prog Fault Catalogue Unit
  | 0, _ => return ()
  | count + 1, put => do
    setEntry put value
    fillEntries value count (put + 1)

def resize (kernel : Kernel) (length : ℕ) : Prog Fault Catalogue Unit :=
  Prog.zoom Catalogue.fileMap (fun fm c => { c with fileMap := fm }) (FileMap.resize kernel length)

/-- The part of the constructor that lays out a new file. -/
def init (kernel : Kernel) (prefixBits : ℕ) : Prog Fault Catalogue Unit := do
  resize kernel (layoutBytes + (2 ^ prefixBits - 1) * entryBytes)
  let one ← Prog.lift (oneShl prefixBits)
  Prog.modify fun c => { c with layout :=
    { c.layout with
      signature := signature
      prefixBits := prefixBits
      prefixShift := hashBits - prefixBits
      prefixMask := (one - 1) <<< (hashBits - prefixBits)
      bufferSize := 2 ^ prefixBits } }
  fillEntries invalidBlockId (2 ^ prefixBits) 0

/-- `catalogue::catalogue`. -/
def new (kernel : Kernel) (prefixBits : ℕ) (readOnly : Bool) (file : Stored CatalogueLayout) :
    Except Fault Catalogue := do
  let fm ← FileMap.new kernel readOnly file.size layoutBytes
  if file.layout.signature = 0 then
    match init kernel prefixBits ⟨fm, file.layout⟩ with
    | .ok _ c => return c
    | .error e _ => throw e
  else if file.layout.signature ≠ signature then throw .badSignature
  else return ⟨fm, file.layout⟩

/-- `hash & ~((size_t(1) << (HASH_BITS - offset)) - 1)`, computed in 64 bits. -/
def clearLow (hash : Hash) (offset : ℕ) : Hash :=
  (hash.setWidth 64 &&& ~~~(1#64 <<< (hashBits - offset) - 1#64)).setWidth 32

/-- `catalogue::set`. -/
def set (hash : Hash) (offset value : ℕ) : Prog Fault Catalogue Unit := do
  let c ← Prog.get
  Prog.check (offset ≤ hashBits) .badShift
  let put ← Prog.lift (c.index (clearLow hash offset))
  Prog.check (offset ≤ c.layout.prefixBits) .badShift
  fillEntries value (2 ^ (c.layout.prefixBits - offset)) put

/-- The loop of `split`: every entry is copied to two places, from the back. -/
def doubleEntries : ℕ → ℕ → ℕ → Prog Fault Catalogue Unit
  | 0, _, _ => return ()
  | n + 1, get, put => do
    let value ← entry get
    setEntry put value
    let value ← entry get
    setEntry (put - 1) value
    doubleEntries n (get - 1) (put - 2)

/-- `catalogue::split`. -/
def split (kernel : Kernel) : Prog Fault Catalogue Unit := do
  let c ← Prog.get
  let oldBufferSize := c.layout.bufferSize
  Prog.modify fun c => { c with layout :=
    { c.layout with
      prefixBits := c.layout.prefixBits + 1
      prefixShift := c.layout.prefixShift - 1 } }
  -- `prefix_shift--` of 0 wraps around, and the shift that follows is by `2^64 - 1`
  Prog.check (c.layout.prefixShift ≠ 0) .badShift
  let newBit ← Prog.lift (oneShl (c.layout.prefixShift - 1))
  Prog.modify fun c => { c with layout :=
    { c.layout with
      prefixMask := c.layout.prefixMask ||| newBit
      bufferSize := oldBufferSize * 2 } }
  resize kernel (layoutBytes + (oldBufferSize * 2 - 1) * entryBytes)
  doubleEntries oldBufferSize (oldBufferSize - 1) (oldBufferSize * 2 - 1)

end Catalogue

end DiskHash
