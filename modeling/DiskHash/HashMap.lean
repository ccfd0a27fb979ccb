import DiskHash.Catalogue

/-!
# DiskHash.HashMap — the map (`hash_map.h`)

`Os` is what the operating system answers to the calls made on the two files.
-/

namespace DiskHash

structure Os where
  cat : Kernel
  dat : Kernel

structure Os.Grants (os : Os) : Prop where
  cat : os.cat.Grants
  dat : os.dat.Grants

def Os.willing : Os := ⟨Kernel.willing, Kernel.willing⟩

theorem Os.willing_grants : Os.willing.Grants := ⟨Kernel.willing_grants, Kernel.willing_grants⟩

/-- `hash_map`. -/
structure HashMap (B : ℕ) where
  catalogue : Catalogue
  container : Container B

/-- The two files of a map at rest. -/
structure Files (B : ℕ) where
  cat : Stored CatalogueLayout
  dat : Stored (Layout B)

/-- The files of a map that does not exist yet. -/
def Files.empty (B : ℕ) : Files B := ⟨Catalogue.emptyFile, Container.emptyFile B⟩

namespace HashMap

variable {B : ℕ} {α : Type}

def onCat (m : Prog Fault Catalogue α) : Prog Fault (HashMap B) α :=
  Prog.zoom HashMap.catalogue (fun c m => { m with catalogue := c }) m

def onDat (m : Prog Fault (Container B) α) : Prog Fault (HashMap B) α :=
  Prog.zoom HashMap.container (fun c m => { m with container := c }) m

/-- The part of the constructor that sets up a map without buckets. -/
def init (os : Os) : Prog Fault (HashMap B) Unit := do
  let bucketId ← onDat (Container.createBucket os.dat 1)
  onCat (Catalogue.assign 0 bucketId)
  let bucketId ← onDat (Container.createBucket os.dat 1)
  onCat (Catalogue.assign (~~~0) bucketId)

/-- `hash_map::hash_map`. -/
def new (os : Os) (readOnly : Bool) (files : Files B) : Except Fault (HashMap B) := do
  let catalogue ← Catalogue.new os.cat 1 readOnly files.cat
  let container ← Container.new os.dat readOnly files.dat
  if container.layout.bucketsCount = 0 then
    match init os ⟨catalogue, container⟩ with
    | .ok _ m => return m
    | .error e _ => throw e
  else return ⟨catalogue, container⟩

/-- `hash_map::close`. -/
def close (m : HashMap B) : Files B := ⟨m.catalogue.close, m.container.close⟩

/-- `hash_map::bytes_allocated`. -/
def bytesAllocated (m : HashMap B) : ℕ := m.container.bytesAllocated + m.catalogue.bytesAllocated

/-- `container_.bucket_prefix_bits`. -/
def bucketPrefixBits (bucketId : ℕ) : Prog Fault (HashMap B) ℕ := do
  let bucket ← onDat (Container.bucketAt bucketId)
  return bucket.prefixBits

/-- The catalogue is doubled when the bucket is as deep as the catalogue and buckets outnumber entries. -/
def growCatalogue (os : Os) (bucketId : ℕ) : Prog Fault (HashMap B) Unit := do
  let prefixBits ← bucketPrefixBits bucketId
  let m ← Prog.get
  if prefixBits = m.catalogue.layout.prefixBits
      ∧ 2 ^ m.catalogue.layout.prefixBits < m.container.layout.bucketsCount then
    onCat (Catalogue.split os.cat)
  else return ()

/-- `bucket_id` after the split of a bucket: the half the hash belongs to. -/
def enterBucket (hash newBit : Hash) (bucketId newBucketId : ℕ) : Prog Fault (HashMap B) ℕ := do
  let bucketId := if hash &&& newBit ≠ 0 then newBucketId else bucketId
  let found ← onCat (Catalogue.find hash)
  Prog.check (found = bucketId) .assertFailed
  return bucketId

/-- The bucket is split when it is less deep than the catalogue. -/
def splitBucket (os : Os) (fuel : ℕ) (hash : Hash) (bucketId : ℕ) : Prog Fault (HashMap B) ℕ := do
  let prefixBits ← bucketPrefixBits bucketId
  let m ← Prog.get
  if prefixBits < m.catalogue.layout.prefixBits then do
    let newBucketId ← onDat (Container.split os.dat fuel bucketId)
    let prefixBits ← bucketPrefixBits bucketId
    let newPrefixBits ← bucketPrefixBits newBucketId
    Prog.check (prefixBits = newPrefixBits) .assertFailed
    let newBit ← Prog.lift (if prefixBits ≤ hashBits then oneShl (hashBits - prefixBits)
      else .error .badShift)
    onCat (Catalogue.set (hash ||| newBit) prefixBits newBucketId)
    enterBucket hash newBit bucketId newBucketId
  else return bucketId

/-- The part of `get` between the search and the insertion: the bucket the record goes to. -/
def makeRoom (os : Os) (fuel : ℕ) (hash : Hash) (bucketId : ℕ) : Prog Fault (HashMap B) ℕ := do
  let full ← onDat (Container.bucketToSplit bucketId)
  if full then do
    growCatalogue os bucketId
    splitBucket os fuel hash bucketId
  else return bucketId

/-- `hash_map::get`. -/
def get (os : Os) (fuel : ℕ) (hash : Hash) (key default : Bytes) : Prog Fault (HashMap B) View := do
  let bucketId ← onCat (Catalogue.find hash)
  let result ← onDat (Container.findRecord hash key fuel (some bucketId))
  match result with
  | some v => return v
  | none => do
    let bucketId ← makeRoom os fuel hash bucketId
    onDat (Container.createRecord os.dat fuel bucketId hash key default)

/-- `hash_map::find`. -/
def find (fuel : ℕ) (hash : Hash) (key : Bytes) : Prog Fault (HashMap B) (Option View) := do
  let bucketId ← onCat (Catalogue.find hash)
  onDat (Container.findRecord hash key fuel (some bucketId))

/-- `hash_map::remove`. -/
def remove (fuel : ℕ) (hash : Hash) (key : Bytes) : Prog Fault (HashMap B) Bool := do
  let bucketId ← onCat (Catalogue.find hash)
  onDat (Container.removeRecord hash key fuel (some bucketId))

end HashMap

end DiskHash
