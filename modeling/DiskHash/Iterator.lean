import DiskHash.HashMap

/-!
# DiskHash.Iterator — iterators (`hash_map::const_iterator`)

An iterator holds a pointer to its map, so its operations are programs over the map as it is when they are
called; `map` says that the pointer is not null.
-/

namespace DiskHash

/-- `const_iterator`. -/
structure ConstIterator where
  map : Bool
  catalogueIndex : ℕ
  bucketId : ℕ
  byteOffset : ℕ
  deriving DecidableEq

namespace ConstIterator

variable {B : ℕ}

/-- `const_iterator::const_iterator`, which is `hash_map::end`. -/
def atEnd : ConstIterator := ⟨false, 0, 0, 0⟩

/-- `const_iterator::operator==`. -/
def equal (it o : ConstIterator) : Bool :=
  if !it.map && !o.map then true
  else if !it.map || !o.map then false
  else it.catalogueIndex == o.catalogueIndex && it.bucketId == o.bucketId && it.byteOffset == o.byteOffset

/-- The inner loop of `find_next_record`: entries equal to the one before are passed, `n` at most. -/
def skipEntries : ℕ → ℕ → Prog Fault (HashMap B) ℕ
  | 0, catalogueIndex => return catalogueIndex
  | n + 1, catalogueIndex => do
    let value ← HashMap.onCat (Catalogue.entry catalogueIndex)
    let previous ← HashMap.onCat (Catalogue.entry (catalogueIndex - 1))
    if value = previous then skipEntries n (catalogueIndex + 1) else return catalogueIndex

/-- `find_next_record`. -/
def findNextRecord : ℕ → ConstIterator → Prog Fault (HashMap B) ConstIterator
  | 0, _ => Prog.throw .outOfFuel
  | fuel + 1, it => do
    let record ← HashMap.onDat (Container.readRecord it.bucketId it.byteOffset)
    match record with
    | some _ => return it
    | none => do
      let bucket ← HashMap.onDat (Container.bucketAt it.bucketId)
      match bucket.nextBucketId with
      | some next => findNextRecord fuel { it with bucketId := next, byteOffset := 0 }
      | none => do
        let m ← Prog.get
        let bufferSize := m.catalogue.layout.bufferSize
        let index ← skipEntries (bufferSize - (it.catalogueIndex + 1)) (it.catalogueIndex + 1)
        if bufferSize ≤ index then return { it with map := false, catalogueIndex := index }
        else do
          let bucketId ← HashMap.onCat (Catalogue.entry index)
          findNextRecord fuel { it with catalogueIndex := index, bucketId := bucketId, byteOffset := 0 }

/-- `hash_map::begin`. -/
def atBegin (fuel : ℕ) : Prog Fault (HashMap B) ConstIterator := do
  let m ← Prog.get
  if 0 < m.catalogue.layout.bufferSize then do
    let bucketId ← HashMap.onCat (Catalogue.entry 0)
    findNextRecord fuel ⟨true, 0, bucketId, 0⟩
  else return ⟨false, 0, 0, 0⟩

/-- `const_iterator::operator*`.  The views of a record that was not read are empty. -/
def deref (it : ConstIterator) : Prog Fault (HashMap B) (View × View) := do
  let record ← HashMap.onDat (Container.readRecord it.bucketId it.byteOffset)
  match record with
  | some (rv, _) => return (rv.key, rv.value)
  | none => return (⟨0, 0, 0⟩, ⟨0, 0, 0⟩)

/-- `const_iterator::operator++`. -/
def next (fuel : ℕ) (it : ConstIterator) : Prog Fault (HashMap B) ConstIterator := do
  let record ← HashMap.onDat (Container.readRecord it.bucketId it.byteOffset)
  let byteOffset := match record with
    | some (_, byteOffset) => byteOffset
    | none => it.byteOffset
  findNextRecord fuel { it with byteOffset := byteOffset }

/-- The loop `for(it = begin; it != end; ++it)` that copies what `*it` shows, at most `steps` times. -/
def collect (fuel : ℕ) : ℕ → ConstIterator → Prog Fault (HashMap B) (List (Bytes × Bytes))
  | steps, it =>
    if it.equal atEnd then return []
    else match steps with
      | 0 => Prog.throw .outOfFuel
      | steps + 1 => do
        let (key, value) ← deref it
        let m ← Prog.get
        let it ← next fuel it
        let rest ← collect fuel steps it
        return (m.container.view key, m.container.view value) :: rest

end ConstIterator

end DiskHash
