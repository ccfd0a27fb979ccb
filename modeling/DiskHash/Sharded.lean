import DiskHash.Iterator

/-!
# DiskHash.Sharded — the map of the server (`sharded_hash_map.h`)

A sharded map is a vector of maps.  The index of the shard of a key is its hash modulo the number of shards, and
each call works on one shard, in the critical section of the mutex of this shard.
-/

namespace DiskHash

/-- `fnv1a`. -/
def fnv1a (sv : Bytes) : Hash :=
  sv.foldl (fun h c => (h ^^^ BitVec.ofNat 32 c.toNat) * 16777619#32) 2166136261#32

/-- `sharded_hash_map`. -/
structure ShardedHashMap where
  shards : List (HashMap defaultBucketSize)
  numShards : ℕ

namespace ShardedHashMap

/-- The loop of the constructor, for `n` shards from number `i` on. -/
def openShards (os : Os) (files : ℕ → Files defaultBucketSize) :
    ℕ → ℕ → Except Fault (List (HashMap defaultBucketSize))
  | 0, _ => return []
  | n + 1, i => do
    let shard ← HashMap.new os false (files i)
    let shards ← openShards os files n (i + 1)
    return shard :: shards

/-- `sharded_hash_map::sharded_hash_map`. -/
def new (os : Os) (files : ℕ → Files defaultBucketSize) (numShards : ℕ) : Except Fault ShardedHashMap := do
  let shards ← openShards os files numShards 0
  return ⟨shards, numShards⟩

/-- `sharded_hash_map::shard_index`. -/
def shardIndex (s : ShardedHashMap) (key : Bytes) : ℕ := (fnv1a key).toNat % s.numShards

/-- `sharded_hash_map::hash_key`. -/
def hashKey (key : Bytes) : Hash := fnv1a key

/-- A critical section on `shards_[idx]`. -/
def onShard {α : Type} (idx : ℕ) (section_ : Prog Fault (HashMap defaultBucketSize) α) :
    Prog Fault ShardedHashMap α := fun s =>
  match s.shards[idx]? with
  | none => .error .outOfBounds s
  | some map =>
    match section_ map with
    | .ok a map' => .ok a { s with shards := s.shards.set idx map' }
    | .error e map' => .error e { s with shards := s.shards.set idx map' }

/-- `sharded_hash_map::get`. -/
def get (fuel : ℕ) (key : Bytes) : Prog Fault ShardedHashMap (Option Bytes) := do
  let s ← Prog.get
  onShard (s.shardIndex key) do
    let result ← HashMap.find fuel (hashKey key) key
    let map ← Prog.get
    return result.map map.container.view

/-- `sharded_hash_map::set`. -/
def set (os : Os) (fuel : ℕ) (key value : Bytes) : Prog Fault ShardedHashMap Bool := do
  let s ← Prog.get
  onShard (s.shardIndex key) do
    let result ← HashMap.find fuel (hashKey key) key
    match result with
    | some _ => return false
    | none => do
      let _ ← HashMap.get os fuel (hashKey key) key value
      return true

/-- `sharded_hash_map::remove`. -/
def remove (fuel : ℕ) (key : Bytes) : Prog Fault ShardedHashMap Bool := do
  let s ← Prog.get
  onShard (s.shardIndex key) (HashMap.remove fuel (hashKey key) key)

/-- One turn of the loop of `keys`: the keys of one shard. -/
def scanShard (fuel steps : ℕ) (idx : ℕ) : Prog Fault ShardedHashMap (List Bytes) :=
  onShard idx do
    let it ← ConstIterator.atBegin fuel
    let entries ← ConstIterator.collect fuel steps it
    return entries.map Prod.fst

/-- The loop of `keys`, for `n` shards from number `idx` on. -/
def keysLoop (fuel steps : ℕ) : ℕ → ℕ → Prog Fault ShardedHashMap (List Bytes)
  | 0, _ => return []
  | n + 1, idx => do
    let ks ← scanShard fuel steps idx
    let rest ← keysLoop fuel steps n (idx + 1)
    return ks ++ rest

/-- `sharded_hash_map::keys`. -/
def keys (fuel steps : ℕ) : Prog Fault ShardedHashMap (List Bytes) := do
  let s ← Prog.get
  keysLoop fuel steps s.shards.length 0

end ShardedHashMap

end DiskHash
