import DiskHash.Session

/-!
# DiskHash.Wrapped — maps with values of a fixed size (`wrapped_hash_map.h`)

A trivial value type is known by its size and by the bytes of `value_type()`.  `operator[]` returns a reference
into a bucket, and an assignment through it writes as many bytes as a value has, whatever the record says.
-/

namespace DiskHash

open Packing

/-- An object of a value type whose `sizeof` is `w`. -/
def Value (w : ℕ) : Type := { bs : Bytes // bs.length = w }

namespace WrappedHashMap

variable {B w : ℕ} (hashFunction : Bytes → Hash) (default : Value w)

/-- `wrapped_hash_map::operator[]`: where the reference points to, and how many bytes are behind it. -/
def index (os : Os) (fuel : ℕ) (key : Bytes) : Prog Fault (HashMap B) View := do
  let hash := hashFunction key
  let result ← HashMap.get os fuel hash key default.val
  return { result with length := w }

/-- `wrapped_hash_map::remove`. -/
def remove (fuel : ℕ) (key : Bytes) : Prog Fault (HashMap B) Bool := do
  let hash := hashFunction key
  HashMap.remove fuel hash key

/-- An assignment through a reference. -/
def store (ref : View) (value : Value w) : Prog Fault (HashMap B) Unit :=
  HashMap.onDat do
    let p ← Container.bucketPtr ref.bucketId
    let bucket ← Container.load p
    let r ← Prog.lift (bucket.put ref.offset value.val)
    Container.store p r.1

/-- The value behind a reference. -/
def fetch (ref : View) : Prog Fault (HashMap B) Bytes :=
  HashMap.onDat do
    let bucket ← Container.bucketAt ref.bucketId
    Prog.lift (readBytes bucket.data ref.offset ref.length)

/-- The expressions a session with the map is made of: `m[key] = value`, `m[key]` and `m.remove(key)`. -/
inductive Call (w : ℕ)
  | assign (key : Bytes) (value : Value w)
  | read (key : Bytes)
  | remove (key : Bytes)

inductive Answer
  | assigned
  | value (bs : Bytes)
  | removed (b : Bool)
  deriving DecidableEq

def Call.run (os : Os) (fuel : ℕ) : Call w → Prog Fault (HashMap B) Answer
  | assign key value => do
    let ref ← index hashFunction default os fuel key
    store ref value
    return .assigned
  | read key => do
    let ref ← index hashFunction default os fuel key
    let bs ← fetch ref
    return .value bs
  | remove key => do
    let b ← WrappedHashMap.remove hashFunction fuel key
    return .removed b

/-- The expression was evaluated, whatever the system answered. -/
def Step (m : HashMap B) (call : Call w) (answer : Answer) (m' : HashMap B) : Prop :=
  ∃ os fuel, call.run hashFunction default os fuel m = .ok answer m'

/-- What the expressions do to a `std::map`. -/
def defaulting (D : Dict Bytes Bytes) : Call w → Answer × Dict Bytes Bytes
  | .assign key value => (.assigned, D.insert key value.val)
  | .read key => (.value (D.getOrInsert key default.val).1, (D.getOrInsert key default.val).2)
  | .remove key => (.removed (D key).isSome, D.erase key)

end WrappedHashMap

/-! ## Values of one size -/

/-- All values have the size. -/
def Sized (w : ℕ) (D : Dict Bytes Bytes) : Prop := ∀ key bs, D key = some bs → bs.length = w

namespace Sized

variable {w : ℕ} {D : Dict Bytes Bytes} {key bs : Bytes}

theorem empty : Sized w Dict.empty := fun _ _ h => by cases h

theorem insert (h : Sized w D) (hbs : bs.length = w) : Sized w (D.insert key bs) := by
  intro k v hv
  by_cases hk : k = key
  · subst hk
    rw [Dict.insert_self, Option.some.injEq] at hv
    exact hv ▸ hbs
  · rw [Dict.insert_of_ne _ hk] at hv
    exact h k v hv

theorem erase (h : Sized w D) : Sized w (D.erase key) := by
  intro k v hv
  by_cases hk : k = key
  · subst hk
    rw [Dict.erase_self] at hv
    cases hv
  · rw [Dict.erase_of_ne _ hk] at hv
    exact h k v hv

theorem getOrInsert (h : Sized w D) (hbs : bs.length = w) : Sized w (D.getOrInsert key bs).2 := by
  cases hk : D key with
  | some v => rwa [Dict.getOrInsert_some hk]
  | none =>
    rw [Dict.getOrInsert_none hk]
    exact h.insert hbs

end Sized

/-! ## An assignment through a reference -/

namespace HashMap

variable {B : ℕ} {m m' : HashMap B} {S : Shape} {D : Contents} {i : ℕ} {pre post : List Record} {r : Record}

/-- `bs` was written over the value of the record `(hash, key)`, which is what the reference shows, and every
other byte of the files is as it was. -/
structure Assigned (m : HashMap B) (hash : Hash) (key : Bytes) (ref : View) (bs : Bytes) (m' : HashMap B) : Prop where
  frame : m' = { m with
    container := m.container.setBucket ref.bucketId (m'.container.layout.buckets ref.bucketId) }
  prefixBits : (m'.container.layout.buckets ref.bucketId).prefixBits =
    (m.container.layout.buckets ref.bucketId).prefixBits
  bytesUsed : (m'.container.layout.buckets ref.bucketId).bytesUsed =
    (m.container.layout.buckets ref.bucketId).bytesUsed
  nextBucketId : (m'.container.layout.buckets ref.bucketId).nextBucketId =
    (m.container.layout.buckets ref.bucketId).nextBucketId
  before : (m'.container.layout.buckets ref.bucketId).data.take ref.offset =
    (m.container.layout.buckets ref.bucketId).data.take ref.offset
  after : (m'.container.layout.buckets ref.bucketId).data.drop (ref.offset + ref.length) =
    (m.container.layout.buckets ref.bucketId).data.drop (ref.offset + ref.length)
  shown : m'.container.view ref = bs
  record : ∃ pre r post, (m.container.layout.buckets ref.bucketId).Holds (pre ++ r :: post) ∧
    r.Is hash key ∧ ref = Bucket.valueView ref.bucketId pre r ∧
    (m'.container.layout.buckets ref.bucketId).Holds (pre ++ { r with value := bs } :: post)

/-- The invariant after the value of a record was replaced by one of the same length. -/
theorem Inv.assign (h : m.Inv S) (hD : Lists S D) (hmem : ∃ L ∈ S.chains, i ∈ L)
    (hrec : S.recs i = pre ++ r :: post) {value : Bytes} (hlen : value.length = r.value.length) {b : Bucket B}
    (hw : (m.container.layout.buckets i).Written (Bucket.valueView i pre r).offset value b) :
    ({ m with container := m.container.setBucket i b } : HashMap B).Represents (D.insert (r.hash, r.key) value) := by
  obtain ⟨L, hL, hi⟩ := hmem
  have hholds := h.rep.holds_of_mem hL hi
  rw [hrec] at hholds
  have hnodup := (List.nodup_append.mp h.rep.owned.nodup).1
  obtain ⟨others, hold, hnew⟩ := Shape.records_set hnodup hL hi hrec { r with value := value }
  have hkeys := (hold.map fun r => (r.hash, r.key)).nodup_iff.mp h.keys
  refine ⟨_, h.setBucket hL hi (hholds.assign hlen hw) hw.nextBucketId hw.prefixBits (fun x hx => ?_)
    ((hnew.map fun r => (r.hash, r.key)).nodup_iff.mpr hkeys), ?_⟩
  · have hmem : ∀ y ∈ pre ++ post, y ∈ S.recs i := fun y hy => by
      rw [hrec]
      simp only [List.mem_append, List.mem_cons] at hy ⊢
      tauto
    rcases List.mem_append.mp hx with hx | hx
    · exact Or.inl (hmem x (List.mem_append_left _ hx))
    · rcases List.mem_cons.mp hx with rfl | hx
      · -- the record has the hash it had
        obtain ⟨c, p, q, hc⟩ := h.cells L hL
        right
        rw [hc.head, (hc.cell r.hash).mpr (hc.hashes i hi r (by rw [hrec]; simp))]
      · exact Or.inl (hmem x (List.mem_append_right _ hx))
  · have hset : Dict.Lists (fun r : Record => (r.hash, r.key)) Record.value ({ r with value := value } :: others)
        (D.insert (r.hash, r.key) value) := (Dict.Lists.perm hD hold).set rfl
    exact hset.perm hnew.symm

/-- What a value of the same length written over the value of a record leaves. -/
theorem Assigned.of_written (h : (m.container.layout.buckets i).Holds (pre ++ r :: post)) {value : Bytes}
    (hlen : value.length = r.value.length) {b : Bucket B}
    (hw : (m.container.layout.buckets i).Written (Bucket.valueView i pre r).offset value b) :
    m.Assigned r.hash r.key (Bucket.valueView i pre r) value
      { m with container := m.container.setBucket i b } := by
  have hle := h.value_le i
  have hin : (Bucket.valueView i pre r).offset ≤ (m.container.layout.buckets i).data.length := by
    rw [(m.container.layout.buckets i).length_data]
    omega
  have hb : ({ m with container := m.container.setBucket i b } : HashMap B).container.layout.buckets
      (Bucket.valueView i pre r).bucketId = b := Container.setBucket_self b
  have hnew := h.assign hlen hw
  -- the view does not depend on the bytes of the value
  have hview : Bucket.valueView i pre r = Bucket.valueView i pre { r with value := value } := by
    simp only [Bucket.valueView, Record.keyOffset, hlen]
  refine ⟨by rw [hb]; rfl, by rw [hb, hw.prefixBits]; rfl, by rw [hb, hw.bytesUsed]; rfl,
    by rw [hb, hw.nextBucketId]; rfl, ?_, ?_, ?_, pre, r, post, h, ⟨rfl, rfl⟩, rfl, by rw [hb]; exact hnew⟩
  · rw [hb, hw.data]
    exact take_patch le_rfl hin
  · rw [hb, hw.data]
    exact drop_patch (Nat.add_le_add_left hlen.le _) hin
  · rw [hview]
    exact Container.view_value (c := m.container.setBucket i b) (by rwa [Container.setBucket_self])

end HashMap

namespace WrappedHashMap

variable {B w : ℕ} {hashFunction : Bytes → Hash} {default : Value w} {m m' : HashMap B} {S : Shape}
  {D : Dict Bytes Bytes} {C : Contents} {i : ℕ} {pre post : List Record} {r : Record} {key : Bytes} {ref : View}

/-- An assignment through a reference to the value of a record. -/
theorem store_runs (h : m.Inv S) (hC : HashMap.Lists S C) (hmem : ∃ L ∈ S.chains, i ∈ L)
    (hrec : S.recs i = pre ++ r :: post) (hr : r.value.length = w) (value : Value w) :
    Prog.Runs (store (Bucket.valueView i pre r) value) m
      (fun _ m' => m.Assigned r.hash r.key (Bucket.valueView i pre r) value.val m' ∧
        m'.Represents (C.insert (r.hash, r.key) value.val)) (fun _ _ => False) := by
  have hlen : value.val.length = r.value.length := value.property.trans hr.symm
  obtain ⟨L, hL, hi⟩ := hmem
  have hmapped := h.rep.mapped hL hi
  have hholds := h.rep.holds_of_mem hL hi
  rw [hrec] at hholds
  have hle := hholds.value_le i
  rw [← hlen] at hle
  obtain ⟨b, hput, hw⟩ := Bucket.put_ok (b := m.container.layout.buckets i) _ _ hle
  unfold store
  rw [HashMap.runs_onDat]
  simp only [Prog.runs_bind, Container.runs_bucketPtr]
  rw [Container.runs_load rfl hmapped]
  dsimp only [Bucket.valueView] at hput ⊢
  rw [hput, Prog.runs_lift_ok, Container.runs_store rfl hmapped]
  exact ⟨.of_written hholds hlen hw, h.assign hC ⟨L, hL, hi⟩ hrec hlen hw⟩

/-- What is read through such a reference. -/
theorem fetch_runs (h : m.Inv S) (hmem : ∃ L ∈ S.chains, i ∈ L) (hrec : S.recs i = pre ++ r :: post) :
    Prog.Runs (fetch (Bucket.valueView i pre r)) m (fun bs m' => m' = m ∧ bs = r.value) (fun _ _ => False) := by
  obtain ⟨L, hL, hi⟩ := hmem
  have hholds := h.rep.holds_of_mem hL hi
  rw [hrec] at hholds
  have hle := hholds.value_le i
  have hread : readBytes (m.container.layout.buckets i).data (Bucket.valueView i pre r).offset
      (Bucket.valueView i pre r).length = .ok r.value := by
    unfold readBytes
    rw [if_pos (by rw [(m.container.layout.buckets i).length_data]; exact hle)]
    exact congrArg Except.ok (hholds.value_eq rfl)
  unfold fetch
  dsimp only [Bucket.valueView] at hread ⊢
  rw [HashMap.runs_onDat, Prog.runs_bind, Container.runs_bucketAt (h.rep.mapped hL hi), hread]
  exact ⟨rfl, rfl⟩

/-! ## Sessions -/

/-- What the map stores for a dictionary: each key under its hash. -/
def contents (hashFunction : Bytes → Hash) (D : Dict Bytes Bytes) : Contents := D.tagged hashFunction fun _ => True

theorem contents_hash : contents hashFunction D (hashFunction key, key) = D key := Dict.tagged_tag trivial

theorem contents_insert (bs : Bytes) : (contents hashFunction D).insert (hashFunction key, key) bs =
    contents hashFunction (D.insert key bs) := Dict.tagged_insert (P := fun _ => True) trivial bs

theorem contents_erase : (contents hashFunction D).erase (hashFunction key, key) =
    contents hashFunction (D.erase key) := Dict.tagged_erase (P := fun _ => True) trivial

theorem contents_getOrInsert (bs : Bytes) : (contents hashFunction D).getOrInsert (hashFunction key, key) bs =
    ((D.getOrInsert key bs).1, contents hashFunction (D.getOrInsert key bs).2) :=
  Dict.tagged_getOrInsert (P := fun _ => True) trivial bs

/-- The map stands for the dictionary, whose values have the size of the type. -/
structure Represents (hashFunction : Bytes → Hash) (w : ℕ) (m : HashMap B) (D : Dict Bytes Bytes) : Prop where
  map : m.Represents (contents hashFunction D)
  size : Sized w D

/-- Where a reference points to: the value of the record of the key, in a map that stands for the dictionary. -/
def Refers (hashFunction : Bytes → Hash) (m : HashMap B) (D : Dict Bytes Bytes) (key : Bytes) (ref : View) : Prop :=
  ∃ S i pre r post, m.Inv S ∧ HashMap.Lists S (contents hashFunction D) ∧
    (∃ L ∈ S.chains, i ∈ L) ∧ S.recs i = pre ++ r :: post ∧ r.Is (hashFunction key) key ∧
    D key = some r.value ∧ ref = Bucket.valueView i pre r

/-- How `operator[]` ends without a reference. -/
def Fails (os : Os) (default : Value w) (m : HashMap B) (fuel n : ℕ) (key : Bytes) (e : Fault) : Prop :=
  HashMap.GetFails os m fuel n e ∨ B < Container.bytesRequired key default.val

theorem index_runs (hB : B < 2 ^ 31) (default : Value w) (h : Represents hashFunction w m D) : ∃ n, ∀ os fuel key,
    Prog.Runs (index hashFunction default os fuel key) m
      (fun ref m' => Refers hashFunction m' (D.getOrInsert key default.val).2 key ref)
      (fun e _ => Fails os default m fuel n key e) := by
  obtain ⟨S, hS, hC⟩ := h.map
  refine ⟨m.container.layout.bucketsCount + S.records.length + 1, fun os fuel key => ?_⟩
  unfold index
  rw [Prog.runs_bind]
  refine (HashMap.get_located hB os hS hC fuel (hashFunction key) key default.val).mono ?_
    (fun _ _ he => he.imp_right And.left)
  rintro v m' ⟨S', i, pre, r, post, hS', hC', ⟨L, hL, hi⟩, hrec, his, rfl⟩
  rw [contents_getOrInsert] at hC'
  have hsome := contents_hash.symm.trans
    (hC'.some_of_mem (Shape.mem_records.mpr ⟨L, hL, i, hi, hrec ▸ by simp⟩) his)
  have hw : r.value.length = w := h.size.getOrInsert default.property _ _ hsome
  refine ⟨S', i, pre, r, post, hS', hC', ⟨L, hL, hi⟩, hrec, his, hsome, ?_⟩
  rw [← hw]
  rfl

/-- Assigning the default value first changes nothing. -/
theorem insert_getOrInsert (bs bs' : Bytes) : ((D.getOrInsert key bs).2).insert key bs' = D.insert key bs' := by
  cases hk : D key with
  | some v => rw [Dict.getOrInsert_some hk]
  | none =>
    rw [Dict.getOrInsert_none hk]
    exact Function.update_idem ..

/-- What an assignment through the reference does. -/
theorem Refers.store (h : Refers hashFunction m D key ref) (hs : Sized w D) (value : Value w) :
    Prog.Runs (store ref value) m
      (fun _ m' => m.Assigned (hashFunction key) key ref value.val m' ∧
        Represents hashFunction w m' (D.insert key value.val)) (fun _ _ => False) := by
  obtain ⟨S, i, pre, r, post, hS, hC, hmem, hrec, ⟨hhash, hkey⟩, hsome, rfl⟩ := h
  refine (store_runs hS hC hmem hrec (hs _ _ hsome) value).mono (fun _ m' hm' => ?_) (fun _ _ he => he)
  rw [hhash, hkey, contents_insert] at hm'
  exact ⟨hm'.1, hm'.2, hs.insert value.property⟩

theorem Refers.represents (h : Refers hashFunction m D key ref) (hs : Sized w D) : Represents hashFunction w m D := by
  obtain ⟨S, i, pre, r, post, hS, hC, -⟩ := h
  exact ⟨⟨S, hS, hC⟩, hs⟩

theorem Refers.fetch (h : Refers hashFunction m D key ref) :
    Prog.Runs (fetch ref) m (fun bs m' => m' = m ∧ D key = some bs) (fun _ _ => False) := by
  obtain ⟨S, i, pre, r, post, hS, hC, hmem, hrec, -, hsome, rfl⟩ := h
  refine (fetch_runs hS hmem hrec).mono ?_ (fun _ _ he => he)
  rintro bs m' ⟨rfl, rfl⟩
  exact ⟨rfl, hsome⟩

/-- The expression can be evaluated: the record of the key fits a bucket, and there are not more buckets than
hashes. -/
def Admissible (default : Value w) (m : HashMap B) : Call w → Prop
  | .remove _ => True
  | .assign key _ | .read key =>
    Container.bytesRequired key default.val ≤ B ∧ m.container.layout.bucketsCount ≤ 2 ^ 32

theorem Fails.starved {os : Os} {fuel n : ℕ} {e : Fault} (h : Fails os default m fuel n key e) (hos : os.Grants)
    (hfit : Container.bytesRequired key default.val ≤ B) (hcount : m.container.layout.bucketsCount ≤ 2 ^ 32) :
    Container.Starved fuel n e := by
  rcases h with h | h
  · cases h with
    | starved hs => exact hs
    | refused _ hn => exact absurd hos hn
    | overgrown _ hlt => omega
  · omega

/-- An expression gives the answer of the dictionary; an admissible one can only fail by running out of fuel. -/
theorem call_runs (hB : B < 2 ^ 31) (default : Value w) (h : Represents hashFunction w m D) (call : Call w) :
    ∃ n, ∀ os fuel, Prog.Runs (call.run hashFunction default os fuel) m
      (fun a m' => a = (defaulting default D call).1 ∧ Represents hashFunction w m' (defaulting default D call).2)
      (fun e _ => os.Grants → Admissible default m call → Container.Starved fuel n e) := by
  obtain ⟨n, hindex⟩ := index_runs hB default h
  have hsized : ∀ key, Sized w (D.getOrInsert key default.val).2 := fun key => h.size.getOrInsert default.property
  cases call with
  | assign key value =>
    refine ⟨n, fun os fuel => ?_⟩
    unfold Call.run
    rw [Prog.runs_bind]
    refine (hindex os fuel key).mono (fun ref m₁ hr => ?_) (fun e _ he hos ha => he.starved hos ha.1 ha.2)
    rw [Prog.runs_bind]
    refine (hr.store (hsized key) value).mono ?_ (fun _ _ he => he.elim)
    rintro _ m' ⟨-, hrep⟩
    rw [insert_getOrInsert] at hrep
    exact ⟨rfl, hrep⟩
  | read key =>
    refine ⟨n, fun os fuel => ?_⟩
    unfold Call.run
    rw [Prog.runs_bind]
    refine (hindex os fuel key).mono (fun ref m₁ hr => ?_) (fun e _ he hos ha => he.starved hos ha.1 ha.2)
    rw [Prog.runs_bind]
    refine hr.fetch.mono ?_ (fun _ _ he => he.elim)
    rintro bs m' ⟨rfl, hbs⟩
    rw [Dict.getOrInsert_self, Option.some.injEq] at hbs
    exact ⟨congrArg Answer.value hbs.symm, hr.represents (hsized key)⟩
  | remove key =>
    obtain ⟨S, hS, hC⟩ := h.map
    refine ⟨m.container.layout.bucketsCount, fun os fuel => ?_⟩
    unfold Call.run WrappedHashMap.remove
    rw [Prog.runs_bind]
    refine (HashMap.remove_step hB hS hC fuel (hashFunction key) key).mono ?_ (fun _ _ he _ _ => he)
    rintro b m' ⟨rfl, hrep⟩
    rw [contents_erase] at hrep
    exact ⟨congrArg (fun o : Option Bytes => Answer.removed o.isSome) contents_hash, hrep, h.size.erase⟩

theorem step_refines (hB : B < 2 ^ 31) (h : Represents hashFunction w m D) {call : Call w} {answer : Answer}
    (hs : Step hashFunction default m call answer m') :
    answer = (defaulting default D call).1 ∧ Represents hashFunction w m' (defaulting default D call).2 := by
  obtain ⟨os, fuel, hrun⟩ := hs
  obtain ⟨n, hn⟩ := call_runs hB default h call
  exact (hn os fuel).of_ok hrun

/-- Every admissible expression can be evaluated, given enough fuel. -/
theorem call_returns (hB : B < 2 ^ 31) (default : Value w) (h : Represents hashFunction w m D) {os : Os}
    (hos : os.Grants) (call : Call w) (hcall : Admissible default m call) :
    ∃ n, ∀ fuel, n ≤ fuel → ∃ answer m', call.run hashFunction default os fuel m = .ok answer m' := by
  obtain ⟨n, hn⟩ := call_runs hB default h call
  refine ⟨n + 1, fun fuel hf => ?_⟩
  obtain ⟨a, m', hrun, -⟩ := (hn os fuel).returns (fun e _ he => by
    have := (he hos hcall).2
    omega)
  exact ⟨a, m', hrun⟩

theorem new_represents {os : Os} (h : HashMap.new os false (Files.empty B) = .ok m) :
    Represents hashFunction w m Dict.empty := by
  refine ⟨?_, .empty⟩
  rw [contents, Dict.tagged_empty]
  exact HashMap.new_represents h

end WrappedHashMap

end DiskHash
