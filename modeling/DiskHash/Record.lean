import DiskHash.Lib.Packing
import DiskHash.Container

/-!
# DiskHash.Record — the records of a bucket

A record as a value and its encoding in a bucket.  `Bucket.Holds b rs`: the used bytes of `b` are the
encodings of `rs` with nothing left over.  The byte loops of the container are specified here against the
list `rs`: what the header of a record reads as, what `scan` finds, what writing behind the records and
erasing one of them leave.
-/

namespace DiskHash

open Packing

/-- A record as a value. -/
structure Record where
  hash : Hash
  key : Bytes
  value : Bytes
  deriving DecidableEq

namespace Record

/-- The bytes `create_record` writes. -/
def encode (r : Record) : Bytes :=
  hashBytes r.hash ++ Vbe.write r.key.length ++ Vbe.write r.value.length ++ r.key ++ r.value

/-- How many bytes that are. -/
def size (r : Record) : ℕ := Container.bytesRequired r.key r.value

/-- Where the key starts in the encoding. -/
def keyOffset (r : Record) : ℕ := 4 + Vbe.length r.key.length + Vbe.length r.value.length

/-- The record of a hash and a key. -/
def Is (r : Record) (hash : Hash) (key : Bytes) : Prop := r.hash = hash ∧ r.key = key

instance (r : Record) (hash : Hash) (key : Bytes) : Decidable (r.Is hash key) := by
  unfold Is
  infer_instance

theorem length_encode (r : Record) : r.encode.length = r.size := by
  simp only [encode, List.length_append, length_hashBytes, Vbe.length_write, size,
    Container.bytesRequired]
  omega

theorem size_eq (r : Record) : r.size = r.keyOffset + r.key.length + r.value.length := by
  simp only [size, Container.bytesRequired, keyOffset]
  omega

theorem size_pos (r : Record) : 0 < r.size := by
  simp only [size, Container.bytesRequired]
  omega

theorem selfDelimiting : SelfDelimiting encode where
  ne_nil r h := by
    have := r.length_encode
    have := r.size_pos
    rw [h] at *
    simp at *
    omega
  cancel {r r' t t'} h := by
    simp only [encode, List.append_assoc] at h
    obtain ⟨hhash, h⟩ := List.append_inj h rfl
    obtain ⟨hkey, h⟩ := Vbe.write_cancel h
    obtain ⟨hvalue, h⟩ := Vbe.write_cancel h
    obtain ⟨hk, h⟩ := List.append_inj h hkey
    obtain ⟨hv, -⟩ := List.append_inj h hvalue
    have hh := congrArg hashOfBytes hhash
    rw [hashOfBytes_hashBytes, hashOfBytes_hashBytes] at hh
    cases r
    cases r'
    simp_all

theorem total_size (rs : List Record) : (packed encode rs).length = total size rs := by
  rw [length_packed]
  congr 1
  exact funext length_encode

/-- The header of an encoded record reads as the fields of the record. -/
theorem readHeader_encode {data pre rest : Bytes} {r : Record} (hd : data = pre ++ r.encode ++ rest)
    (hr : r.size < 2 ^ 31) :
    readHeader data pre.length =
      .ok ⟨r.hash, r.key.length, r.value.length, pre.length + r.keyOffset⟩ := by
  have hsize := r.size_eq
  have hhash : readBytes data pre.length 4 = .ok (hashBytes r.hash) := by
    unfold readBytes
    rw [if_pos (by rw [hd]; simp [encode]), hd]
    have h4 : 4 = (hashBytes r.hash).length := rfl
    simp only [encode, List.append_assoc, List.drop_left]
    rw [h4, List.take_left]
  have hatKey : data = (pre ++ hashBytes r.hash) ++ Vbe.write r.key.length ++
      (Vbe.write r.value.length ++ r.key ++ r.value ++ rest) := by rw [hd]; simp [encode]
  have hatValue : data = (pre ++ hashBytes r.hash ++ Vbe.write r.key.length) ++ Vbe.write r.value.length ++
      (r.key ++ r.value ++ rest) := by rw [hd]; simp [encode]
  have hkey := Vbe.read_write (w := 64) (by decide) (by omega) hatKey
  have hvalue := Vbe.read_write (w := 64) (by decide) (by omega) hatValue
  simp only [List.length_append, length_hashBytes, Vbe.length_write] at hkey hvalue
  simp only [readHeader, hhash, hkey, hvalue, bind, Except.bind, pure, Except.pure,
    hashOfBytes_hashBytes]
  simp only [keyOffset]
  congr 2
  omega

end Record

/-! ## Bytes written over bytes -/

section Patch

variable {data bs : Bytes} {ptr : ℕ}

theorem patch_append {pre mid post : Bytes} (h : mid.length = bs.length) :
    patch (pre ++ mid ++ post) pre.length bs = pre ++ bs ++ post := by
  unfold patch
  simp [← h, List.drop_append]

theorem take_patch {n : ℕ} (hn : n ≤ ptr) (hp : ptr ≤ data.length) :
    (patch data ptr bs).take n = data.take n := by
  unfold patch
  rw [List.append_assoc, List.take_append_of_le_length (by simp; omega), List.take_take,
    Nat.min_eq_left hn]

theorem drop_patch {n : ℕ} (hn : ptr + bs.length ≤ n) (hp : ptr ≤ data.length) :
    (patch data ptr bs).drop n = data.drop n := by
  unfold patch
  rw [List.drop_append, List.drop_of_length_le (by simp; omega), List.nil_append, List.drop_drop]
  congr 1
  simp
  omega

theorem patch_prefix {pre : Bytes} (h : pre <+: data) (hp : pre.length + bs.length ≤ data.length) :
    pre ++ bs <+: patch data pre.length bs := by
  obtain ⟨t, rfl⟩ := h
  unfold patch
  rw [List.take_left]
  exact List.prefix_append _ _

/-- Writing in two goes. -/
theorem patch_patch {bs' : Bytes} (hp : ptr + bs.length + bs'.length ≤ data.length) :
    patch (patch data ptr bs) (ptr + bs.length) bs' = patch data ptr (bs ++ bs') := by
  have hlen : (data.take ptr ++ bs).length = ptr + bs.length := by simp; omega
  unfold patch
  rw [← hlen, List.take_left, List.drop_append, hlen]
  simp [List.drop_drop, Nat.add_assoc]
  omega

end Patch

/-! ## Buckets that hold records -/

namespace Bucket

variable {B : ℕ} {b : Bucket B} {rs : List Record}

/-- The used bytes of the bucket are the encodings of `rs`. -/
structure Holds (b : Bucket B) (rs : List Record) : Prop where
  used : b.bytesUsed = total Record.size rs
  bytes : packed Record.encode rs <+: b.data

theorem Holds.le (h : b.Holds rs) : b.bytesUsed ≤ B := by
  rw [h.used, ← Record.total_size, ← b.length_data]
  exact h.bytes.length_le

theorem Holds.size_le (h : b.Holds rs) {r : Record} (hr : r ∈ rs) : r.size ≤ B :=
  (total_le_of_mem Record.size hr).trans (h.used ▸ h.le)

/-- A bucket holds one list of records. -/
theorem Holds.unique {rs' : List Record} (h : b.Holds rs) (h' : b.Holds rs') : rs = rs' := by
  refine packed_inj Record.selfDelimiting (List.IsPrefix.eq_of_length_le ?_ ?_)
  · refine List.prefix_of_prefix_length_le h.bytes h'.bytes ?_
    rw [Record.total_size, Record.total_size, ← h.used, ← h'.used]
  · rw [Record.total_size, Record.total_size, ← h.used, ← h'.used]

/-- The same bucket up to its link. -/
structure SameBytes (b b' : Bucket B) : Prop where
  prefixBits : b'.prefixBits = b.prefixBits
  bytesUsed : b'.bytesUsed = b.bytesUsed
  data : b'.data = b.data

theorem SameBytes.refl (b : Bucket B) : b.SameBytes b := ⟨rfl, rfl, rfl⟩

theorem SameBytes.trans {b₁ b₂ b₃ : Bucket B} (h : b₁.SameBytes b₂) (h' : b₂.SameBytes b₃) : b₁.SameBytes b₃ :=
  ⟨h'.prefixBits.trans h.prefixBits, h'.bytesUsed.trans h.bytesUsed, h'.data.trans h.data⟩

/-- Only the used bytes matter. -/
theorem Holds.of_eq {b' : Bucket B} (h : b.Holds rs) (hu : b'.bytesUsed = b.bytesUsed)
    (hd : b'.data = b.data) : b'.Holds rs := ⟨hu.trans h.used, hd ▸ h.bytes⟩

theorem Holds.congr {b' : Bucket B} (h : b.Holds rs) (hb : b.SameBytes b') : b'.Holds rs :=
  h.of_eq hb.bytesUsed hb.data

theorem holds_nil (h : b.bytesUsed = 0) : b.Holds [] := ⟨h, List.nil_prefix⟩

/-- The bytes of a bucket around one of its records. -/
theorem Holds.data_eq {pre post : List Record} {r : Record} (h : b.Holds (pre ++ r :: post)) :
    ∃ rest, b.data = packed Record.encode pre ++ r.encode ++ (packed Record.encode post ++ rest) := by
  obtain ⟨t, ht⟩ := h.bytes
  exact ⟨t, by rw [← ht]; simp⟩

/-- The header of a record that a bucket holds. -/
theorem Holds.readHeader (h : b.Holds rs) (hB : B < 2 ^ 31) {pre post : List Record} {r : Record}
    (hrs : rs = pre ++ r :: post) :
    readHeader b.data (total Record.size pre) =
      .ok ⟨r.hash, r.key.length, r.value.length, total Record.size pre + r.keyOffset⟩ := by
  subst hrs
  obtain ⟨rest, hd⟩ := h.data_eq
  have hr := h.size_le (r := r) (by simp)
  rw [← Record.total_size]
  exact Record.readHeader_encode hd (by omega)

/-- The bytes of a stretch of a bucket. -/
theorem readBytes_append {data pre bs post : Bytes} (h : data = pre ++ bs ++ post) :
    readBytes data pre.length bs.length = .ok bs := by
  unfold readBytes
  rw [if_pos (by rw [h]; simp), h]
  simp

theorem Holds.readKey (h : b.Holds rs) {pre post : List Record} {r : Record}
    (hrs : rs = pre ++ r :: post) :
    readBytes b.data (total Record.size pre + r.keyOffset) r.key.length = .ok r.key := by
  subst hrs
  obtain ⟨rest, hd⟩ := h.data_eq
  have hat : b.data = (packed Record.encode pre ++ hashBytes r.hash ++ Vbe.write r.key.length
      ++ Vbe.write r.value.length) ++ r.key ++ (r.value ++ (packed Record.encode post ++ rest)) := by
    rw [hd]
    simp [Record.encode]
  rw [← readBytes_append hat]
  congr 1
  simp [Record.total_size, Vbe.length_write, Record.keyOffset]
  omega

/-- Where the value of the record behind `pre` is. -/
def valueView (id : ℕ) (pre : List Record) (r : Record) : View :=
  ⟨id, total Record.size pre + r.keyOffset + r.key.length, r.value.length⟩

/-- Where its key is. -/
def keyView (id : ℕ) (pre : List Record) (r : Record) : View :=
  ⟨id, total Record.size pre + r.keyOffset, r.key.length⟩

theorem Holds.key_eq (h : b.Holds rs) {pre post : List Record} {r : Record}
    (hrs : rs = pre ++ r :: post) :
    (b.data.drop (total Record.size pre + r.keyOffset)).take r.key.length = r.key := by
  have := h.readKey hrs
  unfold readBytes at this
  split at this
  · exact Except.ok.inj this
  · cases this

theorem Holds.value_eq (h : b.Holds rs) {pre post : List Record} {r : Record}
    (hrs : rs = pre ++ r :: post) :
    (b.data.drop (total Record.size pre + r.keyOffset + r.key.length)).take r.value.length
      = r.value := by
  subst hrs
  obtain ⟨rest, hd⟩ := h.data_eq
  have hlen : total Record.size pre + r.keyOffset + r.key.length =
      (packed Record.encode pre ++ hashBytes r.hash ++ Vbe.write r.key.length
        ++ Vbe.write r.value.length ++ r.key).length := by
    simp [Record.total_size, Vbe.length_write, Record.keyOffset]
    omega
  have hd' : b.data = (packed Record.encode pre ++ hashBytes r.hash ++ Vbe.write r.key.length
        ++ Vbe.write r.value.length ++ r.key) ++ (r.value ++ (packed Record.encode post ++ rest)) := by
    rw [hd]; simp [Record.encode]
  rw [hlen, hd', List.drop_left, List.take_left]

/-! ### Writing -/

/-- `b'` is `b` with `bs` written at `ptr`. -/
structure Written (b : Bucket B) (ptr : ℕ) (bs : Bytes) (b' : Bucket B) : Prop where
  data : b'.data = patch b.data ptr bs
  prefixBits : b'.prefixBits = b.prefixBits
  bytesUsed : b'.bytesUsed = b.bytesUsed
  nextBucketId : b'.nextBucketId = b.nextBucketId

theorem put_ok (ptr : ℕ) (bs : Bytes) (h : ptr + bs.length ≤ B) :
    ∃ b' : Bucket B, b.put ptr bs = .ok (b', ptr + bs.length) ∧ b.Written ptr bs b' :=
  ⟨_, dif_pos h, rfl, rfl, rfl, rfl⟩

/-- Writing goes on where it stopped. -/
theorem Written.put {ptr : ℕ} {bs : Bytes} {b₁ : Bucket B} (h : b.Written ptr bs b₁) (bs' : Bytes)
    (hle : ptr + (bs ++ bs').length ≤ B) :
    ∃ b₂ : Bucket B, b₁.put (ptr + bs.length) bs' = .ok (b₂, ptr + (bs ++ bs').length) ∧
      b.Written ptr (bs ++ bs') b₂ := by
  rw [List.length_append, ← Nat.add_assoc] at hle
  obtain ⟨b₂, hb₂, hw⟩ := put_ok (b := b₁) _ _ hle
  rw [List.length_append, ← Nat.add_assoc]
  refine ⟨b₂, hb₂, ?_, hw.prefixBits.trans h.prefixBits, hw.bytesUsed.trans h.bytesUsed,
    hw.nextBucketId.trans h.nextBucketId⟩
  rw [hw.data, h.data, patch_patch (by rw [b.length_data]; exact hle)]

/-- The encoding of a record written behind the records of a bucket. -/
theorem Holds.concat (h : b.Holds rs) {r : Record} {b' : Bucket B}
    (hd : b'.data = patch b.data (total Record.size rs) r.encode)
    (hu : b'.bytesUsed = b.bytesUsed + r.size) (hr : total Record.size rs + r.size ≤ B) :
    b'.Holds (rs ++ [r]) := by
  refine ⟨by rw [hu, h.used]; simp, ?_⟩
  rw [hd, ← Record.total_size, packed_append, packed_cons, packed_nil, List.append_nil]
  refine patch_prefix h.bytes ?_
  rw [Record.total_size, Record.length_encode, b.length_data]
  exact hr

/-- The bytes behind a record moved down over it. -/
theorem Holds.erase {pre post : List Record} {r : Record} (h : b.Holds (pre ++ r :: post))
    {b' : Bucket B} (hd : b'.data = patch b.data (total Record.size pre) (packed Record.encode post))
    (hu : b'.bytesUsed = b.bytesUsed - r.size) : b'.Holds (pre ++ post) := by
  refine ⟨by rw [hu, h.used]; simp; omega, ?_⟩
  have hle := h.bytes.length_le
  obtain ⟨t, ht⟩ := h.bytes
  rw [hd, ← Record.total_size, packed_append]
  refine patch_prefix ⟨r.encode ++ packed Record.encode post ++ t, by rw [← ht]; simp⟩ ?_
  simp at hle ⊢
  omega

/-- The value of a record ends within the bucket. -/
theorem Holds.value_le {pre post : List Record} {r : Record} (h : b.Holds (pre ++ r :: post)) (id : ℕ) :
    (valueView id pre r).offset + r.value.length ≤ B := by
  have hle := h.le
  rw [h.used, total_append, total_cons, r.size_eq] at hle
  simp only [valueView]
  omega

/-- A value of the same length written over the value of a record. -/
theorem Holds.assign {pre post : List Record} {r : Record} {value : Bytes} {id : ℕ} (h : b.Holds (pre ++ r :: post))
    (hlen : value.length = r.value.length) {b' : Bucket B} (hw : b.Written (valueView id pre r).offset value b') :
    b'.Holds (pre ++ { r with value := value } :: post) := by
  have hsize : Record.size { r with value := value } = r.size := by
    simp only [Record.size, Container.bytesRequired, hlen]
  refine ⟨by rw [hw.bytesUsed, h.used]; simp [hsize], ?_⟩
  obtain ⟨rest, hd⟩ := h.data_eq
  have hoffset : (valueView id pre r).offset = (packed Record.encode pre ++ (hashBytes r.hash ++
      Vbe.write r.key.length ++ Vbe.write r.value.length ++ r.key)).length := by
    simp [valueView, Record.total_size, Vbe.length_write, Record.keyOffset]
    omega
  have hd' : b.data = (packed Record.encode pre ++ (hashBytes r.hash ++ Vbe.write r.key.length ++
      Vbe.write r.value.length ++ r.key)) ++ r.value ++ (packed Record.encode post ++ rest) := by
    rw [hd]
    simp [Record.encode]
  refine ⟨rest, ?_⟩
  rw [hw.data, hoffset, hd', patch_append hlen.symm]
  simp [Record.encode, hlen]

end Bucket

/-! ## Looking for a record -/

/-- `r` is the first record of `rs` with this hash and key, and the records before it are `pre`. -/
structure FirstAt (rs : List Record) (hash : Hash) (key : Bytes) (pre : List Record) (r : Record)
    (post : List Record) : Prop where
  split : rs = pre ++ r :: post
  is : r.Is hash key
  before : ∀ x ∈ pre, ¬ x.Is hash key

theorem FirstAt.unique {rs pre pre' post post' : List Record} {r r' : Record} {hash : Hash} {key : Bytes}
    (h : FirstAt rs hash key pre r post) (h' : FirstAt rs hash key pre' r' post') :
    pre' = pre ∧ r' = r ∧ post' = post := by
  rcases append_eq_append_cases (h.split.symm.trans h'.split) with ⟨t, hp, ht⟩ | ⟨t, hp, ht⟩
  · cases t with
    | nil =>
      obtain ⟨rfl, rfl⟩ := List.cons.inj ht
      exact ⟨by simpa using hp, rfl, rfl⟩
    | cons x t =>
      obtain ⟨rfl, -⟩ := List.cons.inj ht
      exact absurd h.is (h'.before r (by simp [hp]))
  · cases t with
    | nil =>
      obtain ⟨rfl, rfl⟩ := List.cons.inj ht
      exact ⟨by simpa using hp.symm, rfl, rfl⟩
    | cons x t =>
      obtain ⟨rfl, -⟩ := List.cons.inj ht
      exact absurd h'.is (h.before r' (by simp [hp]))

namespace Container

variable {B : ℕ} {b : Bucket B} {rs : List Record}

theorem sameKey_header (h : b.Holds rs) {pre post : List Record} {r : Record}
    (hrs : rs = pre ++ r :: post) (hash : Hash) (key : Bytes) :
    sameKey b.data ⟨r.hash, r.key.length, r.value.length, total Record.size pre + r.keyOffset⟩ hash key =
      .ok (decide (r.Is hash key)) := by
  unfold sameKey
  by_cases hc : r.hash = hash ∧ key.length = r.key.length
  · rw [if_pos hc, h.readKey hrs]
    show Except.ok _ = _
    congr 2
    simp [Record.Is, hc.1]
  · rw [if_neg hc]
    have : ¬ r.Is hash key := fun hi => hc ⟨hi.1, by rw [hi.2]⟩
    rw [decide_eq_false this]
    rfl

/-- What `scan` finds from the boundary behind `pre` on. -/
theorem scan_spec (h : b.Holds rs) (hB : B < 2 ^ 31) (hash : Hash) (key : Bytes) :
    ∀ (todo pre : List Record) (fuel : ℕ), rs = pre ++ todo → todo.length < fuel →
      (∀ x ∈ pre, ¬ x.Is hash key) →
      (∃ before r post, FirstAt rs hash key before r post ∧
        scan b.data b.bytesUsed hash key fuel (total Record.size pre) =
          .ok (some (total Record.size before,
            ⟨r.hash, r.key.length, r.value.length, total Record.size before + r.keyOffset⟩))) ∨
      ((∀ x ∈ rs, ¬ x.Is hash key) ∧
        scan b.data b.bytesUsed hash key fuel (total Record.size pre) = .ok none)
  | _, _, 0, _, hf, _ => by omega
  | [], pre, fuel + 1, hrs, _, hpre => by
    right
    rw [List.append_nil] at hrs
    subst hrs
    refine ⟨hpre, ?_⟩
    rw [scan, if_pos h.used.symm]
  | r :: todo, pre, fuel + 1, hrs, hf, hpre => by
    have hlt : total Record.size pre ≠ b.bytesUsed := by
      have := r.size_pos
      rw [h.used, hrs]
      simp
      omega
    have hnext : total Record.size pre + r.keyOffset + r.key.length + r.value.length
        = total Record.size (pre ++ [r]) := by
      have := r.size_eq
      simp
      omega
    have hle : total Record.size (pre ++ [r]) ≤ b.bytesUsed := by
      rw [h.used, hrs]
      simp
    have hkey := sameKey_header h hrs hash key
    by_cases hi : r.Is hash key
    · left
      refine ⟨pre, r, todo, ⟨hrs, hi, hpre⟩, ?_⟩
      rw [scan, if_neg hlt, h.readHeader hB hrs]
      simp only [bind, Except.bind, hkey, decide_eq_true hi]
      rfl
    · have hscan : scan b.data b.bytesUsed hash key (fuel + 1) (total Record.size pre) =
          scan b.data b.bytesUsed hash key fuel (total Record.size (pre ++ [r])) := by
        rw [scan, if_neg hlt, h.readHeader hB hrs]
        simp only [bind, Except.bind, hkey, decide_eq_false hi, Bool.false_eq_true, if_false]
        rw [hnext, if_pos hle]
      rw [hscan]
      refine scan_spec h hB hash key todo (pre ++ [r]) fuel (by rw [hrs]; simp)
        (by simpa using hf) (fun x hx => ?_)
      rcases List.mem_append.mp hx with hx | hx
      · exact hpre x hx
      · rw [List.mem_singleton] at hx
        exact hx ▸ hi

/-- `scan` over a whole bucket finds the first record with the hash and the key. -/
theorem scan_all (h : b.Holds rs) (hB : B < 2 ^ 31) (hash : Hash) (key : Bytes) :
    (∃ before r post, FirstAt rs hash key before r post ∧
        scan b.data b.bytesUsed hash key (B + 1) 0 =
          .ok (some (total Record.size before,
            ⟨r.hash, r.key.length, r.value.length, total Record.size before + r.keyOffset⟩))) ∨
      ((∀ x ∈ rs, ¬ x.Is hash key) ∧ scan b.data b.bytesUsed hash key (B + 1) 0 = .ok none) := by
  have hlen : rs.length ≤ B :=
    (length_le_total Record.size (fun r _ => r.size_pos)).trans (h.used ▸ h.le)
  exact scan_spec h hB hash key rs [] (B + 1) rfl (by omega) (by simp)

end Container

end DiskHash
