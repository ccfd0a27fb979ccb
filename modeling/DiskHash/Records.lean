import DiskHash.Shape

/-!
# DiskHash.Records — the operations on the records of a chain

`c.Rep S`: the container `c` holds what the shape `S` says, its chains, its free list and the records of
each bucket.  `find_record`, `remove_record` and `create_record` are specified against `S`; each of them
looks at one chain only.
-/

namespace DiskHash

open Packing

/-- What a container holds. -/
structure Shape where
  chains : List (List ℕ)
  free : List ℕ
  recs : ℕ → List Record

/-- The shape after an empty bucket is chained behind the first chain `L`. -/
def Shape.extend (S : Shape) (L : List ℕ) (rest : List (List ℕ)) (id : ℕ) : Shape :=
  ⟨(L ++ [id]) :: rest, S.free.tail, Function.update S.recs id []⟩

/-- The buckets that `create_bucket` takes when it is called again and again: those of the free list, then new
ones. -/
def Shape.supply (S : Shape) (count k : ℕ) : ℕ := S.free[k]?.getD (count + (k - S.free.length))

/-- The next bucket that is taken, when `k` have been, is the supplied one. -/
theorem Shape.supply_next {S : Shape} {free : List ℕ} {k count₀ count count' id : ℕ} (hfree : free = S.free.drop k)
    (hcount : count = count₀ + (k - S.free.length))
    (h : (free = [] ∧ id = count ∧ count' = count + 1) ∨ (free ≠ [] ∧ free.head? = some id ∧ count' = count)) :
    id = S.supply count₀ k ∧ count' = count₀ + (k + 1 - S.free.length) := by
  unfold Shape.supply
  subst hfree
  rcases h with ⟨hnil, hid, hcnt⟩ | ⟨hne, hid, hcnt⟩
  · have hle := List.drop_eq_nil_iff.mp hnil
    rw [List.getElem?_eq_none hle]
    exact ⟨hid.trans hcount, by omega⟩
  · have hlt : k < S.free.length := by
      by_contra hge
      exact hne (List.drop_eq_nil_iff.mpr (Nat.le_of_not_lt hge))
    rw [List.head?_drop] at hid
    rw [hid]
    exact ⟨rfl, by omega⟩

section Write

variable (S : Shape) (B count n : ℕ) (L : List ℕ)

/-- The first bucket of a chain with room for `n` bytes. -/
def Shape.room : Option ℕ := L.find? fun i => decide (total Record.size (S.recs i) + n ≤ B)

/-- The bucket that `create_record` writes a record of `n` bytes to. -/
def Shape.target : ℕ := (S.room B n L).getD (S.supply count 0)

/-- The records that are in that bucket before. -/
def Shape.held : List Record := ((S.room B n L).map S.recs).getD []

/-- The shape after a record is written to the first chain `L`. -/
def Shape.write (rest : List (List ℕ)) (r : Record) : Shape :=
  match S.room B r.size L with
  | some i => ⟨L :: rest, S.free, Function.update S.recs i (S.recs i ++ [r])⟩
  | none => ⟨(L ++ [S.supply count 0]) :: rest, S.free.tail, Function.update S.recs (S.supply count 0) [r]⟩

variable {S B count n L}

theorem Shape.room_of_split {L₁ L₂ : List ℕ} {i : ℕ} (hL : L = L₁ ++ i :: L₂)
    (hfull : ∀ j ∈ L₁, B < total Record.size (S.recs j) + n)
    (hroom : ¬ B < total Record.size (S.recs i) + n) : S.room B n L = some i := by
  unfold Shape.room
  rw [List.find?_eq_some_iff_append]
  refine ⟨decide_eq_true (Nat.le_of_not_lt hroom), L₁, L₂, hL, fun j hj => ?_⟩
  have := hfull j hj
  simp only [Bool.not_eq_true', decide_eq_false_iff_not]
  omega

theorem Shape.room_of_full (hfull : ∀ j ∈ L, B < total Record.size (S.recs j) + n) : S.room B n L = none := by
  unfold Shape.room
  rw [List.find?_eq_none]
  intro j hj
  have := hfull j hj
  simp only [decide_eq_true_eq]
  omega

variable (S B count L) in
theorem Shape.write_recs (rest : List (List ℕ)) (r : Record) : (S.write B count L rest r).recs =
    Function.update S.recs (S.target B count r.size L) (S.held B r.size L ++ [r]) := by
  unfold Shape.write Shape.target Shape.held
  cases S.room B r.size L <;> rfl

variable (S B count L) in
theorem Shape.target_mem_write (rest : List (List ℕ)) (r : Record) :
    ∃ T ∈ (S.write B count L rest r).chains, S.target B count r.size L ∈ T := by
  unfold Shape.write Shape.target
  cases hr : S.room B r.size L with
  | none => exact ⟨L ++ [S.supply count 0], by simp, by simp⟩
  | some i => exact ⟨L, by simp, List.mem_of_find?_eq_some hr⟩

variable (count) in
/-- A bucket of the chain has room. -/
theorem Shape.write_room {i : ℕ} {rest : List (List ℕ)} {r : Record} (hr : S.room B r.size L = some i) :
    S.write B count L rest r = ⟨L :: rest, S.free, Function.update S.recs i (S.recs i ++ [r])⟩ := by
  unfold Shape.write
  rw [hr]

variable (count) in
/-- No bucket of the chain has room. -/
theorem Shape.write_new {rest : List (List ℕ)} {r : Record} (hr : S.room B r.size L = none) :
    S.write B count L rest r =
      ⟨(L ++ [S.supply count 0]) :: rest, S.free.tail, Function.update S.recs (S.supply count 0) [r]⟩ := by
  unfold Shape.write
  rw [hr]

/-- The first bucket of the chain has room. -/
theorem Shape.write_first {i : ℕ} {T : List ℕ} {rest : List (List ℕ)} {r : Record}
    (hroom : total Record.size (S.recs i) + r.size ≤ B) : S.write B count (i :: T) rest r =
      ⟨(i :: T) :: rest, S.free, Function.update S.recs i (S.recs i ++ [r])⟩ :=
  Shape.write_room count
    (Shape.room_of_split (show i :: T = [] ++ i :: T from rfl) (by simp) (Nat.not_lt.mpr hroom))

/-- All buckets of the chain are too full. -/
theorem Shape.write_full {rest : List (List ℕ)} {r : Record}
    (hfull : ∀ j ∈ L, B < total Record.size (S.recs j) + r.size) : S.write B count L rest r =
      ⟨(L ++ [S.supply count 0]) :: rest, S.free.tail, Function.update S.recs (S.supply count 0) [r]⟩ :=
  Shape.write_new count (Shape.room_of_full hfull)

end Write

/-- The first record of a chain with this hash and key: it is in the bucket `i` behind `pre`, and the
buckets before `i` are `L₁`. -/
structure Located (L : List ℕ) (recs : ℕ → List Record) (hash : Hash) (key : Bytes) (L₁ : List ℕ)
    (i : ℕ) (pre : List Record) (r : Record) (post : List Record) : Prop where
  chain : ∃ L₂, L = L₁ ++ i :: L₂
  first : FirstAt (recs i) hash key pre r post
  before : ∀ j ∈ L₁, ∀ x ∈ recs j, ¬ x.Is hash key

/-- No record of the chain has this hash and key. -/
def Absent (L : List ℕ) (recs : ℕ → List Record) (hash : Hash) (key : Bytes) : Prop :=
  ∀ i ∈ L, ∀ x ∈ recs i, ¬ x.Is hash key

theorem Located.cons {L : List ℕ} {recs : ℕ → List Record} {hash : Hash} {key : Bytes} {L₁ : List ℕ}
    {i k : ℕ} {pre post : List Record} {r : Record} (h : Located L recs hash key L₁ i pre r post)
    (hk : ∀ x ∈ recs k, ¬ x.Is hash key) : Located (k :: L) recs hash key (k :: L₁) i pre r post := by
  obtain ⟨⟨L₂, rfl⟩, h2, h3⟩ := h
  refine ⟨⟨L₂, rfl⟩, h2, fun j hj => ?_⟩
  rcases List.mem_cons.mp hj with rfl | hj
  · exact hk
  · exact h3 j hj

theorem Located.mem {L : List ℕ} {recs : ℕ → List Record} {hash : Hash} {key : Bytes} {L₁ : List ℕ}
    {i : ℕ} {pre post : List Record} {r : Record} (h : Located L recs hash key L₁ i pre r post) :
    i ∈ L := by
  obtain ⟨L₂, rfl⟩ := h.chain
  simp

namespace Container

variable {B : ℕ} {c : Container B} {S : Shape} {hash : Hash} {key : Bytes}

/-- The container holds what the shape says. -/
structure Rep (c : Container B) (S : Shape) : Prop where
  owned : c.Owned S.chains S.free
  holds : ∀ i < c.layout.bucketsCount, (c.layout.buckets i).Holds (S.recs i)
  freeEmpty : ∀ i ∈ S.free, S.recs i = []
  depth : ∀ L ∈ S.chains, ∀ i ∈ L, ∀ j ∈ L,
    (c.layout.buckets i).prefixBits = (c.layout.buckets j).prefixBits

namespace Rep

theorem mapped (h : c.Rep S) {L : List ℕ} (hL : L ∈ S.chains) {i : ℕ} (hi : i ∈ L) : c.Mapped i :=
  h.owned.mapped_of_mem hL hi

theorem holds_of_mem (h : c.Rep S) {L : List ℕ} (hL : L ∈ S.chains) {i : ℕ} (hi : i ∈ L) :
    (c.layout.buckets i).Holds (S.recs i) := h.holds i (h.owned.lt_of_mem hL hi)

theorem perm_chains (h : c.Rep S) {chains : List (List ℕ)} (hp : S.chains.Perm chains) :
    c.Rep { S with chains := chains } :=
  ⟨h.owned.perm_chains hp, h.holds, h.freeEmpty, fun L hL => h.depth L (hp.mem_iff.mpr hL)⟩

/-- The records of one bucket change. -/
theorem setBucket (h : c.Rep S) {i : ℕ} {rs : List Record} {b : Bucket B} (hb : b.Holds rs)
    (hn : b.nextBucketId = (c.layout.buckets i).nextBucketId)
    (hp : b.prefixBits = (c.layout.buckets i).prefixBits) (hi : i ∉ S.free) :
    (c.setBucket i b).Rep { S with recs := Function.update S.recs i rs } := by
  have hbits : ∀ j, ((c.setBucket i b).layout.buckets j).prefixBits = (c.layout.buckets j).prefixBits := by
    intro j
    by_cases hj : j = i
    · subst hj; rw [setBucket_self]; exact hp
    · rw [setBucket_of_ne hj]
  refine ⟨h.owned.setBucket hn, fun j hj => ?_, fun j hj => ?_, fun L hL j hj k hk => ?_⟩
  · by_cases hji : j = i
    · subst hji; rw [setBucket_self]; simpa using hb
    · rw [setBucket_of_ne hji]; simpa [hji] using h.holds j hj
  · have hji : j ≠ i := fun hji => hi (hji ▸ hj)
    simpa [hji] using h.freeEmpty j hj
  · rw [hbits, hbits]
    exact h.depth L hL j hj k hk

theorem not_mem_free (h : c.Rep S) {L : List ℕ} (hL : L ∈ S.chains) {i : ℕ} (hi : i ∈ L) :
    i ∉ S.free := fun hc => (List.nodup_append.mp h.owned.nodup).2.2 i
      (List.mem_flatten_of_mem hL hi) i hc rfl

end Rep

/-! ### Finding -/

/-- The answer of `find_record` on a chain. -/
def Finds (L : List ℕ) (recs : ℕ → List Record) (hash : Hash) (key : Bytes) : Option View → Prop
  | none => Absent L recs hash key
  | some v => ∃ L₁ i pre r post, Located L recs hash key L₁ i pre r post ∧ v = Bucket.valueView i pre r

theorem findRecord_runs (hB : B < 2 ^ 31) {recs : ℕ → List Record} :
    ∀ (L : List ℕ) (fuel : ℕ) (a : Option ℕ), Seg c.next a L none →
      (∀ i ∈ L, c.Mapped i ∧ (c.layout.buckets i).Holds (recs i)) →
      Prog.Runs (findRecord hash key fuel a) c (fun o c' => c' = c ∧ Finds L recs hash key o)
        (fun e c' => e = .outOfFuel ∧ c' = c ∧ fuel < L.length)
  | [], fuel, a, hs, _ => by
    have ha : a = none := hs
    subst ha
    cases fuel <;> exact ⟨rfl, fun i hi => absurd hi (by simp)⟩
  | i :: L, 0, a, hs, _ => by
    obtain ⟨rfl, -⟩ := hs
    exact ⟨rfl, rfl, by simp⟩
  | i :: L, fuel + 1, a, hs, hL => by
    obtain ⟨rfl, hs⟩ := hs
    obtain ⟨hm, hh⟩ := hL i (by simp)
    rw [findRecord, Prog.runs_bind, runs_bucketAt hm, Prog.runs_bind]
    rcases scan_all hh hB hash key with ⟨pre, r, post, hfirst, hscan⟩ | ⟨habs, hscan⟩
    · rw [hscan]
      exact ⟨rfl, [], i, pre, r, post, ⟨⟨L, rfl⟩, hfirst, by simp⟩, rfl⟩
    · rw [hscan]
      refine (findRecord_runs hB L fuel _ hs (fun j hj => hL j (by simp [hj]))).mono ?_ ?_
      · rintro o c' ⟨rfl, ho⟩
        refine ⟨rfl, ?_⟩
        cases o with
        | none =>
          intro j hj
          rcases List.mem_cons.mp hj with rfl | hj
          · exact habs
          · exact ho j hj
        | some v =>
          obtain ⟨L₁, j, pre, r, post, hloc, rfl⟩ := ho
          exact ⟨i :: L₁, j, pre, r, post, hloc.cons habs, rfl⟩
      · rintro e c' ⟨rfl, rfl, hf⟩
        exact ⟨rfl, rfl, by simpa using hf⟩

/-- The view that `find_record` returns shows the value of the record. -/
theorem view_value {i : ℕ} {pre post : List Record} {r : Record}
    (h : (c.layout.buckets i).Holds (pre ++ r :: post)) :
    c.view (Bucket.valueView i pre r) = r.value := h.value_eq rfl

theorem view_key {i : ℕ} {pre post : List Record} {r : Record}
    (h : (c.layout.buckets i).Holds (pre ++ r :: post)) :
    c.view (Bucket.keyView i pre r) = r.key := h.key_eq rfl

/-! ### Removing -/

theorem eraseRecord_runs {i : ℕ} (hm : c.Mapped i) {pre post : List Record} {r : Record}
    (hh : (c.layout.buckets i).Holds (pre ++ r :: post)) {E : Fault → Container B → Prop} :
    Prog.Runs (eraseRecord i (total Record.size pre) r.size) c
      (fun _ c' => ∃ b : Bucket B, c' = c.setBucket i b ∧ b.Holds (pre ++ post) ∧
        b.nextBucketId = (c.layout.buckets i).nextBucketId ∧
        b.prefixBits = (c.layout.buckets i).prefixBits) E := by
  unfold eraseRecord
  obtain ⟨rest, hd⟩ := hh.data_eq
  have hread : readBytes (c.layout.buckets i).data (total Record.size pre + r.size)
      ((c.layout.buckets i).bytesUsed - (total Record.size pre + r.size)) =
      .ok (packed Record.encode post) := by
    have hat : (c.layout.buckets i).data = (packed Record.encode pre ++ r.encode) ++
        packed Record.encode post ++ rest := by rw [hd]; simp
    rw [← Bucket.readBytes_append hat, hh.used]
    congr 1
    · simp [Record.total_size, Record.length_encode]
    · simp [Record.total_size]
      omega
  have hput : total Record.size pre + (packed Record.encode post).length ≤ B := by
    have := hh.le
    rw [hh.used] at this
    rw [Record.total_size]
    simp at this
    omega
  obtain ⟨b, hb, hw⟩ := Bucket.put_ok (b := c.layout.buckets i) _ _ hput
  simp only [Prog.runs_bind, runs_bucketPtr]
  rw [runs_load rfl hm, hread, Prog.runs_lift_ok, hb, Prog.runs_lift_ok, runs_store rfl hm]
  exact ⟨_, rfl, hh.erase hw.data rfl, hw.nextBucketId, hw.prefixBits⟩

/-- The outcome of `remove_record` on a chain. -/
def Removes (c : Container B) (L : List ℕ) (recs : ℕ → List Record) (hash : Hash) (key : Bytes)
    (c' : Container B) : Bool → Prop
  | false => Absent L recs hash key ∧ c' = c
  | true => ∃ L₁ i pre r post, Located L recs hash key L₁ i pre r post ∧
      ∃ b : Bucket B, c' = c.setBucket i b ∧ b.Holds (pre ++ post) ∧
        b.nextBucketId = (c.layout.buckets i).nextBucketId ∧
        b.prefixBits = (c.layout.buckets i).prefixBits

theorem removeRecord_runs (hB : B < 2 ^ 31) {recs : ℕ → List Record} :
    ∀ (L : List ℕ) (fuel : ℕ) (a : Option ℕ), Seg c.next a L none →
      (∀ i ∈ L, c.Mapped i ∧ (c.layout.buckets i).Holds (recs i)) →
      Prog.Runs (removeRecord hash key fuel a) c (fun o c' => Removes c L recs hash key c' o)
        (fun e c' => e = .outOfFuel ∧ c' = c ∧ fuel < L.length)
  | [], fuel, a, hs, _ => by
    have ha : a = none := hs
    subst ha
    cases fuel <;> exact ⟨fun i hi => absurd hi (by simp), rfl⟩
  | i :: L, 0, a, hs, _ => by
    obtain ⟨rfl, -⟩ := hs
    exact ⟨rfl, rfl, by simp⟩
  | i :: L, fuel + 1, a, hs, hL => by
    obtain ⟨rfl, hs⟩ := hs
    obtain ⟨hm, hh⟩ := hL i (by simp)
    rw [removeRecord, Prog.runs_bind, runs_bucketAt hm, Prog.runs_bind]
    rcases scan_all hh hB hash key with ⟨pre, r, post, hfirst, hscan⟩ | ⟨habs, hscan⟩
    · rw [hscan]
      have hlen : total Record.size pre + r.keyOffset - total Record.size pre + r.key.length
          + r.value.length = r.size := by
        have := r.size_eq
        omega
      have hh' : (c.layout.buckets i).Holds (pre ++ r :: post) := hfirst.split ▸ hh
      rw [Prog.runs_lift_ok]
      simp only [Prog.runs_bind, hlen]
      refine (eraseRecord_runs hm hh').mono (fun _ c' hc' => ?_) (fun _ _ h => h)
      exact ⟨[], i, pre, r, post, ⟨⟨L, rfl⟩, hfirst, by simp⟩, hc'⟩
    · rw [hscan]
      refine (removeRecord_runs hB L fuel _ hs (fun j hj => hL j (by simp [hj]))).mono ?_ ?_
      · intro o c' ho
        cases o with
        | false =>
          refine ⟨fun j hj => ?_, ho.2⟩
          rcases List.mem_cons.mp hj with rfl | hj
          · exact habs
          · exact ho.1 j hj
        | true =>
          obtain ⟨L₁, j, pre, r, post, hloc, hb⟩ := ho
          exact ⟨i :: L₁, j, pre, r, post, hloc.cons habs, hb⟩
      · rintro e c' ⟨rfl, rfl, hf⟩
        exact ⟨rfl, rfl, by simpa using hf⟩

/-! ### Reading a record -/

/-- Where the bytes of a record are, the record is read. -/
theorem runs_readRecord_at {b : ℕ} (hm : c.Mapped b) {pre rest : Bytes} {r : Record}
    (hd : (c.layout.buckets b).data = pre ++ r.encode ++ rest) (hr : r.size < 2 ^ 31)
    (hlt : pre.length < (c.layout.buckets b).bytesUsed)
    {Q : Option (RecordView × ℕ) → Container B → Prop} {E : Fault → Container B → Prop} :
    Prog.Runs (readRecord b pre.length) c Q E ↔
      Q (some (⟨r.hash, ⟨b, pre.length + r.keyOffset, r.key.length⟩,
        ⟨b, pre.length + r.keyOffset + r.key.length, r.value.length⟩⟩, pre.length + r.size)) c := by
  have hnext : pre.length + r.keyOffset + r.key.length + r.value.length = pre.length + r.size := by
    rw [r.size_eq]
    omega
  unfold readRecord
  rw [Prog.runs_bind, runs_bucketAt hm, if_neg (Nat.not_le.mpr hlt), Record.readHeader_encode hd hr,
    Prog.runs_bind, Prog.runs_lift_ok, Prog.runs_pure, hnext]

theorem runs_readRecord (hB : B < 2 ^ 31) {b : ℕ} (hm : c.Mapped b) {rs pre post : List Record} {r : Record}
    (hh : (c.layout.buckets b).Holds rs) (hrs : rs = pre ++ r :: post)
    {Q : Option (RecordView × ℕ) → Container B → Prop} {E : Fault → Container B → Prop} :
    Prog.Runs (readRecord b (total Record.size pre)) c Q E ↔
      Q (some (⟨r.hash, Bucket.keyView b pre r, Bucket.valueView b pre r⟩, total Record.size (pre ++ [r]))) c := by
  subst hrs
  obtain ⟨rest, hd⟩ := hh.data_eq
  have hpos := r.size_pos
  have hsize := hh.size_le (r := r) (by simp)
  have hlt : (packed Record.encode pre).length < (c.layout.buckets b).bytesUsed := by
    rw [Record.total_size, hh.used]
    simp
    omega
  have hat := runs_readRecord_at hm hd (by omega) hlt (Q := Q) (E := E)
  have hnext : total Record.size (pre ++ [r]) = total Record.size pre + r.size := by simp
  rwa [Record.total_size, ← hnext] at hat

theorem runs_readRecord_past {b offset : ℕ} (hm : c.Mapped b) (hu : (c.layout.buckets b).bytesUsed ≤ offset)
    {Q : Option (RecordView × ℕ) → Container B → Prop} {E : Fault → Container B → Prop} :
    Prog.Runs (readRecord b offset) c Q E ↔ Q none c := by
  unfold readRecord
  rw [Prog.runs_bind, runs_bucketAt hm, if_pos hu, Prog.runs_pure]

/-! ### Writing a record -/

theorem writeRecord_runs {p : BucketPtr} (hp : p.base = c.fileMap.start) (hm : c.Mapped p.id)
    {rs : List Record} (hh : (c.layout.buckets p.id).Holds rs) {r : Record}
    (hr : total Record.size rs + r.size ≤ B) {E : Fault → Container B → Prop} :
    Prog.Runs (writeRecord p r.hash r.key r.value) c
      (fun v c' => v = Bucket.valueView p.id rs r ∧ ∃ b : Bucket B, c' = c.setBucket p.id b ∧
        b.Holds (rs ++ [r]) ∧ b.nextBucketId = (c.layout.buckets p.id).nextBucketId ∧
        b.prefixBits = (c.layout.buckets p.id).prefixBits) E := by
  have hu := hh.used
  have hlen := r.length_encode
  simp only [Record.encode, List.length_append] at hlen
  obtain ⟨b1, hb1, hw1⟩ := Bucket.put_ok (b := c.layout.buckets p.id)
    (c.layout.buckets p.id).bytesUsed (hashBytes r.hash) (by omega)
  obtain ⟨b2, hb2, hw2⟩ := hw1.put (Vbe.write r.key.length)
    (by simp only [List.length_append]; omega)
  obtain ⟨b3, hb3, hw3⟩ := hw2.put (Vbe.write r.value.length)
    (by simp only [List.length_append]; omega)
  obtain ⟨b4, hb4, hw4⟩ := hw3.put r.key (by simp only [List.length_append]; omega)
  obtain ⟨b5, hb5, hw5⟩ := hw4.put r.value (by simp only [List.length_append]; omega)
  unfold writeRecord
  rw [Prog.runs_bind, runs_load hp hm]
  simp only [Prog.runs_bind, hb1, Prog.runs_lift_ok, hb2, hb3, hb4, hb5]
  rw [runs_store hp hm]
  refine ⟨?_, _, rfl, ?_, hw5.nextBucketId, hw5.prefixBits⟩
  · simp only [Bucket.valueView, Record.keyOffset, List.length_append, length_hashBytes,
      Vbe.length_write, hu]
    congr 1
    omega
  · refine hh.concat (hu ▸ hw5.data) ?_ hr
    show b5.bytesUsed + r.size = _
    rw [hw5.bytesUsed]

/-! ### Finding room -/

/-- A loop that ran out of fuel had at most `n` turns. -/
def Starved (fuel n : ℕ) (e : Fault) : Prop := e = .outOfFuel ∧ fuel ≤ n

/-- The bucket has no room for `n` more bytes. -/
def Full (B : ℕ) (recs : ℕ → List Record) (n i : ℕ) : Prop := B < total Record.size (recs i) + n

/-- A new link of a bucket leaves the bytes of every bucket. -/
theorem sameBytes_setNext (c : Container B) (i : ℕ) (next : Option ℕ) (j : ℕ) :
    (c.layout.buckets j).SameBytes
      ((c.setBucket i { c.layout.buckets i with nextBucketId := next }).layout.buckets j) := by
  by_cases hji : j = i
  · subst hji
    rw [setBucket_self]
    exact ⟨rfl, rfl, rfl⟩
  · rw [setBucket_of_ne hji]
    exact Bucket.SameBytes.refl _

/-- `c'` is `c` with a new bucket `id` chained behind `L`: only the last link of `L` changes. -/
structure Extends (c' c : Container B) (free L : List ℕ) (id : ℕ) : Prop where
  source : (free = [] ∧ id = c.layout.bucketsCount ∧
      c'.layout.bucketsCount = c.layout.bucketsCount + 1) ∨
    (free ≠ [] ∧ free.head? = some id ∧ c'.layout.bucketsCount = c.layout.bucketsCount)
  same : ∀ j, j ≠ id → (c.layout.buckets j).SameBytes (c'.layout.buckets j)
  others : ∀ j, j ≠ id → j ∉ L → c'.layout.buckets j = c.layout.buckets j
  notMem : id ∉ L
  length : c'.fileMap.length ≤
    max c.fileMap.length ((headerBytes + (c.layout.bucketsCount + 1) * bucketBytes B) * 11 / 10)

theorem Extends.count_le {c' : Container B} {free L : List ℕ} {id : ℕ} (hx : c'.Extends c free L id) :
    c.layout.bucketsCount ≤ c'.layout.bucketsCount := by
  rcases hx.source with ⟨-, -, hcount⟩ | ⟨-, -, hcount⟩ <;> omega

/-- The new bucket is the first one that is supplied. -/
theorem Extends.id_eq {c' : Container B} {L : List ℕ} {id : ℕ} (hx : c'.Extends c S.free L id) :
    id = S.supply c.layout.bucketsCount 0 :=
  (Shape.supply_next List.drop_zero.symm (by omega) hx.source).1

/-- Where `find_room` stops: in the first bucket of the chain that is not full, or in a new one. -/
inductive Room (kernel : Kernel) (c : Container B) (S : Shape) (L : List ℕ) (rest : List (List ℕ))
    (n : ℕ) (p : BucketPtr) (c' : Container B) : Prop
  | old (L₁ : List ℕ) (i : ℕ) (L₂ : List ℕ) : L = L₁ ++ i :: L₂ → (∀ j ∈ L₁, Full B S.recs n j) →
      ¬ Full B S.recs n i → p = ⟨c.fileMap.start, i⟩ → c' = c → Room kernel c S L rest n p c'
  | new (id : ℕ) : (∀ j ∈ L, Full B S.recs n j) → p = ⟨c'.fileMap.start, id⟩ →
      c'.Extends c S.free L id → c'.Rep (S.extend L rest id) → Room kernel c S L rest n p c'

theorem Created.extends {c₁ : Container B} {d i id : ℕ} {free L : List ℕ}
    (hc : Created c d free id c₁) (hi : i ∈ L) (hid : id ∉ L) :
    (c₁.setBucket i { c₁.layout.buckets i with nextBucketId := some id }).Extends c free L id where
  source := hc.source
  same j hj := by
    rw [← hc.others j hj]
    exact sameBytes_setNext c₁ i (some id) j
  others j hj hjL := by
    rw [setBucket_of_ne (fun hji => hjL (by rw [hji]; exact hi)), hc.others j hj]
  notMem := hid
  length := hc.length

/-- A new bucket is chained behind the first chain. -/
theorem Rep.extend {c₁ : Container B} {L : List ℕ} {i id : ℕ} {rest : List (List ℕ)} (h : c.Rep S)
    (hS : S.chains = (L ++ [i]) :: rest)
    (ho : c₁.Owned ([id] :: S.chains) S.free.tail)
    (hc : Created c (c.layout.buckets i).prefixBits S.free id c₁) :
    (c₁.setBucket i { c₁.layout.buckets i with nextBucketId := some id }).Rep
      (S.extend (L ++ [i]) rest id) := by
  have hmem : (L ++ [i]) ∈ S.chains := by rw [hS]; simp
  have hnot := hc.not_mem h.owned hmem
  have hid : id ≠ i := fun hc' => hnot (by simp [hc'])
  have ho' : c₁.Owned ((L ++ [i]) :: [id] :: rest) S.free.tail := by
    rw [hS] at ho
    exact ho.perm_chains (List.Perm.swap _ _ _)
  have hext := hc.extends (i := i) (L := L ++ [i]) (by simp) hnot
  have hidb : ((c₁.setBucket i { c₁.layout.buckets i with nextBucketId := some id }).layout.buckets
      id).prefixBits = (c.layout.buckets i).prefixBits ∧
      ((c₁.setBucket i { c₁.layout.buckets i with nextBucketId := some id }).layout.buckets
      id).bytesUsed = 0 := by
    rw [setBucket_of_ne hid]
    exact hc.bucket
  -- all buckets of the extended chain are as deep as its old last bucket
  have hdeep : ∀ j ∈ L ++ [i] ++ [id], ((c₁.setBucket i { c₁.layout.buckets i with
      nextBucketId := some id }).layout.buckets j).prefixBits = (c.layout.buckets i).prefixBits := by
    intro j hj
    rcases List.mem_append.mp hj with hj | hj
    · rw [(hext.same j (fun hji => hnot (hji ▸ hj))).prefixBits]
      exact h.depth _ hmem j hj i (by simp)
    · rw [List.mem_singleton] at hj
      exact hj ▸ hidb.1
  refine ⟨ho'.link rfl, fun j hj => ?_, fun j hj => ?_, fun L' hL' j hj k hk => ?_⟩
  · by_cases hji : j = id
    · subst hji
      simpa [Shape.extend] using Bucket.holds_nil hidb.2
    · have hlt : j < c.layout.bucketsCount := (hc.lt_or_eq hj).resolve_left hji
      simpa [Shape.extend, hji] using (h.holds j hlt).congr (hext.same j hji)
  · have hji : j ≠ id := by
      rintro rfl
      exact (ho.not_mem (i := j) (by simp)).2 hj
    simpa [Shape.extend, hji] using h.freeEmpty j (List.mem_of_mem_tail hj)
  · rcases List.mem_cons.mp hL' with rfl | hL'
    · rw [hdeep j hj, hdeep k hk]
    · have hid' := hc.not_mem h.owned (L := L') (by rw [hS]; simp [hL'])
      rw [(hext.same j (fun hji => hid' (hji ▸ hj))).prefixBits,
        (hext.same k (fun hki => hid' (hki ▸ hk))).prefixBits]
      exact h.depth L' (by rw [hS]; simp [hL']) j hj k hk

/-- The block of `create_record` that chains a new bucket behind the last one, and goes on with it. -/
theorem Rep.runs_chain (h : c.Rep S) (kernel : Kernel) {L : List ℕ} {i : ℕ} {rest : List (List ℕ)}
    (hS : S.chains = (L ++ [i]) :: rest) {α : Type} {f : ℕ → BucketPtr → Prog Fault (Container B) α}
    {Q : α → Container B → Prop} {E : Fault → Container B → Prop} (hE : ∀ e c', Refused kernel c e c' → E e c')
    (hf : ∀ id c', c'.Extends c S.free (L ++ [i]) id → c'.Rep (S.extend (L ++ [i]) rest id) →
      Prog.Runs (f id ⟨c'.fileMap.start, id⟩) c' Q E) :
    Prog.Runs (do
      let id ← createBucket kernel (c.layout.buckets i).prefixBits
      setNext i (some id)
      let p ← bucketPtr id
      f id p) c Q E := by
  have hmem : L ++ [i] ∈ S.chains := by rw [hS]; simp
  have hi : i ∈ L ++ [i] := by simp
  rw [Prog.runs_bind]
  refine (createBucket_runs h.owned kernel _).mono ?_ hE
  rintro id c₁ ⟨ho, hc⟩
  have hm : c₁.Mapped i := ho.mapped_of_mem (List.mem_cons_of_mem _ hmem) hi
  rw [Prog.runs_bind, runs_setNext hm, Prog.runs_bind, runs_bucketPtr]
  exact hf id _ (hc.extends hi (hc.not_mem h.owned hmem)) (h.extend hS ho hc)

/-- The next bucket of a chain. -/
theorem Rep.next_of_split (h : c.Rep S) {L₁ L₂ : List ℕ} {i : ℕ} (hmem : L₁ ++ i :: L₂ ∈ S.chains) :
    (c.layout.buckets i).nextBucketId = L₂.head? := by
  obtain ⟨a, -, rfl, hnext⟩ := Seg.append_iff.mp (h.owned.linked _ hmem)
  cases L₂ with
  | nil => exact hnext
  | cons k L₃ => exact hnext.1

/-- One more full bucket. -/
theorem Full.concat {recs : ℕ → List Record} {n i : ℕ} {L : List ℕ} (hfull : ∀ j ∈ L, Full B recs n j)
    (hi : Full B recs n i) : ∀ j ∈ L ++ [i], Full B recs n j := by
  intro j hj
  rcases List.mem_append.mp hj with hj | hj
  · exact hfull j hj
  · rw [List.mem_singleton.mp hj]
    exact hi

theorem findRoom_runs (h : c.Rep S) (kernel : Kernel) {n : ℕ} (hn : n ≤ B) {L : List ℕ}
    {rest : List (List ℕ)} (hS : S.chains = L :: rest) :
    ∀ (L₂ L₁ : List ℕ) (i fuel : ℕ), L = L₁ ++ i :: L₂ → (∀ j ∈ L₁, Full B S.recs n j) →
      Prog.Runs (findRoom kernel n fuel i ⟨c.fileMap.start, i⟩) c
        (fun p c' => Room kernel c S L rest n p c')
        (fun e c' => Starved fuel (i :: L₂).length e ∨ Refused kernel c e c')
  | _, _, _, 0, _, _ => Or.inl ⟨rfl, by omega⟩
  | L₂, L₁, i, fuel + 1, hL, hfull => by
    have hmem : L ∈ S.chains := by rw [hS]; simp
    have hi : i ∈ L := by rw [hL]; simp
    have hu := (h.holds_of_mem hmem hi).used
    have hnext := h.next_of_split (hL ▸ hmem)
    rw [findRoom, Prog.runs_bind, runs_load rfl (h.mapped hmem hi)]
    refine Prog.runs_ite (fun hlt => ?_) (fun hge => ?_)
    · have hfull' := Full.concat hfull (show Full B S.recs n i by unfold Full; rw [← hu]; exact hlt)
      cases L₂ with
      | nil =>
        rw [hnext]
        subst hL
        refine h.runs_chain kernel hS (fun e c' hr => Or.inr hr) (fun id c' hext hrep => ?_)
        -- the new bucket is empty, so the loop stops there
        cases fuel with
        | zero => exact Or.inl ⟨rfl, by simp⟩
        | succ fuel =>
          have hmem' : L₁ ++ [i] ++ [id] ∈ (S.extend (L₁ ++ [i]) rest id).chains := by simp [Shape.extend]
          have hnil : (S.extend (L₁ ++ [i]) rest id).recs id = [] := by simp [Shape.extend]
          have hused := (hrep.holds_of_mem hmem' (i := id) (by simp)).used
          rw [hnil, total_nil] at hused
          rw [findRoom, Prog.runs_bind, runs_load rfl (hrep.mapped hmem' (by simp)), hused, if_neg (by omega)]
          exact .new id hfull' rfl hext hrep
      | cons k L₃ =>
        rw [hnext, List.head?_cons]
        simp only [Prog.runs_bind, runs_bucketPtr]
        refine (findRoom_runs h kernel hn hS L₃ (L₁ ++ [i]) k fuel (by rw [hL]; simp) hfull').mono
          (fun _ _ hr => hr) (fun e c' he => ?_)
        rcases he with ⟨rfl, hf⟩ | he
        · exact Or.inl ⟨rfl, by simpa using hf⟩
        · exact Or.inr he
    · refine .old L₁ i L₂ hL hfull ?_ rfl rfl
      unfold Full
      rw [← hu]
      exact hge

/-! ### Creating a record -/

/-- The outcome of `create_record`: the record is behind the records of the first bucket of the chain that
has room for it, or in a new bucket behind the chain. -/
inductive Inserted (c : Container B) (S : Shape) (L : List ℕ) (rest : List (List ℕ)) (r : Record)
    (v : View) (c' : Container B) : Prop
  | old (L₁ : List ℕ) (i : ℕ) (L₂ : List ℕ) (b : Bucket B) : L = L₁ ++ i :: L₂ →
      (∀ j ∈ L₁, Full B S.recs r.size j) → ¬ Full B S.recs r.size i →
      v = Bucket.valueView i (S.recs i) r → c' = c.setBucket i b →
      b.nextBucketId = (c.layout.buckets i).nextBucketId →
      b.prefixBits = (c.layout.buckets i).prefixBits →
      c'.Rep { S with recs := Function.update S.recs i (S.recs i ++ [r]) } →
      Inserted c S L rest r v c'
  | new (c₁ : Container B) (id : ℕ) (b : Bucket B) : (∀ j ∈ L, Full B S.recs r.size j) →
      v = Bucket.valueView id [] r → c₁.Extends c S.free L id → c' = c₁.setBucket id b →
      c'.Rep { S.extend L rest id with recs := Function.update S.recs id [r] } →
      Inserted c S L rest r v c'

theorem createRecord_runs (h : c.Rep S) (kernel : Kernel) {r : Record} (hr : r.size ≤ B) {L : List ℕ}
    {rest : List (List ℕ)} (hS : S.chains = L :: rest) {bucketId : ℕ} (hhead : L.head? = some bucketId)
    (fuel : ℕ) :
    Prog.Runs (createRecord kernel fuel bucketId r.hash r.key r.value) c
      (fun v c' => Inserted c S L rest r v c')
      (fun e c' => Starved fuel L.length e ∨ Refused kernel c e c') := by
  obtain ⟨L₂, rfl⟩ : ∃ L₂, L = bucketId :: L₂ := by
    cases L with
    | nil => simp at hhead
    | cons i L₂ => exact ⟨L₂, by simpa using hhead⟩
  unfold createRecord
  rw [Prog.runs_bind, runs_bucketPtr, Prog.runs_bind]
  refine (findRoom_runs h kernel hr hS L₂ [] bucketId fuel rfl (by simp)).mono ?_ (fun _ _ he => he)
  intro p c' hroom
  cases hroom with
  | old L₁ i L₃ hL hfull hroom hp hc =>
    subst hp
    subst hc
    have hmem : bucketId :: L₂ ∈ S.chains := by rw [hS]; simp
    have hi : i ∈ bucketId :: L₂ := by rw [hL]; simp
    refine (writeRecord_runs (p := ⟨c'.fileMap.start, i⟩) rfl (h.mapped hmem hi)
      (h.holds_of_mem hmem hi) (r := r) (Nat.le_of_not_lt hroom)).mono ?_ (fun _ _ he => he)
    rintro v c'' ⟨rfl, b, rfl, hb, hn, hbits⟩
    exact .old L₁ i L₃ b hL hfull hroom rfl rfl hn hbits
      (h.setBucket hb hn hbits (h.not_mem_free hmem hi))
  | new id hfull hp hext hrep =>
    subst hp
    have hmem : bucketId :: L₂ ++ [id] ∈ (S.extend (bucketId :: L₂) rest id).chains := by
      simp [Shape.extend]
    have hholds := hrep.holds_of_mem (i := id) hmem (by simp)
    have hnil : (S.extend (bucketId :: L₂) rest id).recs id = [] := by simp [Shape.extend]
    rw [hnil] at hholds
    refine (writeRecord_runs (p := ⟨c'.fileMap.start, id⟩) rfl (hrep.mapped hmem (by simp)) hholds
      (r := r) (by simpa using hr)).mono ?_ (fun _ _ he => he)
    rintro v c'' ⟨rfl, b, rfl, hb, hn, hbits⟩
    refine .new c' id b hfull rfl hext rfl ?_
    have := hrep.setBucket hb hn hbits (hrep.not_mem_free hmem (by simp))
    simpa [Shape.extend] using this

/-- A record that is longer than a bucket finds no room: behind the last bucket the loop takes a new one, which
is too small as well. -/
theorem findRoom_loops (kernel : Kernel) {n : ℕ} (hn : B < n) :
    ∀ (fuel : ℕ) (c : Container B) (S : Shape) (L₁ : List ℕ) (i : ℕ) (L₂ : List ℕ) (rest : List (List ℕ)),
      c.Rep S → S.chains = (L₁ ++ i :: L₂) :: rest →
      Prog.Runs (findRoom kernel n fuel i ⟨c.fileMap.start, i⟩) c (fun _ _ => False)
        (fun e _ => e = .outOfFuel ∨ e = .systemError ∧ ¬ kernel.Grants)
  | 0, _, _, _, _, _, _, _, _ => Or.inl rfl
  | fuel + 1, c, S, L₁, i, L₂, rest, h, hS => by
    have hmem : L₁ ++ i :: L₂ ∈ S.chains := by rw [hS]; simp
    have hnext := h.next_of_split hmem
    rw [findRoom, Prog.runs_bind, runs_load rfl (h.mapped hmem (by simp)), if_pos (by omega)]
    cases L₂ with
    | nil =>
      rw [hnext]
      refine h.runs_chain kernel hS (fun e c' hr => Or.inr ⟨hr.fault, hr.denied⟩) (fun id c' _ hrep => ?_)
      exact findRoom_loops kernel hn fuel _ _ (L₁ ++ [i]) id [] rest hrep rfl
    | cons k L₃ =>
      rw [hnext, List.head?_cons]
      simp only [Prog.runs_bind, runs_bucketPtr]
      exact findRoom_loops kernel hn fuel c S (L₁ ++ [i]) k L₃ rest h (by rw [hS]; simp)

theorem createRecord_loops (h : c.Rep S) (kernel : Kernel) (hash : Hash) {key value : Bytes}
    (hn : B < bytesRequired key value) {L : List ℕ} {rest : List (List ℕ)} (hS : S.chains = L :: rest)
    {bucketId : ℕ} (hhead : L.head? = some bucketId) (fuel : ℕ) :
    Prog.Runs (createRecord kernel fuel bucketId hash key value) c (fun _ _ => False)
      (fun e _ => e = .outOfFuel ∨ e = .systemError ∧ ¬ kernel.Grants) := by
  obtain ⟨L₂, rfl⟩ : ∃ L₂, L = bucketId :: L₂ := by
    cases L with
    | nil => simp at hhead
    | cons i L₂ => exact ⟨L₂, by simpa using hhead⟩
  unfold createRecord
  rw [Prog.runs_bind, runs_bucketPtr, Prog.runs_bind]
  exact (findRoom_loops kernel hn fuel c S [] bucketId L₂ rest h hS).mono (fun _ _ h => h.elim)
    (fun _ _ h => h)

end Container

end DiskHash
