import DiskHash.Records

/-!
# DiskHash.Split — what `container::split` does to a chain

The records of the chain are read in order and written again: those without the new bit over the buckets
of the chain itself, those with it to a new chain.  Both halves are packed next-fit.  `Splitting` is the
invariant of the two loops; it speaks about the packings under way, `f0` and `f1`.  `Fill.Behind` keeps
the writer of the old chain behind the reader, so that it never runs out of buckets.
-/

namespace DiskHash

open Packing

/-- The record goes to the new half. -/
def Record.bit (newBit : Hash) (r : Record) : Bool := decide (r.hash &&& newBit ≠ 0)

/-- The packing of the half that keeps the chain. -/
def half0 (B : ℕ) (newBit : Hash) (rs : List Record) : Fill Record :=
  fill Record.size B (rs.filter fun r => !r.bit newBit)

/-- The packing of the half that goes to the new chain. -/
def half1 (B : ℕ) (newBit : Hash) (rs : List Record) : Fill Record :=
  fill Record.size B (rs.filter fun r => r.bit newBit)

section Halves

variable {B : ℕ} {newBit : Hash} {rs : List Record} {r : Record}

theorem half0_of_bit (h : r.bit newBit = true) : half0 B newBit (rs ++ [r]) = half0 B newBit rs := by
  simp [half0, List.filter_append, h]

theorem half0_push (h : r.bit newBit = false) :
    half0 B newBit (rs ++ [r]) = (half0 B newBit rs).push Record.size B r := by
  simp [half0, List.filter_append, h, fill_concat]

theorem half1_of_bit (h : r.bit newBit = false) : half1 B newBit (rs ++ [r]) = half1 B newBit rs := by
  simp [half1, List.filter_append, h]

theorem half1_push (h : r.bit newBit = true) :
    half1 B newBit (rs ++ [r]) = (half1 B newBit rs).push Record.size B r := by
  simp [half1, List.filter_append, h, fill_concat]

end Halves

/-- How many buckets of the chain `L` a split keeps. -/
def Shape.keep (S : Shape) (B : ℕ) (newBit : Hash) (L : List ℕ) : ℕ :=
  (half0 B newBit (L.flatMap S.recs)).closed.length + 1

/-- The head of the chain is kept. -/
theorem Shape.head?_take_keep (S : Shape) (B : ℕ) (newBit : Hash) (L : List ℕ) :
    (L.take (S.keep B newBit L)).head? = L.head? := by
  cases L with
  | nil => rfl
  | cons i T => rfl

/-- The shape after the first chain `L` is split into what is left of it and `L₁`. -/
def Shape.split (S : Shape) (B : ℕ) (newBit : Hash) (L : List ℕ) (rest : List (List ℕ)) (L₁ F : List ℕ) :
    Shape where
  chains := L.take (S.keep B newBit L) :: L₁ :: rest
  free := (L.drop (S.keep B newBit L)).reverse ++ F
  recs i :=
    if i ∈ L then (half0 B newBit (L.flatMap S.recs)).block (L.idxOf i)
    else if i ∈ L₁ then (half1 B newBit (L.flatMap S.recs)).block (L₁.idxOf i)
    else S.recs i

namespace Container

variable {B : ℕ}

/-- What `split` knows before its loops. -/
structure SplitSetup where
  prefixBits : ℕ
  newBit : Hash
  vars : SplitVars

/-- `split` up to its loops. -/
def splitStart (kernel : Kernel) (bucketId : ℕ) : Prog Fault (Container B) SplitSetup := do
  let p ← bucketPtr bucketId
  let bucket ← load p
  let prefixBits := bucket.prefixBits + 1
  store p { bucket with prefixBits := prefixBits }
  let bit1BucketId ← createBucket kernel prefixBits
  let newBit ← Prog.lift (if prefixBits ≤ hashBits then oneShl (hashBits - prefixBits)
    else .error .badShift)
  let bit0BucketPtr ← bucketPtr bucketId
  let bit1BucketPtr ← bucketPtr bit1BucketId
  return ⟨prefixBits, newBit,
    { bit0BucketId := bucketId
      bit1BucketId := bit1BucketId
      bit0BucketPtr := bit0BucketPtr
      bit1BucketPtr := bit1BucketPtr
      bit0BucketPut := bit0BucketPtr.data
      bit1BucketPut := bit1BucketPtr.data
      getBucketPtr := bit0BucketPtr
      getPtr := bit0BucketPtr.data }⟩

/-- `split` behind its loops. -/
def splitEnd (fuel b1 : ℕ) (v : SplitVars) : Prog Fault (Container B) ℕ := do
  let bit0 ← load v.bit0BucketPtr
  store v.bit0BucketPtr { bit0 with nextBucketId := none }
  freeChain fuel bit0.nextBucketId
  return b1

theorem split_eq (kernel : Kernel) (fuel bucketId : ℕ) :
    (split kernel fuel bucketId : Prog Fault (Container B) ℕ) = (do
      let setup ← splitStart kernel bucketId
      let v ← splitChain kernel setup.prefixBits setup.newBit fuel (some bucketId) setup.vars
      splitEnd fuel setup.vars.bit1BucketId v) := by
  unfold split splitStart
  simp only [Prog.bind_assoc]
  rfl

/-- No bucket was taken from the file or from the free list. -/
structure Untaken (c c' : Container B) : Prop where
  count : c'.layout.bucketsCount = c.layout.bucketsCount
  free : c'.layout.firstFreeBucketId = c.layout.firstFreeBucketId

theorem Untaken.refl (c : Container B) : Untaken c c := ⟨rfl, rfl⟩

theorem Untaken.trans {c c' c'' : Container B} (h : Untaken c c') (h' : Untaken c' c'') : Untaken c c'' :=
  ⟨h'.count.trans h.count, h'.free.trans h.free⟩

theorem Untaken.setBucket (c : Container B) (i : ℕ) (b : Bucket B) : Untaken c (c.setBucket i b) := ⟨rfl, rfl⟩

/-- `split` was stopped by the system; the head of its chain already has the new depth. -/
structure Broken (kernel : Kernel) (L : List ℕ) (d : ℕ) (e : Fault) (c : Container B) : Prop where
  fault : e = .systemError
  denied : ¬ kernel.Grants
  depth : ∀ i, L.head? = some i → (c.layout.buckets i).prefixBits = d

/-- The invariant of `split`.  The buckets of the old chain `L` before number `k` hold the blocks of `f0`,
the others what they held before; the new chain `L₁`, headed by `b1`, holds the blocks of `f1`. -/
structure Splitting (c₀ : Container B) (S : Shape) (L : List ℕ) (rest : List (List ℕ)) (b1 d k : ℕ)
    (f0 f1 : Fill Record) (L₁ F : List ℕ) (c : Container B) : Prop where
  owned : c.Owned (L₁ :: L :: rest) F
  free : F = S.free.drop L₁.length
  kept : ∀ m i, L[m]? = some i → m < k → (c.layout.buckets i).Holds (f0.block m)
  depth0 : ∀ m i, L[m]? = some i → m ≤ f0.closed.length → (c.layout.buckets i).prefixBits = d
  moved : ∀ m i, L₁[m]? = some i → (c.layout.buckets i).Holds (f1.block m)
  length1 : L₁.length = f1.closed.length + 1
  depth1 : ∀ i ∈ L₁, (c.layout.buckets i).prefixBits = d
  unread : ∀ m i, L[m]? = some i → k ≤ m → (c.layout.buckets i).Holds (S.recs i)
  frame : ∀ i, i ∉ L → i ∉ L₁ → c.layout.buckets i = c₀.layout.buckets i
  count : c.layout.bucketsCount = c₀.layout.bucketsCount + (L₁.length - S.free.length)
  head1 : L₁.head? = some b1
  supplied : L₁ = (List.range L₁.length).map (S.supply c₀.layout.bucketsCount)

/-- The write cursors stand behind the last block of each packing. -/
structure Cursors (L : List ℕ) (f0 f1 : Fill Record) (L₁ : List ℕ) (c : Container B) (v : SplitVars) :
    Prop where
  id0 : L[f0.closed.length]? = some v.bit0BucketId
  id1 : L₁[f1.closed.length]? = some v.bit1BucketId
  ptr0 : v.bit0BucketPtr = ⟨c.fileMap.start, v.bit0BucketId⟩
  ptr1 : v.bit1BucketPtr = ⟨c.fileMap.start, v.bit1BucketId⟩
  put0 : v.bit0BucketPut = ⟨v.bit0BucketPtr, total Record.size f0.cur⟩
  put1 : v.bit1BucketPut = ⟨v.bit1BucketPtr, total Record.size f1.cur⟩

/-- The read cursor: `done` of the records of the bucket `g`, number `j` of the chain, have been read and
`todo` are still in place. -/
structure Reading (L : List ℕ) (j g : ℕ) (f0 : Fill Record) (done todo : List Record) (c : Container B)
    (v : SplitVars) : Prop where
  number : L[j]? = some g
  fits : total Record.size (done ++ todo) ≤ B
  bytes : packed Record.encode todo <+: (c.layout.buckets g).data.drop (total Record.size done)
  bucketPtr : v.getBucketPtr = ⟨c.fileMap.start, g⟩
  ptr : v.getPtr = ⟨⟨c.fileMap.start, g⟩, total Record.size done⟩
  behind : f0.Behind Record.size j done

/-! ### Moving one record -/

/-- `b` is `b₀` with the record `r` written behind the records `rs`. -/
structure Appended (b₀ : Bucket B) (rs : List Record) (r : Record) (b : Bucket B) : Prop where
  data : b.data = patch b₀.data (total Record.size rs) r.encode
  bytesUsed : b.bytesUsed = b₀.bytesUsed + r.size
  nextBucketId : b.nextBucketId = b₀.nextBucketId
  prefixBits : b.prefixBits = b₀.prefixBits

theorem Appended.holds {b₀ b : Bucket B} {rs : List Record} {r : Record} (h : Appended b₀ rs r b)
    (hh : b₀.Holds rs) (hr : total Record.size rs + r.size ≤ B) : b.Holds (rs ++ [r]) :=
  hh.concat h.data h.bytesUsed hr

section Move

variable {c c₀ : Container B} {S : Shape} {L : List ℕ} {rest : List (List ℕ)} {d j k g : ℕ}
  {f0 f1 : Fill Record} {L₁ F : List ℕ} {v : SplitVars} {done todo : List Record} {r : Record}
  {E : Fault → Container B → Prop}

theorem moveRecord_runs (src : BytePtr) {p : BucketPtr} {rs : List Record}
    (hs : src.bucket.base = c.fileMap.start) (hsm : c.Mapped src.bucket.id)
    (hread : readBytes (c.layout.buckets src.bucket.id).data src.offset r.size = .ok r.encode)
    (hp : p.base = c.fileMap.start) (hm : c.Mapped p.id) (hr : total Record.size rs + r.size ≤ B) :
    Prog.Runs (moveRecord src r.size p ⟨p, total Record.size rs⟩) c
      (fun put c' => put = ⟨p, total Record.size (rs ++ [r])⟩ ∧
        ∃ b, c' = c.setBucket p.id b ∧ Appended (c.layout.buckets p.id) rs r b) E := by
  obtain ⟨b, hb, hw⟩ := Bucket.put_ok (b := c.layout.buckets p.id) (total Record.size rs) r.encode
    (by rw [r.length_encode]; exact hr)
  unfold moveRecord copy
  simp only [Prog.runs_bind]
  rw [runs_load hs hsm, hread, Prog.runs_lift_ok, runs_load hp hm, hb, Prog.runs_lift_ok,
    runs_store hp hm, Prog.runs_pure, runs_load (c := c.setBucket p.id b) hp hm, setBucket_self,
    runs_store (c := c.setBucket p.id b) hp hm, Prog.runs_pure]
  refine ⟨by simp [r.length_encode], { b with bytesUsed := b.bytesUsed + r.size }, ?_, hw.data, ?_,
    hw.nextBucketId, hw.prefixBits⟩
  · simp [setBucket]
  · show b.bytesUsed + r.size = _
    rw [hw.bytesUsed]

/-- The bytes of the record at the read cursor. -/
theorem Reading.readBytes (h : Reading L j g f0 done (r :: todo) c v) :
    readBytes (c.layout.buckets g).data (total Record.size done) r.size = .ok r.encode := by
  obtain ⟨t, ht⟩ := h.bytes
  have hlen := congrArg List.length ht
  simp only [packed_cons, List.length_append, List.length_drop, r.length_encode] at hlen
  have := h.fits
  simp only [total_append, total_cons] at this
  have hd := (c.layout.buckets g).length_data
  unfold DiskHash.readBytes
  rw [if_pos (by omega), ← ht, packed_cons, List.append_assoc, ← r.length_encode, List.take_left]

/-- The header of the record at the read cursor. -/
theorem Reading.readHeader (h : Reading L j g f0 done (r :: todo) c v) (hB : B < 2 ^ 31) :
    readHeader (c.layout.buckets g).data (total Record.size done) =
      .ok ⟨r.hash, r.key.length, r.value.length, total Record.size done + r.keyOffset⟩ := by
  obtain ⟨t, ht⟩ := h.bytes
  have hfits := h.fits
  simp only [total_append, total_cons] at hfits
  have hlen : ((c.layout.buckets g).data.take (total Record.size done)).length
      = total Record.size done := by
    have := (c.layout.buckets g).length_data
    simp
    omega
  have hat : (c.layout.buckets g).data = (c.layout.buckets g).data.take (total Record.size done) ++ r.encode ++
      (packed Record.encode todo ++ t) := by
    rw [packed_cons] at ht
    rw [List.append_assoc, ← List.append_assoc r.encode, ht, List.take_append_drop]
  have := Record.readHeader_encode hat (by omega)
  rwa [hlen] at this

end Move

/-! ### The buckets of the two chains -/

section Chains

variable {c c₀ c' : Container B} {S : Shape} {L : List ℕ} {rest : List (List ℕ)} {b1 d j k g i m n : ℕ}
  {f0 f1 : Fill Record} {L₁ F : List ℕ} {v : SplitVars} {done todo : List Record} {r : Record}

/-- Two positions of a list without repetitions that hold the same element are the same. -/
theorem index_unique {L : List ℕ} (hL : L.Nodup) (hm : L[m]? = some i) (hn : L[n]? = some i) : m = n := by
  obtain ⟨hlt, -⟩ := List.getElem?_eq_some_iff.mp hm
  exact (List.getElem?_inj hlt hL).mp (hm.trans hn.symm)

theorem concat_of_last {L : List ℕ} (hn : L[n]? = some i) (hlen : L.length = n + 1) :
    ∃ L₂, L = L₂ ++ [i] := by
  rcases List.eq_nil_or_concat L with rfl | ⟨L₂, x, rfl⟩
  · simp at hlen
  · obtain rfl : L₂.length = n := by simpa using hlen
    exact ⟨L₂, by simpa using hn⟩

namespace Splitting

theorem owned' (h : Splitting c₀ S L rest b1 d k f0 f1 L₁ F c) : c.Owned (L :: L₁ :: rest) F :=
  h.owned.perm_chains (List.Perm.swap _ _ _)

theorem nodup (h : Splitting c₀ S L rest b1 d k f0 f1 L₁ F c) : L.Nodup := h.owned'.nodup_head

theorem nodup1 (h : Splitting c₀ S L rest b1 d k f0 f1 L₁ F c) : L₁.Nodup := h.owned.nodup_head

theorem not_mem1 (h : Splitting c₀ S L rest b1 d k f0 f1 L₁ F c) (hi : i ∈ L) : i ∉ L₁ :=
  h.owned'.not_mem_chain hi (by simp)

theorem mapped0 (h : Splitting c₀ S L rest b1 d k f0 f1 L₁ F c) (hi : i ∈ L) : c.Mapped i :=
  h.owned.mapped_of_mem (L := L) (by simp) hi

theorem mapped1 (h : Splitting c₀ S L rest b1 d k f0 f1 L₁ F c) (hi : i ∈ L₁) : c.Mapped i :=
  h.owned.mapped_of_mem (L := L₁) (by simp) hi

/-- The head of the old chain is as deep as the new chain. -/
theorem broken {kernel : Kernel} (h : Splitting c₀ S L rest b1 d k f0 f1 L₁ F c) {e : Fault}
    (hc : Refused kernel c e c') :
    Broken kernel L d e c' := by
  refine ⟨hc.fault, hc.denied, fun i hi => ?_⟩
  rw [hc.layout]
  rw [List.head?_eq_getElem?] at hi
  exact h.depth0 0 i hi (Nat.zero_le _)

/-- A bucket is chained behind the new chain. -/
theorem extend {id : ℕ} (h : Splitting c₀ S L rest b1 d k f0 f1 L₁ F c) (f1' : Fill Record)
    (ho : c'.Owned ((L₁ ++ [id]) :: L :: rest) F.tail) (hx : c'.Extends c F L₁ id)
    (hb : (c'.layout.buckets id).prefixBits = d ∧ (c'.layout.buckets id).bytesUsed = 0)
    (hf : ∀ m, f1'.block m = f1.block m) (hlen : f1'.closed.length = f1.closed.length + 1) :
    Splitting c₀ S L rest b1 d k f0 f1' (L₁ ++ [id]) F.tail c' := by
  have hid : id ∉ L := fun hc => ho.not_mem_chain (i := id) (by simp) (T := L) (by simp) hc
  have hsame := fun (i : ℕ) (hi : i ∈ L) => hx.same i (fun hc => hid (hc ▸ hi))
  have hsame1 := fun (i : ℕ) (hi : i ∈ L₁) => hx.same i (fun hc => hx.notMem (hc ▸ hi))
  obtain ⟨hnext, hcount⟩ := Shape.supply_next h.free h.count hx.source
  refine ⟨ho, by rw [h.free, List.tail_drop, List.length_append]; rfl, fun m i hi hm => ?_,
    fun m i hi hm => ?_, fun m i hi => ?_, by rw [List.length_append, h.length1, hlen]; rfl, fun i hi => ?_,
    fun m i hi hm => ?_, fun i hi hi1 => ?_, by rw [List.length_append]; exact hcount, ?_, ?_⟩
  · exact (h.kept m i hi hm).congr (hsame i (List.mem_of_getElem? hi))
  · rw [(hsame i (List.mem_of_getElem? hi)).prefixBits]
    exact h.depth0 m i hi hm
  · rw [hf]
    rcases Nat.lt_or_ge m L₁.length with hm | hm
    · rw [List.getElem?_append_left hm] at hi
      exact (h.moved m i hi).congr (hsame1 i (List.mem_of_getElem? hi))
    · rw [List.getElem?_append_right hm] at hi
      obtain rfl : i = id := by simpa using List.mem_of_getElem? hi
      rw [Fill.block_eq_nil (by rw [h.length1] at hm; omega)]
      exact Bucket.holds_nil hb.2
  · rcases List.mem_append.mp hi with hi | hi
    · rw [(hsame1 i hi).prefixBits]
      exact h.depth1 i hi
    · rw [List.mem_singleton] at hi
      exact hi ▸ hb.1
  · exact (h.unread m i hi hm).congr (hsame i (List.mem_of_getElem? hi))
  · rw [List.mem_append, not_or, List.mem_singleton] at hi1
    rw [hx.others i hi1.2 hi1.1]
    exact h.frame i hi hi1.1
  · rw [List.head?_append, h.head1]
    rfl
  · rw [List.length_append, List.length_singleton, List.range_succ, List.map_append, ← h.supplied,
      List.map_singleton, ← hnext]

/-- A record is written to the last bucket of the new chain. -/
theorem append1 {b : Bucket B} (h : Splitting c₀ S L rest b1 d k f0 f1 L₁ F c)
    (hi : L₁[f1.closed.length]? = some i) (hb : Appended (c.layout.buckets i) f1.cur r b)
    (hr : total Record.size f1.cur + r.size ≤ B) :
    Splitting c₀ S L rest b1 d k f0 (f1.add r) L₁ F (c.setBucket i b) := by
  have hmem := List.mem_of_getElem? hi
  have hne := fun (x : ℕ) (hx : x ∈ L) => show x ≠ i from fun hc => h.not_mem1 hx (hc ▸ hmem)
  have hcur := h.moved _ i hi
  rw [Fill.block_cur] at hcur
  refine ⟨h.owned.setBucket hb.nextBucketId, h.free, fun m x hx hm => ?_, fun m x hx hm => ?_,
    fun m x hx => ?_, h.length1, fun x hx => ?_, fun m x hx hm => ?_, fun x hx hx1 => ?_, h.count,
    h.head1, h.supplied⟩
  · rw [setBucket_of_ne (hne x (List.mem_of_getElem? hx))]
    exact h.kept m x hx hm
  · rw [setBucket_of_ne (hne x (List.mem_of_getElem? hx))]
    exact h.depth0 m x hx hm
  · by_cases hm : m = f1.closed.length
    · subst hm
      obtain rfl : i = x := Option.some.inj (hi.symm.trans hx)
      rw [setBucket_self, Fill.block_add_cur]
      exact hb.holds hcur hr
    · have hxi : x ≠ i := fun hc => hm (index_unique h.nodup1 hx (hc ▸ hi))
      rw [setBucket_of_ne hxi, Fill.block_add_of_ne hm]
      exact h.moved m x hx
  · by_cases hxi : x = i
    · subst hxi
      rw [setBucket_self, hb.prefixBits]
      exact h.depth1 x hx
    · rw [setBucket_of_ne hxi]
      exact h.depth1 x hx
  · rw [setBucket_of_ne (hne x (List.mem_of_getElem? hx))]
    exact h.unread m x hx hm
  · rw [setBucket_of_ne (by rintro rfl; exact hx1 hmem)]
    exact h.frame x hx hx1

/-- A bucket of the old chain changes: the reader or the packing of this chain goes on there, and the other
buckets hold what they held. -/
theorem set0 {b : Bucket B} {f0' : Fill Record} {k' : ℕ} (h : Splitting c₀ S L rest b1 d k f0 f1 L₁ F c)
    (hi : L[n]? = some i) (hnext : b.nextBucketId = (c.layout.buckets i).nextBucketId)
    (hkept : n < k' → b.Holds (f0'.block n)) (hdepth : n ≤ f0'.closed.length → b.prefixBits = d)
    (hunread : k' ≤ n → b.Holds (S.recs i))
    (hothers : ∀ m, m ≠ n → (m < k' → m < k ∧ f0'.block m = f0.block m) ∧
      (m ≤ f0'.closed.length → m ≤ f0.closed.length) ∧ (k' ≤ m → k ≤ m)) :
    Splitting c₀ S L rest b1 d k' f0' f1 L₁ F (c.setBucket i b) := by
  have hmem := List.mem_of_getElem? hi
  have hne := fun (x : ℕ) (hx : x ∈ L₁) => show x ≠ i from fun hc => h.not_mem1 hmem (hc ▸ hx)
  -- the number of another bucket is another one
  have hmn : ∀ {m x : ℕ}, L[m]? = some x → x ≠ i → m ≠ n := fun hx hxi hc =>
    hxi (Option.some.inj (hx.symm.trans (hc ▸ hi)))
  refine ⟨h.owned.setBucket hnext, h.free, fun m x hx hm => ?_, fun m x hx hm => ?_, fun m x hx => ?_,
    h.length1, fun x hx => ?_, fun m x hx hm => ?_, fun x hx hx1 => ?_, h.count, h.head1, h.supplied⟩
  · by_cases hxi : x = i
    · subst hxi
      obtain rfl := index_unique h.nodup hx hi
      rw [setBucket_self]
      exact hkept hm
    · obtain ⟨hmk, hblock⟩ := (hothers m (hmn hx hxi)).1 hm
      rw [setBucket_of_ne hxi, hblock]
      exact h.kept m x hx hmk
  · by_cases hxi : x = i
    · subst hxi
      obtain rfl := index_unique h.nodup hx hi
      rw [setBucket_self]
      exact hdepth hm
    · rw [setBucket_of_ne hxi]
      exact h.depth0 m x hx ((hothers m (hmn hx hxi)).2.1 hm)
  · rw [setBucket_of_ne (hne x (List.mem_of_getElem? hx))]
    exact h.moved m x hx
  · rw [setBucket_of_ne (hne x hx)]
    exact h.depth1 x hx
  · by_cases hxi : x = i
    · subst hxi
      obtain rfl := index_unique h.nodup hx hi
      rw [setBucket_self]
      exact hunread hm
    · rw [setBucket_of_ne hxi]
      exact h.unread m x hx ((hothers m (hmn hx hxi)).2.2 hm)
  · rw [setBucket_of_ne (by rintro rfl; exact hx hmem)]
    exact h.frame x hx hx1

/-- A record is written to the current bucket of the old chain, which the reader has reached. -/
theorem append0 {b : Bucket B} (h : Splitting c₀ S L rest b1 d k f0 f1 L₁ F c)
    (hi : L[f0.closed.length]? = some i) (hk : f0.closed.length < k)
    (hb : Appended (c.layout.buckets i) f0.cur r b) (hr : total Record.size f0.cur + r.size ≤ B) :
    Splitting c₀ S L rest b1 d k (f0.add r) f1 L₁ F (c.setBucket i b) := by
  have hcur := h.kept _ i hi hk
  rw [Fill.block_cur] at hcur
  refine h.set0 hi hb.nextBucketId (fun _ => ?_) (fun _ => ?_) (fun hge => ?_)
    (fun m hm => ⟨fun hmk => ⟨hmk, Fill.block_add_of_ne hm r⟩, fun hle => hle, fun hge => hge⟩)
  · rw [Fill.block_add_cur]
    exact hb.holds hcur hr
  · rw [hb.prefixBits]
    exact h.depth0 _ i hi le_rfl
  · omega

/-- The writer of the old chain goes on to the next bucket, which the reader has reached. -/
theorem step0 {f0' : Fill Record} (h : Splitting c₀ S L rest b1 d k f0 f1 L₁ F c)
    (hi : L[f0.closed.length + 1]? = some i)
    (hf : ∀ m, f0'.block m = f0.block m) (hlen : f0'.closed.length = f0.closed.length + 1) :
    Splitting c₀ S L rest b1 d k f0' f1 L₁ F
      (c.setBucket i { c.layout.buckets i with prefixBits := d }) := by
  refine h.set0 hi rfl (fun hlt => ?_) (fun _ => rfl) (fun hge => ?_)
    (fun m hm => ⟨fun hmk => ⟨hmk, hf m⟩, fun hle => by omega, fun hge => hge⟩)
  · rw [hf]
    exact (h.kept _ i hi hlt).of_eq rfl rfl
  · exact (h.unread _ i hi hge).of_eq rfl rfl

/-- The reader takes the bucket number `k`. -/
theorem take (h : Splitting c₀ S L rest b1 d k f0 f1 L₁ F c) (hi : L[k]? = some i)
    (hb : f0.Behind Record.size k []) :
    Splitting c₀ S L rest b1 d (k + 1) f0 f1 L₁ F
      (c.setBucket i { c.layout.buckets i with bytesUsed := 0 }) := by
  -- the writer has put nothing there yet
  have hnil : f0.block k = [] := by
    rcases Nat.lt_or_ge f0.closed.length k with hlt | hge
    · exact Fill.block_eq_nil hlt
    · have hk : f0.closed.length = k := le_antisymm hb.1 hge
      have hcur := hb.2 hk
      rw [← hk, Fill.block_cur]
      refine List.eq_nil_iff_forall_not_mem.mpr (fun x hx => ?_)
      have := total_le_of_mem Record.size hx
      have := x.size_pos
      simp only [total_nil] at hcur
      omega
  refine h.set0 hi rfl (fun _ => ?_) (fun hle => h.depth0 k i hi hle) (fun hge => ?_)
    (fun m hm => ⟨fun hmk => ⟨by omega, rfl⟩, fun hle => hle, fun hge => by omega⟩)
  · rw [hnil]
    exact Bucket.holds_nil rfl
  · omega

end Splitting

/-- Reading survives what leaves the bytes and the address of the bucket being read. -/
theorem Reading.congr {v' : SplitVars} {f0' : Fill Record}
    (h : Reading L j g f0 done todo c v)
    (hd : (c'.layout.buckets g).data.drop (total Record.size done)
      = (c.layout.buckets g).data.drop (total Record.size done))
    (hp : v'.getBucketPtr = ⟨c'.fileMap.start, g⟩)
    (hg : v'.getPtr = ⟨⟨c'.fileMap.start, g⟩, total Record.size done⟩)
    (hb : f0'.Behind Record.size j done) : Reading L j g f0' done todo c' v' :=
  ⟨h.number, h.fits, hd ▸ h.bytes, hp, hg, hb⟩

/-- The record at the read cursor has been moved. -/
theorem Reading.advance {v' : SplitVars} {f0' : Fill Record}
    (h : Reading L j g f0 done (r :: todo) c v)
    (hd : (c'.layout.buckets g).data.drop (total Record.size done + r.size)
      = (c.layout.buckets g).data.drop (total Record.size done + r.size))
    (hp : v'.getBucketPtr = ⟨c'.fileMap.start, g⟩)
    (hg : v'.getPtr = ⟨⟨c'.fileMap.start, g⟩, total Record.size done + r.size⟩)
    (hb : f0'.Behind Record.size j (done ++ [r])) : Reading L j g f0' (done ++ [r]) todo c' v' := by
  refine ⟨h.number, by simpa using h.fits, ?_, hp, by simpa using hg, hb⟩
  obtain ⟨t, ht⟩ := h.bytes
  have hsize : total Record.size (done ++ [r]) = total Record.size done + r.size := by simp
  rw [hsize, hd, ← List.drop_drop, ← ht, packed_cons, List.append_assoc, ← r.length_encode,
    List.drop_left]
  exact List.prefix_append _ _

/-- The state of `split` between two records. -/
structure Between (c₀ : Container B) (S : Shape) (L : List ℕ) (rest : List (List ℕ)) (b1 d j g : ℕ)
    (f0 f1 : Fill Record) (done todo : List Record) (L₁ F : List ℕ) (c : Container B) (v : SplitVars) :
    Prop where
  splitting : Splitting c₀ S L rest b1 d (j + 1) f0 f1 L₁ F c
  cursors : Cursors L f0 f1 L₁ c v
  reading : Reading L j g f0 done todo c v

namespace Between

variable {kernel : Kernel}

theorem g_mem (h : Between c₀ S L rest b1 d j g f0 f1 done todo L₁ F c v) : g ∈ L :=
  List.mem_of_getElem? h.reading.number

theorem lt (h : Between c₀ S L rest b1 d j g f0 f1 done todo L₁ F c v) : f0.closed.length < j + 1 :=
  Nat.lt_succ_of_le h.reading.behind.1

/-- The current bucket of the old chain. -/
theorem load0 (h : Between c₀ S L rest b1 d j g f0 f1 done todo L₁ F c v) :
    c.Mapped v.bit0BucketId ∧ (c.layout.buckets v.bit0BucketId).Holds f0.cur := by
  refine ⟨h.splitting.mapped0 (List.mem_of_getElem? h.cursors.id0), ?_⟩
  have := h.splitting.kept _ _ h.cursors.id0 h.lt
  rwa [Fill.block_cur] at this

/-- The current bucket of the new chain. -/
theorem load1 (h : Between c₀ S L rest b1 d j g f0 f1 done todo L₁ F c v) :
    c.Mapped v.bit1BucketId ∧ (c.layout.buckets v.bit1BucketId).Holds f1.cur := by
  refine ⟨h.splitting.mapped1 (List.mem_of_getElem? h.cursors.id1), ?_⟩
  have := h.splitting.moved _ _ h.cursors.id1
  rwa [Fill.block_cur] at this

theorem makeRoom1_runs (h : Between c₀ S L rest b1 d j g f0 f1 done todo L₁ F c v) (r : Record) :
    Prog.Runs (makeRoom1 kernel d g r.size v) c
      (fun v' c' => ∃ L₁' F',
        Between c₀ S L rest b1 d j g f0 (f1.room Record.size B r) done todo L₁' F' c' v')
      (fun e c' => Broken kernel L d e c') := by
  obtain ⟨hm1, hh1⟩ := h.load1
  have hp1 : v.bit1BucketPtr.base = c.fileMap.start ∧ v.bit1BucketPtr.id = v.bit1BucketId := by
    rw [h.cursors.ptr1]
    exact ⟨rfl, rfl⟩
  unfold makeRoom1
  rw [Prog.runs_bind, runs_load hp1.1 (hp1.2 ▸ hm1), hp1.2, hh1.used]
  refine Prog.runs_ite (fun hfull => ?_) (fun hfits => ?_)
  · rw [Fill.room_full hfull]
    unfold chainBit1
    simp only [Prog.runs_bind, Prog.runs_check]
    rw [runs_load hp1.1 (hp1.2 ▸ hm1), hp1.2, hh1.used]
    refine ⟨fun _ => ?_, fun hne => absurd (by rw [h.cursors.put1]) hne⟩
    refine (createBucket_runs h.splitting.owned kernel d).mono ?_ (fun e c' => h.splitting.broken)
    rintro id c₁ ⟨ho, hc⟩
    obtain ⟨L₂, hL₂⟩ := concat_of_last h.cursors.id1 h.splitting.length1
    have hmem : v.bit1BucketId ∈ L₁ := List.mem_of_getElem? h.cursors.id1
    have hnot : id ∉ L₁ := hc.not_mem h.splitting.owned (by simp)
    have hnot0 : id ∉ L := hc.not_mem h.splitting.owned (by simp)
    have hx := hc.extends hmem hnot
    have ho' : (c₁.setBucket v.bit1BucketId { c₁.layout.buckets v.bit1BucketId with
        nextBucketId := some id }).Owned ((L₁ ++ [id]) :: L :: rest) F.tail := by
      have := ho.perm_chains (List.Perm.swap _ _ _)
      rw [hL₂] at this ⊢
      exact this.link rfl
    have hidb := hc.bucket
    have hidne : id ≠ v.bit1BucketId := fun he => hnot (he ▸ hmem)
    have hsplit := h.splitting.extend ⟨f1.closed ++ [f1.cur], []⟩ ho' hx
      (by rw [setBucket_of_ne hidne]; exact hidb)
      (fun m => by rw [← Fill.room_full hfull, Fill.block_room]) (by simp)
    have hm0 := hsplit.mapped0 (List.mem_of_getElem? h.cursors.id0)
    have hsame0 := hx.same v.bit0BucketId (fun he => hnot0 (he ▸ List.mem_of_getElem? h.cursors.id0))
    have hsameg := hx.same g (fun he => hnot0 (he ▸ h.g_mem))
    rw [runs_setNext (ho.mapped_of_mem (L := L₁) (by simp) hmem)]
    simp only [runs_bucketPtr]
    rw [runs_load rfl hm0]
    simp only [Prog.runs_pure]
    refine ⟨L₁ ++ [id], F.tail, hsplit, ⟨h.cursors.id0, ?_, rfl, rfl, ?_, rfl⟩, ?_⟩
    · simp [← h.splitting.length1]
    · simp only [hsame0.bytesUsed, h.load0.2.used]
    · refine h.reading.congr (by rw [hsameg.data]) rfl ?_ h.reading.behind
      rw [h.reading.ptr]
  · rw [Fill.room_fits hfits, Prog.runs_pure]
    exact ⟨L₁, F, h⟩

/-- The record at the read cursor fits into the bucket it is in. -/
theorem fits (h : Between c₀ S L rest b1 d j g f0 f1 done (r :: todo) L₁ F c v) :
    total Record.size (done ++ [r]) ≤ B := by
  have := h.reading.fits
  simp only [total_append, total_cons, total_nil] at *
  omega

/-- When the record at the read cursor does not fit behind the write cursor, the reader is in a later bucket, so
there is a next one, and it is empty. -/
theorem next0 (h : Between c₀ S L rest b1 d j g f0 f1 done (r :: todo) L₁ F c v)
    (hfull : B < total Record.size f0.cur + r.size) : ∃ i, L[f0.closed.length + 1]? = some i ∧
      (c.layout.buckets v.bit0BucketId).nextBucketId = some i ∧ (c.layout.buckets i).bytesUsed = 0 := by
  have hlt := h.reading.behind.lt_of_full h.fits hfull
  have hnext := (h.splitting.owned.linked L (by simp)).next_getElem? h.cursors.id0
  obtain ⟨i, hi⟩ : ∃ i, L[f0.closed.length + 1]? = some i := by
    obtain ⟨hj, -⟩ := List.getElem?_eq_some_iff.mp h.reading.number
    exact ⟨_, List.getElem?_eq_getElem (by omega)⟩
  have hused := (h.splitting.kept _ i hi (by omega)).used
  rw [Fill.block_eq_nil (Nat.lt_succ_self _)] at hused
  rw [hi] at hnext
  exact ⟨i, hi, hnext, hused⟩

/-- The writer of the old chain takes no bucket. -/
theorem makeRoom0_runs (h : Between c₀ S L rest b1 d j g f0 f1 done (r :: todo) L₁ F c v)
    {E : Fault → Container B → Prop} :
    Prog.Runs (makeRoom0 kernel d g r.size v) c
      (fun v' c' => Between c₀ S L rest b1 d j g (f0.room Record.size B r) f1 done (r :: todo) L₁ F c' v' ∧
        Untaken c c') E := by
  obtain ⟨hm0, hh0⟩ := h.load0
  have hp0 : v.bit0BucketPtr.base = c.fileMap.start ∧ v.bit0BucketPtr.id = v.bit0BucketId := by
    rw [h.cursors.ptr0]
    exact ⟨rfl, rfl⟩
  unfold makeRoom0
  rw [Prog.runs_bind, runs_load hp0.1 (hp0.2 ▸ hm0), hp0.2, hh0.used]
  refine Prog.runs_ite (fun hfull => ?_) (fun hfits => ?_)
  · have hbehind : Fill.Behind Record.size (f0.room Record.size B r) j done := h.reading.behind.room h.fits
    obtain ⟨i, hi, hnext, -⟩ := h.next0 hfull
    have hmi := h.splitting.mapped0 (List.mem_of_getElem? hi)
    rw [Fill.room_full hfull] at hbehind ⊢
    unfold chainBit0
    simp only [Prog.runs_bind, Prog.runs_check]
    rw [runs_load hp0.1 (hp0.2 ▸ hm0), hp0.2, hh0.used]
    refine ⟨fun _ => ?_, fun hne => absurd (by rw [h.cursors.put0]) hne⟩
    rw [hnext]
    simp only [Prog.runs_bind, runs_bucketPtr]
    rw [runs_load rfl hmi, runs_store rfl hmi]
    simp only [Prog.runs_pure]
    refine ⟨⟨h.splitting.step0 hi (fun m => by rw [← Fill.room_full hfull, Fill.block_room]) (by simp),
      ⟨by simpa using hi, h.cursors.id1, rfl, h.cursors.ptr1, rfl, h.cursors.put1⟩,
      h.reading.congr ?_ h.reading.bucketPtr h.reading.ptr hbehind⟩, Untaken.setBucket _ _ _⟩
    by_cases hgi : g = i
    · subst hgi
      rw [setBucket_self]
    · rw [setBucket_of_ne hgi]
  · rw [Fill.room_fits hfits, Prog.runs_pure]
    exact ⟨h, Untaken.refl c⟩

theorem moveToBit1_runs (h : Between c₀ S L rest b1 d j g f0 f1 done (r :: todo) L₁ F c v)
    (hr : total Record.size f1.cur + r.size ≤ B) {E : Fault → Container B → Prop} :
    Prog.Runs (moveToBit1 r.size v) c
      (fun v' c' => Between c₀ S L rest b1 d j g f0 (f1.add r) (done ++ [r]) todo L₁ F c' v') E := by
  have hmem := List.mem_of_getElem? h.cursors.id1
  have hgi : g ≠ v.bit1BucketId := fun he => h.splitting.not_mem1 h.g_mem (he ▸ hmem)
  unfold moveToBit1
  rw [Prog.runs_bind, h.reading.ptr, h.cursors.put1, h.cursors.ptr1]
  refine (moveRecord_runs ⟨⟨c.fileMap.start, g⟩, total Record.size done⟩
    (p := ⟨c.fileMap.start, v.bit1BucketId⟩) rfl (h.splitting.mapped0 h.g_mem) h.reading.readBytes
    rfl h.load1.1 hr).mono ?_ (fun _ _ he => he)
  rintro put c' ⟨rfl, b, rfl, hb⟩
  rw [Prog.runs_pure]
  refine ⟨h.splitting.append1 h.cursors.id1 hb hr,
    ⟨h.cursors.id0, h.cursors.id1, h.cursors.ptr0, rfl, h.cursors.put0, rfl⟩,
    h.reading.advance ?_ h.reading.bucketPtr rfl (h.reading.behind.skip r)⟩
  rw [setBucket_of_ne hgi]

theorem moveToBit0_runs (h : Between c₀ S L rest b1 d j g f0 f1 done (r :: todo) L₁ F c v)
    (hr : total Record.size f0.cur + r.size ≤ B) {E : Fault → Container B → Prop} :
    Prog.Runs (moveToBit0 r.size v) c
      (fun v' c' => Between c₀ S L rest b1 d j g (f0.add r) f1 (done ++ [r]) todo L₁ F c' v' ∧ Untaken c c') E := by
  unfold moveToBit0
  rw [Prog.runs_bind, h.reading.ptr, h.cursors.put0, h.cursors.ptr0]
  refine (moveRecord_runs ⟨⟨c.fileMap.start, g⟩, total Record.size done⟩
    (p := ⟨c.fileMap.start, v.bit0BucketId⟩) rfl (h.splitting.mapped0 h.g_mem) h.reading.readBytes
    rfl h.load0.1 hr).mono ?_ (fun _ _ he => he)
  rintro put c' ⟨rfl, b, rfl, hb⟩
  rw [Prog.runs_pure]
  refine ⟨⟨h.splitting.append0 h.cursors.id0 h.lt hb hr,
    ⟨h.cursors.id0, h.cursors.id1, rfl, h.cursors.ptr1, rfl, h.cursors.put1⟩,
    h.reading.advance ?_ h.reading.bucketPtr rfl (h.reading.behind.add r)⟩, Untaken.setBucket _ _ _⟩
  by_cases hgi : g = v.bit0BucketId
  · -- reader and writer are in one bucket, the writer at most where the reader is
    have hj : f0.closed.length = j :=
      index_unique h.splitting.nodup (hgi ▸ h.cursors.id0) h.reading.number
    have hle := h.reading.behind.2 hj
    rw [← hgi] at hb ⊢
    rw [setBucket_self, hb.data, drop_patch (by rw [r.length_encode]; omega)
      (by rw [(c.layout.buckets g).length_data]; omega)]
  · rw [setBucket_of_ne hgi]

end Between

/-! ### The loops -/

section Loops

variable {kernel : Kernel} {newBit : Hash}

theorem Between.size_le (h : Between c₀ S L rest b1 d j g f0 f1 done (r :: todo) L₁ F c v) : r.size ≤ B := by
  have := h.fits
  simp only [total_append, total_cons, total_nil] at this
  omega

/-- One turn of the inner loop, when the record at the read cursor is `r`. -/
theorem Between.runs_splitStep (hB : B < 2 ^ 31)
    (h : Between c₀ S L rest b1 d j g f0 f1 done (r :: todo) L₁ F c v)
    {Q : SplitVars → Container B → Prop} {E : Fault → Container B → Prop}
    (h1 : r.bit newBit = true → Prog.Runs (makeRoom1 kernel d g r.size v >>= moveToBit1 r.size) c Q E)
    (h0 : r.bit newBit = false → Prog.Runs (makeRoom0 kernel d g r.size v >>= moveToBit0 r.size) c Q E) :
    Prog.Runs (splitStep kernel d newBit g v) c Q E := by
  have hsize := r.size_eq
  have hlen : total Record.size done + r.keyOffset - total Record.size done + r.key.length
      + r.value.length = r.size := by omega
  unfold splitStep
  rw [Prog.runs_bind, h.reading.ptr, runs_load rfl (h.splitting.mapped0 h.g_mem), Prog.runs_bind]
  dsimp only
  rw [h.reading.readHeader hB, Prog.runs_lift_ok, Prog.runs_bind, Prog.runs_check]
  simp only [hlen]
  refine ⟨fun _ => ?_, fun hne => absurd rfl hne⟩
  exact Prog.runs_ite (fun hbit => h1 (decide_eq_true hbit)) (fun hbit => h0 (decide_eq_false hbit))

/-- A record of the half that keeps the chain is moved without a new bucket. -/
theorem splitStep_bit0_runs (hB : B < 2 ^ 31) {rs : List Record}
    (h : Between c₀ S L rest b1 d j g (half0 B newBit rs) (half1 B newBit rs) done (r :: todo) L₁ F c v)
    (hb : r.bit newBit = false) {E : Fault → Container B → Prop} :
    Prog.Runs (splitStep kernel d newBit g v) c
      (fun v' c' => Between c₀ S L rest b1 d j g (half0 B newBit (rs ++ [r]))
        (half1 B newBit (rs ++ [r])) (done ++ [r]) todo L₁ F c' v' ∧ Untaken c c') E := by
  refine h.runs_splitStep hB (fun hb1 => absurd (hb.symm.trans hb1) Bool.false_ne_true) (fun _ => ?_)
  rw [Prog.runs_bind, half0_push hb, half1_of_bit hb]
  refine h.makeRoom0_runs.mono ?_ (fun _ _ he => he)
  rintro v' c' ⟨h', hfree⟩
  exact (h'.moveToBit0_runs (Fill.total_room_le h.size_le)).mono
    (fun _ _ h'' => ⟨h''.1, hfree.trans h''.2⟩) (fun _ _ he => he)

/-- One turn of the inner loop moves one record. -/
theorem splitStep_runs (hB : B < 2 ^ 31) {rs : List Record}
    (h : Between c₀ S L rest b1 d j g (half0 B newBit rs) (half1 B newBit rs) done (r :: todo) L₁ F c v) :
    Prog.Runs (splitStep kernel d newBit g v) c
      (fun v' c' => ∃ L₁' F', Between c₀ S L rest b1 d j g (half0 B newBit (rs ++ [r]))
        (half1 B newBit (rs ++ [r])) (done ++ [r]) todo L₁' F' c' v')
      (fun e c' => Broken kernel L d e c') := by
  cases hb : r.bit newBit with
  | false => exact (splitStep_bit0_runs hB h hb).mono (fun _ _ h' => ⟨L₁, F, h'.1⟩) (fun _ _ he => he)
  | true =>
    refine h.runs_splitStep hB (fun _ => ?_) (fun hb0 => absurd (hb0.symm.trans hb) Bool.false_ne_true)
    rw [Prog.runs_bind, half0_of_bit hb, half1_push hb]
    refine (h.makeRoom1_runs r).mono ?_ (fun _ _ he => he)
    rintro v' c' ⟨L₁', F', h'⟩
    exact (h'.moveToBit1_runs (Fill.total_room_le h.size_le)).mono (fun _ _ h'' => ⟨L₁', F', h''⟩)
      (fun _ _ he => he)

/-- The inner loop moves the records of one bucket. -/
theorem splitRecords_runs (hB : B < 2 ^ 31) :
    ∀ (todo done rs : List Record) (fuel : ℕ) (L₁ F : List ℕ) (c : Container B) (v : SplitVars),
      Between c₀ S L rest b1 d j g (half0 B newBit rs) (half1 B newBit rs) done todo L₁ F c v →
      todo.length < fuel →
      Prog.Runs (splitRecords kernel d newBit g (total Record.size (done ++ todo)) fuel v) c
        (fun v' c' => ∃ L₁' F', Between c₀ S L rest b1 d j g (half0 B newBit (rs ++ todo))
          (half1 B newBit (rs ++ todo)) (done ++ todo) [] L₁' F' c' v')
        (fun e c' => Broken kernel L d e c')
  | _, _, _, 0, _, _, _, _, _, hf => by omega
  | [], done, rs, fuel + 1, L₁, F, c, v, h, _ => by
    rw [splitRecords, if_pos, Prog.runs_pure]
    · exact ⟨L₁, F, by simpa using h⟩
    · rw [h.reading.ptr, h.reading.bucketPtr]
      simp [BucketPtr.data, BytePtr.add]
  | r :: todo, done, rs, fuel + 1, L₁, F, c, v, h, hf => by
    rw [splitRecords, if_neg, Prog.runs_bind]
    · refine (splitStep_runs hB h).mono ?_ (fun _ _ he => he)
      rintro v' c' ⟨L₁', F', h'⟩
      have := splitRecords_runs hB todo (done ++ [r]) (rs ++ [r]) fuel L₁' F' c' v' h' (by simpa using hf)
      simpa using this
    · rw [h.reading.ptr, h.reading.bucketPtr]
      have := r.size_pos
      simp only [BucketPtr.data, BytePtr.add, BytePtr.mk.injEq, total_append, total_cons]
      omega

/-- The state of `split` between two buckets: those of `before` have been read, those of `after` have not. -/
structure AtBucket (c₀ : Container B) (S : Shape) (L : List ℕ) (rest : List (List ℕ)) (b1 d : ℕ) (newBit : Hash)
    (before after L₁ F : List ℕ) (c : Container B) (v : SplitVars) : Prop where
  chain : L = before ++ after
  splitting : Splitting c₀ S L rest b1 d before.length (half0 B newBit (before.flatMap S.recs))
    (half1 B newBit (before.flatMap S.recs)) L₁ F c
  cursors : Cursors L (half0 B newBit (before.flatMap S.recs)) (half1 B newBit (before.flatMap S.recs)) L₁ c v
  behind : (half0 B newBit (before.flatMap S.recs)).Behind Record.size before.length []

section AtBucket

variable {before after : List ℕ}

theorem AtBucket.number (h : AtBucket c₀ S L rest b1 d newBit before (g :: after) L₁ F c v) :
    L[before.length]? = some g := by
  rw [h.chain]
  simp

theorem AtBucket.load (h : AtBucket c₀ S L rest b1 d newBit before (g :: after) L₁ F c v) :
    c.Mapped g ∧ (c.layout.buckets g).Holds (S.recs g) :=
  ⟨h.splitting.mapped0 (List.mem_of_getElem? h.number), h.splitting.unread _ g h.number le_rfl⟩

/-- The reader takes a bucket. -/
theorem AtBucket.enter (h : AtBucket c₀ S L rest b1 d newBit before (g :: after) L₁ F c v) :
    Between c₀ S L rest b1 d before.length g (half0 B newBit (before.flatMap S.recs))
      (half1 B newBit (before.flatMap S.recs)) [] (S.recs g) L₁ F
      (c.setBucket g { c.layout.buckets g with bytesUsed := 0 })
      { v with getBucketPtr := ⟨c.fileMap.start, g⟩, getPtr := BucketPtr.data ⟨c.fileMap.start, g⟩ } := by
  have hc := h.cursors
  have hh := h.load.2
  refine ⟨h.splitting.take h.number h.behind, ⟨hc.id0, hc.id1, hc.ptr0, hc.ptr1, hc.put0, hc.put1⟩, h.number,
    by simpa using hh.used ▸ hh.le, ?_, rfl, rfl, h.behind⟩
  rw [setBucket_self]
  exact hh.bytes

/-- The reader leaves a bucket. -/
theorem Between.leave (hL : L = before ++ g :: after)
    (h : Between c₀ S L rest b1 d before.length g (half0 B newBit (before.flatMap S.recs ++ S.recs g))
      (half1 B newBit (before.flatMap S.recs ++ S.recs g)) (S.recs g) [] L₁ F c v) :
    (c.layout.buckets g).nextBucketId = after.head? ∧
      AtBucket c₀ S L rest b1 d newBit (before ++ [g]) after L₁ F c v := by
  have hnext := (h.splitting.owned.linked L (by simp)).next_getElem? h.reading.number
  have hafter : L[before.length + 1]? = after.head? := by
    rw [hL, List.getElem?_append_right (by omega)]
    cases after <;> simp
  have hflat : (before ++ [g]).flatMap S.recs = before.flatMap S.recs ++ S.recs g := by simp
  have hlen : (before ++ [g]).length = before.length + 1 := by simp
  refine ⟨hnext.trans hafter, by rw [hL]; simp, ?_, ?_, ?_⟩
  · rw [hflat, hlen]
    exact h.splitting
  · rw [hflat]
    exact h.cursors
  · rw [hflat, hlen]
    exact h.reading.behind.next

end AtBucket

/-- The outer loop moves the records of the whole chain. -/
theorem splitChain_runs (hB : B < 2 ^ 31) :
    ∀ (after before : List ℕ) (fuel : ℕ) (L₁ F : List ℕ) (c : Container B) (v : SplitVars),
      AtBucket c₀ S L rest b1 d newBit before after L₁ F c v →
      Prog.Runs (splitChain kernel d newBit fuel after.head? v) c
        (fun v' c' => ∃ L₁' F', AtBucket c₀ S L rest b1 d newBit L [] L₁' F' c' v')
        (fun e c' => Starved fuel after.length e ∨ Broken kernel L d e c')
  | [], before, fuel, L₁, F, c, v, h => by
    have hL : L = before := h.chain.trans (List.append_nil _)
    rw [← hL] at h
    cases fuel <;> exact ⟨L₁, F, h⟩
  | g :: after, before, 0, _, _, _, _, _ => Or.inl ⟨rfl, Nat.zero_le _⟩
  | g :: after, before, fuel + 1, L₁, F, c, v, h => by
    obtain ⟨hm, hh⟩ := h.load
    have hlen : (S.recs g).length ≤ B :=
      (length_le_total Record.size (fun r _ => r.size_pos)).trans (hh.used ▸ hh.le)
    have hused : (c.layout.buckets g).bytesUsed = total Record.size ([] ++ S.recs g) := by
      simpa using hh.used
    rw [List.head?_cons, splitChain]
    simp only [Prog.runs_bind, runs_bucketPtr]
    rw [runs_load rfl hm, runs_store rfl hm, hused]
    refine (splitRecords_runs hB (S.recs g) [] _ (B + 1) L₁ F _ _ h.enter (by omega)).mono ?_
      (fun _ _ he => Or.inr he)
    rintro v' c' ⟨L₁', F', h'⟩
    obtain ⟨hnext, hafter⟩ := h'.leave h.chain
    rw [runs_bucketAt (h'.splitting.mapped0 h'.g_mem), hnext]
    refine (splitChain_runs hB after (before ++ [g]) fuel L₁' F' c' v' hafter).mono (fun _ _ hq => hq)
      (fun e c'' he => ?_)
    rcases he with ⟨rfl, hf⟩ | he
    · exact Or.inl ⟨rfl, by simpa using hf⟩
    · exact Or.inr he

end Loops

/-- The empty buckets of a chain go to the free list. -/
theorem freeChain_runs {chains : List (List ℕ)} :
    ∀ (T : List ℕ) (fuel : ℕ) (F : List ℕ) (c : Container B), c.Owned (T :: chains) F →
      (∀ i ∈ T, (c.layout.buckets i).bytesUsed = 0) →
      Prog.Runs (freeChain fuel T.head?) c
        (fun _ c' => c'.Owned chains (T.reverse ++ F) ∧
          (∀ i, (c.layout.buckets i).SameBytes (c'.layout.buckets i)) ∧
          (∀ i, i ∉ T → c'.layout.buckets i = c.layout.buckets i) ∧
          c'.layout.bucketsCount = c.layout.bucketsCount)
        (fun e _ => Starved fuel T.length e)
  | [], fuel, F, c, h, _ => by
    have hpost : c.Owned chains F ∧ (∀ i, (c.layout.buckets i).SameBytes (c.layout.buckets i)) ∧
        (∀ i, i ∉ ([] : List ℕ) → c.layout.buckets i = c.layout.buckets i) ∧
        c.layout.bucketsCount = c.layout.bucketsCount :=
      ⟨Owned.nil_cons_iff.mp h, fun i => Bucket.SameBytes.refl _, fun _ _ => rfl, rfl⟩
    cases fuel <;> exact hpost
  | i :: T, 0, _, _, _, _ => ⟨rfl, Nat.zero_le _⟩
  | i :: T, fuel + 1, F, c, h, hz => by
    have hm := h.mapped_of_mem (L := i :: T) (by simp) (i := i) (by simp)
    have hnext : (c.layout.buckets i).nextBucketId = T.head? := by
      have hs := (h.linked (i :: T) (by simp)).2
      cases T with
      | nil => exact hs
      | cons k T => exact hs.1
    have hiT : i ∉ T := (List.nodup_cons.mp h.nodup_head).1
    rw [List.head?_cons, freeChain]
    simp only [Prog.runs_bind, runs_bucketPtr]
    rw [runs_load rfl hm, Prog.runs_check]
    refine ⟨fun _ => ?_, fun hne => absurd (hz i (by simp)) hne⟩
    rw [Prog.runs_get, runs_store rfl hm, Prog.runs_modify, hnext]
    refine (freeChain_runs T fuel (i :: F) _ (h.free_head rfl) (fun k hk => ?_)).mono ?_ (fun e _ he => ?_)
    · have hki : k ≠ i := by rintro rfl; exact hiT hk
      show ((c.setBucket i _).layout.buckets k).bytesUsed = 0
      rw [setBucket_of_ne hki]
      exact hz k (by simp [hk])
    · rintro _ c' ⟨ho, hsame, hother, hcount⟩
      refine ⟨by simpa using ho, fun k => ?_, fun k hk => ?_, hcount⟩
      · exact (sameBytes_setNext c i c.layout.firstFreeBucketId k).trans (hsame k)
      · rw [hother k (fun hc => hk (by simp [hc]))]
        show (c.setBucket i _).layout.buckets k = _
        rw [setBucket_of_ne (by rintro rfl; exact hk (by simp))]
    · exact ⟨he.1, by simpa using he.2⟩

/-- What a split of the chain `L` returns: the chain `L₁`, headed by `b1`, is new. -/
structure Splits (c : Container B) (S : Shape) (L : List ℕ) (rest : List (List ℕ)) (d : ℕ) (newBit : Hash)
    (L₁ F : List ℕ) (b1 : ℕ) (c' : Container B) : Prop where
  rep : c'.Rep (S.split B newBit L rest L₁ F)
  head1 : L₁.head? = some b1
  keep : S.keep B newBit L ≤ L.length
  length1 : L₁.length = (half1 B newBit (L.flatMap S.recs)).closed.length + 1
  depth : ∀ i, i ∈ L.take (S.keep B newBit L) ∨ i ∈ L₁ → (c'.layout.buckets i).prefixBits = d
  notMem : ∀ i ∈ L, i ∉ L₁
  free : F = S.free.drop L₁.length
  supplied : L₁ = (List.range L₁.length).map (S.supply c.layout.bucketsCount)
  frame : ∀ i, i ∉ L → i ∉ L₁ → c'.layout.buckets i = c.layout.buckets i
  count : c'.layout.bucketsCount = c.layout.bucketsCount + (L₁.length - S.free.length)

theorem Splits.count_le {newBit : Hash} {c' : Container B} (h : Splits c S L rest d newBit L₁ F b1 c') :
    c.layout.bucketsCount ≤ c'.layout.bucketsCount := by
  have := h.count
  omega

/-- The bucket of the old chain at position `m`. -/
theorem split_recs_old {newBit : Hash} (hL : L.Nodup) (hi : L[m]? = some i) :
    (S.split B newBit L rest L₁ F).recs i = (half0 B newBit (L.flatMap S.recs)).block m := by
  have hmem := List.mem_of_getElem? hi
  obtain ⟨hlt, hi⟩ := List.getElem?_eq_some_iff.mp hi
  show (if i ∈ L then _ else _) = _
  rw [if_pos hmem, ← hi, hL.idxOf_getElem]

/-- The bucket of the new chain at position `m`. -/
theorem split_recs_new {newBit : Hash} (hL : L₁.Nodup) (hi : L₁[m]? = some i) (hi0 : i ∉ L) :
    (S.split B newBit L rest L₁ F).recs i = (half1 B newBit (L.flatMap S.recs)).block m := by
  have hmem := List.mem_of_getElem? hi
  obtain ⟨hlt, hi⟩ := List.getElem?_eq_some_iff.mp hi
  show (if i ∈ L then _ else if i ∈ L₁ then _ else _) = _
  rw [if_neg hi0, if_pos hmem, ← hi, hL.idxOf_getElem]

theorem split_recs_other {newBit : Hash} (hi0 : i ∉ L) (hi1 : i ∉ L₁) :
    (S.split B newBit L rest L₁ F).recs i = S.recs i := by
  show (if i ∈ L then _ else if i ∈ L₁ then _ else _) = _
  rw [if_neg hi0, if_neg hi1]

/-- A chain whose buckets hold the blocks of a packing holds the packed records. -/
theorem flatMap_blocks {T : List ℕ} {recs : ℕ → List Record} {f : Fill Record}
    (hlen : T.length = f.closed.length + 1) (hrecs : ∀ m i, T[m]? = some i → recs i = f.block m) :
    T.flatMap recs = f.blocks.flatten := by
  rw [← f.flatMap_block, List.flatMap_def, List.flatMap_def]
  congr 1
  refine List.ext_getElem? (fun m => ?_)
  rw [List.getElem?_map, List.getElem?_map]
  rcases Nat.lt_or_ge m T.length with hm | hm
  · rw [List.getElem?_eq_getElem hm, List.getElem?_range (by omega)]
    exact congrArg some (hrecs m _ (List.getElem?_eq_getElem hm))
  · rw [List.getElem?_eq_none hm, List.getElem?_eq_none (by simpa [← hlen] using hm)]
    rfl

/-- The chain keeps the records without the new bit, in order. -/
theorem Splits.records0 {newBit : Hash} {c' : Container B} (h : Splits c S L rest d newBit L₁ F b1 c')
    (hL : L.Nodup) : (L.take (S.keep B newBit L)).flatMap (S.split B newBit L rest L₁ F).recs
      = (L.flatMap S.recs).filter fun r => !r.bit newBit := by
  refine (flatMap_blocks (f := half0 B newBit (L.flatMap S.recs)) ?_ (fun m i hi => ?_)).trans
    (nextFit_flatten _)
  · rw [List.length_take, Nat.min_eq_left h.keep]
    rfl
  · have hm : m < S.keep B newBit L := by
      have := (List.getElem?_eq_some_iff.mp hi).1
      rw [List.length_take] at this
      omega
    rw [List.getElem?_take_of_lt hm] at hi
    exact split_recs_old hL hi

/-- The new chain has the records with the new bit, in order. -/
theorem Splits.records1 {newBit : Hash} {c' : Container B} (h : Splits c S L rest d newBit L₁ F b1 c') :
    L₁.flatMap (S.split B newBit L rest L₁ F).recs
      = (L.flatMap S.recs).filter fun r => r.bit newBit := by
  refine (flatMap_blocks (f := half1 B newBit (L.flatMap S.recs)) h.length1 (fun m i hi => ?_)).trans
    (nextFit_flatten _)
  have hn : L₁.Nodup := (h.rep.owned.perm_chains (List.Perm.swap _ _ _)).nodup_head
  exact split_recs_new hn hi (fun hL => h.notMem i hL (List.mem_of_getElem? hi))

namespace Splitting

variable {x : ℕ}

/-- The buckets that are left of the old chain, and those of the new one, have the new depth. -/
theorem depth (h : Splitting c₀ S L rest b1 d k f0 f1 L₁ F c) (hx : x ∈ L.take (f0.closed.length + 1) ∨ x ∈ L₁) :
    (c.layout.buckets x).prefixBits = d := by
  rcases hx with hx | hx
  · obtain ⟨m, hm⟩ := List.mem_iff_getElem?.mp hx
    have hmlt : m < f0.closed.length + 1 := by
      have := (List.getElem?_eq_some_iff.mp hm).1
      rw [List.length_take] at this
      omega
    rw [List.getElem?_take_of_lt hmlt] at hm
    exact h.depth0 m x hm (by omega)
  · exact h.depth1 x hx

/-- No block is left for the buckets behind the last one of the packing. -/
theorem emptied (h : Splitting c₀ S L rest b1 d L.length f0 f1 L₁ F c) (hx : x ∈ L.drop (f0.closed.length + 1)) :
    (c.layout.buckets x).bytesUsed = 0 := by
  obtain ⟨m, hm⟩ := List.mem_iff_getElem?.mp hx
  rw [List.getElem?_drop] at hm
  have hlt := (List.getElem?_eq_some_iff.mp hm).1
  have hu := (h.kept _ x hm hlt).used
  rw [Fill.block_eq_nil (by omega)] at hu
  exact hu

theorem not_mem_rest (h : Splitting c₀ S L rest b1 d k f0 f1 L₁ F c) {T : List ℕ} (hT : T ∈ rest) (hx : x ∈ T) :
    x ∉ L ∧ x ∉ L₁ :=
  ⟨fun hL => h.owned'.not_mem_chain hL (by simp [hT]) hx, fun hL => h.owned.not_mem_chain hL (by simp [hT]) hx⟩

theorem not_mem_free (h : Splitting c₀ S L rest b1 d k f0 f1 L₁ F c) (hx : x ∈ F) : x ∉ L ∧ x ∉ L₁ :=
  ⟨fun hL => (h.owned'.not_mem hL).2 hx, fun hL => (h.owned.not_mem hL).2 hx⟩

theorem free_suffix (h : Splitting c₀ S L rest b1 d k f0 f1 L₁ F c) : F <:+ S.free := h.free ▸ List.drop_suffix _ _

/-- A bucket of neither chain is in another chain or on the free list, so it existed before. -/
theorem existed (h : Splitting c₀ S L rest b1 d k f0 f1 L₁ F c) (hrep : c₀.Rep S) (hS : S.chains = L :: rest)
    (hx : x < c.layout.bucketsCount) (hxL : x ∉ L) (hx1 : x ∉ L₁) : x < c₀.layout.bucketsCount := by
  rcases h.owned.mem_iff.mpr hx with hx | hx
  · rw [List.flatten_cons, List.flatten_cons, List.mem_append, List.mem_append] at hx
    rcases hx with hx | hx | hx
    · exact absurd hx hx1
    · exact absurd hx hxL
    · exact hrep.owned.mem_iff.mp (Or.inl (by rw [hS]; simp [List.mem_flatten.mp hx]))
  · exact hrep.owned.lt_of_mem_free (h.free_suffix.subset hx)

/-- The old chain is cut behind the bucket of its last block. -/
theorem cut (h : Splitting c₀ S L rest b1 d k f0 f1 L₁ F c) (hi : L[f0.closed.length]? = some i) :
    (c.setBucket i { c.layout.buckets i with nextBucketId := none }).Owned
      (L.drop (f0.closed.length + 1) :: L.take (f0.closed.length + 1) :: L₁ :: rest) F := by
  have htake : L.take f0.closed.length ++ [i] = L.take (f0.closed.length + 1) := by
    rw [List.take_add_one, hi]
    rfl
  have hL : L = L.take f0.closed.length ++ [i] ++ L.drop (f0.closed.length + 1) := by
    rw [htake, List.take_append_drop]
  have ho := h.owned'
  rw [hL] at ho
  have hcut := (ho.cut (b := { c.layout.buckets i with nextBucketId := none }) rfl).perm_chains
    (List.Perm.swap _ _ _)
  rwa [htake] at hcut

/-- All records are where they belong, once the buckets without a block are on the free list. -/
theorem splits {newBit : Hash} (hrep : c₀.Rep S) (hS : S.chains = L :: rest)
    (h : Splitting c₀ S L rest b1 d L.length (half0 B newBit (L.flatMap S.recs))
      (half1 B newBit (L.flatMap S.recs)) L₁ F c) (hkeep : S.keep B newBit L ≤ L.length)
    (ho : c'.Owned (S.split B newBit L rest L₁ F).chains (S.split B newBit L rest L₁ F).free)
    (hsame : ∀ x, (c.layout.buckets x).SameBytes (c'.layout.buckets x))
    (hother : ∀ x, x ∉ L → c'.layout.buckets x = c.layout.buckets x)
    (hcount : c'.layout.bucketsCount = c.layout.bucketsCount) : Splits c₀ S L rest d newBit L₁ F b1 c' := by
  have hframe : ∀ x, x ∉ L → x ∉ L₁ → c'.layout.buckets x = c₀.layout.buckets x := fun x hx hx1 =>
    (hother x hx).trans (h.frame x hx hx1)
  have hdepth : ∀ x, x ∈ L.take (S.keep B newBit L) ∨ x ∈ L₁ → (c'.layout.buckets x).prefixBits = d := fun x hx =>
    (hsame x).prefixBits.trans (h.depth hx)
  refine ⟨⟨ho, fun x hx => ?_, fun x hx => ?_, fun T hT x hx y hy => ?_⟩, h.head1, hkeep, h.length1, hdepth,
    fun _ => h.not_mem1, h.free, h.supplied, hframe, hcount.trans h.count⟩
  · by_cases hxL : x ∈ L
    · obtain ⟨m, hm⟩ := List.mem_iff_getElem?.mp hxL
      rw [split_recs_old h.nodup hm]
      exact (h.kept m x hm (List.getElem?_eq_some_iff.mp hm).1).congr (hsame x)
    · by_cases hx1 : x ∈ L₁
      · obtain ⟨m, hm⟩ := List.mem_iff_getElem?.mp hx1
        rw [split_recs_new h.nodup1 hm hxL]
        exact (h.moved m x hm).congr (hsame x)
      · rw [split_recs_other hxL hx1, hframe x hxL hx1]
        exact hrep.holds x (h.existed hrep hS (hcount ▸ hx) hxL hx1)
  · rcases List.mem_append.mp hx with hx | hx
    · rw [List.mem_reverse] at hx
      obtain ⟨m, hm⟩ := List.mem_iff_getElem?.mp hx
      rw [List.getElem?_drop] at hm
      rw [split_recs_old h.nodup hm]
      refine Fill.block_eq_nil ?_
      unfold Shape.keep
      omega
    · obtain ⟨hxL, hx1⟩ := h.not_mem_free hx
      rw [split_recs_other hxL hx1]
      exact hrep.freeEmpty x (h.free_suffix.subset hx)
  · rcases List.mem_cons.mp hT with rfl | hT
    · rw [hdepth x (Or.inl hx), hdepth y (Or.inl hy)]
    · rcases List.mem_cons.mp hT with rfl | hT
      · rw [hdepth x (Or.inr hx), hdepth y (Or.inr hy)]
      · obtain ⟨hxL, hx1⟩ := h.not_mem_rest hT hx
        obtain ⟨hyL, hy1⟩ := h.not_mem_rest hT hy
        rw [hframe x hxL hx1, hframe y hyL hy1]
        exact hrep.depth T (by rw [hS]; simp [hT]) x hx y hy

/-- The end of `split`: the old chain is cut behind its last block and the rest of it is freed. -/
theorem finish (kernel : Kernel) {newBit : Hash} (hrep : c₀.Rep S) (hS : S.chains = L :: rest)
    (h : Splitting c₀ S L rest b1 d L.length (half0 B newBit (L.flatMap S.recs))
      (half1 B newBit (L.flatMap S.recs)) L₁ F c)
    (hc : Cursors L (half0 B newBit (L.flatMap S.recs)) (half1 B newBit (L.flatMap S.recs)) L₁ c v)
    (fuel : ℕ) :
    Prog.Runs (splitEnd fuel b1 v) c
      (fun b c' => b = b1 ∧ ∃ F', Splits c₀ S L rest d newBit L₁ F' b1 c')
      (fun e c' => Starved fuel L.length e ∨ Broken kernel L d e c') := by
  have hkeep : S.keep B newBit L ≤ L.length := (List.getElem?_eq_some_iff.mp hc.id0).1
  have hmem := List.mem_of_getElem? hc.id0
  have hm := h.mapped0 hmem
  have hnext : (c.layout.buckets v.bit0BucketId).nextBucketId = (L.drop (S.keep B newBit L)).head? := by
    have := (h.owned.linked L (by simp)).next_getElem? hc.id0
    unfold next at this
    rw [this, List.head?_drop]
    rfl
  have hsame := sameBytes_setNext c v.bit0BucketId none
  unfold splitEnd
  rw [Prog.runs_bind, runs_load (by rw [hc.ptr0]) (by rw [hc.ptr0]; exact hm), Prog.runs_bind,
    runs_store (by rw [hc.ptr0]) (by rw [hc.ptr0]; exact hm), Prog.runs_bind, hc.ptr0, hnext]
  refine (freeChain_runs _ fuel F _ (h.cut hc.id0) fun x hx => (hsame x).bytesUsed.trans (h.emptied hx)).mono ?_
    (fun e c' he => Or.inl ⟨he.1, ?_⟩)
  · rintro _ c' ⟨ho, hsame', hother, hcount⟩
    rw [Prog.runs_pure]
    refine ⟨rfl, F, h.splits hrep hS hkeep ho (fun x => (hsame x).trans (hsame' x)) (fun x hx => ?_) hcount⟩
    rw [hother x (fun hd => hx (List.mem_of_mem_drop hd)), setBucket_of_ne (by rintro rfl; exact hx hmem)]
  · have := he.2
    rw [List.length_drop] at this
    omega

end Splitting

/-- The head of the chain has the new depth, the new chain is one empty bucket, and nothing has been read. -/
theorem Splitting.start {c₁ : Container B} {bucketId : ℕ} {T : List ℕ} (h : c.Rep S)
    (hS : S.chains = (bucketId :: T) :: rest) (newBit : Hash)
    (ho : c₁.Owned ([b1] :: (bucketId :: T) :: rest) S.free.tail)
    (hc : Created (c.setBucket bucketId { c.layout.buckets bucketId with prefixBits := d }) d S.free b1 c₁)
    (hb1 : b1 ∉ bucketId :: T) :
    Splitting c S (bucketId :: T) rest b1 d 0 (half0 B newBit []) (half1 B newBit []) [b1] S.free.tail c₁ := by
  have hfresh : ∀ i ∈ bucketId :: T, i ≠ b1 := by rintro i hi rfl; exact hb1 hi
  have hcreated : b1 = S.supply c.layout.bucketsCount 0 ∧
      c₁.layout.bucketsCount = c.layout.bucketsCount + (1 - S.free.length) :=
    Shape.supply_next List.drop_zero.symm (by show c.layout.bucketsCount = _; omega) hc.source
  refine ⟨ho, List.drop_one.symm, fun m i _ hm => absurd hm (Nat.not_lt_zero m), fun m i hi hm => ?_,
    fun m i hi => ?_, rfl, fun i hi => ?_, fun m i hi _ => ?_, fun i hi hi1 => ?_, hcreated.2, rfl,
    congrArg (fun i => [i]) hcreated.1⟩
  · obtain rfl : m = 0 := Nat.le_zero.mp hm
    obtain rfl : bucketId = i := by simpa using hi
    rw [hc.others _ (hfresh _ (by simp)), setBucket_self]
  · have hi' : i = b1 := by simpa using List.mem_of_getElem? hi
    have hm0 : m = 0 := by
      have := (List.getElem?_eq_some_iff.mp hi).1
      simpa using this
    subst hi' hm0
    exact Bucket.holds_nil hc.bucket.2
  · obtain rfl : i = b1 := by simpa using hi
    exact hc.bucket.1
  · have hmem := List.mem_of_getElem? hi
    have hholds := h.holds_of_mem (by rw [hS]; simp) hmem
    rw [hc.others _ (hfresh i hmem)]
    by_cases hib : i = bucketId
    · subst hib
      rw [setBucket_self]
      exact hholds.of_eq rfl rfl
    · rwa [setBucket_of_ne hib]
  · rw [hc.others i (by simpa using hi1), setBucket_of_ne (by rintro rfl; exact hi (by simp))]

/-- The loops of `split` begin before the first bucket, unless the new depth is more than a hash has bits. -/
theorem splitStart_runs (h : c.Rep S) (kernel : Kernel) (hS : S.chains = L :: rest) {bucketId p : ℕ}
    (hhead : L.head? = some bucketId) (hp : (c.layout.buckets bucketId).prefixBits = p) :
    Prog.Runs (splitStart kernel bucketId) c
      (fun setup c₁ => p < hashBits ∧ setup.prefixBits = p + 1 ∧ setup.newBit = 1#32 <<< (hashBits - (p + 1)) ∧
        ∃ F, AtBucket c S L rest setup.vars.bit1BucketId (p + 1) setup.newBit [] L [setup.vars.bit1BucketId] F c₁
          setup.vars)
      (fun e c' => Broken kernel L (p + 1) e c' ∨ e = .badShift ∧ hashBits ≤ p) := by
  have hLmem : L ∈ S.chains := by rw [hS]; simp
  obtain ⟨T, rfl⟩ : ∃ T, L = bucketId :: T := by
    cases L with
    | nil => simp at hhead
    | cons i T => exact ⟨T, by simpa using hhead⟩
  have hm := h.mapped hLmem (i := bucketId) (by simp)
  have ho : (c.setBucket bucketId { c.layout.buckets bucketId with prefixBits := p + 1 }).Owned
      ((bucketId :: T) :: rest) S.free := by
    have := h.owned
    rw [hS] at this
    exact this.setBucket rfl
  unfold splitStart
  simp only [Prog.runs_bind, runs_bucketPtr]
  rw [runs_load rfl hm, hp, runs_store rfl hm]
  refine (createBucket_runs ho kernel (p + 1)).mono ?_ (fun e c' hr => Or.inl ?_)
  · rintro b1 c₁ ⟨ho₁, hc⟩
    by_cases hp32 : p + 1 ≤ hashBits
    · rw [if_pos hp32, oneShl, if_pos (show hashBits - (p + 1) < hashBits by unfold hashBits; omega),
        Prog.runs_lift_ok]
      have hsplit := Splitting.start h hS (1#32 <<< (hashBits - (p + 1))) ho₁ hc (hc.not_mem ho (by simp))
      exact ⟨hp32, rfl, rfl, S.free.tail, rfl, hsplit, ⟨rfl, rfl, rfl, rfl, rfl, rfl⟩, behind_start⟩
    · rw [if_neg hp32]
      exact Or.inr ⟨rfl, by omega⟩
  · refine ⟨hr.fault, hr.denied, fun i hi => ?_⟩
    obtain rfl : bucketId = i := by simpa using hi
    rw [hr.layout, setBucket_self]

end Chains

/-- `split` distributes the records of a chain over the chain and a new one; a chain that is as deep as a hash has
bits cannot be split. -/
theorem split_ends (hB : B < 2 ^ 31) {c : Container B} {S : Shape} (h : c.Rep S) (kernel : Kernel)
    {L : List ℕ} {rest : List (List ℕ)} (hS : S.chains = L :: rest) {bucketId : ℕ}
    (hhead : L.head? = some bucketId) {p : ℕ} (hp : (c.layout.buckets bucketId).prefixBits = p) (fuel : ℕ) :
    Prog.Runs (split kernel fuel bucketId) c
      (fun b1 c' => ∃ L₁ F, Splits c S L rest (p + 1) (1#32 <<< (hashBits - (p + 1))) L₁ F b1 c')
      (fun e c' => (Starved fuel L.length e ∨ Broken kernel L (p + 1) e c') ∨ e = .badShift ∧ hashBits ≤ p) := by
  rw [split_eq, Prog.runs_bind]
  refine (splitStart_runs h kernel hS hhead hp).mono ?_ (fun e c' he => he.imp Or.inr id)
  rintro ⟨d, newBit, v₀⟩ c₁ ⟨-, rfl, rfl, F, hat⟩
  rw [Prog.runs_bind, ← hhead]
  refine (splitChain_runs hB L [] fuel _ F c₁ v₀ hat).mono ?_ (fun e c' he => Or.inl he)
  rintro v c₂ ⟨L₁, F₂, h₂⟩
  refine (h₂.splitting.finish kernel h hS h₂.cursors fuel).mono ?_ (fun e c' he => Or.inl he)
  rintro b1 c' ⟨rfl, F', hq⟩
  exact ⟨L₁, F', hq⟩

theorem split_runs (hB : B < 2 ^ 31) {c : Container B} {S : Shape} (h : c.Rep S) (kernel : Kernel)
    {L : List ℕ} {rest : List (List ℕ)} (hS : S.chains = L :: rest) {bucketId : ℕ}
    (hhead : L.head? = some bucketId) {p : ℕ} (hp : (c.layout.buckets bucketId).prefixBits = p)
    (hp32 : p < hashBits) (fuel : ℕ) :
    Prog.Runs (split kernel fuel bucketId) c
      (fun b1 c' => ∃ L₁ F, Splits c S L rest (p + 1) (1#32 <<< (hashBits - (p + 1))) L₁ F b1 c')
      (fun e c' => Starved fuel L.length e ∨ Broken kernel L (p + 1) e c') := by
  refine (split_ends hB h kernel hS hhead hp fuel).mono (fun _ _ hq => hq) ?_
  rintro e c' (he | ⟨-, hp⟩)
  · exact he
  · omega

end Container

end DiskHash
