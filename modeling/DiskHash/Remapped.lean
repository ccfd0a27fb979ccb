import DiskHash.Iteration
import DiskHash.Reopen

/-!
# DiskHash.Remapped — the same files behind other mappings

What an operation does to the bytes of the files does not depend on how much of them is mapped, nor on where the
mappings start, as long as it returns: one that grows a file may have to `resize` the mapping here and not there, and
a pointer is a bucket's id behind another address.  So an operation that returns behind one mapping returns the same
behind the other and leaves the same bytes, or it asks for memory that is not mapped there.
-/

namespace DiskHash

/-- How an operation ends that goes on behind the other mapping: it leaves its own mapping, the system refuses to make
it longer, or the turns it was given run out. -/
inductive Lost : Fault → Prop
  | outOfBounds : Lost .outOfBounds
  | systemError : Lost .systemError
  | outOfFuel : Lost .outOfFuel

section Remapped

variable {B : ℕ} (kernel kernel' : Kernel) (fuel fuel' : ℕ) (hash : Hash) (key : Bytes)

/-! ### The catalogue -/

namespace Catalogue

/-- The same file. -/
def Same (c c' : Catalogue) : Prop := c.layout = c'.layout

theorem entry_follows (i : ℕ) : (entry i).Follows Same Eq Lost (entry i) :=
  Prog.follows_get.bind fun _ _ hc => (Prog.follows_excused _ _ .outOfBounds).bind fun _ _ _ =>
    Prog.follows_pure (by rw [hc])

theorem relayout_follows (f : CatalogueLayout → CatalogueLayout) :
    (Prog.modify fun c => { c with layout := f c.layout } : Prog Fault Catalogue Unit).Follows Same Eq Lost
      (Prog.modify fun c => { c with layout := f c.layout }) := Prog.follows_modify fun _ _ hc => congrArg f hc

theorem setEntry_follows (i value : ℕ) : (setEntry i value).Follows Same Eq Lost (setEntry i value) :=
  Prog.follows_get.bind fun _ _ _ => (Prog.follows_excused _ _ .outOfBounds).bind fun _ _ _ =>
    relayout_follows fun l => { l with buffer := Function.update l.buffer i value }

theorem index_follows {c c' : Catalogue} (h : c.Same c') :
    (Prog.lift (c.index hash) : Prog Fault Catalogue ℕ).Follows Same Eq Lost (Prog.lift (c'.index hash)) := by
  have hindex : c.index hash = c'.index hash := by
    unfold index
    rw [h]
  rw [hindex]
  exact Prog.follows_lift _

theorem find_follows : (find hash).Follows Same Eq Lost (find hash) := by
  refine Prog.follows_get.bind fun c c' hc => (index_follows hash hc).bind ?_
  rintro i _ rfl
  exact entry_follows i

theorem fillEntries_follows (value count put : ℕ) :
    (fillEntries value count put).Follows Same Eq Lost (fillEntries value count put) := by
  induction count generalizing put with
  | zero => exact Prog.follows_pure rfl
  | succ count ih => exact (setEntry_follows _ _).bind fun _ _ _ => ih _

theorem set_follows (offset value : ℕ) : (set hash offset value).Follows Same Eq Lost (set hash offset value) := by
  refine Prog.follows_get.bind fun c c' hc => (Prog.follows_check _ id).bind fun _ _ _ =>
    (index_follows _ hc).bind ?_
  rintro put _ rfl
  rw [show c'.layout = c.layout from hc.symm]
  exact (Prog.follows_check _ id).bind fun _ _ _ => fillEntries_follows _ _ _

theorem doubleEntries_follows (n get put : ℕ) :
    (doubleEntries n get put).Follows Same Eq Lost (doubleEntries n get put) := by
  induction n generalizing get put with
  | zero => exact Prog.follows_pure rfl
  | succ n ih =>
    refine (entry_follows _).bind ?_
    rintro value _ rfl
    refine (setEntry_follows _ _).bind fun _ _ _ => (entry_follows _).bind ?_
    rintro value _ rfl
    exact (setEntry_follows _ _).bind fun _ _ _ => ih _ _

theorem resize_follows (length : ℕ) : (resize kernel length).Follows Same Eq Lost (resize kernel' length) :=
  Prog.follows_of_runs
    (fun c => (resize_runs kernel _ c).mono (fun _ _ h => h.1) fun _ _ he => by rw [he.1]; exact .systemError)
    (fun c => (resize_runs kernel' _ c).mono (fun _ _ h => h.1) fun _ _ _ => trivial)
    fun _ _ _ _ h hs ht => (hs.trans h).trans ht.symm

theorem split_follows : (split kernel).Follows Same Eq Lost (split kernel') := by
  refine Prog.follows_get.bind fun c c' hc => ?_
  rw [show c'.layout = c.layout from hc.symm]
  refine (relayout_follows fun l => { l with
    prefixBits := l.prefixBits + 1, prefixShift := l.prefixShift - 1 }).bind fun _ _ _ =>
      (Prog.follows_check _ id).bind fun _ _ _ => (Prog.follows_lift _).bind ?_
  rintro newBit _ rfl
  refine (relayout_follows fun l => { l with
    prefixMask := l.prefixMask ||| newBit, bufferSize := c.layout.bufferSize * 2 }).bind fun _ _ _ =>
      (resize_follows kernel kernel' _).bind fun _ _ _ => ?_
  exact doubleEntries_follows _ _ _

end Catalogue

/-! ### The container -/

/-- Pointers to the same bucket. -/
def BucketPtr.Alike (p p' : BucketPtr) : Prop := p.id = p'.id

/-- Pointers to the same byte. -/
def BytePtr.Alike (p p' : BytePtr) : Prop := p.bucket.Alike p'.bucket ∧ p.offset = p'.offset

/-- A pointer into a bucket is the one at `n` when that is its offset. -/
theorem BytePtr.eq_add_iff {ptr : BytePtr} {p : BucketPtr} (h : ptr.bucket = p) {n : ℕ} :
    ptr = p.data.add n ↔ ptr.offset = n := by
  subst h
  unfold BucketPtr.data BytePtr.add
  rw [Nat.zero_add]
  exact ⟨fun he => congrArg BytePtr.offset he, fun he => by rw [← he]⟩

namespace Container

/-- The same file. -/
def Same (c c' : Container B) : Prop := c.layout = c'.layout

variable {p p' : BucketPtr}

theorem relayout_follows (f : Layout B → Layout B) :
    (Prog.modify fun c => { c with layout := f c.layout } : Prog Fault (Container B) Unit).Follows Same Eq Lost
      (Prog.modify fun c => { c with layout := f c.layout }) := Prog.follows_modify fun _ _ hc => congrArg f hc

theorem bucketPtr_follows (id : ℕ) :
    (bucketPtr id : Prog Fault (Container B) BucketPtr).Follows Same BucketPtr.Alike Lost
      (bucketPtr id : Prog Fault (Container B) BucketPtr) :=
  Prog.follows_get.bind fun _ _ _ => Prog.follows_pure rfl

theorem load_follows (hp : p.Alike p') :
    (load p : Prog Fault (Container B) (Bucket B)).Follows Same Eq Lost (load p') :=
  Prog.follows_get.bind fun _ _ hc => (Prog.follows_excused _ _ .outOfBounds).bind fun _ _ _ =>
    Prog.follows_pure (by rw [hc, hp])

theorem store_follows (hp : p.Alike p') (b : Bucket B) : (store p b).Follows Same Eq Lost (store p' b) := by
  refine Prog.follows_get.bind fun _ _ _ => (Prog.follows_excused _ _ .outOfBounds).bind fun _ _ _ => ?_
  rw [show p'.id = p.id from hp.symm]
  exact relayout_follows fun l => { l with buckets := Function.update l.buckets p.id b }

theorem bucketAt_follows (id : ℕ) :
    (bucketAt id : Prog Fault (Container B) (Bucket B)).Follows Same Eq Lost (bucketAt id) :=
  (bucketPtr_follows id).bind fun _ _ hp => load_follows hp

theorem setNext_follows (id : ℕ) (next : Option ℕ) :
    (setNext id next : Prog Fault (Container B) Unit).Follows Same Eq Lost (setNext id next) := by
  refine (bucketPtr_follows id).bind fun p p' hp => (load_follows hp).bind ?_
  rintro bucket _ rfl
  exact store_follows hp _

theorem setFirstFree_follows (id : Option ℕ) :
    (Prog.modify fun c => c.setFirstFree id : Prog Fault (Container B) Unit).Follows Same Eq Lost
      (Prog.modify fun c => c.setFirstFree id) := relayout_follows fun l => { l with firstFreeBucketId := id }

theorem reserve_follows (bytesNeeded : ℕ) :
    (reserve kernel bytesNeeded : Prog Fault (Container B) Unit).Follows Same Eq Lost (reserve kernel' bytesNeeded) :=
  Prog.follows_of_runs
    (fun c => (reserve_runs kernel _ c).mono (fun _ _ h => h.1) fun _ _ he => by rw [he.fault]; exact .systemError)
    (fun c => (reserve_runs kernel' _ c).mono (fun _ _ h => h.1) fun _ _ _ => trivial)
    fun _ _ _ _ h hs ht => (hs.trans h).trans ht.symm

theorem takeBucketId_follows :
    (takeBucketId kernel : Prog Fault (Container B) ℕ).Follows Same Eq Lost (takeBucketId kernel') := by
  refine Prog.follows_get.bind fun c c' hc => ?_
  rw [show c'.layout = c.layout from hc.symm]
  cases c.layout.firstFreeBucketId with
  | none =>
    exact (reserve_follows kernel kernel' _).bind fun _ _ _ =>
      (relayout_follows fun l => { l with bucketsCount := l.bucketsCount + 1 }).bind fun _ _ _ => Prog.follows_pure rfl
  | some id =>
    refine (bucketAt_follows id).bind ?_
    rintro bucket _ rfl
    exact (setFirstFree_follows _).bind fun _ _ _ => Prog.follows_pure rfl

theorem createBucket_follows (prefixBits : ℕ) :
    (createBucket kernel prefixBits : Prog Fault (Container B) ℕ).Follows Same Eq Lost
      (createBucket kernel' prefixBits) := by
  refine (takeBucketId_follows kernel kernel').bind ?_
  rintro id _ rfl
  refine (bucketPtr_follows id).bind fun p p' hp => (load_follows hp).bind ?_
  rintro bucket _ rfl
  exact (store_follows hp _).bind fun _ _ _ => Prog.follows_pure rfl

theorem bucketToSplit_follows (id : ℕ) :
    (bucketToSplit id : Prog Fault (Container B) Bool).Follows Same Eq Lost (bucketToSplit id) := by
  refine (bucketAt_follows id).bind ?_
  rintro first _ rfl
  cases first.nextBucketId with
  | none => exact Prog.follows_pure rfl
  | some next =>
    refine (bucketAt_follows next).bind ?_
    rintro second _ rfl
    exact Prog.Follows.ite Iff.rfl (Prog.follows_pure rfl) (Prog.follows_pure rfl)

/-! #### Records -/

theorem findRoom_follows (required bucketId : ℕ) (hp : p.Alike p') :
    (findRoom kernel required fuel bucketId p : Prog Fault (Container B) BucketPtr).Follows Same BucketPtr.Alike Lost
      (findRoom kernel' required fuel' bucketId p') := by
  induction fuel generalizing fuel' bucketId p p' with
  | zero => exact Prog.follows_throw .outOfFuel _
  | succ fuel ih =>
    cases fuel' with
    | zero => exact Prog.follows_thrown _ _
    | succ fuel' =>
      refine (load_follows hp).bind ?_
      rintro bucket _ rfl
      refine Prog.Follows.ite Iff.rfl ?_ (Prog.follows_pure hp)
      cases bucket.nextBucketId with
      | none =>
        refine (createBucket_follows kernel kernel' _).bind ?_
        rintro id _ rfl
        exact (setNext_follows _ _).bind fun _ _ _ => (bucketPtr_follows id).bind fun _ _ hp => ih _ _ hp
      | some next => exact (bucketPtr_follows next).bind fun _ _ hp => ih _ _ hp

theorem writeRecord_follows (hp : p.Alike p') (value : Bytes) :
    (writeRecord p hash key value : Prog Fault (Container B) View).Follows Same Eq Lost
      (writeRecord p' hash key value) := by
  refine (load_follows hp).bind ?_
  rintro bucket _ rfl
  refine (Prog.follows_lift _).bind ?_
  rintro r _ rfl
  refine (Prog.follows_lift _).bind ?_
  rintro r _ rfl
  refine (Prog.follows_lift _).bind ?_
  rintro r _ rfl
  refine (Prog.follows_lift _).bind ?_
  rintro cursor _ rfl
  refine (Prog.follows_lift _).bind ?_
  rintro r _ rfl
  exact (store_follows hp _).bind fun _ _ _ => Prog.follows_pure (by rw [hp])

theorem createRecord_follows (bucketId : ℕ) (value : Bytes) :
    (createRecord kernel fuel bucketId hash key value : Prog Fault (Container B) View).Follows Same Eq Lost
      (createRecord kernel' fuel' bucketId hash key value) :=
  (bucketPtr_follows bucketId).bind fun _ _ hp =>
    (findRoom_follows kernel kernel' fuel fuel' _ _ hp).bind fun _ _ hp => writeRecord_follows hash key hp value

theorem readRecord_follows (bucketId byteOffset : ℕ) :
    (readRecord bucketId byteOffset : Prog Fault (Container B) (Option (RecordView × ℕ))).Follows Same Eq Lost
      (readRecord bucketId byteOffset) := by
  refine (bucketAt_follows bucketId).bind ?_
  rintro bucket _ rfl
  refine Prog.Follows.ite Iff.rfl (Prog.follows_pure rfl) ((Prog.follows_lift _).bind ?_)
  rintro h _ rfl
  exact Prog.follows_pure rfl

theorem findRecord_follows (head : Option ℕ) :
    (findRecord hash key fuel head : Prog Fault (Container B) (Option View)).Follows Same Eq Lost
      (findRecord hash key fuel' head) := by
  induction fuel generalizing fuel' head with
  | zero =>
    cases head with
    | none => cases fuel' <;> exact Prog.follows_pure rfl
    | some id => exact Prog.follows_throw .outOfFuel _
  | succ fuel ih =>
    cases head with
    | none => cases fuel' <;> exact Prog.follows_pure rfl
    | some id =>
      cases fuel' with
      | zero => exact Prog.follows_thrown _ _
      | succ fuel' =>
        refine (bucketAt_follows id).bind ?_
        rintro bucket _ rfl
        refine (Prog.follows_lift _).bind ?_
        rintro found _ rfl
        cases found with
        | none => exact ih _ _
        | some h => exact Prog.follows_pure rfl

theorem eraseRecord_follows (bucketId recordStart recordLength : ℕ) :
    (eraseRecord bucketId recordStart recordLength : Prog Fault (Container B) Unit).Follows Same Eq Lost
      (eraseRecord bucketId recordStart recordLength) := by
  refine (bucketPtr_follows bucketId).bind fun p p' hp => (load_follows hp).bind ?_
  rintro bucket _ rfl
  refine (Prog.follows_lift _).bind ?_
  rintro bs _ rfl
  refine (Prog.follows_lift _).bind ?_
  rintro r _ rfl
  exact store_follows hp _

theorem removeRecord_follows (head : Option ℕ) :
    (removeRecord hash key fuel head : Prog Fault (Container B) Bool).Follows Same Eq Lost
      (removeRecord hash key fuel' head) := by
  induction fuel generalizing fuel' head with
  | zero =>
    cases head with
    | none => cases fuel' <;> exact Prog.follows_pure rfl
    | some id => exact Prog.follows_throw .outOfFuel _
  | succ fuel ih =>
    cases head with
    | none => cases fuel' <;> exact Prog.follows_pure rfl
    | some id =>
      cases fuel' with
      | zero => exact Prog.follows_thrown _ _
      | succ fuel' =>
        refine (bucketAt_follows id).bind ?_
        rintro bucket _ rfl
        refine (Prog.follows_lift _).bind ?_
        rintro found _ rfl
        cases found with
        | none => exact ih _ _
        | some found => exact (eraseRecord_follows _ _ _).bind fun _ _ _ => Prog.follows_pure rfl

/-! #### Splitting a chain -/

/-- The variables mean the same buckets and bytes; `get_ptr` points into the bucket of `get_bucket_ptr`. -/
structure SplitVars.Alike (v v' : SplitVars) : Prop where
  bit0BucketId : v.bit0BucketId = v'.bit0BucketId
  bit1BucketId : v.bit1BucketId = v'.bit1BucketId
  bit0BucketPtr : v.bit0BucketPtr.Alike v'.bit0BucketPtr
  bit1BucketPtr : v.bit1BucketPtr.Alike v'.bit1BucketPtr
  bit0BucketPut : v.bit0BucketPut.Alike v'.bit0BucketPut
  bit1BucketPut : v.bit1BucketPut.Alike v'.bit1BucketPut
  getBucketPtr : v.getBucketPtr.Alike v'.getBucketPtr
  offset : v.getPtr.offset = v'.getPtr.offset
  within : v.getPtr.bucket = v.getBucketPtr
  within' : v'.getPtr.bucket = v'.getBucketPtr

variable {v v' : SplitVars} (prefixBits getBucketId recordLength : ℕ) (newBit : Hash)

theorem SplitVars.Alike.getPtr (h : v.Alike v') : v.getPtr.Alike v'.getPtr :=
  ⟨by rw [h.within, h.within']; exact h.getBucketPtr, h.offset⟩

theorem chainBit1_follows (h : v.Alike v') :
    (chainBit1 kernel prefixBits getBucketId v : Prog Fault (Container B) SplitVars).Follows Same SplitVars.Alike Lost
      (chainBit1 kernel' prefixBits getBucketId v') := by
  refine (load_follows h.bit1BucketPtr).bind ?_
  rintro bit1 _ rfl
  refine (Prog.follows_check _ fun hc => h.bit1BucketPut.2.trans hc).bind fun _ _ _ =>
    (createBucket_follows kernel kernel' _).bind ?_
  rintro newBucketId _ rfl
  rw [h.bit1BucketId]
  refine (setNext_follows _ _).bind fun _ _ _ => ?_
  rw [h.bit0BucketId]
  refine (bucketPtr_follows _).bind fun _ _ h0 => (bucketPtr_follows _).bind fun _ _ h1 => (load_follows h0).bind ?_
  rintro bit0 _ rfl
  refine (bucketPtr_follows _).bind fun _ _ hget => Prog.follows_pure ?_
  exact ⟨rfl, rfl, h0, h1, ⟨h0, rfl⟩, ⟨h1, rfl⟩, hget, h.offset, rfl, rfl⟩

theorem chainBit0_follows (h : v.Alike v') :
    (chainBit0 kernel prefixBits getBucketId v : Prog Fault (Container B) SplitVars).Follows Same SplitVars.Alike Lost
      (chainBit0 kernel' prefixBits getBucketId v') := by
  refine (load_follows h.bit0BucketPtr).bind ?_
  rintro bit0 _ rfl
  refine (Prog.follows_check _ fun hc => h.bit0BucketPut.2.trans hc).bind fun _ _ _ => ?_
  cases bit0.nextBucketId with
  | some next =>
    refine (bucketPtr_follows next).bind fun p p' hp => (load_follows hp).bind ?_
    rintro bucket _ rfl
    refine (store_follows hp _).bind fun _ _ _ => Prog.follows_pure ?_
    exact ⟨rfl, h.bit1BucketId, hp, h.bit1BucketPtr, ⟨hp, rfl⟩, h.bit1BucketPut, h.getBucketPtr, h.offset, h.within,
      h.within'⟩
  | none =>
    refine (createBucket_follows kernel kernel' _).bind ?_
    rintro newBucketId _ rfl
    rw [h.bit0BucketId]
    refine (setNext_follows _ _).bind fun _ _ _ => (bucketPtr_follows _).bind fun _ _ h0 =>
      (bucketPtr_follows _).bind fun _ _ hget => ?_
    rw [h.bit1BucketId]
    refine (bucketPtr_follows _).bind fun _ _ h1 => (load_follows h1).bind ?_
    rintro bit1 _ rfl
    refine (load_follows h0).bind ?_
    rintro bucket _ rfl
    refine (store_follows h0 _).bind fun _ _ _ => Prog.follows_pure ?_
    exact ⟨rfl, rfl, h0, h1, ⟨h0, rfl⟩, ⟨h1, rfl⟩, hget, h.offset, rfl, rfl⟩

theorem makeRoom1_follows (h : v.Alike v') :
    (makeRoom1 kernel prefixBits getBucketId recordLength v : Prog Fault (Container B) SplitVars).Follows Same
      SplitVars.Alike Lost (makeRoom1 kernel' prefixBits getBucketId recordLength v') := by
  refine (load_follows h.bit1BucketPtr).bind ?_
  rintro bit1 _ rfl
  exact Prog.Follows.ite Iff.rfl (chainBit1_follows kernel kernel' _ _ h) (Prog.follows_pure h)

theorem makeRoom0_follows (h : v.Alike v') :
    (makeRoom0 kernel prefixBits getBucketId recordLength v : Prog Fault (Container B) SplitVars).Follows Same
      SplitVars.Alike Lost (makeRoom0 kernel' prefixBits getBucketId recordLength v') := by
  refine (load_follows h.bit0BucketPtr).bind ?_
  rintro bit0 _ rfl
  exact Prog.Follows.ite Iff.rfl (chainBit0_follows kernel kernel' _ _ h) (Prog.follows_pure h)

theorem copy_follows {src src' dst dst' : BytePtr} (hsrc : src.Alike src') (n : ℕ) (hdst : dst.Alike dst') :
    (copy src n dst : Prog Fault (Container B) BytePtr).Follows Same BytePtr.Alike Lost (copy src' n dst') := by
  refine (load_follows hsrc.1).bind ?_
  rintro source _ rfl
  rw [hsrc.2]
  refine (Prog.follows_lift _).bind ?_
  rintro bs _ rfl
  refine (load_follows hdst.1).bind ?_
  rintro target _ rfl
  rw [hdst.2]
  refine (Prog.follows_lift _).bind ?_
  rintro r _ rfl
  exact (store_follows hdst.1 _).bind fun _ _ _ => Prog.follows_pure ⟨hdst.1, rfl⟩

theorem moveRecord_follows {src src' put put' : BytePtr} (hsrc : src.Alike src') (hp : p.Alike p')
    (hput : put.Alike put') : (moveRecord src recordLength p put : Prog Fault (Container B) BytePtr).Follows Same
      BytePtr.Alike Lost (moveRecord src' recordLength p' put') := by
  refine (copy_follows hsrc _ hput).bind fun put put' hput => (load_follows hp).bind ?_
  rintro bucket _ rfl
  exact (store_follows hp _).bind fun _ _ _ => Prog.follows_pure hput

theorem moveToBit1_follows (h : v.Alike v') :
    (moveToBit1 recordLength v : Prog Fault (Container B) SplitVars).Follows Same SplitVars.Alike Lost
      (moveToBit1 recordLength v') :=
  (moveRecord_follows _ h.getPtr h.bit1BucketPtr h.bit1BucketPut).bind fun _ _ hput => Prog.follows_pure
    { h with bit1BucketPut := hput, offset := congrArg (· + recordLength) h.offset }

theorem moveToBit0_follows (h : v.Alike v') :
    (moveToBit0 recordLength v : Prog Fault (Container B) SplitVars).Follows Same SplitVars.Alike Lost
      (moveToBit0 recordLength v') :=
  (moveRecord_follows _ h.getPtr h.bit0BucketPtr h.bit0BucketPut).bind fun _ _ hput => Prog.follows_pure
    { h with bit0BucketPut := hput, offset := congrArg (· + recordLength) h.offset }

theorem splitStep_follows (h : v.Alike v') :
    (splitStep kernel prefixBits newBit getBucketId v : Prog Fault (Container B) SplitVars).Follows Same
      SplitVars.Alike Lost (splitStep kernel' prefixBits newBit getBucketId v') := by
  refine (load_follows h.getPtr.1).bind ?_
  rintro bucket _ rfl
  rw [h.offset]
  refine (Prog.follows_lift _).bind ?_
  rintro r _ rfl
  refine (Prog.follows_check _ id).bind fun _ _ _ => Prog.Follows.ite Iff.rfl ?_ ?_
  · exact (makeRoom1_follows kernel kernel' _ _ _ h).bind fun _ _ h => moveToBit1_follows _ h
  · exact (makeRoom0_follows kernel kernel' _ _ _ h).bind fun _ _ h => moveToBit0_follows _ h

/-- Both loops end at the same record, since `get_ptr` is compared with a pointer into its own bucket. -/
theorem splitRecords_follows (getLast : ℕ) (h : v.Alike v') :
    (splitRecords kernel prefixBits newBit getBucketId getLast fuel v : Prog Fault (Container B) SplitVars).Follows Same
      SplitVars.Alike Lost (splitRecords kernel' prefixBits newBit getBucketId getLast fuel' v') := by
  induction fuel generalizing fuel' v v' with
  | zero => exact Prog.follows_throw .outOfFuel _
  | succ fuel ih =>
    cases fuel' with
    | zero => exact Prog.follows_thrown _ _
    | succ fuel' =>
      refine Prog.Follows.ite ?_ (Prog.follows_pure h)
        ((splitStep_follows kernel kernel' _ _ _ h).bind fun _ _ h => ih _ h)
      rw [BytePtr.eq_add_iff h.within, BytePtr.eq_add_iff h.within', h.offset]

theorem splitChain_follows (head : Option ℕ) (h : v.Alike v') :
    (splitChain kernel prefixBits newBit fuel head v : Prog Fault (Container B) SplitVars).Follows Same
      SplitVars.Alike Lost (splitChain kernel' prefixBits newBit fuel' head v') := by
  induction fuel generalizing fuel' head v v' with
  | zero =>
    cases head with
    | none => cases fuel' <;> exact Prog.follows_pure h
    | some id => exact Prog.follows_throw .outOfFuel _
  | succ fuel ih =>
    cases head with
    | none => cases fuel' <;> exact Prog.follows_pure h
    | some id =>
      cases fuel' with
      | zero => exact Prog.follows_thrown _ _
      | succ fuel' =>
        refine (bucketPtr_follows id).bind fun p p' hp => (load_follows hp).bind ?_
        rintro bucket _ rfl
        refine (store_follows hp _).bind fun _ _ _ =>
          (splitRecords_follows kernel kernel' _ _ _ _ _ _ ?_).bind fun _ _ h => (bucketAt_follows id).bind ?_
        · exact { h with getBucketPtr := hp, offset := rfl, within := rfl, within' := rfl }
        · rintro bucket _ rfl
          exact ih _ _ h

theorem freeChain_follows (head : Option ℕ) :
    (freeChain fuel head : Prog Fault (Container B) Unit).Follows Same Eq Lost (freeChain fuel' head) := by
  induction fuel generalizing fuel' head with
  | zero =>
    cases head with
    | none => cases fuel' <;> exact Prog.follows_pure rfl
    | some freeBucketId => exact Prog.follows_throw .outOfFuel _
  | succ fuel ih =>
    cases head with
    | none => cases fuel' <;> exact Prog.follows_pure rfl
    | some freeBucketId =>
      cases fuel' with
      | zero => exact Prog.follows_thrown _ _
      | succ fuel' =>
        refine (bucketPtr_follows freeBucketId).bind fun p p' hp => (load_follows hp).bind ?_
        rintro bucket _ rfl
        refine (Prog.follows_check _ id).bind fun _ _ _ => Prog.follows_get.bind fun c c' hc => ?_
        rw [show c'.layout = c.layout from hc.symm]
        exact (store_follows hp _).bind fun _ _ _ => (setFirstFree_follows _).bind fun _ _ _ => ih _ _

theorem split_follows (bucketId : ℕ) :
    (split kernel fuel bucketId : Prog Fault (Container B) ℕ).Follows Same Eq Lost (split kernel' fuel' bucketId) := by
  refine (bucketPtr_follows bucketId).bind fun p p' hp => (load_follows hp).bind ?_
  rintro bucket _ rfl
  refine (store_follows hp _).bind fun _ _ _ => (createBucket_follows kernel kernel' _).bind ?_
  rintro bit1BucketId _ rfl
  refine (Prog.follows_lift _).bind ?_
  rintro newBit _ rfl
  refine (bucketPtr_follows _).bind fun _ _ h0 => (bucketPtr_follows _).bind fun _ _ h1 =>
    (splitChain_follows kernel kernel' _ _ _ _ _ ?_).bind fun v v' h => (load_follows h.bit0BucketPtr).bind ?_
  · exact ⟨rfl, rfl, h0, h1, ⟨h0, rfl⟩, ⟨h1, rfl⟩, h0, rfl, rfl, rfl⟩
  · rintro bit0 _ rfl
    exact (store_follows h.bit0BucketPtr _).bind fun _ _ _ => (freeChain_follows _ _ _).bind fun _ _ _ =>
      Prog.follows_pure rfl

end Container

/-! ### The map -/

namespace HashMap

variable {α : Type} (os os' : Os)

/-- The same files. -/
def Same (m m' : HashMap B) : Prop := m.catalogue.Same m'.catalogue ∧ m.container.Same m'.container

theorem onCat_follows {p q : Prog Fault Catalogue α} (h : p.Follows Catalogue.Same Eq Lost q) :
    (onCat p : Prog Fault (HashMap B) α).Follows Same Eq Lost (onCat q) :=
  h.zoom (fun _ _ h => h.1) fun _ _ _ _ h hc => ⟨hc, h.2⟩

theorem onDat_follows {p q : Prog Fault (Container B) α} (h : p.Follows Container.Same Eq Lost q) :
    (onDat p).Follows Same Eq Lost (onDat q) := h.zoom (fun _ _ h => h.2) fun _ _ _ _ h hc => ⟨h.1, hc⟩

theorem bucketPrefixBits_follows (bucketId : ℕ) :
    (bucketPrefixBits bucketId : Prog Fault (HashMap B) ℕ).Follows Same Eq Lost (bucketPrefixBits bucketId) := by
  refine (onDat_follows (Container.bucketAt_follows bucketId)).bind ?_
  rintro bucket _ rfl
  exact Prog.follows_pure rfl

theorem growCatalogue_follows (bucketId : ℕ) :
    (growCatalogue os bucketId : Prog Fault (HashMap B) Unit).Follows Same Eq Lost (growCatalogue os' bucketId) := by
  refine (bucketPrefixBits_follows bucketId).bind ?_
  rintro prefixBits _ rfl
  refine Prog.follows_get.bind fun m m' hm => ?_
  rw [show m'.catalogue.layout = m.catalogue.layout from hm.1.symm,
    show m'.container.layout = m.container.layout from hm.2.symm]
  exact Prog.Follows.ite Iff.rfl (onCat_follows (Catalogue.split_follows _ _)) (Prog.follows_pure rfl)

theorem enterBucket_follows (newBit : Hash) (bucketId newBucketId : ℕ) :
    (enterBucket hash newBit bucketId newBucketId : Prog Fault (HashMap B) ℕ).Follows Same Eq Lost
      (enterBucket hash newBit bucketId newBucketId) := by
  refine (onCat_follows (Catalogue.find_follows hash)).bind ?_
  rintro found _ rfl
  exact (Prog.follows_check _ id).bind fun _ _ _ => Prog.follows_pure rfl

theorem splitBucket_follows (bucketId : ℕ) :
    (splitBucket os fuel hash bucketId : Prog Fault (HashMap B) ℕ).Follows Same Eq Lost
      (splitBucket os' fuel' hash bucketId) := by
  refine (bucketPrefixBits_follows bucketId).bind ?_
  rintro prefixBits _ rfl
  refine Prog.follows_get.bind fun m m' hm => ?_
  rw [show m'.catalogue.layout = m.catalogue.layout from hm.1.symm]
  refine Prog.Follows.ite Iff.rfl ?_ (Prog.follows_pure rfl)
  refine (onDat_follows (Container.split_follows os.dat os'.dat fuel fuel' bucketId)).bind ?_
  rintro newBucketId _ rfl
  refine (bucketPrefixBits_follows bucketId).bind ?_
  rintro prefixBits _ rfl
  refine (bucketPrefixBits_follows newBucketId).bind ?_
  rintro newPrefixBits _ rfl
  refine (Prog.follows_check _ id).bind fun _ _ _ => (Prog.follows_lift _).bind ?_
  rintro newBit _ rfl
  exact (onCat_follows (Catalogue.set_follows _ _ _)).bind fun _ _ _ => enterBucket_follows _ _ _ _

theorem makeRoom_follows (bucketId : ℕ) :
    (makeRoom os fuel hash bucketId : Prog Fault (HashMap B) ℕ).Follows Same Eq Lost
      (makeRoom os' fuel' hash bucketId) := by
  refine (onDat_follows (Container.bucketToSplit_follows bucketId)).bind ?_
  rintro full _ rfl
  exact Prog.Follows.ite Iff.rfl ((growCatalogue_follows os os' bucketId).bind fun _ _ _ =>
    splitBucket_follows _ _ _ _ _ bucketId) (Prog.follows_pure rfl)

theorem get_follows (default : Bytes) :
    (get os fuel hash key default : Prog Fault (HashMap B) View).Follows Same Eq Lost
      (get os' fuel' hash key default) := by
  refine (onCat_follows (Catalogue.find_follows hash)).bind ?_
  rintro bucketId _ rfl
  refine (onDat_follows (Container.findRecord_follows fuel fuel' hash key (some bucketId))).bind ?_
  rintro result _ rfl
  cases result with
  | some v => exact Prog.follows_pure rfl
  | none =>
    refine (makeRoom_follows fuel fuel' hash os os' bucketId).bind ?_
    rintro bucketId _ rfl
    exact onDat_follows (Container.createRecord_follows _ _ _ _ _ _ _ _)

theorem find_follows :
    (find fuel hash key : Prog Fault (HashMap B) (Option View)).Follows Same Eq Lost (find fuel' hash key) := by
  refine (onCat_follows (Catalogue.find_follows hash)).bind ?_
  rintro bucketId _ rfl
  exact onDat_follows (Container.findRecord_follows _ _ _ _ _)

theorem remove_follows :
    (remove fuel hash key : Prog Fault (HashMap B) Bool).Follows Same Eq Lost (remove fuel' hash key) := by
  refine (onCat_follows (Catalogue.find_follows hash)).bind ?_
  rintro bucketId _ rfl
  exact onDat_follows (Container.removeRecord_follows _ _ _ _ _)

end HashMap

/-! ### Iterators -/

namespace ConstIterator

open HashMap

variable (it : ConstIterator)

theorem skipEntries_follows (n catalogueIndex : ℕ) :
    (skipEntries n catalogueIndex : Prog Fault (HashMap B) ℕ).Follows Same Eq Lost (skipEntries n catalogueIndex) := by
  induction n generalizing catalogueIndex with
  | zero => exact Prog.follows_pure rfl
  | succ n ih =>
    refine (onCat_follows (Catalogue.entry_follows _)).bind ?_
    rintro value _ rfl
    refine (onCat_follows (Catalogue.entry_follows _)).bind ?_
    rintro previous _ rfl
    exact Prog.Follows.ite Iff.rfl (ih _) (Prog.follows_pure rfl)

theorem findNextRecord_follows :
    (findNextRecord fuel it : Prog Fault (HashMap B) ConstIterator).Follows Same Eq Lost
      (findNextRecord fuel' it) := by
  induction fuel generalizing fuel' it with
  | zero => exact Prog.follows_throw .outOfFuel _
  | succ fuel ih =>
    cases fuel' with
    | zero => exact Prog.follows_thrown _ _
    | succ fuel' =>
      refine (onDat_follows (Container.readRecord_follows _ _)).bind ?_
      rintro record _ rfl
      cases record with
      | some r => exact Prog.follows_pure rfl
      | none =>
        refine (onDat_follows (Container.bucketAt_follows _)).bind ?_
        rintro bucket _ rfl
        cases bucket.nextBucketId with
        | some next => exact ih _ _
        | none =>
          refine Prog.follows_get.bind fun m m' hm => ?_
          rw [show m'.catalogue.layout = m.catalogue.layout from hm.1.symm]
          refine (skipEntries_follows _ _).bind ?_
          rintro index _ rfl
          refine Prog.Follows.ite Iff.rfl (Prog.follows_pure rfl) ((onCat_follows (Catalogue.entry_follows _)).bind ?_)
          rintro bucketId _ rfl
          exact ih _ _

theorem atBegin_follows :
    (atBegin fuel : Prog Fault (HashMap B) ConstIterator).Follows Same Eq Lost (atBegin fuel') := by
  refine Prog.follows_get.bind fun m m' hm => ?_
  rw [show m'.catalogue.layout = m.catalogue.layout from hm.1.symm]
  refine Prog.Follows.ite Iff.rfl ((onCat_follows (Catalogue.entry_follows _)).bind ?_) (Prog.follows_pure rfl)
  rintro bucketId _ rfl
  exact findNextRecord_follows _ _ _

theorem deref_follows : (deref it : Prog Fault (HashMap B) (View × View)).Follows Same Eq Lost (deref it) := by
  refine (onDat_follows (Container.readRecord_follows _ _)).bind ?_
  rintro record _ rfl
  cases record <;> exact Prog.follows_pure rfl

theorem next_follows :
    (next fuel it : Prog Fault (HashMap B) ConstIterator).Follows Same Eq Lost (next fuel' it) := by
  refine (onDat_follows (Container.readRecord_follows _ _)).bind ?_
  rintro record _ rfl
  exact findNextRecord_follows _ _ _

theorem collect_follows (steps steps' : ℕ) :
    (collect fuel steps it : Prog Fault (HashMap B) (List (Bytes × Bytes))).Follows Same Eq Lost
      (collect fuel' steps' it) := by
  induction steps generalizing steps' it with
  | zero =>
    unfold collect
    by_cases hend : it.equal atEnd
    · rw [if_pos hend, if_pos hend]
      exact Prog.follows_pure rfl
    · rw [if_neg hend]
      exact Prog.follows_throw .outOfFuel _
  | succ steps ih =>
    unfold collect
    refine Prog.Follows.ite Iff.rfl (Prog.follows_pure rfl) ?_
    cases steps' with
    | zero => exact Prog.follows_thrown _ _
    | succ steps' =>
      refine (deref_follows it).bind ?_
      rintro views _ rfl
      refine Prog.follows_get.bind fun m m' hm => (next_follows _ _ it).bind ?_
      rintro it _ rfl
      refine (ih it steps').bind ?_
      rintro rest _ rfl
      refine Prog.follows_pure ?_
      unfold Container.view
      rw [show m'.container.layout = m.container.layout from hm.2.symm]

end ConstIterator

end Remapped

end DiskHash
