import DiskHash.Chains

/-!
# DiskHash.Compaction — `split` writes the old chain behind its reader

The loops of `split` stand before a bucket or before a record; `loopStep` goes from one such place to the next.
At each of them the write cursor of the old chain is not past the read cursor and what is between them is empty,
so no record is written over before it is read, and there is always a bucket to go on to: only the new chain
takes buckets.
-/

namespace DiskHash.Container

open Packing

variable {B : ℕ}

/-- Where the loops of `split` stand: at the head of the outer one or of the inner one. -/
inductive SplitHead
  | bucket (getBucketId : Option ℕ) (v : SplitVars)
  | record (getBucketId getLast : ℕ) (v : SplitVars)

/-- The reader takes a bucket. -/
def enterBucket (getBucketId : ℕ) (v : SplitVars) : Prog Fault (Container B) (ℕ × SplitVars) := do
  let getBucketPtr ← bucketPtr getBucketId
  let bucket ← load getBucketPtr
  store getBucketPtr { bucket with bytesUsed := 0 }
  return (bucket.bytesUsed, { v with getBucketPtr := getBucketPtr, getPtr := getBucketPtr.data })

/-- From one head to the next. -/
def loopStep (kernel : Kernel) (prefixBits : ℕ) (newBit : Hash) : SplitHead → Prog Fault (Container B) SplitHead
  | .bucket none v => return .bucket none v
  | .bucket (some getBucketId) v => do
    let r ← enterBucket getBucketId v
    return .record getBucketId r.1 r.2
  | .record getBucketId getLast v =>
    if v.getPtr = v.getBucketPtr.data.add getLast then do
      let bucket ← bucketAt getBucketId
      return .bucket bucket.nextBucketId v
    else do
      let v ← splitStep kernel prefixBits newBit getBucketId v
      return .record getBucketId getLast v

/-- `record_length` of the record at the read cursor. -/
def recordLength (v : SplitVars) (h : RecordHeader) : ℕ := h.cursor - v.getPtr.offset + h.keyLength + h.valueLength

/-- The write cursor of the old chain is in its bucket number `i`, and the read cursor in number `j`; `bs` are the
records the buckets of the chain held before. -/
structure Compacting (L : List ℕ) (bs : List (List Record)) (i j getBucketId getLast : ℕ) (v : SplitVars)
    (c : Container B) : Prop where
  write : L[i]? = some v.bit0BucketId
  read : L[j]? = some getBucketId
  le : i ≤ j
  put : v.bit0BucketPut = ⟨⟨c.fileMap.start, v.bit0BucketId⟩, (c.layout.buckets v.bit0BucketId).bytesUsed⟩
  put1 : v.bit1BucketPut = ⟨⟨c.fileMap.start, v.bit1BucketId⟩, (c.layout.buckets v.bit1BucketId).bytesUsed⟩
  get : v.getPtr.bucket = ⟨c.fileMap.start, getBucketId⟩
  offset : i = j → v.bit0BucketPut.offset ≤ v.getPtr.offset
  empty : ∀ m x, i < m → m ≤ j → L[m]? = some x → (c.layout.buckets x).bytesUsed = 0
  unread : ∃ done todo, bs[j]? = some (done ++ todo) ∧ v.getPtr.offset = total Record.size done ∧
    getLast = total Record.size (done ++ todo) ∧
    packed Record.encode todo <+: (c.layout.buckets getBucketId).data.drop v.getPtr.offset
  later : ∀ m x rs, j < m → L[m]? = some x → bs[m]? = some rs → (c.layout.buckets x).Holds rs

/-- The record at the read cursor has room where it goes to: in the old chain without a new bucket. -/
structure Roomy (kernel : Kernel) (prefixBits : ℕ) (newBit : Hash) (L : List ℕ) (bs : List (List Record))
    (j getBucketId getLast : ℕ) (v : SplitVars) (c : Container B) (h : RecordHeader) : Prop where
  header : readHeader (c.layout.buckets getBucketId).data v.getPtr.offset = .ok h
  next0 : h.hash &&& newBit = 0 → B < (c.layout.buckets v.bit0BucketId).bytesUsed + recordLength v h →
    ∃ i, (c.layout.buckets v.bit0BucketId).nextBucketId = some i ∧ (c.layout.buckets i).bytesUsed = 0
  room0 : h.hash &&& newBit = 0 → ∃ v' c' i,
    makeRoom0 kernel prefixBits getBucketId (recordLength v h) v c = .ok v' c' ∧ Untaken c c' ∧
      Compacting L bs i j getBucketId getLast v' c' ∧
      (c'.layout.buckets v'.bit0BucketId).bytesUsed + recordLength v h ≤ B
  room1 : h.hash &&& newBit ≠ 0 → ∀ v' c',
    makeRoom1 kernel prefixBits getBucketId (recordLength v h) v c = .ok v' c' → ∃ i,
      Compacting L bs i j getBucketId getLast v' c' ∧
      (c'.layout.buckets v'.bit1BucketId).bytesUsed + recordLength v h ≤ B
  moved0 : h.hash &&& newBit = 0 → ∃ v' c', splitStep kernel prefixBits newBit getBucketId v c = .ok v' c' ∧
    Untaken c c'

/-- What is promised at every head. -/
def Safe (kernel : Kernel) (prefixBits : ℕ) (newBit : Hash) (L : List ℕ) (bs : List (List Record)) :
    SplitHead → Container B → Prop
  | .bucket _ _, _ => True
  | .record getBucketId getLast v, c => ∃ i j, Compacting L bs i j getBucketId getLast v c ∧
    (v.getPtr ≠ v.getBucketPtr.data.add getLast →
      ∃ h, Roomy kernel prefixBits newBit L bs j getBucketId getLast v c h)

/-! ### The heads of a run -/

section Passes

variable {kernel : Kernel} {d g last : ℕ} {newBit : Hash}

/-- The heads of the inner loop. -/
theorem splitRecords_passes : ∀ (fuel : ℕ) (v : SplitVars) (c : Container B),
    Prog.Runs (splitRecords kernel d newBit g last fuel v) c
      (fun v' c' => Prog.Passes (loopStep kernel d newBit) (.record g last v, c) (.record g last v', c') ∧
        v'.getPtr = v'.getBucketPtr.data.add last)
      (fun e c' => e = .outOfFuel ∨ ∃ x, Prog.Passes (loopStep kernel d newBit) (.record g last v, c) x ∧
        loopStep kernel d newBit x.1 x.2 = .error e c')
  | 0, _, _ => .inl rfl
  | fuel + 1, v, c => by
    rw [splitRecords]
    refine Prog.runs_ite (fun hend => ⟨.refl, hend⟩) (fun hend => ?_)
    have hstep : loopStep kernel d newBit (.record g last v) = (do
        let v ← splitStep kernel d newBit g v
        return .record g last v : Prog Fault (Container B) SplitHead) := by
      rw [loopStep, if_neg hend]
    rw [Prog.runs_bind]
    refine (Prog.runs_self _ c).mono (fun v' c' hs => ?_) (fun e c' hs => ?_)
    · have hhead : loopStep kernel d newBit (.record g last v) c = .ok (.record g last v') c' := by
        rw [hstep]
        exact Prog.bind_ok hs _
      refine (splitRecords_passes fuel v' c').mono (fun _ _ h => ⟨.head hhead h.1, h.2⟩) ?_
      rintro e c'' (he | ⟨x, hx, hxe⟩)
      · exact .inl he
      · exact .inr ⟨x, .head hhead hx, hxe⟩
    · refine .inr ⟨_, .refl, ?_⟩
      rw [hstep]
      exact Prog.bind_error hs _

theorem splitChain_some (fuel : ℕ) (v : SplitVars) :
    (splitChain kernel d newBit (fuel + 1) (some g) v : Prog Fault (Container B) SplitVars) = (do
      let r ← enterBucket g v
      let v ← splitRecords kernel d newBit g r.1 (B + 1) r.2
      let bucket ← bucketAt g
      splitChain kernel d newBit fuel bucket.nextBucketId v) := by
  rw [splitChain]
  unfold enterBucket
  simp only [Prog.bind_assoc]
  rfl

/-- The heads of the outer loop: one after the other the loops pass through them, and an exception is thrown on the
way from one of them to the next. -/
theorem splitChain_passes : ∀ (fuel : ℕ) (get : Option ℕ) (v : SplitVars) (c : Container B),
    Prog.Runs (splitChain kernel d newBit fuel get v) c
      (fun v' c' => Prog.Passes (loopStep kernel d newBit) (.bucket get v, c) (.bucket none v', c'))
      (fun e c' => e = .outOfFuel ∨ ∃ x, Prog.Passes (loopStep kernel d newBit) (.bucket get v, c) x ∧
        loopStep kernel d newBit x.1 x.2 = .error e c')
  | 0, none, _, _ => .refl
  | _ + 1, none, _, _ => .refl
  | 0, some _, _, _ => .inl rfl
  | fuel + 1, some g, v, c => by
    rw [splitChain_some, Prog.runs_bind]
    refine (Prog.runs_self _ c).mono (fun r c₁ hr => ?_) (fun e c₁ hr => .inr ⟨_, .refl, Prog.bind_error hr _⟩)
    have henter : loopStep kernel d newBit (.bucket (some g) v) c = .ok (.record g r.1 r.2) c₁ := Prog.bind_ok hr _
    rw [Prog.runs_bind]
    refine (splitRecords_passes (B + 1) r.2 c₁).mono ?_ ?_
    · rintro v' c₂ ⟨hpass, hend⟩
      have hstep : loopStep kernel d newBit (.record g r.1 v') = (do
          let bucket ← bucketAt g
          return .bucket bucket.nextBucketId v' : Prog Fault (Container B) SplitHead) := by
        rw [loopStep, if_pos hend]
      rw [Prog.runs_bind]
      refine (Prog.runs_self _ c₂).mono (fun bucket c₃ hb => ?_) (fun e c₃ hb => .inr ⟨_, .head henter hpass, ?_⟩)
      · have hleave : loopStep kernel d newBit (.record g r.1 v') c₂ = .ok (.bucket bucket.nextBucketId v') c₃ := by
          rw [hstep]
          exact Prog.bind_ok hb _
        refine (splitChain_passes fuel bucket.nextBucketId v' c₃).mono
          (fun _ _ h => .head henter (hpass.trans (.head hleave h))) ?_
        rintro e c₄ (he | ⟨x, hx, hxe⟩)
        · exact .inl he
        · exact .inr ⟨x, .head henter (hpass.trans (.head hleave hx)), hxe⟩
      · rw [hstep]
        exact Prog.bind_error hb _
    · rintro e c₂ (he | ⟨x, hx, hxe⟩)
      · exact .inl he
      · exact .inr ⟨x, .head henter hx, hxe⟩

end Passes

/-! ### What holds at the heads -/

section Heads

variable {kernel : Kernel} {c₀ c : Container B} {S : Shape} {L : List ℕ} {rest : List (List ℕ)} {b1 d g j last : ℕ}
  {newBit : Hash} {f0 f1 : Fill Record} {done todo rs : List Record} {r : Record} {L₁ F : List ℕ} {v : SplitVars}

/-- The invariant of both loops. -/
def LoopInv (c₀ : Container B) (S : Shape) (L : List ℕ) (rest : List (List ℕ)) (b1 d : ℕ) (newBit : Hash) :
    SplitHead → Container B → Prop
  | .bucket get v, c => ∃ before after L₁ F, get = after.head? ∧
      AtBucket c₀ S L rest b1 d newBit before after L₁ F c v
  | .record g last v, c => ∃ before after done todo L₁ F, L = before ++ g :: after ∧ S.recs g = done ++ todo ∧
      last = total Record.size (done ++ todo) ∧
      Between c₀ S L rest b1 d before.length g (half0 B newBit (before.flatMap S.recs ++ done))
        (half1 B newBit (before.flatMap S.recs ++ done)) done todo L₁ F c v

/-- The read cursor is at the end just if there is nothing left to read. -/
theorem Between.at_end (h : Between c₀ S L rest b1 d j g f0 f1 done todo L₁ F c v) :
    v.getPtr = v.getBucketPtr.data.add (total Record.size (done ++ todo)) ↔ todo = [] := by
  rw [h.reading.ptr, h.reading.bucketPtr]
  simp only [BucketPtr.data, BytePtr.add, BytePtr.mk.injEq, total_append, true_and]
  constructor
  · intro he
    cases todo with
    | nil => rfl
    | cons r todo =>
      have := r.size_pos
      rw [total_cons] at he
      omega
  · rintro rfl
    simp

/-- Every head is followed by one where the invariant holds again, unless the system refuses a bucket. -/
theorem loopStep_runs (hB : B < 2 ^ 31) (hd : SplitHead) (c : Container B)
    (h : LoopInv c₀ S L rest b1 d newBit hd c) : Prog.Runs (loopStep kernel d newBit hd) c
      (LoopInv c₀ S L rest b1 d newBit) (fun e _ => e = .systemError) := by
  match hd, h with
  | .bucket none v, h => exact h
  | .bucket (some g) v, ⟨before, after, L₁, F, hget, hat⟩ =>
    obtain ⟨after, rfl⟩ : ∃ T, after = g :: T := by
      cases after with
      | nil => cases hget
      | cons i T => exact ⟨T, by rw [Option.some.inj hget]⟩
    obtain ⟨hm, hh⟩ := hat.load
    unfold loopStep enterBucket
    simp only [Prog.runs_bind, runs_bucketPtr]
    rw [runs_load rfl hm, runs_store rfl hm]
    refine ⟨before, after, [], S.recs g, L₁, F, hat.chain, rfl, hh.used, ?_⟩
    rw [List.append_nil]
    exact hat.enter
  | .record g last v, ⟨before, after, done, todo, L₁, F, hL, hrecs, hlast, hb⟩ =>
    unfold loopStep
    refine Prog.runs_ite (fun hend => ?_) (fun hend => ?_)
    · rw [hlast, hb.at_end] at hend
      subst hend
      rw [List.append_nil] at hrecs
      rw [← hrecs] at hb
      obtain ⟨hnext, hat⟩ := hb.leave hL
      rw [Prog.runs_bind, runs_bucketAt (hb.splitting.mapped0 hb.g_mem), Prog.runs_pure]
      exact ⟨before ++ [g], after, L₁, F, hnext, hat⟩
    · rw [hlast, hb.at_end] at hend
      obtain ⟨r, todo, rfl⟩ := List.exists_cons_of_ne_nil hend
      rw [Prog.runs_bind]
      refine (splitStep_runs hB hb).mono ?_ (fun _ _ he => he.fault)
      rintro v' c' ⟨L₁', F', h'⟩
      rw [Prog.runs_pure]
      have hcat : done ++ [r] ++ todo = done ++ r :: todo := by simp
      refine ⟨before, after, done ++ [r], todo, L₁', F', hL, hrecs.trans hcat.symm, by rw [hlast, hcat], ?_⟩
      rwa [List.append_assoc] at h'

/-- The cursors of the loops, in terms of the buckets. -/
theorem Between.compacting (h : Between c₀ S L rest b1 d j g f0 f1 done todo L₁ F c v)
    (hrecs : S.recs g = done ++ todo) :
    Compacting L (L.map S.recs) f0.closed.length j g (total Record.size (done ++ todo)) v c := by
  have hcur := h.cursors
  refine ⟨hcur.id0, h.reading.number, h.reading.behind.1, ?_, ?_, ?_, fun hij => ?_, fun m x hm hmj hx => ?_,
    ⟨done, todo, ?_, ?_, rfl, ?_⟩, fun m x rs hm hx hrs => ?_⟩
  · rw [hcur.put0, hcur.ptr0, h.load0.2.used]
  · rw [hcur.put1, hcur.ptr1, h.load1.2.used]
  · rw [h.reading.ptr]
  · rw [hcur.put0, h.reading.ptr]
    exact h.reading.behind.2 hij
  · have hused := (h.splitting.kept m x hx (by omega)).used
    rwa [Fill.block_eq_nil hm] at hused
  · rw [List.getElem?_map, h.reading.number, ← hrecs]
    rfl
  · rw [h.reading.ptr]
  · rw [h.reading.ptr]
    exact h.reading.bytes
  · rw [List.getElem?_map, hx] at hrs
    obtain rfl : S.recs x = rs := Option.some.inj hrs
    exact h.splitting.unread m x hx hm

/-- A record is moved to where it has room. -/
theorem Between.roomy (hB : B < 2 ^ 31)
    (h : Between c₀ S L rest b1 d j g (half0 B newBit rs) (half1 B newBit rs) done (r :: todo) L₁ F c v)
    (hrecs : S.recs g = done ++ r :: todo) : ∃ hd, Roomy kernel d newBit L (L.map S.recs) j g
      (total Record.size (done ++ r :: todo)) v c hd := by
  have hheader := h.reading.readHeader hB
  have hlen : recordLength v ⟨r.hash, r.key.length, r.value.length, total Record.size done + r.keyOffset⟩ =
      r.size := by
    have := r.size_eq
    unfold recordLength
    rw [h.reading.ptr]
    dsimp only
    omega
  have hbit0 : r.hash &&& newBit = 0 → r.bit newBit = false := fun hb => decide_eq_false (not_not.mpr hb)
  refine ⟨_, by rw [h.reading.ptr]; exact hheader, ?_, ?_, ?_, ?_⟩
  · rw [hlen, h.load0.2.used]
    intro _ hfull
    obtain ⟨i, -, hnext, hused⟩ := h.next0 hfull
    exact ⟨i, hnext, hused⟩
  · rw [hlen]
    intro _
    have hruns : Prog.Runs (makeRoom0 kernel d g r.size v) c _ (fun _ _ => False) := h.makeRoom0_runs
    obtain ⟨v', c', hrun, h', hfree⟩ := hruns.returns (fun _ _ he => he)
    refine ⟨v', c', _, hrun, hfree, h'.compacting hrecs, ?_⟩
    rw [h'.load0.2.used]
    exact Fill.total_room_le h.size_le
  · rw [hlen]
    intro _ v' c' hrun
    obtain ⟨L₁', F', h'⟩ := (h.makeRoom1_runs r).of_ok hrun
    refine ⟨_, h'.compacting hrecs, ?_⟩
    rw [h'.load1.2.used]
    exact Fill.total_room_le h.size_le
  · intro hb
    have hruns : Prog.Runs (splitStep kernel d newBit g v) c _ (fun _ _ => False) :=
      splitStep_bit0_runs hB h (hbit0 hb)
    obtain ⟨v', c', hrun, -, hfree⟩ := hruns.returns (fun _ _ he => he)
    exact ⟨v', c', hrun, hfree⟩

theorem LoopInv.safe (hB : B < 2 ^ 31) {hd : SplitHead} (h : LoopInv c₀ S L rest b1 d newBit hd c) :
    Safe kernel d newBit L (L.map S.recs) hd c := by
  match hd, h with
  | .bucket _ _, _ => trivial
  | .record g last v, ⟨before, after, done, todo, L₁, F, hL, hrecs, hlast, hb⟩ =>
    subst hlast
    refine ⟨_, _, hb.compacting hrecs, fun hend => ?_⟩
    obtain ⟨r, todo, rfl⟩ := List.exists_cons_of_ne_nil (mt hb.at_end.mpr hend)
    exact hb.roomy hB hrecs

end Heads

/-! ### Runs of `split` -/

/-- The loops of `split` pass from head to head. -/
def Traced (kernel : Kernel) (setup : SplitSetup) (fuel b : ℕ) (c : Container B) : Prop :=
  Prog.Runs (splitChain kernel setup.prefixBits setup.newBit fuel (some b) setup.vars) c
    (fun v' c' => Prog.Passes (loopStep kernel setup.prefixBits setup.newBit)
      (.bucket (some b) setup.vars, c) (.bucket none v', c'))
    (fun e c' => e = .outOfFuel ∨ ∃ x, Prog.Passes (loopStep kernel setup.prefixBits setup.newBit)
      (.bucket (some b) setup.vars, c) x ∧ loopStep kernel setup.prefixBits setup.newBit x.1 x.2 = .error e c')

/-- Which buckets a `split` takes: `L₁`, off the free list and then from the end of the file, all of them for the
new chain.  The old chain has lost buckets at its end, if any, to the free list. -/
structure Allocated (c : Container B) (S : Shape) (L : List ℕ) (b b1 : ℕ) (c' : Container B) (L₀ L₁ : List ℕ) :
    Prop where
  kept : L₀ <+: L
  old : Seg c'.next (some b) L₀ none
  new : Seg c'.next (some b1) L₁ none
  taken : L₁ = (List.range L₁.length).map (S.supply c.layout.bucketsCount)
  count : c'.layout.bucketsCount = c.layout.bucketsCount + (L₁.length - S.free.length)
  free : Seg c'.next c'.layout.firstFreeBucketId ((L.drop L₀.length).reverse ++ S.free.drop L₁.length) none

section Compacts

variable {S : Shape} {L : List ℕ} {rest : List (List ℕ)} {b : ℕ}

theorem Splits.allocated {c c' : Container B} {d b1 : ℕ} {newBit : Hash} {L₁ F : List ℕ}
    (h : Splits c S L rest d newBit L₁ F b1 c') (hb : L.head? = some b) :
    Allocated c S L b b1 c' (L.take (S.keep B newBit L)) L₁ := by
  have hlen : (L.take (S.keep B newBit L)).length = S.keep B newBit L := by
    rw [List.length_take]
    exact Nat.min_eq_left h.keep
  have hold := h.rep.owned.linked (L.take (S.keep B newBit L)) List.mem_cons_self
  rw [S.head?_take_keep, hb] at hold
  have hnew := h.rep.owned.linked L₁ (List.mem_cons_of_mem _ List.mem_cons_self)
  rw [h.head1] at hnew
  refine ⟨List.take_prefix _ _, hold, hnew, h.supplied, h.count, ?_⟩
  rw [hlen, ← h.free]
  exact h.rep.owned.freeLinked

end Compacts

end DiskHash.Container
