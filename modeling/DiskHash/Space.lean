import DiskHash.Attempts
import DiskHash.Reading
import DiskHash.Reopen
import Mathlib.Algebra.Order.BigOperators.Group.List

/-!
# DiskHash.Space — how long the files get

The mappings grow where a bucket is created and where the catalogue is doubled, and nowhere else; they never shrink.
So the length of the files is bounded by the number of buckets and entries, in every state that calls leave, also
calls that threw.
-/

namespace DiskHash

open Packing

namespace Container

variable {B : ℕ} {I : Container B → Prop}

/-- A property that no write to a bucket or to the free list can break, nor the growth of the file by a bucket. -/
structure Framed (I : Container B → Prop) : Prop where
  setBucket : ∀ (c : Container B) id b, I c → I (c.setBucket id b)
  setFirstFree : ∀ (c : Container B) id, I c → I (c.setFirstFree id)
  grow : ∀ (c : Container B) (fm : FileMap), I c → c.fileMap.length ≤ fm.length →
    fm.length ≤ max c.fileMap.length ((headerBytes + (c.layout.bucketsCount + 1) * bucketBytes B) * 11 / 10) →
    I ⟨fm, { c.layout with bucketsCount := c.layout.bucketsCount + 1 }⟩
  refused : ∀ (c : Container B) (fm : FileMap), I c → fm.length = c.fileMap.length → I { c with fileMap := fm }

namespace Framed

variable (h : Framed I) (kernel : Kernel) (fuel : ℕ)
include h

theorem store (p : BucketPtr) (b : Bucket B) : (store p b).Keeps I :=
  Prog.keeps_get.bind fun _ => (Prog.keeps_check _ _).bind fun _ => Prog.keeps_modify fun c => h.setBucket c p.id b

theorem setNext (id : ℕ) (next : Option ℕ) : (setNext id next : Prog Fault (Container B) Unit).Keeps I :=
  (bucketPtr_reads id).keeps.bind fun p => (load_reads p).keeps.bind fun _ => h.store _ _

theorem takeBucketId : (takeBucketId kernel : Prog Fault (Container B) ℕ).Keeps I := by
  refine Prog.keeps_of_runs fun c hc => ?_
  unfold Container.takeBucketId
  rw [Prog.runs_bind, Prog.runs_get]
  cases c.layout.firstFreeBucketId with
  | none =>
    rw [Prog.runs_bind]
    refine (reserve_runs kernel _ c).mono ?_ fun e c' hr => ?_
    · rintro _ ⟨fm, layout⟩ ⟨hlayout, hlength⟩
      obtain rfl : layout = c.layout := hlayout
      have hsum : c.layout.bucketsCount * bucketBytes B + layoutBytes B =
          headerBytes + (c.layout.bucketsCount + 1) * bucketBytes B := by
        unfold layoutBytes
        rw [Nat.add_mul]
        omega
      rw [hsum] at hlength
      have hlen : fm.length = _ := hlength
      rw [Prog.runs_bind, Prog.runs_modify, Prog.runs_pure]
      refine h.grow c fm hc ?_ ?_ <;> rw [hlen] <;> split_ifs <;> omega
    · obtain ⟨fm, layout⟩ := c'
      obtain rfl : layout = c.layout := hr.layout
      exact h.refused c fm hc hr.length
  | some id =>
    exact ((bucketAt_reads id).keeps.bind fun _ => (Prog.keeps_modify fun c => h.setFirstFree c _).bind fun _ =>
      Prog.keeps_pure _).runs hc

theorem createBucket (prefixBits : ℕ) : (createBucket kernel prefixBits : Prog Fault (Container B) ℕ).Keeps I :=
  (h.takeBucketId kernel).bind fun _ => (bucketPtr_reads _).keeps.bind fun p => (load_reads p).keeps.bind fun _ =>
    (h.store _ _).bind fun _ => Prog.keeps_pure _

/-! ### Records -/

theorem findRoom (required bucketId : ℕ) (p : BucketPtr) :
    (findRoom kernel required fuel bucketId p : Prog Fault (Container B) BucketPtr).Keeps I := by
  induction fuel generalizing bucketId p with
  | zero => exact Prog.keeps_throw _
  | succ fuel ih =>
    refine (load_reads p).keeps.bind fun bucket => Prog.Keeps.ite ?_ (Prog.keeps_pure _)
    cases bucket.nextBucketId with
    | none =>
      exact (h.createBucket _ _).bind fun _ => (h.setNext _ _).bind fun _ => (bucketPtr_reads _).keeps.bind (ih _)
    | some next => exact (bucketPtr_reads _).keeps.bind (ih _)

theorem writeRecord (p : BucketPtr) (hash : Hash) (key value : Bytes) :
    (writeRecord p hash key value : Prog Fault (Container B) View).Keeps I :=
  (load_reads p).keeps.bind fun _ => (Prog.keeps_lift _).bind fun _ => (Prog.keeps_lift _).bind fun _ =>
    (Prog.keeps_lift _).bind fun _ => (Prog.keeps_lift _).bind fun _ => (Prog.keeps_lift _).bind fun _ =>
      (h.store _ _).bind fun _ => Prog.keeps_pure _

theorem createRecord (bucketId : ℕ) (hash : Hash) (key value : Bytes) :
    (createRecord kernel fuel bucketId hash key value : Prog Fault (Container B) View).Keeps I :=
  (bucketPtr_reads _).keeps.bind fun _ => (h.findRoom kernel fuel _ _ _).bind fun p => h.writeRecord p hash key value

theorem eraseRecord (bucketId recordStart recordLength : ℕ) :
    (eraseRecord bucketId recordStart recordLength : Prog Fault (Container B) Unit).Keeps I :=
  (bucketPtr_reads _).keeps.bind fun p => (load_reads p).keeps.bind fun _ => (Prog.keeps_lift _).bind fun _ =>
    (Prog.keeps_lift _).bind fun _ => h.store _ _

theorem removeRecord (hash : Hash) (key : Bytes) (head : Option ℕ) :
    (removeRecord hash key fuel head : Prog Fault (Container B) Bool).Keeps I := by
  induction fuel generalizing head with
  | zero =>
    cases head with
    | none => exact Prog.keeps_pure _
    | some id => exact Prog.keeps_throw _
  | succ fuel ih =>
    cases head with
    | none => exact Prog.keeps_pure _
    | some id =>
      refine (bucketAt_reads id).keeps.bind fun bucket => (Prog.keeps_lift _).bind fun found => ?_
      cases found with
      | none => exact ih _
      | some found => exact (h.eraseRecord _ _ _).bind fun _ => Prog.keeps_pure _

/-! ### Splitting a chain -/

theorem chainBit1 (prefixBits getBucketId : ℕ) (v : SplitVars) :
    (chainBit1 kernel prefixBits getBucketId v : Prog Fault (Container B) SplitVars).Keeps I :=
  (load_reads _).keeps.bind fun _ => (Prog.keeps_check _ _).bind fun _ => (h.createBucket _ _).bind fun _ =>
    (h.setNext _ _).bind fun _ => (bucketPtr_reads _).keeps.bind fun _ => (bucketPtr_reads _).keeps.bind fun _ =>
      (load_reads _).keeps.bind fun _ => (bucketPtr_reads _).keeps.bind fun _ => Prog.keeps_pure _

theorem chainBit0 (prefixBits getBucketId : ℕ) (v : SplitVars) :
    (chainBit0 kernel prefixBits getBucketId v : Prog Fault (Container B) SplitVars).Keeps I := by
  refine (load_reads _).keeps.bind fun bit0 => (Prog.keeps_check _ _).bind fun _ => ?_
  cases bit0.nextBucketId with
  | some next =>
    exact (bucketPtr_reads _).keeps.bind fun p => (load_reads p).keeps.bind fun _ => (h.store _ _).bind fun _ =>
      Prog.keeps_pure _
  | none =>
    exact (h.createBucket _ _).bind fun _ => (h.setNext _ _).bind fun _ => (bucketPtr_reads _).keeps.bind fun _ =>
      (bucketPtr_reads _).keeps.bind fun _ => (bucketPtr_reads _).keeps.bind fun _ => (load_reads _).keeps.bind fun _ =>
        (load_reads _).keeps.bind fun _ => (h.store _ _).bind fun _ => Prog.keeps_pure _

theorem moveRecord (src : BytePtr) (recordLength : ℕ) (p : BucketPtr) (put : BytePtr) :
    (moveRecord src recordLength p put : Prog Fault (Container B) BytePtr).Keeps I := by
  have hcopy : (copy src recordLength put : Prog Fault (Container B) BytePtr).Keeps I :=
    (load_reads _).keeps.bind fun _ => (Prog.keeps_lift _).bind fun _ => (load_reads _).keeps.bind fun _ =>
      (Prog.keeps_lift _).bind fun _ => (h.store _ _).bind fun _ => Prog.keeps_pure _
  exact hcopy.bind fun _ => (load_reads p).keeps.bind fun _ => (h.store _ _).bind fun _ => Prog.keeps_pure _

theorem splitStep (prefixBits : ℕ) (newBit : Hash) (getBucketId : ℕ) (v : SplitVars) :
    (splitStep kernel prefixBits newBit getBucketId v : Prog Fault (Container B) SplitVars).Keeps I := by
  refine (load_reads _).keeps.bind fun _ => (Prog.keeps_lift _).bind fun _ => (Prog.keeps_check _ _).bind fun _ =>
    Prog.Keeps.ite ?_ ?_
  · exact ((load_reads _).keeps.bind fun _ => (h.chainBit1 kernel _ _ _).ite (Prog.keeps_pure _)).bind fun _ =>
      (h.moveRecord _ _ _ _).bind fun _ => Prog.keeps_pure _
  · exact ((load_reads _).keeps.bind fun _ => (h.chainBit0 kernel _ _ _).ite (Prog.keeps_pure _)).bind fun _ =>
      (h.moveRecord _ _ _ _).bind fun _ => Prog.keeps_pure _

theorem splitRecords (prefixBits : ℕ) (newBit : Hash) (getBucketId getLast : ℕ) (v : SplitVars) :
    (splitRecords kernel prefixBits newBit getBucketId getLast fuel v :
      Prog Fault (Container B) SplitVars).Keeps I := by
  induction fuel generalizing v with
  | zero => exact Prog.keeps_throw _
  | succ fuel ih => exact (Prog.keeps_pure _).ite ((h.splitStep kernel _ _ _ _).bind ih)

theorem splitChain (prefixBits : ℕ) (newBit : Hash) (getBucketId : Option ℕ) (v : SplitVars) :
    (splitChain kernel prefixBits newBit fuel getBucketId v : Prog Fault (Container B) SplitVars).Keeps I := by
  induction fuel generalizing getBucketId v with
  | zero =>
    cases getBucketId with
    | none => exact Prog.keeps_pure _
    | some id => exact Prog.keeps_throw _
  | succ fuel ih =>
    cases getBucketId with
    | none => exact Prog.keeps_pure _
    | some id =>
      exact (bucketPtr_reads _).keeps.bind fun _ => (load_reads _).keeps.bind fun _ => (h.store _ _).bind fun _ =>
        (h.splitRecords kernel _ _ _ _ _ _).bind fun _ => (bucketAt_reads _).keeps.bind fun _ => ih _ _

theorem freeChain (head : Option ℕ) : (freeChain fuel head : Prog Fault (Container B) Unit).Keeps I := by
  induction fuel generalizing head with
  | zero =>
    cases head with
    | none => exact Prog.keeps_pure _
    | some id => exact Prog.keeps_throw _
  | succ fuel ih =>
    cases head with
    | none => exact Prog.keeps_pure _
    | some id =>
      exact (bucketPtr_reads _).keeps.bind fun _ => (load_reads _).keeps.bind fun _ =>
        (Prog.keeps_check _ _).bind fun _ => Prog.keeps_get.bind fun _ => (h.store _ _).bind fun _ =>
          (Prog.keeps_modify fun c => h.setFirstFree c _).bind fun _ => ih _

theorem split (bucketId : ℕ) : (split kernel fuel bucketId : Prog Fault (Container B) ℕ).Keeps I :=
  (bucketPtr_reads _).keeps.bind fun _ => (load_reads _).keeps.bind fun _ => (h.store _ _).bind fun _ =>
    (h.createBucket _ _).bind fun _ => (Prog.keeps_lift _).bind fun _ => (bucketPtr_reads _).keeps.bind fun _ =>
      (bucketPtr_reads _).keeps.bind fun _ => (h.splitChain kernel fuel _ _ _ _).bind fun _ =>
        (load_reads _).keeps.bind fun _ => (h.store _ _).bind fun _ => (h.freeChain fuel _).bind fun _ =>
          Prog.keeps_pure _

end Framed

/-- The file is no longer than its buckets and a tenth more. -/
def Economical (c : Container B) : Prop :=
  c.fileMap.length ≤ (headerBytes + c.layout.bucketsCount * bucketBytes B) * 11 / 10

theorem framed_economical : Framed (B := B) Economical where
  setBucket _ _ _ hc := hc
  setFirstFree _ _ hc := hc
  grow c fm hc _ hle := by
    refine hle.trans (max_le (hc.trans (Nat.div_le_div_right (Nat.mul_le_mul_right 11 ?_))) le_rfl)
    exact Nat.add_le_add_left (Nat.mul_le_mul_right _ (Nat.le_succ _)) _
  refused c fm hc hlen := show fm.length ≤ _ from hlen ▸ hc

/-- The file has not become shorter, nor has it lost a bucket. -/
def Grows (c₀ c : Container B) : Prop :=
  c₀.fileMap.length ≤ c.fileMap.length ∧ c₀.layout.bucketsCount ≤ c.layout.bucketsCount

theorem framed_grows (c₀ : Container B) : Framed (Grows c₀) where
  setBucket _ _ _ hc := hc
  setFirstFree _ _ hc := hc
  grow _ _ hc hle _ := ⟨hc.1.trans hle, hc.2.trans (Nat.le_succ _)⟩
  refused _ _ hc hlen := ⟨hc.1.trans hlen.ge, hc.2⟩

end Container

namespace Catalogue

variable {I : Catalogue → Prop}

/-- A property of the length and of the number of entries that is kept when the catalogue is doubled. -/
structure Framed (I : Catalogue → Prop) : Prop where
  same : ∀ c c' : Catalogue, I c → c'.fileMap.length = c.fileMap.length →
    c'.layout.bufferSize = c.layout.bufferSize → I c'
  double : ∀ c c' : Catalogue, I c → c'.layout.bufferSize = c.layout.bufferSize * 2 →
    (c'.fileMap.length = c.fileMap.length ∨
      c'.fileMap.length = layoutBytes + (c.layout.bufferSize * 2 - 1) * entryBytes) → I c'

namespace Framed

variable (h : Framed I)
include h

theorem setEntry (i value : ℕ) : (setEntry i value).Keeps I :=
  Prog.keeps_get.bind fun _ => (Prog.keeps_check _ _).bind fun _ => Prog.keeps_modify fun c hc => h.same c _ hc rfl rfl

theorem assign (hash : Hash) (value : ℕ) : (assign hash value).Keeps I :=
  Prog.keeps_get.bind fun _ => (Prog.keeps_lift _).bind fun _ => h.setEntry _ _

theorem fillEntries (value count put : ℕ) : (fillEntries value count put).Keeps I := by
  induction count generalizing put with
  | zero => exact Prog.keeps_pure _
  | succ count ih => exact (h.setEntry _ _).bind fun _ => ih _

theorem set (hash : Hash) (offset value : ℕ) : (set hash offset value).Keeps I :=
  Prog.keeps_get.bind fun _ => (Prog.keeps_check _ _).bind fun _ => (Prog.keeps_lift _).bind fun _ =>
    (Prog.keeps_check _ _).bind fun _ => h.fillEntries _ _ _

theorem doubleEntries (n get put : ℕ) : (doubleEntries n get put).Keeps I := by
  induction n generalizing get put with
  | zero => exact Prog.keeps_pure _
  | succ n ih =>
    exact (entry_reads _).keeps.bind fun _ => (h.setEntry _ _).bind fun _ => (entry_reads _).keeps.bind fun _ =>
      (h.setEntry _ _).bind fun _ => ih _ _

theorem split (kernel : Kernel) : (split kernel).Keeps I := by
  refine Prog.keeps_of_runs fun c hc => ?_
  unfold Catalogue.split
  simp only [Prog.runs_bind, Prog.runs_get, Prog.runs_modify, Prog.runs_check]
  refine ⟨fun _ => ?_, fun _ => h.same c _ hc rfl rfl⟩
  cases oneShl (c.layout.prefixShift - 1) with
  | error e => exact h.same c _ hc rfl rfl
  | ok newBit =>
    rw [Prog.runs_lift_ok]
    refine (resize_runs kernel _ _).mono ?_ ?_
    · rintro _ c' ⟨hlayout, hlen⟩
      exact (h.doubleEntries _ _ _).runs (h.double c c' hc (by rw [hlayout]) (.inr hlen))
    · rintro e c' ⟨-, -, hlayout, hlen⟩
      exact h.double c c' hc (by rw [hlayout]) (.inl hlen)

end Framed

/-- The file is no longer than its entries. -/
def Economical (c : Catalogue) : Prop :=
  1 ≤ c.layout.bufferSize ∧ c.fileMap.length ≤ headerBytes + c.layout.bufferSize * entryBytes

theorem framed_economical : Framed Economical where
  same c c' hc hlen hsize := by
    unfold Economical at *
    rwa [hlen, hsize]
  double c c' hc hsize hlen := by
    unfold Economical layoutBytes entryBytes at *
    omega

/-- The file has not become shorter, nor has it lost an entry. -/
def Grows (c₀ c : Catalogue) : Prop :=
  c₀.fileMap.length ≤ c.fileMap.length ∧ c₀.layout.bufferSize ≤ c.layout.bufferSize

theorem framed_grows (c₀ : Catalogue) : Framed fun c => Economical c ∧ Grows c₀ c where
  same c c' hc hlen hsize := by
    unfold Economical Grows at *
    rwa [hlen, hsize]
  double c c' hc hsize hlen := by
    refine ⟨framed_economical.double c c' hc.1 hsize hlen, ?_⟩
    unfold Economical Grows layoutBytes entryBytes at *
    omega

end Catalogue

namespace HashMap

variable {B : ℕ} {m m' : HashMap B} {S : Shape} {D : Contents} {C : Catalogue → Prop} {K : Container B → Prop}

section Keeps

variable (hC : Catalogue.Framed C) (hK : Container.Framed K)

/-- Both files have their property. -/
def Both (C : Catalogue → Prop) (K : Container B → Prop) (m : HashMap B) : Prop := C m.catalogue ∧ K m.container

theorem onCat_keeps {α : Type} {p : Prog Fault Catalogue α} (hp : p.Keeps C) :
    (onCat p : Prog Fault (HashMap B) α).Keeps (Both C K) := hp.zoom (fun _ h => h.1) fun _ _ h hc => ⟨hc, h.2⟩

theorem onDat_keeps {α : Type} {p : Prog Fault (Container B) α} (hp : p.Keeps K) : (onDat p).Keeps (Both C K) :=
  hp.zoom (fun _ h => h.2) fun _ _ h hc => ⟨h.1, hc⟩

theorem bucketPrefixBits_reads (bucketId : ℕ) : (bucketPrefixBits bucketId : Prog Fault (HashMap B) ℕ).Reads :=
  (onDat_reads (Container.bucketAt_reads _)).bind fun _ => Prog.reads_pure _

include hC hK

theorem init_keeps (os : Os) : (init os : Prog Fault (HashMap B) Unit).Keeps (Both C K) :=
  (onDat_keeps (hK.createBucket _ _)).bind fun _ => (onCat_keeps (hC.assign _ _)).bind fun _ =>
    (onDat_keeps (hK.createBucket _ _)).bind fun _ => onCat_keeps (hC.assign _ _)

theorem splitBucket_keeps (os : Os) (fuel : ℕ) (hash : Hash) (bucketId : ℕ) :
    (splitBucket os fuel hash bucketId : Prog Fault (HashMap B) ℕ).Keeps (Both C K) := by
  refine (bucketPrefixBits_reads _).keeps.bind fun _ => Prog.keeps_get.bind fun _ =>
    Prog.Keeps.ite ?_ (Prog.keeps_pure _)
  have henter : ∀ newBit newBucketId, (enterBucket hash newBit bucketId newBucketId :
      Prog Fault (HashMap B) ℕ).Keeps (Both C K) := fun _ _ =>
    (onCat_reads (Catalogue.find_reads hash)).keeps.bind fun _ => (Prog.keeps_check _ _).bind fun _ => Prog.keeps_pure _
  exact (onDat_keeps (hK.split _ _ _)).bind fun _ => (bucketPrefixBits_reads _).keeps.bind fun _ =>
    (bucketPrefixBits_reads _).keeps.bind fun _ => (Prog.keeps_check _ _).bind fun _ =>
      (Prog.keeps_lift _).bind fun _ => (onCat_keeps (hC.set _ _ _)).bind fun _ => henter _ _

theorem makeRoom_keeps (os : Os) (fuel : ℕ) (hash : Hash) (bucketId : ℕ) :
    (makeRoom os fuel hash bucketId : Prog Fault (HashMap B) ℕ).Keeps (Both C K) := by
  have hfull : (Container.bucketToSplit bucketId : Prog Fault (Container B) Bool).Keeps K := by
    refine (Container.bucketAt_reads _).keeps.bind fun first => ?_
    cases first.nextBucketId with
    | none => exact Prog.keeps_pure _
    | some next => exact (Container.bucketAt_reads _).keeps.bind fun _ => (Prog.keeps_pure _).ite (Prog.keeps_pure _)
  have hgrow : (growCatalogue os bucketId : Prog Fault (HashMap B) Unit).Keeps (Both C K) :=
    (bucketPrefixBits_reads _).keeps.bind fun _ => Prog.keeps_get.bind fun _ =>
      (onCat_keeps (hC.split _)).ite (Prog.keeps_pure _)
  exact (onDat_keeps hfull).bind fun _ =>
    (hgrow.bind fun _ => splitBucket_keeps hC hK _ _ _ _).ite (Prog.keeps_pure _)

theorem get_keeps (os : Os) (fuel : ℕ) (hash : Hash) (key default : Bytes) :
    (get os fuel hash key default : Prog Fault (HashMap B) View).Keeps (Both C K) := by
  refine (onCat_reads (Catalogue.find_reads hash)).keeps.bind fun _ =>
    (onDat_reads (Container.findRecord_reads _ _ _ _)).keeps.bind fun result => ?_
  cases result with
  | some v => exact Prog.keeps_pure _
  | none => exact (makeRoom_keeps hC hK _ _ _ _).bind fun _ => onDat_keeps (hK.createRecord _ _ _ _ _ _)

/-- Every call keeps what is framed. -/
theorem call_keeps (fuel : ℕ) (call : Call) : (call.run fuel : Prog Fault (HashMap B) Answer).Keeps (Both C K) := by
  cases call with
  | get os hash key default =>
    exact (get_keeps hC hK _ _ _ _ _).bind fun _ => Prog.keeps_get.bind fun _ => Prog.keeps_pure _
  | find hash key => exact (find_reads _ _ _).keeps.bind fun _ => Prog.keeps_get.bind fun _ => Prog.keeps_pure _
  | remove hash key =>
    exact ((onCat_reads (Catalogue.find_reads hash)).keeps.bind fun _ => onDat_keeps (hK.removeRecord _ _ _ _)).bind
      fun _ => Prog.keeps_pure _

end Keeps

/-- The files of a new map are no longer than they have to be. -/
theorem new_economical {os : Os} {readOnly : Bool} (h : new os readOnly (Files.empty B) = .ok m) :
    Both Catalogue.Economical Container.Economical m := by
  have hlen := new_length h
  have hcount := new_count h
  obtain ⟨cat, hcat, h⟩ := Prog.except_bind_ok.mp h
  obtain ⟨dat, hdat, h⟩ := Prog.except_bind_ok.mp h
  obtain ⟨hwf, -, hexact, -⟩ := Catalogue.new_ok le_rfl (by decide) hcat
  rw [if_pos (Container.new_ok hdat).1] at h
  cases hinit : init os ⟨cat, dat⟩ with
  | error e m' =>
    rw [hinit] at h
    cases h
  | ok a m' =>
    rw [hinit] at h
    obtain rfl := Except.ok.inj h
    have hcat : Catalogue.Economical cat := ⟨hwf.bufferSize ▸ Nat.two_pow_pos _, le_of_eq hexact⟩
    have hkeeps := (init_keeps Catalogue.framed_economical (Container.framed_grows dat) os).runs
      (s := ⟨cat, dat⟩) ⟨hcat, le_rfl, le_rfl⟩
    refine ⟨(hkeeps.of_ok hinit).1, ?_⟩
    unfold Container.Economical
    rwa [hcount]

/-- The records of a map are in its file, each in a place of its own. -/
theorem Inv.total_le (h : m.Inv S) :
    headerBytes + m.container.layout.bucketsCount * (3 * 8) + total Record.size S.records ≤
      m.container.bytesAllocated := by
  have hnodup := (List.nodup_append.mp h.rep.owned.nodup).1
  have hsub : S.chains.flatten ⊆ List.range m.container.layout.bucketsCount := fun i hi => by
    obtain ⟨L, hL, hiL⟩ := List.mem_flatten.mp hi
    exact List.mem_range.mpr (h.lt_count hL hiL)
  have hlen : S.chains.flatten.length ≤ m.container.layout.bucketsCount := by
    have := (List.subperm_of_subset hnodup hsub).length_le
    rwa [List.length_range] at this
  have hsum : total Record.size S.records ≤ m.container.layout.bucketsCount * B := by
    rw [Shape.records, total_flatMap]
    refine (List.sum_le_card_nsmul _ B fun n hn => ?_).trans ?_
    · obtain ⟨i, hi, rfl⟩ := List.mem_map.mp hn
      have hholds := h.rep.holds i (List.mem_range.mp (hsub hi))
      exact hholds.used.ge.trans hholds.le
    · rw [List.length_map, nsmul_eq_mul, Nat.cast_id]
      exact Nat.mul_le_mul_right B hlen
  have hpos := Nat.pos_of_ne_zero h.count_ne_zero
  have hmapped := h.rep.owned.mapped (Nat.sub_lt hpos Nat.one_pos)
  unfold Container.Mapped bucketBytes at hmapped
  rw [Nat.sub_add_cancel hpos, Nat.mul_add] at hmapped
  unfold Container.bytesAllocated
  omega

/-- Two lists of the entries of a dictionary have the same records. -/
theorem Lists.perm_records (h : Lists S D) {es : List Record}
    (hes : Dict.Lists (fun r : Record => (r.hash, r.key)) Record.value es D) : es.Perm S.records := by
  refine (List.perm_ext_iff_of_nodup hes.nodup.of_map (Dict.Lists.nodup h).of_map).mpr fun r => ?_
  have hmem : ∀ {es : List Record}, Dict.Lists (fun r : Record => (r.hash, r.key)) Record.value es D →
      (r ∈ es ↔ D (r.hash, r.key) = some r.value) := by
    intro es hes
    rw [hes.some_iff]
    constructor
    · exact fun hr => ⟨r, hr, rfl, rfl⟩
    · rintro ⟨⟨hash, key, value⟩, hr, hkey, hvalue⟩
      cases hkey
      cases hvalue
      exact hr
  exact (hmem hes).trans (hmem h).symm

end HashMap

/-- The call ended, with an answer or not. -/
def Leaves {B : ℕ} (m : HashMap B) (call : Call) (_ : Unit) (m' : HashMap B) : Prop :=
  ∃ fuel, (call.run fuel m).state = m'

/-- The files are no longer than their buckets with a tenth more and their entries, and no call makes them shorter,
whatever calls were made and however they ended.  After a session they are long enough for the entries of the
dictionary. -/
theorem allocation_bounded {os : Os} {m₀ : HashMap defaultBucketSize}
    (hnew : HashMap.new os false (Files.empty defaultBucketSize) = .ok m₀) :
    (∀ tr m, Run Leaves m₀ tr m →
      m.bytesAllocated ≤ (headerBytes + m.container.layout.bucketsCount * bucketBytes defaultBucketSize) * 11 / 10 +
        (Catalogue.headerBytes + m.catalogue.layout.bufferSize * Catalogue.entryBytes) ∧
      ∀ (call : Call) fuel, m.bytesAllocated ≤ (call.run fuel m).state.bytesAllocated) ∧
    ∀ tr m, Run Attempts m₀ tr m → ∀ es : List Record,
      Dict.Lists (fun r : Record => (r.hash, r.key)) Record.value es
        (replay dictionary Dict.empty ((returned tr).map Prod.fst)).2 →
      total Record.size es + m.container.layout.bucketsCount * (3 * 8) ≤ m.bytesAllocated := by
  constructor
  · intro tr m hrun
    have hm : HashMap.Both Catalogue.Economical Container.Economical m := by
      refine hrun.invariant ?_ (HashMap.new_economical hnew)
      rintro m call _ _ hm ⟨fuel, rfl⟩
      exact HashMap.call_keeps Catalogue.framed_economical Container.framed_economical fuel call m hm
    refine ⟨Nat.add_le_add hm.2 hm.1.2, fun call fuel => ?_⟩
    have hgrows :=
      HashMap.call_keeps (Catalogue.framed_grows m.catalogue) (Container.framed_grows m.container) fuel call
      m ⟨⟨hm.1, le_rfl, le_rfl⟩, le_rfl, le_rfl⟩
    exact Nat.add_le_add hgrows.2.1 hgrows.1.2.1
  · intro tr m hrun es hes
    obtain ⟨-, S, h, hD⟩ := HashMap.attempts_refine defaultBucketSize_lt hrun (HashMap.new_represents hnew)
    have hle := h.total_le
    rw [total, ((HashMap.Lists.perm_records hD hes).map Record.size).sum_eq]
    unfold HashMap.bytesAllocated
    unfold total at hle
    omega

/-- A call of a new map that is refused memory. -/
theorem allocation_bounded_refused : ∃ m₀ m : HashMap defaultBucketSize,
    HashMap.new Os.willing false (Files.empty defaultBucketSize) = .ok m₀ ∧
    Run Leaves m₀ [(.get Os.stubborn 7 [1] (List.replicate defaultBucketSize 0), ())] m ∧
    m.bytesAllocated ≤ (headerBytes + m.container.layout.bucketsCount * bucketBytes defaultBucketSize) * 11 / 10 +
      (Catalogue.headerBytes + m.catalogue.layout.bufferSize * Catalogue.entryBytes) := by
  obtain ⟨m₀, hnew⟩ := HashMap.new_returns (B := defaultBucketSize) Os.willing_grants false
  have hstep : Run Leaves m₀ [(.get Os.stubborn 7 [1] (List.replicate defaultBucketSize 0), ())] _ := .single ⟨1, rfl⟩
  exact ⟨m₀, _, hnew, hstep, ((allocation_bounded hnew).1 _ _ hstep).1⟩

end DiskHash
