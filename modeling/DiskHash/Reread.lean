import DiskHash.Iteration
import DiskHash.Reading
import DiskHash.Reopen

/-!
# DiskHash.Reread — reading a map that was opened again

After a reopen the same bytes are behind shorter mappings.  What only reads then ends as it ended before, or leaves
the mapping: no operation has another answer.  An iterator shows the records of the first bucket and leaves the
mapping after the last of them, so a loop over a reopened map never gets to its end.
-/

namespace DiskHash

open Packing

section Shorter

variable {B : ℕ} (fuel steps : ℕ) (hash : Hash) (key : Bytes)

/-! ### The files -/

namespace Catalogue

/-- The same file behind a mapping that is not longer. -/
def Shorter (c' c : Catalogue) : Prop := c'.layout = c.layout ∧ c'.fileMap.length ≤ c.fileMap.length

theorem entry_confined (i : ℕ) : (entry i).Confined Shorter .outOfBounds :=
  Prog.confined_check (fun _ _ h hm => le_trans hm h.2) fun _ _ h => by rw [h.1]

theorem find_confined : (find hash).Confined Shorter .outOfBounds := by
  refine Prog.confined_get (fun c' c h => ?_) fun _ => (Prog.confined_lift _).bind entry_confined
  have hindex : c'.index hash = c.index hash := by
    unfold index
    rw [h.1]
  rw [hindex]

end Catalogue

namespace Container

/-- The same file behind a mapping that is not longer. -/
def Shorter (c' c : Container B) : Prop := c'.layout = c.layout ∧ c'.fileMap.length ≤ c.fileMap.length

theorem bucketAt_eq (id : ℕ) : (bucketAt id : Prog Fault (Container B) (Bucket B)) =
    Prog.get >>= fun c => Prog.check (c.Mapped id) .outOfBounds >>= fun _ => pure (c.layout.buckets id) := by
  funext c
  by_cases hm : c.Mapped id <;> simp [bucketAt, load, bucketPtr, Prog.get, Prog.check, bind, Prog.bind, pure, hm]

theorem bucketAt_confined (id : ℕ) :
    (bucketAt id : Prog Fault (Container B) (Bucket B)).Confined Shorter .outOfBounds := by
  rw [bucketAt_eq]
  exact Prog.confined_check (fun _ _ h hm => le_trans hm h.2) fun _ _ h => by rw [h.1]

theorem findRecord_confined (head : Option ℕ) :
    (findRecord hash key fuel head : Prog Fault (Container B) (Option View)).Confined Shorter .outOfBounds := by
  induction fuel generalizing head with
  | zero =>
    cases head with
    | none => exact Prog.confined_pure _
    | some id => exact Prog.confined_throw _
  | succ fuel ih =>
    cases head with
    | none => exact Prog.confined_pure _
    | some id =>
      refine (bucketAt_confined id).bind fun bucket => (Prog.confined_lift _).bind fun found => ?_
      cases found with
      | none => exact ih _
      | some h => exact Prog.confined_pure _

theorem readRecord_confined (id byteOffset : ℕ) :
    (readRecord id byteOffset : Prog Fault (Container B) (Option (RecordView × ℕ))).Confined Shorter .outOfBounds :=
  (bucketAt_confined id).bind fun _ => (Prog.confined_pure _).ite <|
    (Prog.confined_lift _).bind fun _ => Prog.confined_pure _

end Container

namespace HashMap

variable {α : Type}

/-- The same files behind mappings that are not longer. -/
def Shorter (m' m : HashMap B) : Prop :=
  m'.catalogue.Shorter m.catalogue ∧ m'.container.Shorter m.container

theorem onCat_confined {p : Prog Fault Catalogue α} (hp : p.Confined Catalogue.Shorter .outOfBounds) :
    (onCat p : Prog Fault (HashMap B) α).Confined Shorter .outOfBounds := hp.zoom (fun _ _ h => h.1) fun _ => rfl

theorem onDat_confined {p : Prog Fault (Container B) α} (hp : p.Confined Container.Shorter .outOfBounds) :
    (onDat p).Confined Shorter .outOfBounds := hp.zoom (fun _ _ h => h.2) fun _ => rfl

theorem find_confined : (find fuel hash key : Prog Fault (HashMap B) (Option View)).Confined Shorter .outOfBounds :=
  (onCat_confined (Catalogue.find_confined hash)).bind fun _ =>
    onDat_confined (Container.findRecord_confined _ _ _ _)

end HashMap

/-! ### Iterators -/

namespace ConstIterator

open HashMap

theorem skipEntries_confined (n catalogueIndex : ℕ) :
    (skipEntries n catalogueIndex : Prog Fault (HashMap B) ℕ).Confined Shorter .outOfBounds := by
  induction n generalizing catalogueIndex with
  | zero => exact Prog.confined_pure _
  | succ n ih =>
    exact (onCat_confined (Catalogue.entry_confined _)).bind fun _ =>
      (onCat_confined (Catalogue.entry_confined _)).bind fun _ => (ih _).ite (Prog.confined_pure _)

theorem findNextRecord_confined (it : ConstIterator) :
    (findNextRecord fuel it : Prog Fault (HashMap B) ConstIterator).Confined Shorter .outOfBounds := by
  induction fuel generalizing it with
  | zero => exact Prog.confined_throw _
  | succ fuel ih =>
    refine (onDat_confined (Container.readRecord_confined _ _)).bind fun record => ?_
    cases record with
    | some r => exact Prog.confined_pure _
    | none =>
      refine (onDat_confined (Container.bucketAt_confined _)).bind fun bucket => ?_
      cases bucket.nextBucketId with
      | some next => exact ih _
      | none =>
        refine Prog.confined_get (fun m' m h => ?_) fun _ => (skipEntries_confined _ _).bind fun _ =>
          (Prog.confined_pure _).ite <| (onCat_confined (Catalogue.entry_confined _)).bind fun _ => ih _
        rw [h.1.1]

theorem atBegin_confined : (atBegin fuel : Prog Fault (HashMap B) ConstIterator).Confined Shorter .outOfBounds := by
  refine Prog.confined_get (fun m' m h => ?_) fun _ => ((onCat_confined (Catalogue.entry_confined _)).bind fun _ =>
    findNextRecord_confined _ _).ite (Prog.confined_pure _)
  rw [h.1.1]

theorem deref_confined (it : ConstIterator) :
    (deref it : Prog Fault (HashMap B) (View × View)).Confined Shorter .outOfBounds := by
  refine (onDat_confined (Container.readRecord_confined _ _)).bind fun record => ?_
  cases record <;> exact Prog.confined_pure _

theorem next_confined (it : ConstIterator) :
    (next fuel it : Prog Fault (HashMap B) ConstIterator).Confined Shorter .outOfBounds :=
  (onDat_confined (Container.readRecord_confined _ _)).bind fun _ => findNextRecord_confined _ _

end ConstIterator

end Shorter

/-! ### After a reopen -/

namespace HashMap

variable {B : ℕ} {m m' : HashMap B} {S : Shape} {fuel : ℕ}

theorem Inv.prefixBits_pos (h : m.Inv S) : 0 < m.catalogue.layout.prefixBits := by
  obtain ⟨L, hL, -⟩ := h.entries 0
  obtain ⟨b, p, q, hc⟩ := h.cells L hL
  exact lt_of_lt_of_le hc.pos hc.le

theorem Inv.first_lt (h : m.Inv S) : 0 < m.container.layout.bucketsCount := Nat.pos_of_ne_zero h.count_ne_zero

/-- The records of the first bucket are records of the map. -/
theorem Inv.first_records (h : m.Inv S) {r : Record} (hr : r ∈ S.recs 0) : r ∈ S.records := by
  obtain ⟨L, hL, hhead⟩ := h.entries 0
  rw [h.origin] at hhead
  exact Shape.mem_records.mpr ⟨L, hL, 0, List.mem_of_mem_head? hhead, hr⟩

theorem Inv.next_first_ne (h : m.Inv S) : m.container.next 0 ≠ some 0 := by
  obtain ⟨L, hL, hhead⟩ := h.entries 0
  rw [h.origin] at hhead
  exact h.head_unlinked hL hhead h.first_lt

theorem Reopened.shorter (h : m.Inv S) (hr : Reopened m m') : m'.Shorter m := by
  have hentry := h.cat.mapped (i := 0) (Nat.two_pow_pos _)
  have hbucket := h.rep.owned.mapped h.first_lt
  unfold Catalogue.Mapped at hentry
  unfold Container.Mapped at hbucket
  refine ⟨⟨hr.catalogue, ?_⟩, hr.container, ?_⟩
  · rw [hr.catalogueLength, Catalogue.layoutBytes]
    omega
  · rw [hr.containerLength, layoutBytes]
    omega

/-- The first bucket is read as before. -/
theorem Reopened.holds_first (h : m.Inv S) (hr : Reopened m m') :
    (m'.container.layout.buckets 0).Holds (S.recs 0) := by
  rw [hr.container]
  exact h.rep.holds 0 h.first_lt

/-- Every bucket but the first is behind the end of the mapping. -/
theorem Reopened.readRecord_leaves (hr : Reopened m m') {i : ℕ} (hi : i ≠ 0) (byteOffset : ℕ) :
    onDat (Container.readRecord i byteOffset) m' = .error .outOfBounds m' := by
  have hm : ¬ m'.container.Mapped i := fun hm => hi (hr.mapped_bucket_iff.mp hm)
  have hbucket : Container.bucketAt i m'.container = .error .outOfBounds m'.container := by
    rw [Container.bucketAt_eq]
    simp [Prog.get, Prog.check, bind, Prog.bind, Prog.throw, hm]
  exact Prog.zoom_error (Prog.bind_error hbucket _)

/-- Every entry but the first is behind the end of the mapping. -/
theorem Reopened.entry_leaves (hr : Reopened m m') {i : ℕ} (hi : i ≠ 0) :
    onCat (Catalogue.entry i) m' = .error .outOfBounds m' := by
  have hm : ¬ m'.catalogue.Mapped i := fun hm => hi (hr.mapped_entry_iff.mp hm)
  have hentry : Catalogue.entry i m'.catalogue = .error .outOfBounds m'.catalogue := by
    simp [Catalogue.entry, Prog.get, Prog.check, bind, Prog.bind, Prog.throw, hm]
  exact Prog.zoom_error hentry

end HashMap

namespace ConstIterator

open HashMap

variable {B : ℕ} {m m' : HashMap B} {S : Shape} {fuel : ℕ}

/-- From where an operation of an iterator ended, the iterator shows the records one by one, and the `operator++`
after the last leaves the mapping. -/
inductive Shows (fuel : ℕ) (m : HashMap B) : Prog.Outcome Fault (HashMap B) ConstIterator → List Record → Prop
  | leaves : Shows fuel m (.error .outOfBounds m) []
  | record {it : ConstIterator} {key value : View} {r : Record} {rs : List Record} :
      it.equal atEnd = false → deref it m = .ok (key, value) m → m.container.view key = r.key →
      m.container.view value = r.value → Shows fuel m (next fuel it m) rs → Shows fuel m (.ok it m) (r :: rs)

/-- The place behind the records of the first bucket is left for a bucket or an entry that is not mapped. -/
theorem findNextRecord_first_leaves (h : m.Inv S) (hr : Reopened m m') (hf : 2 ≤ fuel) :
    findNextRecord fuel ⟨true, 0, 0, total Record.size (S.recs 0)⟩ m' = .error .outOfBounds m' := by
  obtain ⟨fuel, rfl⟩ := Nat.exists_eq_add_of_le' hf
  have h0 := hr.mapped_bucket_iff.mpr rfl
  have hpast : (m'.container.layout.buckets 0).bytesUsed ≤ total Record.size (S.recs 0) :=
    (hr.holds_first h).used.le
  refine Prog.Runs.eq_error ?_
  rw [findNextRecord, Prog.runs_bind, runs_onDat, Container.runs_readRecord_past h0 hpast, Prog.runs_bind, runs_onDat,
    Container.runs_bucketAt h0]
  have hnext : (m'.container.layout.buckets 0).nextBucketId = m.container.next 0 := by
    rw [hr.container]
    rfl
  rw [hnext]
  cases hn : m.container.next 0 with
  | some b =>
    have hb : b ≠ 0 := by
      rintro rfl
      exact h.next_first_ne hn
    show Prog.Runs (findNextRecord (fuel + 1) ⟨true, 0, b, 0⟩) m' _ _
    rw [findNextRecord, Prog.runs_bind_of_error (hr.readRecord_leaves hb 0)]
    exact ⟨rfl, rfl⟩
  | none =>
    have hsize : 2 ≤ m'.catalogue.layout.bufferSize := by
      rw [hr.catalogue, h.cat.bufferSize]
      exact Nat.le_self_pow h.prefixBits_pos.ne' 2
    obtain ⟨n, hn'⟩ : ∃ n, m'.catalogue.layout.bufferSize - 1 = n + 1 := Nat.exists_eq_add_of_le' (by omega)
    simp only [Prog.runs_bind, Prog.runs_get]
    show Prog.Runs (skipEntries (m'.catalogue.layout.bufferSize - 1) 1) m' _ _
    rw [hn', skipEntries, Prog.runs_bind_of_error (hr.entry_leaves one_ne_zero)]
    exact ⟨rfl, rfl⟩

/-- From a place among the records of the first bucket the iterator shows those that follow. -/
theorem shows_first (hB : B < 2 ^ 31) (h : m.Inv S) (hr : Reopened m m') (hf : 2 ≤ fuel) (pre todo : List Record)
    (hrecs : S.recs 0 = pre ++ todo) :
    Shows fuel m' (findNextRecord fuel ⟨true, 0, 0, total Record.size pre⟩ m') todo := by
  have h0 := hr.mapped_bucket_iff.mpr rfl
  have hholds := hr.holds_first h
  induction todo generalizing pre with
  | nil =>
    rw [List.append_nil] at hrecs
    rw [← hrecs, findNextRecord_first_leaves h hr hf]
    exact .leaves
  | cons r todo ih =>
    have hstay : findNextRecord fuel ⟨true, 0, 0, total Record.size pre⟩ m' =
        .ok ⟨true, 0, 0, total Record.size pre⟩ m' := by
      obtain ⟨fuel, rfl⟩ := Nat.exists_eq_add_of_le' (Nat.le_of_succ_le hf)
      refine Prog.Runs.eq_ok ?_
      rw [findNextRecord, Prog.runs_bind, runs_onDat, Container.runs_readRecord hB h0 hholds hrecs]
      exact ⟨rfl, rfl⟩
    have hderef : deref ⟨true, 0, 0, total Record.size pre⟩ m' =
        .ok (Bucket.keyView 0 pre r, Bucket.valueView 0 pre r) m' := by
      refine Prog.Runs.eq_ok ?_
      unfold deref
      rw [Prog.runs_bind, runs_onDat, Container.runs_readRecord hB h0 hholds hrecs]
      exact ⟨rfl, rfl⟩
    have hnext : next fuel ⟨true, 0, 0, total Record.size pre⟩ m' =
        findNextRecord fuel ⟨true, 0, 0, total Record.size (pre ++ [r])⟩ m' := by
      have hread : onDat (Container.readRecord 0 (total Record.size pre)) m' =
          .ok (some (⟨r.hash, Bucket.keyView 0 pre r, Bucket.valueView 0 pre r⟩,
            total Record.size (pre ++ [r]))) m' := by
        refine Prog.Runs.eq_ok ?_
        rw [runs_onDat, Container.runs_readRecord hB h0 hholds hrecs]
        exact ⟨rfl, rfl⟩
      exact Prog.bind_ok hread _
    rw [hstay]
    rw [hrecs] at hholds
    refine .record rfl hderef (Container.view_key hholds) (Container.view_value hholds) ?_
    rw [hnext]
    exact ih (pre ++ [r]) (by rw [hrecs, List.append_assoc, List.singleton_append])

/-- A new iterator of a reopened map shows the records of the first bucket. -/
theorem atBegin_shows (hB : B < 2 ^ 31) (h : m.Inv S) (hr : Reopened m m') (hf : 2 ≤ fuel) :
    Shows fuel m' (atBegin fuel m') (S.recs 0) := by
  have hbegin : atBegin fuel m' = findNextRecord fuel ⟨true, 0, 0, total Record.size []⟩ m' := by
    have hentry : onCat (Catalogue.entry 0) m' = .ok 0 m' := by
      refine Prog.Runs.eq_ok ?_
      rw [runs_onCat, Catalogue.runs_entry (hr.mapped_entry_iff.mpr rfl), hr.catalogue]
      exact ⟨h.entry_zero, rfl⟩
    have hpos : 0 < m'.catalogue.layout.bufferSize := by
      rw [hr.catalogue, h.cat.bufferSize]
      exact Nat.two_pow_pos _
    show (if 0 < m'.catalogue.layout.bufferSize then _ else _ : Prog Fault (HashMap B) ConstIterator) m' = _
    rw [if_pos hpos, Prog.bind_ok hentry]
    rfl
  rw [hbegin]
  exact shows_first hB h hr hf [] _ rfl

/-- A loop over what is shown before the mapping is left does not get to its end. -/
theorem Shows.collect_ne_ok {o : Prog.Outcome Fault (HashMap B) ConstIterator} {rs : List Record}
    (hs : Shows fuel m o rs) (steps : ℕ) {it : ConstIterator} (ho : o = .ok it m) (l : List (Bytes × Bytes))
    (t : HashMap B) : collect fuel steps it m ≠ .ok l t := by
  induction hs generalizing it steps l t with
  | leaves => cases ho
  | @record it' key value r rs hend hderef hkey hvalue hs ih =>
    cases ho
    intro hrun
    unfold collect at hrun
    rw [if_neg (by rw [hend]; exact Bool.false_ne_true)] at hrun
    cases steps with
    | zero => cases hrun
    | succ steps =>
      dsimp only at hrun
      rw [Prog.bind_ok hderef] at hrun
      obtain ⟨m₁, t₁, hget, hrun⟩ := Prog.bind_eq_ok.mp hrun
      cases hget
      obtain ⟨it₂, t₂, hnext, hrun⟩ := Prog.bind_eq_ok.mp hrun
      obtain ⟨rest, t₃, hrest, -⟩ := Prog.bind_eq_ok.mp hrun
      have ht := Prog.Reads.eq_of_ok (next_reads fuel it') hnext
      rw [ht] at hnext hrest
      exact ih steps hnext _ _ hrest

end ConstIterator

end DiskHash
