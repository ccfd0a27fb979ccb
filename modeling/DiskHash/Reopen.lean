import DiskHash.Extendible

/-!
# DiskHash.Reopen — a map that is closed and opened again

The constructors map the length they pass to `file_map`, which is that of a file with one entry and one
bucket, also when the file is longer.  After a reopen only entry 0 of the catalogue and bucket 0 of the
container are mapped, and a `find` that needs more leaves the mapping.
-/

namespace DiskHash

namespace Container

variable {B : ℕ} {c c' : Container B} {hash : Hash} {key : Bytes}

theorem findRecord_succ (fuel i : ℕ) : findRecord hash key (fuel + 1) (some i) c =
    if c.Mapped i then
      match scan (c.layout.buckets i).data (c.layout.buckets i).bytesUsed hash key (B + 1) 0 with
      | .error e => .error e c
      | .ok (some (_, h)) => .ok (some ⟨i, h.cursor + h.keyLength, h.valueLength⟩) c
      | .ok none => findRecord hash key fuel (c.next i) c
    else .error .outOfBounds c := by
  rw [findRecord]
  by_cases hm : c.Mapped i
  · have hbucket : bucketAt i c = .ok (c.layout.buckets i) c := by
      simp [bucketAt, load, bucketPtr, Prog.get, Prog.check, bind, Prog.bind, pure, hm]
    rw [Prog.bind_ok hbucket, if_pos hm]
    cases hs : scan (c.layout.buckets i).data (c.layout.buckets i).bytesUsed hash key (B + 1) 0 with
    | error e => rfl
    | ok o => cases o <;> rfl
  · have hbucket : bucketAt i c = .error .outOfBounds c := by
      simp [bucketAt, load, bucketPtr, Prog.get, Prog.check, bind, Prog.bind, pure, Prog.throw, hm]
    rw [Prog.bind_error hbucket, if_neg hm]

/-- A walk that returns in a mapping returns the same in a longer mapping of the same buckets. -/
theorem findRecord_widen (hl : c'.layout = c.layout) (hm : ∀ i, c'.Mapped i → c.Mapped i) :
    ∀ (fuel : ℕ) (a : Option ℕ) {o : Option View}, findRecord hash key fuel a c' = .ok o c' →
      findRecord hash key fuel a c = .ok o c
  | fuel, none, o, h => by
    cases fuel <;> cases h <;> rfl
  | 0, some _, o, h => by cases h
  | fuel + 1, some i, o, h => by
    rw [findRecord_succ] at h ⊢
    by_cases hi : c'.Mapped i
    · rw [if_pos hi, hl] at h
      rw [if_pos (hm i hi)]
      cases hs : scan (c.layout.buckets i).data (c.layout.buckets i).bytesUsed hash key (B + 1) 0 with
      | error e =>
        rw [hs] at h
        cases h
      | ok found =>
        rw [hs] at h
        cases found with
        | some r =>
          cases h
          rfl
        | none =>
          have hnext : c'.next i = c.next i := by
            unfold next
            rw [hl]
          rw [← hnext]
          exact findRecord_widen hl hm fuel _ h
    · rw [if_neg hi] at h
      cases h

end Container

namespace HashMap

variable {B : ℕ} {m m' : HashMap B} {S : Shape} {hash : Hash} {key : Bytes}

/-- `m'` is `m` after a `close` and a constructor call. -/
structure Reopened (m m' : HashMap B) : Prop where
  catalogue : m'.catalogue.layout = m.catalogue.layout
  catalogueLength : m'.catalogue.fileMap.length = Catalogue.layoutBytes
  container : m'.container.layout = m.container.layout
  containerLength : m'.container.fileMap.length = layoutBytes B

/-- The record is in the first bucket of the map, or that bucket is all of its chain. -/
def InFirst (m : HashMap B) (hash : Hash) (key : Bytes) : Prop :=
  m.container.next 0 = none ∨ ∃ rs, (m.container.layout.buckets 0).Holds rs ∧ ∃ r ∈ rs, r.Is hash key

/-- The hashes of the first entry belong to the first bucket. -/
theorem Inv.lookup_first (h : m.Inv S) (hzero : topBits m.catalogue.layout.prefixBits hash = 0) :
    m.catalogue.lookup hash = 0 := by
  have h0 := h.origin
  unfold Catalogue.lookup at h0 ⊢
  rw [hzero]
  rwa [show topBits m.catalogue.layout.prefixBits (0 : Hash) = 0 by simp [topBits]] at h0

theorem Inv.count_ne_zero (h : m.Inv S) : m.container.layout.bucketsCount ≠ 0 := by
  have := h.growth
  have := Nat.two_pow_pos m.catalogue.layout.prefixBits
  omega

theorem Inv.reopened (h : m.Inv S) {os : Os} {readOnly : Bool} (hnew : new os readOnly m.close = .ok m') :
    Reopened m m' := by
  obtain ⟨cat, hcat, hnew⟩ := Prog.except_bind_ok.mp hnew
  obtain ⟨dat, hdat, hnew⟩ := Prog.except_bind_ok.mp hnew
  obtain ⟨fm, hfm, hcat⟩ := Prog.except_bind_ok.mp hcat
  obtain ⟨fm', hfm', hdat⟩ := Prog.except_bind_ok.mp hdat
  have hlen := FileMap.new_length (by decide) hfm
  have hlen' := FileMap.new_length (by unfold layoutBytes headerBytes; omega) hfm'
  have hsig : m.close.cat.layout.signature = Catalogue.signature := h.cat.signature
  have hsig' : m.close.dat.layout.signature = Container.signature := h.rep.owned.signature
  rw [hsig, if_neg (by decide), if_neg (fun hn => hn rfl)] at hcat
  rw [hsig', if_neg (by decide), if_neg (fun hn => hn rfl)] at hdat
  obtain rfl := Except.ok.inj hcat
  obtain rfl := Except.ok.inj hdat
  obtain rfl := Except.ok.inj ((if_neg h.count_ne_zero).symm.trans hnew)
  exact ⟨rfl, hlen, rfl, hlen'⟩

/-- The constructor returns on the files of a map, when the system grants its calls. -/
theorem Inv.reopen_returns (h : m.Inv S) {os : Os} (g : os.Grants) (readOnly : Bool) :
    ∃ m', new os readOnly m.close = .ok m' := by
  obtain ⟨fm, hfm⟩ := FileMap.new_returns g.cat readOnly m.close.cat.size Catalogue.layoutBytes
  obtain ⟨fm', hfm'⟩ := FileMap.new_returns g.dat readOnly m.close.dat.size (layoutBytes B)
  have hsig : m.close.cat.layout.signature = Catalogue.signature := h.cat.signature
  have hsig' : m.close.dat.layout.signature = Container.signature := h.rep.owned.signature
  refine ⟨⟨⟨fm, m.catalogue.layout⟩, ⟨fm', m.container.layout⟩⟩,
    Prog.except_bind_ok.mpr ⟨⟨fm, m.catalogue.layout⟩, Prog.except_bind_ok.mpr ⟨fm, hfm, ?_⟩,
      Prog.except_bind_ok.mpr ⟨⟨fm', m.container.layout⟩, Prog.except_bind_ok.mpr ⟨fm', hfm', ?_⟩, ?_⟩⟩⟩
  · rw [hsig, if_neg (by decide), if_neg (fun hn => hn rfl)]
    rfl
  · rw [hsig', if_neg (by decide), if_neg (fun hn => hn rfl)]
    rfl
  · exact if_neg h.count_ne_zero

namespace Reopened

theorem mapped_entry_iff (hr : Reopened m m') {i : ℕ} : m'.catalogue.Mapped i ↔ i = 0 := by
  unfold Catalogue.Mapped
  rw [hr.catalogueLength]
  simp only [Catalogue.layoutBytes, Catalogue.entryBytes]
  omega

theorem mapped_bucket_iff (hr : Reopened m m') {i : ℕ} : m'.container.Mapped i ↔ i = 0 := by
  unfold Container.Mapped
  rw [hr.containerLength]
  have hpos : 0 < bucketBytes B := by unfold bucketBytes; omega
  unfold layoutBytes
  constructor
  · intro hle
    by_contra hi
    have := Nat.mul_le_mul_right (bucketBytes B) (show 2 ≤ i + 1 by omega)
    omega
  · rintro rfl
    omega

/-- The catalogue names the first bucket for the hashes of the first entry, and none for the others. -/
theorem catalogue_runs (h : m.Inv S) (hr : Reopened m m') (hash : Hash) :
    Prog.Runs (Catalogue.find hash) m'.catalogue
      (fun b cat => cat = m'.catalogue ∧ b = 0 ∧ topBits m.catalogue.layout.prefixBits hash = 0)
      (fun e cat => cat = m'.catalogue ∧ e = .outOfBounds ∧ topBits m.catalogue.layout.prefixBits hash ≠ 0) := by
  have hindex : m'.catalogue.index hash = .ok (topBits m.catalogue.layout.prefixBits hash) := by
    rw [← h.cat.index_eq]
    unfold Catalogue.index
    rw [hr.catalogue]
  unfold Catalogue.find Catalogue.entry
  simp only [Prog.runs_bind, Prog.runs_get, hindex, Prog.runs_lift_ok, Prog.runs_check, Prog.runs_pure,
    hr.mapped_entry_iff]
  refine ⟨fun hzero => ⟨trivial, ?_, hzero⟩, fun hne => ⟨trivial, trivial, hne⟩⟩
  rw [hr.catalogue]
  exact h.lookup_first hzero

/-- The walk from the first bucket leaves the mapping when it leaves the bucket. -/
theorem walk_runs (hB : B < 2 ^ 31) (h : m.Inv S) (hr : Reopened m m') (fuel : ℕ) (hash : Hash) (key : Bytes) :
    Prog.Runs (Container.findRecord hash key fuel (some 0)) m'.container
      (fun _ c => c = m'.container ∧ InFirst m hash key)
      (fun e c => c = m'.container ∧ (e = .outOfFuel ∧ fuel < 2 ∨ e = .outOfBounds ∧ ¬ InFirst m hash key)) := by
  obtain ⟨L, hL, hhead⟩ := h.entries 0
  rw [h.origin] at hhead
  have h0 := h.lt_count hL (List.mem_of_mem_head? hhead)
  have hholds := h.rep.holds 0 h0
  have hholds' : (m'.container.layout.buckets 0).Holds (S.recs 0) := by
    rw [hr.container]
    exact hholds
  cases fuel with
  | zero => exact ⟨rfl, Or.inl ⟨rfl, by omega⟩⟩
  | succ fuel =>
    rw [Container.findRecord, Prog.runs_bind, Container.runs_bucketAt (hr.mapped_bucket_iff.mpr rfl),
      Prog.runs_bind]
    rcases Container.scan_all hholds' hB hash key with ⟨pre, r, post, hfirst, hscan⟩ | ⟨habs, hscan⟩
    · rw [hscan]
      exact ⟨rfl, Or.inr ⟨S.recs 0, hholds, r, by simp [hfirst.split], hfirst.is⟩⟩
    · rw [hscan]
      have hnext : (m'.container.layout.buckets 0).nextBucketId = m.container.next 0 := by
        rw [hr.container]
        rfl
      show Prog.Runs (Container.findRecord hash key fuel (m'.container.layout.buckets 0).nextBucketId)
        m'.container _ _
      rw [hnext]
      cases hn : m.container.next 0 with
      | none => cases fuel <;> exact ⟨rfl, Or.inl hn⟩
      | some i =>
        cases fuel with
        | zero => exact ⟨rfl, Or.inl ⟨rfl, by omega⟩⟩
        | succ fuel =>
          have hi : i ≠ 0 := by
            rintro rfl
            exact h.head_unlinked hL hhead h0 hn
          rw [Container.findRecord, Prog.runs_bind]
          unfold Container.bucketAt Container.load
          simp only [Prog.runs_bind, Container.runs_bucketPtr, Prog.runs_get, Prog.runs_check,
            hr.mapped_bucket_iff]
          refine ⟨fun hc => absurd hc.2 hi, fun _ => ⟨trivial, Or.inr ⟨trivial, fun hc => ?_⟩⟩⟩
          rcases hc with hnone | ⟨rs, hrs, r, hr, his⟩
          · rw [hn] at hnone
            cases hnone
          · exact habs r (hrs.unique hholds ▸ hr) his

/-- What `find` does after a reopen. -/
theorem find_runs (hB : B < 2 ^ 31) (h : m.Inv S) (hr : Reopened m m') (fuel : ℕ) (hash : Hash) (key : Bytes) :
    Prog.Runs (find fuel hash key) m'
      (fun _ m'' => m'' = m' ∧ topBits m.catalogue.layout.prefixBits hash = 0 ∧ InFirst m hash key)
      (fun e m'' => m'' = m' ∧ (e = .outOfFuel ∧ fuel < 2 ∨ e = .outOfBounds ∧
        ¬ (topBits m.catalogue.layout.prefixBits hash = 0 ∧ InFirst m hash key))) := by
  unfold find
  rw [Prog.runs_bind, runs_onCat]
  refine (hr.catalogue_runs h hash).mono ?_ ?_
  · rintro b cat ⟨rfl, rfl, hzero⟩
    rw [runs_onDat]
    refine (hr.walk_runs hB h fuel hash key).mono ?_ ?_
    · rintro o c ⟨rfl, hin⟩
      exact ⟨rfl, hzero, hin⟩
    · rintro e c ⟨rfl, hf | ⟨he, hin⟩⟩
      · exact ⟨rfl, Or.inl hf⟩
      · exact ⟨rfl, Or.inr ⟨he, fun hc => hin hc.2⟩⟩
  · rintro e cat ⟨rfl, he, hne⟩
    exact ⟨rfl, Or.inr ⟨he, fun hc => hne hc.1⟩⟩

end Reopened

/-- After a reopen `find` stays inside the mappings and returns what it returned before. -/
def SameAnswer (m m' : HashMap B) (hash : Hash) (key : Bytes) : Prop :=
  ∃ fuel o, find fuel hash key m = .ok o m ∧ find fuel hash key m' = .ok o m'

/-- The walk that `find` makes, once the catalogue has named a bucket. -/
theorem find_eq_ok_iff {b fuel : ℕ} {o : Option View}
    (hcat : Catalogue.find hash m.catalogue = .ok b m.catalogue) :
    find fuel hash key m = .ok o m ↔
      Container.findRecord hash key fuel (some b) m.container = .ok o m.container := by
  have hcat' : onCat (B := B) (Catalogue.find hash) m = .ok b m := Prog.zoom_ok hcat
  unfold find
  rw [Prog.bind_ok hcat']
  unfold onDat Prog.zoom
  constructor
  · intro h
    cases hrun : Container.findRecord hash key fuel (some b) m.container with
    | error e c =>
      rw [hrun] at h
      cases h
    | ok o' c =>
      rw [hrun] at h
      obtain ⟨rfl, hm⟩ := Prog.Outcome.ok.inj h
      exact congrArg (Prog.Outcome.ok o') (congrArg HashMap.container hm)
  · intro h
    rw [h]

/-- A `find` that returns has the answer it had before: it reads the same bytes. -/
theorem Reopened.find_eq (hB : B < 2 ^ 31) (h : m.Inv S) (hr : Reopened m m') {fuel : ℕ} {o : Option View}
    (hrun : find fuel hash key m' = .ok o m') : find fuel hash key m = .ok o m := by
  obtain ⟨-, hzero, -⟩ := (hr.find_runs hB h fuel hash key).of_ok hrun
  have hcat : Catalogue.find hash m.catalogue = .ok (m.catalogue.lookup hash) m.catalogue :=
    Prog.Runs.eq_ok ((h.cat.runs_find hash).mpr ⟨rfl, rfl⟩)
  have hcat' : Catalogue.find hash m'.catalogue = .ok (m.catalogue.lookup hash) m'.catalogue := by
    refine Prog.Runs.eq_ok ((hr.catalogue_runs h hash).mono ?_ ?_)
    · rintro b cat ⟨rfl, rfl, -⟩
      exact ⟨(h.lookup_first hzero).symm, rfl⟩
    · rintro e cat ⟨-, -, hne⟩
      exact hne hzero
  refine (find_eq_ok_iff hcat).mpr (Container.findRecord_widen hr.container (fun i hi => ?_) fuel _
    ((find_eq_ok_iff hcat').mp hrun))
  rw [hr.mapped_bucket_iff.mp hi]
  exact h.rep.owned.mapped (Nat.pos_of_ne_zero h.count_ne_zero)

/-- Some hash does not belong to the first entry. -/
theorem Inv.topBits_ones (h : m.Inv S) : topBits m.catalogue.layout.prefixBits (~~~0 : Hash) ≠ 0 := by
  obtain ⟨L, hL, -⟩ := h.entries 0
  obtain ⟨b, p, q, hc⟩ := h.cells L hL
  intro hzero
  have hdiv := topBits_div (h := (~~~0 : Hash)) (hc.pos.trans hc.le) h.cat.le32
  rw [hzero, Nat.zero_div] at hdiv
  exact absurd hdiv (by decide)

theorem Reopened.sameAnswer_iff (hB : B < 2 ^ 31) (h : m.Inv S) (hr : Reopened m m') :
    SameAnswer m m' hash key ↔ topBits m.catalogue.layout.prefixBits hash = 0 ∧ InFirst m hash key := by
  constructor
  · rintro ⟨fuel, o, -, hrun⟩
    exact ((hr.find_runs hB h fuel hash key).of_ok hrun).2
  · intro hcond
    obtain ⟨o, m₁, hrun, rfl, -⟩ := (hr.find_runs hB h 2 hash key).returns (by
      rintro e r ⟨-, ⟨-, hlt⟩ | ⟨-, hn⟩⟩
      · omega
      · exact hn hcond)
    exact ⟨2, o, hr.find_eq hB h hrun, hrun⟩

theorem Reopened.leaves (hB : B < 2 ^ 31) (h : m.Inv S) (hr : Reopened m m')
    (hn : ¬ (topBits m.catalogue.layout.prefixBits hash = 0 ∧ InFirst m hash key)) {fuel : ℕ} (hf : 2 ≤ fuel) :
    find fuel hash key m' = .error .outOfBounds m' := by
  have hruns := hr.find_runs hB h fuel hash key
  cases hrun : find fuel hash key m' with
  | ok o r => exact absurd (hruns.of_ok hrun).2 hn
  | error e r =>
    obtain ⟨rfl, ⟨-, hlt⟩ | ⟨rfl, -⟩⟩ := hruns.of_error hrun
    · omega
    · rfl

/-- Every `find` after a reopen: it is right just when it needs no more than the first entry and the first
bucket, and it leaves the mappings otherwise.  In no map do all hashes belong to the first entry. -/
theorem reopened_find {m : HashMap defaultBucketSize} (hm : Reachable m) {os : Os} {readOnly : Bool}
    {m' : HashMap defaultBucketSize} (hnew : new os readOnly m.close = .ok m') :
    (∀ hash key, SameAnswer m m' hash key ↔
      topBits m.catalogue.layout.prefixBits hash = 0 ∧ InFirst m hash key) ∧
    (∀ hash key, ¬ SameAnswer m m' hash key → ∀ fuel, 2 ≤ fuel →
      find fuel hash key m' = .error .outOfBounds m') ∧
    ¬ ∀ hash key, SameAnswer m m' hash key := by
  obtain ⟨S, h⟩ := hm.inv defaultBucketSize_lt
  have hr := h.reopened hnew
  refine ⟨fun hash key => hr.sameAnswer_iff defaultBucketSize_lt h, fun hash key hn fuel hf => ?_,
    fun hall => ?_⟩
  · exact hr.leaves defaultBucketSize_lt h (fun hc => hn ((hr.sameAnswer_iff defaultBucketSize_lt h).mpr hc)) hf
  · exact h.topBits_ones ((hr.sameAnswer_iff defaultBucketSize_lt h).mp (hall (~~~0) [])).1

theorem reopened_find_session : ∃ m m' : HashMap defaultBucketSize,
    Reachable m ∧ new Os.willing true m.close = .ok m' ∧ ¬ ∀ hash key, SameAnswer m m' hash key := by
  obtain ⟨m, hm, -⟩ := exists_session (~~~0)
  obtain ⟨S, h⟩ := hm.inv defaultBucketSize_lt
  obtain ⟨m', hnew⟩ := h.reopen_returns Os.willing_grants true
  exact ⟨m, m', hm, hnew, (reopened_find hm hnew).2.2⟩

/-- A value is stored under the greatest hash and found; after a reopen the same `find` reads an entry of
the catalogue that is not mapped. -/
theorem find_faults_after_reopen : ∃ m m' : HashMap defaultBucketSize,
    Reachable m ∧ (∃ fuel v, find fuel (~~~0) [1] m = .ok (some v) m ∧ m.container.view v = [2]) ∧
      new Os.willing false m.close = .ok m' ∧
      ∀ fuel, 2 ≤ fuel → find fuel (~~~0) [1] m' = .error .outOfBounds m' := by
  obtain ⟨m, hm, S, h, hD⟩ := exists_session (~~~0)
  obtain ⟨m', hnew⟩ := h.reopen_returns Os.willing_grants false
  obtain ⟨o, m₁, hrun, rfl, ho⟩ :=
    (find_step defaultBucketSize_lt h hD (m.container.layout.bucketsCount + 1) (~~~0) [1]).returns
      (fun e _ he => by have := he.2; omega)
  rw [Dict.insert_self] at ho
  obtain ⟨v, rfl, hv⟩ := Option.map_eq_some_iff.mp ho
  exact ⟨m₁, m', hm, ⟨_, v, hrun, hv⟩, hnew, fun fuel hf =>
    (h.reopened hnew).leaves defaultBucketSize_lt h (fun hc => h.topBits_ones hc.1) hf⟩

end HashMap

end DiskHash
