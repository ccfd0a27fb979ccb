import DiskHash.Extendible

/-!
# DiskHash.Failure — a split that the system stops

`split` makes the head of the chain one bit deeper before it asks for the first new bucket.  When the system
refuses that bucket, or a later one, the exception leaves `get` before the catalogue is changed: the entries
that name the head are then a block of twice the size that its local depth stands for.
-/

namespace DiskHash.HashMap

variable {B : ℕ} {m m₁ m' : HashMap B} {S : Shape} {os : Os} {fuel : ℕ} {hash : Hash} {key default : Bytes}
  {b p q : ℕ} {c : Container B} {D : Contents}

/-- `get` calls `split` for the bucket `b`, and the system stops it. -/
structure FailsInSplit (os : Os) (fuel : ℕ) (m : HashMap B) (hash : Hash) (key : Bytes) (b : ℕ)
    (m₁ : HashMap B) (c : Container B) : Prop where
  bucket : m.catalogue.lookup hash = b
  absent : onDat (Container.findRecord hash key fuel (some b)) m = .ok none m
  full : onDat (Container.bucketToSplit b) m = .ok true m
  grown : growCatalogue os b m = .ok () m₁
  less : (m₁.container.layout.buckets b).prefixBits < m₁.catalogue.layout.prefixBits
  thrown : Container.split os.dat fuel b m₁.container = .error .systemError c

/-- The entries that name the bucket are as many as its local depth says: one aligned block. -/
def DepthFits (m : HashMap B) (b : ℕ) : Prop :=
  (m.container.layout.buckets b).prefixBits ≤ m.catalogue.layout.prefixBits ∧
  ∃ q < 2 ^ (m.container.layout.buckets b).prefixBits, ∀ i < 2 ^ m.catalogue.layout.prefixBits,
    m.entry i = b ↔ i / 2 ^ (m.catalogue.layout.prefixBits - (m.container.layout.buckets b).prefixBits) = q

/-- What a failed split should leave: in every session from then on, every entry is found and the local depth
of the bucket is that of its entries. -/
def Unharmed (m : HashMap B) (D : Contents) (b : ℕ) : Prop :=
  ∀ tr m', Run Step m tr m' →
    (∀ hash key value, (replay dictionary D (tr.map Prod.fst)).2 (hash, key) = some value →
      ∃ fuel v, find fuel hash key m' = .ok (some v) m' ∧ m'.container.view v = value) ∧
    m'.DepthFits b

/-- The block of a bucket is not a block of half the size. -/
theorem Block.misfits (h : m.Block b p q) (hp : p < m.catalogue.layout.prefixBits)
    (hd : (m'.container.layout.buckets b).prefixBits = p + 1) (hc : m'.catalogue = m.catalogue) :
    ¬ m'.DepthFits b := by
  intro hfits
  obtain ⟨-, q', -, hq'⟩ := hfits
  rw [hd] at hq'
  unfold entry at hq'
  rw [hc] at hq'
  -- the first entries of the two halves of the block
  obtain ⟨w, hw⟩ : ∃ w, w = 2 ^ (m.catalogue.layout.prefixBits - (p + 1)) := ⟨_, rfl⟩
  have hpos : 0 < w := by
    rw [hw]
    exact Nat.two_pow_pos _
  have hblock : 2 ^ (m.catalogue.layout.prefixBits - p) = 2 * w := by
    rw [hw, ← pow_succ']
    congr 1
    omega
  have hall : (q + 1) * (2 * w) ≤ 2 ^ m.catalogue.layout.prefixBits := by
    rw [← hblock, ← Nat.add_sub_cancel' h.le, pow_add, Nat.add_sub_cancel_left]
    exact Nat.mul_le_mul_right _ h.lt
  rw [Nat.succ_mul] at hall
  have hquot : ∀ k < 2, (q * (2 * w) + k * w) / (2 * w) = q ∧ (q * (2 * w) + k * w) / w = 2 * q + k := by
    intro k hk
    have hk' : k * w < 2 * w := Nat.mul_lt_mul_of_pos_right hk hpos
    constructor
    · rw [Nat.add_comm, Nat.add_mul_div_right _ _ (by omega), Nat.div_eq_of_lt hk', Nat.zero_add]
    · rw [show q * (2 * w) + k * w = (2 * q + k) * w by ring, Nat.mul_div_cancel _ hpos]
  have hsame : ∀ k < 2, 2 * q + k = q' := by
    intro k hk
    have hk' : k * w < 2 * w := Nat.mul_lt_mul_of_pos_right hk hpos
    have hlt : q * (2 * w) + k * w < 2 ^ m.catalogue.layout.prefixBits := by omega
    have hentry : m.entry (q * (2 * w) + k * w) = b := by
      apply (h.entries _ hlt).mpr
      rw [hblock]
      exact (hquot k hk).1
    have hin := (hq' _ hlt).mp hentry
    rwa [← hw, (hquot k hk).2] at hin
  have h0 := hsame 0 (by omega)
  have h1 := hsame 1 (by omega)
  omega

/-- The state in which `split` is called. -/
theorem FailsInSplit.grew (h : m.Inv S) (hf : FailsInSplit os fuel m hash key b m₁ c) :
    ∃ S' L rest p q, m₁.Inv S' ∧ S'.chains = L :: rest ∧ m₁.Holds S' L b p q ∧
      p < m₁.catalogue.layout.prefixBits := by
  obtain ⟨L, rest, p, q, -, h', hfront⟩ := h.front hash
  have hc := hfront.holds
  rw [hf.bucket] at hc
  have hgrown := (growCatalogue_runs os h' (by rw [hfront.chains]; simp) hc 0 0).of_ok hf.grown
  refine ⟨_, L, rest, p, q, hgrown.inv, hfront.chains, hgrown.holds, ?_⟩
  rw [← hgrown.holds.depth b (List.mem_of_mem_head? hc.head)]
  exact hf.less

/-- The exception leaves `get`, and the catalogue is as it was when `split` was called. -/
theorem FailsInSplit.get_eq (h : m.Inv S) (hf : FailsInSplit os fuel m hash key b m₁ c) (default : Bytes) :
    get os fuel hash key default m = .error .systemError { m₁ with container := c } := by
  obtain ⟨S', L, rest, p, q, h₁, hS, hc, hlt⟩ := hf.grew h
  have hL : L ∈ S'.chains := by rw [hS]; simp
  have hb := List.mem_of_mem_head? hc.head
  have hbits : bucketPrefixBits b m₁ = .ok p m₁ :=
    ((runs_bucketPrefixBits (h₁.rep.mapped hL hb)).mpr ⟨hc.depth b hb, rfl⟩).eq_ok
  have hfind : onCat (Catalogue.find hash) m = .ok b m := by
    refine Prog.Runs.eq_ok (runs_onCat.mpr ?_)
    rw [h.cat.runs_find]
    exact ⟨hf.bucket, rfl⟩
  have hsplit : splitBucket os fuel hash b m₁ = .error .systemError { m₁ with container := c } := by
    unfold splitBucket
    rw [Prog.bind_ok hbits, Prog.bind_ok (show Prog.get m₁ = .ok m₁ m₁ from rfl), if_pos hlt]
    exact Prog.bind_error (Prog.zoom_error hf.thrown) _
  have hroom : makeRoom os fuel hash b m = .error .systemError { m₁ with container := c } := by
    unfold makeRoom
    rw [Prog.bind_ok hf.full, if_pos rfl, Prog.bind_ok hf.grown]
    exact hsplit
  unfold get
  rw [Prog.bind_ok hfind, Prog.bind_ok hf.absent]
  exact Prog.bind_error hroom _

/-- The bucket is deeper than its entries say. -/
theorem FailsInSplit.misfits (hB : B < 2 ^ 31) (h : m.Inv S) (hf : FailsInSplit os fuel m hash key b m₁ c) :
    ¬ ({ m₁ with container := c } : HashMap B).DepthFits b := by
  obtain ⟨S', L, rest, p, q, h₁, hS, hc, hlt⟩ := hf.grew h
  have hL : L ∈ S'.chains := by rw [hS]; simp
  have hp32 : p < hashBits := lt_of_lt_of_le hlt h₁.cat.le32
  have hruns := Container.split_runs hB h₁.rep os.dat hS hc.head (hc.depth b (List.mem_of_mem_head? hc.head))
    hp32 fuel
  rcases hruns.of_error hf.thrown with ⟨he, -⟩ | hbroken
  · cases he
  · apply (h₁.block hL hc).misfits hlt
    · exact hbroken.depth b hc.head
    · rfl

/-- Whenever the system refuses a bucket to a split in `get`, the exception leaves a map that is harmed: the
local depth of the bucket is more than that of its entries. -/
theorem failed_split_harms {m m₁ : HashMap defaultBucketSize} (hm : Reachable m) {os : Os} {fuel : ℕ}
    {hash : Hash} {key : Bytes} {b : ℕ} {c : Container defaultBucketSize}
    (hf : FailsInSplit os fuel m hash key b m₁ c) :
    (∀ default, get os fuel hash key default m = .error .systemError { m₁ with container := c }) ∧
    ∀ D, m.Represents D → ¬ Unharmed { m₁ with container := c } D b := by
  obtain ⟨S, h⟩ := hm.inv defaultBucketSize_lt
  refine ⟨fun default => hf.get_eq h default, fun D _ hun => ?_⟩
  exact hf.misfits defaultBucketSize_lt h (hun [] _ (.nil _)).2

/-! ### A split that fails -/

/-- A bucket behind the end of the mapping is refused. -/
theorem createBucket_refused (hfree : c.layout.firstFreeBucketId = none)
    (hlen : c.fileMap.length < c.layout.bucketsCount * bucketBytes B + layoutBytes B) (prefixBits : ℕ) :
    Prog.Runs (Container.createBucket Kernel.stubborn prefixBits) c (fun _ _ => False)
      (fun e _ => e = .systemError) := by
  unfold Container.createBucket Container.takeBucketId
  simp only [Prog.runs_bind, Prog.runs_get]
  rw [hfree]
  unfold Container.reserve
  simp only [Prog.runs_bind, Prog.runs_get]
  rw [if_pos hlen, Prog.runs_zoom]
  exact (FileMap.resize_refused (by omega)).mono (fun _ _ he => he.elim) (fun _ _ he => he)

/-- So is a split that needs one. -/
theorem split_refused (hb : c.Mapped b) (hfree : c.layout.firstFreeBucketId = none)
    (hlen : c.fileMap.length < c.layout.bucketsCount * bucketBytes B + layoutBytes B) (fuel : ℕ) :
    ∃ c', Container.split Kernel.stubborn fuel b c = .error .systemError c' := by
  have hruns : Prog.Runs (Container.split Kernel.stubborn fuel b) c (fun _ _ => False)
      (fun e _ => e = .systemError) := by
    unfold Container.split
    rw [Prog.runs_bind, Container.runs_bucketPtr, Prog.runs_bind, Container.runs_load rfl hb, Prog.runs_bind,
      Container.runs_store rfl hb, Prog.runs_bind]
    exact (createBucket_refused (c := c.setBucket b _) hfree hlen _).mono (fun _ _ he => he.elim) (fun _ _ he => he)
  obtain ⟨e, c', hsplit, rfl⟩ := hruns.throws (fun _ _ he => he)
  exact ⟨c', hsplit⟩

namespace Crowded

/-- A record that fills most of a bucket. -/
def record (key : Bytes) : Record := ⟨0, key, List.replicate 4000 0⟩

theorem size_record (x : UInt8) : (record [x]).size = 4008 := by
  have h1 : Vbe.length 1 = 1 := Vbe.length_small (by decide)
  have h4000 : Vbe.length 4000 = 2 := by rw [Vbe.length_big (by decide), Vbe.length_small (by decide)]
  unfold record Record.size Container.bytesRequired
  simp only [List.length_replicate, List.length_singleton, h1, h4000]

/-- The shape with one such record. -/
def half : Shape := ⟨[[0], [1]], [], Function.update (fun _ => []) 0 [record [1]]⟩

/-- The shape with two, the second in a bucket of its own. -/
def shape : Shape := ⟨[[0, 2], [1]], [], Function.update half.recs 2 [record [2]]⟩

theorem half_recs : half.recs 0 = [record [1]] := rfl

theorem half_full : ∀ j ∈ [0], defaultBucketSize < Packing.total Record.size (half.recs j) + (record [2]).size := by
  intro j hj
  obtain rfl := List.mem_singleton.mp hj
  rw [half_recs, size_record, Packing.total_cons, size_record]
  decide

theorem half_absent : ∀ x ∈ half.records, ¬ x.Is (record [2]).hash (record [2]).key := by
  intro x hx his
  have hx' : x = record [1] := by simpa [Shape.records, half] using hx
  subst hx'
  exact absurd (show ([1] : Bytes) = [2] from his.2) (by decide)

end Crowded

/-- A session after which the first chain is crowded. -/
theorem exists_crowded : ∃ m : HashMap defaultBucketSize, Reachable m ∧ m.Inv Crowded.shape ∧
    m.catalogue.layout.prefixBits = 1 ∧ m.container.layout.bucketsCount = 3 ∧
    m.container.fileMap.length ≤ (headerBytes + 3 * bucketBytes defaultBucketSize) * 11 / 10 := by
  obtain ⟨m₀, hnew⟩ := HashMap.new_returns (B := defaultBucketSize) Os.willing_grants false
  have h₀ := (HashMap.new_inv hnew).perm_chains (List.Perm.swap [0] [1] [])
  have hcount₀ := HashMap.new_count hnew
  have hlength₀ := HashMap.new_length hnew
  have hg₀ : m₀.catalogue.layout.prefixBits = 1 := by
    have hlt := h₀.growth
    have hpos := h₀.cat.pos
    rw [hcount₀] at hlt
    have : m₀.catalogue.layout.prefixBits < 2 := (Nat.pow_lt_pow_iff_right (by decide)).mp hlt
    omega
  obtain ⟨p₀, q₀, hf₀⟩ := h₀.front_of_head 0 rfl (by rw [h₀.origin]; rfl)
  obtain ⟨a₁, v₁, m₁, hs₁, hw₁⟩ := stored_uncrowded (r := Crowded.record [1]) defaultBucketSize_lt h₀ hf₀ rfl
    (by simp [newShape, Shape.records]) (by rw [Crowded.size_record]; decide) (hcount₀.le.trans (by decide))
  have h₁ := hw₁.inv
  rw [Shape.write_first (by rw [Crowded.size_record]; decide)] at h₁
  change m₁.Inv Crowded.half at h₁
  have hlength₁ := hw₁.length
  have hcount₁ : m₁.container.layout.bucketsCount = 2 := h₁.count_eq
  obtain ⟨p₁, q₁, hf₁⟩ := h₁.front_of_head 0 rfl (by rw [h₁.origin]; rfl)
  obtain ⟨a₂, v₂, m₂, hs₂, hw₂⟩ := stored_uncrowded (r := Crowded.record [2]) defaultBucketSize_lt h₁ hf₁ rfl
    Crowded.half_absent (by rw [Crowded.size_record]; decide) (hcount₁.le.trans (by decide))
  have h₂ := hw₂.inv
  rw [hcount₁, Shape.write_full (S := Crowded.half) Crowded.half_full] at h₂
  change m₂.Inv Crowded.shape at h₂
  have hlength₂ := hw₂.length
  have hg₂ : m₂.catalogue.layout.prefixBits = 1 := by rw [hw₂.catalogue, hw₁.catalogue, hg₀]
  refine ⟨m₂, ⟨Os.willing, m₀, _, hnew, .cons hs₁ (.single hs₂)⟩, h₂, hg₂, h₂.count_eq, ?_⟩
  rw [hcount₀] at hlength₁
  rw [hcount₁] at hlength₂
  omega

/-- No record of the crowded map has the key `3`. -/
theorem Crowded.absent : ∀ x ∈ Crowded.shape.records, ¬ x.Is 0 [3] := by
  intro x hx his
  have hx' : x = record [1] ∨ x = record [2] := by simpa [Shape.records, shape, half] using hx
  rcases hx' with rfl | rfl
  · exact absurd (show ([1] : Bytes) = [3] from his.2) (by decide)
  · exact absurd (show ([2] : Bytes) = [3] from his.2) (by decide)

theorem Crowded.full : crowded defaultBucketSize Crowded.shape.recs [0, 2] = true := by
  have h0 : Crowded.shape.recs 0 = [record [1]] := rfl
  have h2 : Crowded.shape.recs 2 = [record [2]] := rfl
  rw [crowded_pair, h0, h2, Packing.total_cons, Packing.total_cons, size_record, size_record]
  decide

/-- Growing the catalogue asks nothing of the other file. -/
theorem growCatalogue_dat (cat dat dat' : Kernel) (b : ℕ) :
    growCatalogue (B := B) ⟨cat, dat⟩ b = growCatalogue ⟨cat, dat'⟩ b := rfl

/-- A reachable map and an insertion that the system stops in `split`. -/
theorem exists_failing_split : ∃ (m m₁ : HashMap defaultBucketSize) (os : Os) (fuel : ℕ)
    (c : Container defaultBucketSize), Reachable m ∧ FailsInSplit os fuel m 0 [3] 0 m₁ c := by
  obtain ⟨m, hm, h, hg, hn, hlength⟩ := exists_crowded
  obtain ⟨p, q, hf⟩ := h.front_of_head 0 rfl (by rw [h.origin]; rfl)
  have hL : [0, 2] ∈ Crowded.shape.chains := by simp [Crowded.shape]
  have hp : p = 1 := by
    have := hf.holds.le
    have := hf.holds.pos
    omega
  obtain ⟨hseg, hbuckets⟩ := h.chain hL hf.holds.head
  obtain ⟨o, c, hfind, rfl, ho⟩ := (show Prog.Runs (Container.findRecord 0 [3] 2 _) _ _ _ from
    Container.findRecord_runs defaultBucketSize_lt [0, 2] 2 _ hseg hbuckets).returns
    (fun e c he => absurd he.2.2 (by simp))
  have habs := (h.absent_iff hL hf.holds.head).mpr Crowded.absent
  obtain rfl : o = none := by
    cases o with
    | none => rfl
    | some v =>
      obtain ⟨L₁, i, pre, r, post, hloc, -⟩ := ho
      obtain ⟨L₂, hchain⟩ := hloc.chain
      exact absurd hloc.first.is (habs i (by rw [hchain]; simp) r (by rw [hloc.first.split]; simp))
  obtain ⟨o, c, hfull, rfl, ho⟩ := (bucketToSplit_runs (E := fun _ _ => False) h.rep hL hf.holds.head).returns
    (fun _ _ he => he)
  rw [h.origin] at hfind
  rw [ho, Crowded.full, h.origin] at hfull
  -- the catalogue grows, as only the other file is refused
  obtain ⟨_, m₁, hgrow, hgrown⟩ := (growCatalogue_runs Os.willing h hL hf.holds 1 0).returns (by
    intro e _ he
    cases he with
    | starved hs => exact absurd hs.2 (by decide)
    | refused _ hd => exact hd Os.willing_grants
    | overgrown _ hlt => omega)
  rw [h.origin] at hgrow
  have hbits := hgrown.prefixBits
  rw [hg, hn, hp, if_pos (by decide)] at hbits
  have hfree : m₁.container.layout.firstFreeBucketId = none := hgrown.inv.rep.owned.freeLinked
  have hcount : m₁.container.layout.bucketsCount = 3 := hgrown.inv.count_eq
  obtain ⟨c, hthrown⟩ := split_refused (hgrown.inv.rep.mapped hL (i := 0) (by simp)) hfree (by
    rw [hgrown.container, hn]
    exact lt_of_le_of_lt hlength (by decide)) 2
  refine ⟨m, m₁, ⟨Kernel.willing, Kernel.stubborn⟩, 2, c, hm, ⟨h.origin, ?_, ?_, ?_, ?_, hthrown⟩⟩
  · exact Prog.zoom_ok hfind
  · exact Prog.zoom_ok hfull
  · rw [growCatalogue_dat _ _ Kernel.willing]
    exact hgrow
  · rw [hgrown.holds.depth 0 (by simp), hp, hbits]
    decide

/-- So it is for the record of the key `3` in the crowded map. -/
theorem failed_split_harms_crowded : ∃ (m m₁ : HashMap defaultBucketSize) (os : Os) (fuel : ℕ)
    (c : Container defaultBucketSize) (D : Contents), Reachable m ∧ m.Represents D ∧
    get os fuel 0 [3] [] m = .error .systemError { m₁ with container := c } ∧
    ¬ Unharmed { m₁ with container := c } D 0 := by
  obtain ⟨m, m₁, os, fuel, c, hm, hf⟩ := exists_failing_split
  obtain ⟨D, hD⟩ := hm.represents defaultBucketSize_lt
  obtain ⟨hget, hharm⟩ := failed_split_harms hm hf
  exact ⟨m, m₁, os, fuel, c, D, hm, hD, hget [], hharm D hD⟩

/-- A failed split does not leave every map as it should. -/
theorem split_failure_noticed : ¬ ∀ (m m₁ : HashMap defaultBucketSize) (os : Os) (fuel : ℕ) (hash : Hash)
    (key : Bytes) (b : ℕ) (c : Container defaultBucketSize) (D : Contents), Reachable m → m.Represents D →
    FailsInSplit os fuel m hash key b m₁ c → Unharmed { m₁ with container := c } D b := by
  intro hall
  obtain ⟨m, m₁, os, fuel, c, hm, hf⟩ := exists_failing_split
  obtain ⟨D, hD⟩ := hm.represents defaultBucketSize_lt
  obtain ⟨S, h⟩ := hm.inv defaultBucketSize_lt
  exact hf.misfits defaultBucketSize_lt h (hall m m₁ os fuel 0 [3] 0 c D hm hD hf [] _ (.nil _)).2

end DiskHash.HashMap
