import DiskHash.Session

/-!
# DiskHash.Extendible — extendible hashing and bucket ownership in every reachable map

The invariant of the map, read off for the entries of the catalogue and the buckets of the container:
`Directory` is the invariant of extendible hashing, `Ownership` says that every bucket has one owner.
-/

namespace DiskHash.HashMap

variable {B : ℕ} {m : HashMap B} {S : Shape} {L : List ℕ} {b p q : ℕ}

/-- Entry number `i` of the catalogue. -/
def entry (m : HashMap B) (i : ℕ) : ℕ := m.catalogue.layout.buffer i

/-- The chain that starts with the bucket `b`. -/
def Chain (m : HashMap B) (b : ℕ) (L : List ℕ) : Prop := Seg m.container.next (some b) L none

theorem Inv.chain_of_entry (h : m.Inv S) {i : ℕ} (hi : i < 2 ^ m.catalogue.layout.prefixBits) :
    ∃ L ∈ S.chains, L.head? = some (m.entry i) := by
  obtain ⟨k, hk⟩ := exists_topBits h.cat.le32 hi
  obtain ⟨L, hL, hhead⟩ := h.entries k
  refine ⟨L, hL, hhead.trans ?_⟩
  unfold Catalogue.lookup entry
  rw [hk]

/-- The entries of a chain are an aligned block. -/
theorem Inv.entry_iff (h : m.Inv S) (hc : m.Holds S L b p q) {i : ℕ}
    (hi : i < 2 ^ m.catalogue.layout.prefixBits) :
    m.entry i = b ↔ i / 2 ^ (m.catalogue.layout.prefixBits - p) = q := by
  obtain ⟨k, hk⟩ := exists_topBits h.cat.le32 hi
  have hcell := hc.cell k
  rw [← topBits_div hc.le h.cat.le32, hk] at hcell
  unfold Catalogue.lookup at hcell
  rwa [hk] at hcell

/-- Every chain is the chain of some entry. -/
theorem Inv.entry_of_chain (h : m.Inv S) (hc : m.Holds S L b p q) :
    ∃ i < 2 ^ m.catalogue.layout.prefixBits, m.entry i = b := by
  have hle := hc.le
  have hlt : q * 2 ^ (m.catalogue.layout.prefixBits - p) < 2 ^ m.catalogue.layout.prefixBits := by
    calc q * 2 ^ (m.catalogue.layout.prefixBits - p)
        < 2 ^ p * 2 ^ (m.catalogue.layout.prefixBits - p) :=
          Nat.mul_lt_mul_of_pos_right hc.lt (Nat.two_pow_pos _)
      _ = 2 ^ m.catalogue.layout.prefixBits := by rw [← pow_add, Nat.add_sub_cancel' hle]
  refine ⟨_, hlt, (h.entry_iff hc hlt).mpr (Nat.mul_div_cancel _ (Nat.two_pow_pos _))⟩

/-- No link leads to the head of a chain. -/
theorem Inv.head_unlinked (h : m.Inv S) (hL : L ∈ S.chains) (hb : L.head? = some b) {i : ℕ}
    (hi : i < m.container.layout.bucketsCount) : m.container.next i ≠ some b := by
  intro hnext
  have hbL := List.mem_of_mem_head? hb
  -- the list that `i` is on has `b` behind `i`
  have hbehind : ∀ {a : Option ℕ} {T : List ℕ}, Seg m.container.next a T none → i ∈ T →
      ∃ n, T[n + 1]? = some b := by
    intro a T hs hiT
    obtain ⟨n, hn⟩ := List.mem_iff_getElem?.mp hiT
    exact ⟨n, (hs.next_getElem? hn).symm.trans hnext⟩
  rcases h.rep.owned.mem_iff.mpr hi with hi | hi
  · obtain ⟨T, hT, hiT⟩ := List.mem_flatten.mp hi
    obtain ⟨n, hn⟩ := hbehind (h.rep.owned.linked T hT) hiT
    have hTL := h.chain_unique hL hT hbL (List.mem_of_getElem? hn)
    subst hTL
    have hnodup : L.Nodup := (List.nodup_flatten.mp (List.nodup_append.mp h.rep.owned.nodup).1).1 L hL
    rw [List.head?_eq_getElem?] at hb
    exact absurd (Container.index_unique hnodup hb hn) (by omega)
  · obtain ⟨n, hn⟩ := hbehind h.rep.owned.freeLinked hi
    exact h.rep.not_mem_free hL hbL (List.mem_of_getElem? hn)

/-! ### The directory -/

/-- A bucket that the catalogue names: it heads a chain of local depth `p`, the entries that name it are the
aligned block number `q` of `2 ^ (g - p)` entries, and the hashes of its chain have the leading bits `q`. -/
structure Block (m : HashMap B) (b p q : ℕ) : Prop where
  pos : 1 ≤ p
  le : p ≤ m.catalogue.layout.prefixBits
  lt : q < 2 ^ p
  entries : ∀ i < 2 ^ m.catalogue.layout.prefixBits,
    m.entry i = b ↔ i / 2 ^ (m.catalogue.layout.prefixBits - p) = q
  head : ∀ i < m.container.layout.bucketsCount, m.container.next i ≠ some b
  chain : ∃ L, m.Chain b L ∧ ∀ i ∈ L, (m.container.layout.buckets i).prefixBits = p ∧
    ∃ rs, (m.container.layout.buckets i).Holds rs ∧ ∀ r ∈ rs, topBits p r.hash = q

/-- The invariant of extendible hashing. -/
structure Directory (m : HashMap B) : Prop where
  prefixBits : 1 ≤ m.catalogue.layout.prefixBits ∧ m.catalogue.layout.prefixBits ≤ hashBits
  prefixShift : m.catalogue.layout.prefixShift = hashBits - m.catalogue.layout.prefixBits
  prefixMask : ∀ i < hashBits,
    m.catalogue.layout.prefixMask.getLsbD i = decide (hashBits - m.catalogue.layout.prefixBits ≤ i)
  bufferSize : m.catalogue.layout.bufferSize = 2 ^ m.catalogue.layout.prefixBits
  entries : ∀ i < 2 ^ m.catalogue.layout.prefixBits, ∃ p q, m.Block (m.entry i) p q

theorem Inv.block (h : m.Inv S) (hL : L ∈ S.chains) (hc : m.Holds S L b p q) : m.Block b p q where
  pos := hc.pos
  le := hc.le
  lt := hc.lt
  entries _ hi := h.entry_iff hc hi
  head _ hi := h.head_unlinked hL hc.head hi
  chain := ⟨L, (h.chain hL hc.head).1, fun i hi =>
    ⟨hc.depth i hi, S.recs i, h.rep.holds_of_mem hL hi, hc.hashes i hi⟩⟩

theorem Inv.directory (h : m.Inv S) : m.Directory where
  prefixBits := ⟨h.cat.pos, h.cat.le⟩
  prefixShift := h.cat.shift
  prefixMask := h.cat.mask
  bufferSize := h.cat.bufferSize
  entries i hi := by
    obtain ⟨L, hL, hhead⟩ := h.chain_of_entry hi
    obtain ⟨b, p, q, hc⟩ := h.cells L hL
    obtain rfl : m.entry i = b := Option.some.inj (hhead.symm.trans hc.head)
    exact ⟨p, q, h.block hL hc⟩

/-- How a `get` can fail. -/
theorem get_fails (hB : B < 2 ^ 31) (h : m.Inv S) {os : Os} {fuel : ℕ} {hash : Hash} {key default : Bytes}
    {e : Fault} {m' : HashMap B} (hrun : get os fuel hash key default m = .error e m') :
    e = .outOfFuel ∨ e = .systemError ∨ e = .badShift ∧ 2 ^ 32 < m.container.layout.bucketsCount := by
  obtain ⟨L, rest, p, q, -, h', hf⟩ := h.front hash
  rcases (get_runs hB os h' hf fuel key default).of_error hrun with hfails | ⟨-, he⟩
  · cases hfails with
    | starved hs => exact .inl hs.1
    | refused he _ => exact .inr (.inl he)
    | overgrown he hlt => exact .inr (.inr ⟨he, hlt⟩)
  · exact .inl he

/-- No assertion fails in `get`. -/
theorem get_asserts (hB : B < 2 ^ 31) (h : m.Inv S) {os : Os} {fuel : ℕ} {hash : Hash} {key default : Bytes}
    {e : Fault} {m' : HashMap B} (hrun : get os fuel hash key default m = .error e m') :
    e ≠ .assertFailed := by
  rintro rfl
  rcases get_fails hB h hrun with he | he | ⟨he, -⟩
  · cases he
  · cases he
  · cases he

/-- Every reachable map satisfies the invariant of extendible hashing, and the assertions of `get` hold. -/
theorem reachable_directory {m : HashMap defaultBucketSize} (hm : Reachable m) :
    m.Directory ∧
    ∀ (os : Os) (fuel : ℕ) (hash : Hash) (key default : Bytes) (e : Fault) (m' : HashMap defaultBucketSize),
      get os fuel hash key default m = .error e m' → e ≠ .assertFailed := by
  obtain ⟨S, h⟩ := hm.inv defaultBucketSize_lt
  exact ⟨h.directory, fun os fuel hash key default e m' hrun => get_asserts defaultBucketSize_lt h hrun⟩

/-- A session after which the catalogue is as described. -/
theorem reachable_directory_session : ∃ m : HashMap defaultBucketSize,
    Reachable m ∧ m.Represents (Dict.empty.insert (7, [1]) [2]) ∧ m.Directory := by
  obtain ⟨m, hm, hrep⟩ := exists_session 7
  exact ⟨m, hm, hrep, (reachable_directory hm).1⟩

/-! ### Growth -/

/-- The arithmetic on prefix bits is in range: `prefix_shift` is a shift of 32-bit words, the depths that are
subtracted from `prefix_bits` are not greater, and no call of the map shifts by an amount out of range or takes
a greater number of bits from a smaller one. -/
structure InRange (m : HashMap B) : Prop where
  prefixBits : 1 ≤ m.catalogue.layout.prefixBits ∧ m.catalogue.layout.prefixBits ≤ hashBits
  prefixShift : m.catalogue.layout.prefixShift + m.catalogue.layout.prefixBits = hashBits
  depth : ∀ hash, 1 ≤ (m.container.layout.buckets (m.catalogue.lookup hash)).prefixBits ∧
    (m.container.layout.buckets (m.catalogue.lookup hash)).prefixBits ≤ m.catalogue.layout.prefixBits
  calls : ∀ (call : Call) (fuel : ℕ) (e : Fault) (m' : HashMap B), call.run fuel m = .error e m' → e ≠ .badShift

/-- A call that shifts by an amount out of range was made on more buckets than there are hashes. -/
theorem call_shifts (hB : B < 2 ^ 31) (h : m.Inv S) (hcount : m.container.layout.bucketsCount ≤ 2 ^ 32)
    {call : Call} {fuel : ℕ} {e : Fault} {m' : HashMap B} (hrun : call.run fuel m = .error e m') :
    e ≠ .badShift := by
  rintro rfl
  cases call with
  | get os hash key default =>
    cases hget : get os fuel hash key default m with
    | ok v m₁ => cases (Prog.bind_ok hget _).symm.trans hrun
    | error e m₁ =>
      obtain ⟨rfl, -⟩ := Prog.Outcome.error.inj ((Prog.bind_error hget _).symm.trans hrun)
      rcases get_fails hB h hget with he | he | ⟨-, hlt⟩
      · cases he
      · cases he
      · omega
  | find hash key =>
    cases hfind : find fuel hash key m with
    | ok v m₁ => cases (Prog.bind_ok hfind _).symm.trans hrun
    | error e m₁ =>
      obtain ⟨rfl, -⟩ := Prog.Outcome.error.inj ((Prog.bind_error hfind _).symm.trans hrun)
      cases ((find_runs hB h fuel hash key).of_error hfind).2.1
  | remove hash key =>
    cases hremove : remove fuel hash key m with
    | ok v m₁ => cases (Prog.bind_ok hremove _).symm.trans hrun
    | error e m₁ =>
      obtain ⟨rfl, -⟩ := Prog.Outcome.error.inj ((Prog.bind_error hremove _).symm.trans hrun)
      cases ((remove_runs hB h fuel hash key).of_error hremove).2.1

theorem Inv.inRange (hB : B < 2 ^ 31) (h : m.Inv S) (hcount : m.container.layout.bucketsCount ≤ 2 ^ 32) :
    m.InRange where
  prefixBits := ⟨h.cat.pos, h.cat.le⟩
  prefixShift := by
    rw [h.cat.shift]
    exact Nat.sub_add_cancel h.cat.le
  depth hash := by
    obtain ⟨L, rest, p, q, -, -, hf⟩ := h.front hash
    rw [hf.holds.depth _ (List.mem_of_mem_head? hf.holds.head)]
    exact ⟨hf.holds.pos, hf.holds.le⟩
  calls _ _ _ _ hrun := call_shifts hB h hcount hrun

/-- In every reachable map the catalogue has fewer than twice as many entries as there are buckets, whatever the
hashes were; so the arithmetic is in range as long as there are not more buckets than hashes. -/
theorem reachable_growth {m : HashMap defaultBucketSize} (hm : Reachable m) :
    2 ^ m.catalogue.layout.prefixBits < 2 * m.container.layout.bucketsCount ∧
    (m.container.layout.bucketsCount ≤ 2 ^ 32 → m.InRange) := by
  obtain ⟨S, h⟩ := hm.inv defaultBucketSize_lt
  exact ⟨h.growth, h.inRange defaultBucketSize_lt⟩

theorem reachable_growth_session : ∃ m : HashMap defaultBucketSize,
    Reachable m ∧ m.Represents (Dict.empty.insert (7, [1]) [2]) ∧
    2 ^ m.catalogue.layout.prefixBits < 2 * m.container.layout.bucketsCount := by
  obtain ⟨m, hm, hrep⟩ := exists_session 7
  exact ⟨m, hm, hrep, (reachable_growth hm).1⟩

/-! ### Ownership -/

/-- Every bucket has one owner. -/
structure Ownership (m : HashMap B) (chains : List (List ℕ)) (free : List ℕ) : Prop where
  heads : ∀ b, (∃ i < 2 ^ m.catalogue.layout.prefixBits, m.entry i = b) ↔ ∃ L ∈ chains, L.head? = some b
  distinct : (chains.map List.head?).Nodup
  linked : ∀ L ∈ chains, ∃ b, m.Chain b L
  freeLinked : Seg m.container.next m.container.layout.firstFreeBucketId free none
  once : (chains.flatten ++ free).Perm (List.range m.container.layout.bucketsCount)
  freeEmpty : ∀ i ∈ free, (m.container.layout.buckets i).bytesUsed = 0
  depth : ∀ L ∈ chains, ∀ i ∈ L, ∀ j ∈ L,
    (m.container.layout.buckets i).prefixBits = (m.container.layout.buckets j).prefixBits
  records : ∀ i < m.container.layout.bucketsCount, (m.container.layout.buckets i).bytesUsed ≤ B ∧
    ∃ rs, (m.container.layout.buckets i).Holds rs
  mapped : headerBytes + m.container.layout.bucketsCount * bucketBytes B ≤ m.container.fileMap.length

theorem Inv.chains_nodup (h : m.Inv S) : S.chains.Nodup := by
  have hnodup := (List.nodup_append.mp h.rep.owned.nodup).1
  refine List.Pairwise.imp_of_mem (fun {L L'} hL _ hdis => ?_) (List.nodup_flatten.mp hnodup).2
  rintro rfl
  obtain ⟨b, p, q, hc⟩ := h.cells L hL
  exact hdis (List.mem_of_mem_head? hc.head) (List.mem_of_mem_head? hc.head)

theorem Inv.ownership (h : m.Inv S) : m.Ownership S.chains S.free where
  heads b := by
    constructor
    · rintro ⟨i, hi, rfl⟩
      exact h.chain_of_entry hi
    · rintro ⟨L, hL, hhead⟩
      obtain ⟨b', p, q, hc⟩ := h.cells L hL
      obtain rfl : b = b' := Option.some.inj (hhead.symm.trans hc.head)
      exact h.entry_of_chain hc
  distinct := by
    refine h.chains_nodup.map_on (fun L hL L' hL' he => ?_)
    obtain ⟨b, p, q, hc⟩ := h.cells L hL
    exact h.head_unique hL hL' hc.head (he ▸ hc.head)
  linked L hL := by
    obtain ⟨b, p, q, hc⟩ := h.cells L hL
    exact ⟨b, (h.chain hL hc.head).1⟩
  freeLinked := h.rep.owned.freeLinked
  once := h.rep.owned.perm
  freeEmpty i hi := by
    have hu := (h.rep.holds i (h.rep.owned.lt_of_mem_free hi)).used
    rw [h.rep.freeEmpty i hi] at hu
    exact hu
  depth := h.rep.depth
  records i hi := ⟨(h.rep.holds i hi).le, S.recs i, h.rep.holds i hi⟩
  mapped := h.rep.owned.covers

/-- In every reachable map every bucket is on exactly one chain or on the free list. -/
theorem reachable_ownership {m : HashMap defaultBucketSize} (hm : Reachable m) :
    ∃ chains free, m.Ownership chains free := by
  obtain ⟨S, h⟩ := hm.inv defaultBucketSize_lt
  exact ⟨S.chains, S.free, h.ownership⟩

/-- A session after which the buckets are owned as described. -/
theorem reachable_ownership_session : ∃ m : HashMap defaultBucketSize, Reachable m ∧
    m.Represents (Dict.empty.insert (7, [1]) [2]) ∧ ∃ chains free, m.Ownership chains free := by
  obtain ⟨m, hm, hrep⟩ := exists_session 7
  exact ⟨m, hm, hrep, reachable_ownership hm⟩

end DiskHash.HashMap
