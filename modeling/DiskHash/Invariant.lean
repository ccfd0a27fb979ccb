import DiskHash.Directory
import DiskHash.HashMap
import DiskHash.Lib.Dictionary
import DiskHash.Split

/-!
# DiskHash.Invariant — the invariant of the map

`m.Inv S`: the catalogue is well-formed, the container holds the shape `S`, and the two fit together: every
entry of the catalogue heads a chain, every chain has a cell of hashes that the catalogue sends to it, and
all records of a chain have hashes of its cell.  The rules below say how a new bucket, a new record, a
removed record, a doubled catalogue and a split chain preserve it.
-/

namespace DiskHash

/-- All records, chain after chain. -/
def Shape.records (S : Shape) : List Record := S.chains.flatten.flatMap S.recs

namespace Shape

variable {S : Shape} {L : List ℕ} {rest : List (List ℕ)}

theorem mem_records {r : Record} : r ∈ S.records ↔ ∃ L ∈ S.chains, ∃ i ∈ L, r ∈ S.recs i := by
  simp only [records, List.mem_flatMap, List.mem_flatten]
  constructor
  · rintro ⟨i, ⟨L, hL, hi⟩, hr⟩
    exact ⟨L, hL, i, hi, hr⟩
  · rintro ⟨L, hL, i, hi, hr⟩
    exact ⟨i, ⟨L, hL, hi⟩, hr⟩

theorem records_cons (hS : S.chains = L :: rest) :
    S.records = L.flatMap S.recs ++ rest.flatten.flatMap S.recs := by
  simp [records, hS]

end Shape

/-- What the map says about a chain: its head is `b`, and it is the chain of the cell of the hashes whose
`p` leading bits are `q`. -/
structure HashMap.Holds {B : ℕ} (m : HashMap B) (S : Shape) (L : List ℕ) (b p q : ℕ) : Prop where
  head : L.head? = some b
  cell : Cell m.catalogue.lookup b p q
  pos : 1 ≤ p
  le : p ≤ m.catalogue.layout.prefixBits
  lt : q < 2 ^ p
  depth : ∀ i ∈ L, (m.container.layout.buckets i).prefixBits = p
  hashes : ∀ i ∈ L, ∀ r ∈ S.recs i, topBits p r.hash = q

/-- The chain of the hash is the first one. -/
structure HashMap.Front {B : ℕ} (m : HashMap B) (S : Shape) (hash : Hash) (L : List ℕ) (rest : List (List ℕ))
    (p q : ℕ) : Prop where
  chains : S.chains = L :: rest
  holds : m.Holds S L (m.catalogue.lookup hash) p q
  bits : topBits p hash = q

structure HashMap.Inv {B : ℕ} (m : HashMap B) (S : Shape) : Prop where
  cat : m.catalogue.WellFormed
  rep : m.container.Rep S
  entries : ∀ h, ∃ L ∈ S.chains, L.head? = some (m.catalogue.lookup h)
  cells : ∀ L ∈ S.chains, ∃ b p q, m.Holds S L b p q
  keys : (S.records.map fun r => (r.hash, r.key)).Nodup
  growth : 2 ^ m.catalogue.layout.prefixBits < 2 * m.container.layout.bucketsCount
  origin : m.catalogue.lookup 0 = 0

namespace HashMap.Inv

variable {B : ℕ} {m m' : HashMap B} {S S' : Shape} {L L' : List ℕ} {rest : List (List ℕ)} {b p q i : ℕ}
  {hash : Hash} {key : Bytes}

/-- The order of the chains does not matter. -/
theorem perm_chains (h : m.Inv S) {chains : List (List ℕ)} (hp : S.chains.Perm chains) :
    m.Inv { S with chains := chains } where
  cat := h.cat
  rep := h.rep.perm_chains hp
  entries k := by
    obtain ⟨L, hL, hhead⟩ := h.entries k
    exact ⟨L, hp.mem_iff.mp hL, hhead⟩
  cells L hL := by
    obtain ⟨b, p, q, hc⟩ := h.cells L (hp.mem_iff.mpr hL)
    exact ⟨b, p, q, hc.head, hc.cell, hc.pos, hc.le, hc.lt, hc.depth, hc.hashes⟩
  keys := by
    have : (({ S with chains := chains } : Shape).records).Perm S.records :=
      (hp.symm.flatten).flatMap_right S.recs
    exact (this.map _).nodup_iff.mpr h.keys
  growth := h.growth
  origin := h.origin

/-- Chains that share a bucket are the same chain. -/
theorem chain_unique (h : m.Inv S) (hL : L ∈ S.chains) (hL' : L' ∈ S.chains) (hi : i ∈ L) (hi' : i ∈ L') :
    L = L' := by
  obtain ⟨l₁, l₂, hS⟩ := List.append_of_mem hL
  have ho := h.rep.owned
  rw [hS] at ho hL'
  have hperm : (l₁ ++ L :: l₂).Perm (L :: (l₁ ++ l₂)) := List.perm_middle
  have ho' := ho.perm_chains hperm
  rcases List.mem_append.mp hL' with h' | h'
  · exact absurd hi' (ho'.not_mem_chain hi (by simp [h']))
  · rcases List.mem_cons.mp h' with rfl | h'
    · rfl
    · exact absurd hi' (ho'.not_mem_chain hi (by simp [h']))

theorem head_unique (h : m.Inv S) (hL : L ∈ S.chains) (hL' : L' ∈ S.chains) (hb : L.head? = some b)
    (hb' : L'.head? = some b) : L = L' :=
  h.chain_unique hL hL' (List.mem_of_mem_head? hb) (List.mem_of_mem_head? hb')

/-- The first chain is that of the hash when the catalogue sends the hash to its head. -/
theorem front_of_head (h : m.Inv S) (hash : Hash) (hS : S.chains = L :: rest)
    (hhead : L.head? = some (m.catalogue.lookup hash)) : ∃ p q, Front m S hash L rest p q := by
  obtain ⟨b, p, q, hc⟩ := h.cells L (by rw [hS]; simp)
  obtain rfl : m.catalogue.lookup hash = b := by
    have := hc.head
    rw [hhead] at this
    exact Option.some.inj this
  exact ⟨p, q, hS, hc, (hc.cell hash).mp rfl⟩

/-- The chain of a hash, brought to the front. -/
theorem front (h : m.Inv S) (hash : Hash) : ∃ L rest p q, S.chains.Perm (L :: rest) ∧
    m.Inv { S with chains := L :: rest } ∧ Front m { S with chains := L :: rest } hash L rest p q := by
  obtain ⟨L, hL, hhead⟩ := h.entries hash
  have hperm := List.perm_cons_erase hL
  obtain ⟨p, q, hf⟩ := (h.perm_chains hperm).front_of_head hash rfl hhead
  exact ⟨L, S.chains.erase L, p, q, hperm, h.perm_chains hperm, hf⟩

/-- A record with this hash is in the chain of the hash. -/
theorem mem_chain (h : m.Inv S) (hL : L ∈ S.chains) (hhead : L.head? = some (m.catalogue.lookup hash))
    {r : Record} (hr : r ∈ S.records) (hrh : r.hash = hash) : ∃ i ∈ L, r ∈ S.recs i := by
  obtain ⟨L', hL', i, hi, hri⟩ := Shape.mem_records.mp hr
  obtain ⟨b, p, q, hc⟩ := h.cells L' hL'
  have hb : m.catalogue.lookup hash = b := (hc.cell hash).mpr (hrh ▸ hc.hashes i hi r hri)
  rw [h.head_unique hL hL' hhead (hb ▸ hc.head)]
  exact ⟨i, hi, hri⟩

theorem absent_iff (h : m.Inv S) (hL : L ∈ S.chains) (hhead : L.head? = some (m.catalogue.lookup hash)) :
    Absent L S.recs hash key ↔ ∀ r ∈ S.records, ¬ r.Is hash key := by
  constructor
  · intro ha r hr hi
    obtain ⟨i, hiL, hri⟩ := h.mem_chain hL hhead hr hi.1
    exact ha i hiL r hri hi
  · intro ha i hi r hr
    exact ha r (Shape.mem_records.mpr ⟨L, hL, i, hi, hr⟩)

theorem lt_count (h : m.Inv S) (hL : L ∈ S.chains) (hi : i ∈ L) : i < m.container.layout.bucketsCount :=
  h.rep.owned.lt_of_mem hL hi

theorem count_eq (h : m.Inv S) : m.container.layout.bucketsCount = S.chains.flatten.length + S.free.length := by
  have hlen := h.rep.owned.perm.length_eq
  rw [List.length_append, List.length_range] at hlen
  exact hlen.symm

theorem length_le (h : m.Inv S) (hL : L ∈ S.chains) : L.length ≤ m.container.layout.bucketsCount := by
  have hlen := (List.sublist_flatten_of_mem hL).length_le
  have := h.count_eq
  omega

/-- The first chain is not another one. -/
theorem head_ne (h : m.Inv S) (hS : S.chains = L :: rest) (hb : L.head? = some b) (hL' : L' ∈ rest) {b' : ℕ}
    (hb' : L'.head? = some b') : b' ≠ b := by
  rintro rfl
  have ho := h.rep.owned
  rw [hS] at ho
  exact ho.not_mem_chain (List.mem_of_mem_head? hb) hL' (List.mem_of_mem_head? hb')

/-! ### The catalogue is doubled -/

theorem doubled (h : m.Inv S) {c : Catalogue} (hd : Catalogue.Doubled m.catalogue c)
    (hc : 2 ^ m.catalogue.layout.prefixBits < m.container.layout.bucketsCount) :
    ({ m with catalogue := c } : HashMap B).Inv S where
  cat := hd.wellFormed
  rep := h.rep
  entries k := by
    rw [show ({ m with catalogue := c } : HashMap B).catalogue.lookup k = _ from hd.lookup k]
    exact h.entries k
  cells L hL := by
    obtain ⟨b, p, q, hc⟩ := h.cells L hL
    refine ⟨b, p, q, hc.head, hc.cell.congr hd.lookup, hc.pos, ?_, hc.lt, hc.depth, hc.hashes⟩
    show p ≤ c.layout.prefixBits
    rw [hd.prefixBits]
    exact hc.le.trans (Nat.le_succ _)
  keys := h.keys
  growth := by
    show 2 ^ c.layout.prefixBits < 2 * m.container.layout.bucketsCount
    rw [hd.prefixBits, pow_succ]
    omega
  origin := (hd.lookup 0).trans h.origin

/-! ### The records of a chain change -/

/-- One bucket gets other records, whose hashes belong to its chain. -/
theorem setBucket (h : m.Inv S) (hL : L ∈ S.chains) (hi : i ∈ L) {bu : Bucket B} {rs : List Record}
    (hb : bu.Holds rs) (hn : bu.nextBucketId = (m.container.layout.buckets i).nextBucketId)
    (hp : bu.prefixBits = (m.container.layout.buckets i).prefixBits)
    (hrs : ∀ x ∈ rs, x ∈ S.recs i ∨ L.head? = some (m.catalogue.lookup x.hash))
    (hkeys : ((Shape.records { S with recs := Function.update S.recs i rs }).map
      fun r => (r.hash, r.key)).Nodup) :
    ({ m with container := m.container.setBucket i bu } : HashMap B).Inv
      { S with recs := Function.update S.recs i rs } where
  cat := h.cat
  rep := h.rep.setBucket hb hn hp (h.rep.not_mem_free hL hi)
  entries := h.entries
  cells T hT := by
    obtain ⟨b', p', q', hc'⟩ := h.cells T hT
    refine ⟨b', p', q', hc'.head, hc'.cell, hc'.pos, hc'.le, hc'.lt, fun j hj => ?_, fun j hj x hx => ?_⟩
    · show ((m.container.setBucket i bu).layout.buckets j).prefixBits = p'
      by_cases hji : j = i
      · subst hji
        rw [Container.setBucket_self, hp]
        exact hc'.depth j hj
      · rw [Container.setBucket_of_ne hji]
        exact hc'.depth j hj
    · have hx' : x ∈ Function.update S.recs i rs j := hx
      by_cases hji : j = i
      · subst hji
        rw [Function.update_self] at hx'
        rcases hrs x hx' with hold | hhead
        · exact hc'.hashes j hj x hold
        · rw [h.chain_unique hL hT hi hj, hc'.head] at hhead
          exact (hc'.cell x.hash).mp (Option.some.inj hhead).symm
      · rw [Function.update_of_ne hji] at hx'
        exact hc'.hashes j hj x hx'
  keys := hkeys
  growth := h.growth
  origin := h.origin

/-- The chains, their links and depths are what they were, the first chain has new records. -/
theorem update (h : m.Inv S) (hS : S.chains = L :: rest) (hc : m.Holds S L b p q) {c : Container B}
    {L' : List ℕ} {free : List ℕ} {recs : ℕ → List Record}
    (hrep : c.Rep ⟨L' :: rest, free, recs⟩) (hhead : L'.head? = L.head?)
    (hdepth : ∀ i ∈ L', (c.layout.buckets i).prefixBits = p)
    (hrest : ∀ T ∈ rest, ∀ i ∈ T, (c.layout.buckets i).prefixBits
      = (m.container.layout.buckets i).prefixBits ∧ recs i = S.recs i)
    (hhashes : ∀ i ∈ L', ∀ r ∈ recs i, topBits p r.hash = q)
    (hkeys : ((⟨L' :: rest, free, recs⟩ : Shape).records.map fun r => (r.hash, r.key)).Nodup)
    (hcount : m.container.layout.bucketsCount ≤ c.layout.bucketsCount) :
    ({ m with container := c } : HashMap B).Inv ⟨L' :: rest, free, recs⟩ where
  cat := h.cat
  rep := hrep
  entries k := by
    obtain ⟨T, hT, hk⟩ := h.entries k
    rw [hS] at hT
    rcases List.mem_cons.mp hT with rfl | hT
    · exact ⟨L', by simp, hhead.trans hk⟩
    · exact ⟨T, by simp [hT], hk⟩
  cells T hT := by
    rcases List.mem_cons.mp hT with rfl | hT
    · exact ⟨b, p, q, hhead.trans hc.head, hc.cell, hc.pos, hc.le, hc.lt, hdepth, hhashes⟩
    · obtain ⟨b', p', q', hc'⟩ := h.cells T (by rw [hS]; simp [hT])
      refine ⟨b', p', q', hc'.head, hc'.cell, hc'.pos, hc'.le, hc'.lt, fun i hi => ?_, fun i hi r hr => ?_⟩
      · exact (hrest T hT i hi).1.trans (hc'.depth i hi)
      · exact hc'.hashes i hi r ((hrest T hT i hi).2 ▸ hr)
  keys := hkeys
  growth := h.growth.trans_le (Nat.mul_le_mul_left 2 hcount)
  origin := h.origin

end HashMap.Inv

/-! ## The list of all records -/

section Records

variable {S : Shape} {L : List ℕ} {rest : List (List ℕ)} {i : ℕ}

/-- Changing the records of one bucket of a chain changes that part of the list of all records. -/
theorem flatMap_update {T : List ℕ} (hT : T.Nodup) (hi : i ∈ T) (recs : ℕ → List Record) (rs : List Record) :
    ∃ before after, T.flatMap recs = before ++ recs i ++ after ∧
      T.flatMap (Function.update recs i rs) = before ++ rs ++ after := by
  obtain ⟨T₁, T₂, rfl⟩ := List.append_of_mem hi
  have hn := List.nodup_middle.mp hT
  have hnot := (List.nodup_cons.mp hn).1
  have hsame : ∀ T' : List ℕ, (∀ j ∈ T', j ≠ i) → T'.flatMap (Function.update recs i rs) = T'.flatMap recs :=
    fun T' h => List.flatMap_congr (fun j hj => by rw [Function.update_of_ne (h j hj)])
  refine ⟨T₁.flatMap recs, T₂.flatMap recs, by simp, ?_⟩
  rw [List.flatMap_append, List.flatMap_cons, Function.update_self,
    hsame T₁ (by rintro j hj rfl; exact hnot (List.mem_append_left _ hj)),
    hsame T₂ (by rintro j hj rfl; exact hnot (List.mem_append_right _ hj))]
  simp

theorem Shape.records_update (hn : S.chains.flatten.Nodup) (hL : L ∈ S.chains) (hi : i ∈ L)
    (rs : List Record) :
    ∃ before after, S.records = before ++ S.recs i ++ after ∧
      Shape.records { S with recs := Function.update S.recs i rs } = before ++ rs ++ after :=
  flatMap_update hn (List.mem_flatten_of_mem hL hi) S.recs rs

/-- A record is added behind the records of a bucket. -/
theorem Shape.records_concat (hn : S.chains.flatten.Nodup) (hL : L ∈ S.chains) (hi : i ∈ L) (r : Record) :
    (Shape.records { S with recs := Function.update S.recs i (S.recs i ++ [r]) }).Perm
      (r :: S.records) := by
  obtain ⟨before, after, h1, h2⟩ := Shape.records_update hn hL hi (S.recs i ++ [r])
  rw [h1, h2]
  simp only [List.append_assoc]
  rw [← List.append_assoc before, ← List.append_assoc before (S.recs i) after]
  exact List.perm_middle

/-- A record is taken out of a bucket. -/
theorem Shape.records_erase (hn : S.chains.flatten.Nodup) (hL : L ∈ S.chains) (hi : i ∈ L)
    {pre post : List Record} {r : Record} (hr : S.recs i = pre ++ r :: post) :
    S.records.Perm (r :: Shape.records { S with recs := Function.update S.recs i (pre ++ post) }) := by
  obtain ⟨before, after, h1, h2⟩ := Shape.records_update hn hL hi (pre ++ post)
  rw [h1, h2, hr]
  simp only [List.append_assoc, List.cons_append]
  rw [← List.append_assoc before, ← List.append_assoc before]
  exact List.perm_middle

/-- A record takes the place of another one. -/
theorem Shape.records_set (hn : S.chains.flatten.Nodup) (hL : L ∈ S.chains) (hi : i ∈ L)
    {pre post : List Record} {r : Record} (hr : S.recs i = pre ++ r :: post) (r' : Record) :
    ∃ others, S.records.Perm (r :: others) ∧
      (Shape.records { S with recs := Function.update S.recs i (pre ++ r' :: post) }).Perm (r' :: others) := by
  obtain ⟨before, after, h1, h2⟩ := Shape.records_update hn hL hi (pre ++ r' :: post)
  refine ⟨(before ++ pre) ++ (post ++ after), ?_, ?_⟩
  · rw [h1, hr]
    simp only [List.append_assoc, List.cons_append]
    rw [← List.append_assoc before, ← List.append_assoc before]
    exact List.perm_middle
  · rw [h2]
    simp only [List.append_assoc, List.cons_append]
    rw [← List.append_assoc before, ← List.append_assoc before]
    exact List.perm_middle

/-- An empty bucket behind the first chain adds no records. -/
theorem Shape.records_extend (hS : S.chains = L :: rest) {id : ℕ} (hid : id ∉ S.chains.flatten) :
    (S.extend L rest id).records = S.records := by
  rw [hS, List.flatten_cons, List.mem_append, not_or] at hid
  have hsame : ∀ T : List ℕ, id ∉ T → T.flatMap (Function.update S.recs id []) = T.flatMap S.recs :=
    fun T h => List.flatMap_congr (fun j hj => by
      rw [Function.update_of_ne (by rintro rfl; exact h hj)])
  simp only [records, Shape.extend, hS, List.flatten_cons, List.flatMap_append, List.flatMap_cons,
    Function.update_self, List.flatMap_nil, List.append_nil]
  rw [hsame L hid.1, hsame rest.flatten hid.2]

/-- A record in an empty bucket behind the first chain is one record more. -/
theorem Shape.records_fresh (hS : S.chains = L :: rest) {id : ℕ} (hn : ((L ++ [id]) :: rest).flatten.Nodup)
    (r : Record) :
    (Shape.records { S.extend L rest id with recs := Function.update S.recs id [r] }).Perm (r :: S.records) := by
  have hid : id ∉ S.chains.flatten := by
    rw [List.flatten_cons, List.append_assoc, List.singleton_append, List.nodup_middle, List.nodup_cons] at hn
    rw [hS, List.flatten_cons]
    exact hn.1
  have hrec := Shape.records_concat (S := S.extend L rest id) hn (L := L ++ [id]) (i := id) (by simp [Shape.extend])
    (by simp) r
  have hnil : (S.extend L rest id).recs id = [] := by simp [Shape.extend]
  have hupd : Function.update (S.extend L rest id).recs id [r] = Function.update S.recs id [r] := by
    show Function.update (Function.update S.recs id []) id [r] = _
    rw [Function.update_idem]
  rwa [hnil, List.nil_append, hupd, Shape.records_extend hS hid] at hrec

end Records

/-! ## The chain is split -/

namespace HashMap.Inv

variable {B : ℕ} {m : HashMap B} {S : Shape} {L L₁ F : List ℕ} {rest : List (List ℕ)} {b b1 p q : ℕ}
  {hash : Hash} {c : Container B} {f : ℕ → ℕ}

/-- The bit by which a cell of depth `p` is halved. -/
def newBit (p : ℕ) : Hash := 1#32 <<< (hashBits - (p + 1))

theorem newBit_lt (p : ℕ) : hashBits - (p + 1) < 32 := by
  unfold hashBits
  omega

/-- The bit of a record tells the half of the cell it is in. -/
theorem bit_iff (hp : p < 32) {r : Record} (hr : topBits p r.hash = q) :
    r.bit (newBit p) = true ↔ topBits (p + 1) r.hash = 2 * q + 1 := by
  rw [topBits_succ hp, hr]
  unfold Record.bit newBit
  rw [decide_eq_true_iff, and_bit_ne_zero (newBit_lt p)]
  show r.hash.getLsbD (32 - (p + 1)) = true ↔ _
  cases r.hash.getLsbD (32 - (p + 1)) <;> simp

theorem hash_bit_iff (hash : Hash) (hp : p < 32) :
    hash &&& newBit p ≠ 0 ↔ topBits (p + 1) hash = 2 * topBits p hash + 1 := by
  have := bit_iff (r := ⟨hash, [], []⟩) hp rfl
  simpa [Record.bit] using this

/-- The catalogue after `set` sends the upper half of the cell to the new chain. -/
theorem halved (h : m.catalogue.WellFormed) (hp : p + 1 ≤ m.catalogue.layout.prefixBits)
    (hq : topBits p hash = q)
    (hf : ∀ i, f i = if i / 2 ^ (m.catalogue.layout.prefixBits - (p + 1))
      = topBits (p + 1) (hash ||| newBit p) then b1 else m.catalogue.layout.buffer i) :
    Halved m.catalogue.lookup (m.catalogue.setBuffer f).lookup b1 p q := by
  have htop : topBits (p + 1) (hash ||| newBit p) = 2 * q + 1 := by
    rw [← hq]
    exact topBits_or_bit (hp.trans h.le32)
  intro k
  rw [Catalogue.lookup_set h hp hf, htop]
  exact ⟨fun hk => if_pos hk, fun hk => if_neg hk⟩

/-- The head of the new chain was the head of no chain. -/
theorem lookup_ne (h : m.Inv S) (hS : S.chains = L :: rest)
    (hs : Container.Splits m.container S L rest (p + 1) (newBit p) L₁ F b1 c) (k : Hash) :
    m.catalogue.lookup k ≠ b1 := by
  intro hk
  have hb1 : b1 ∈ L₁ := List.mem_of_mem_head? hs.head1
  obtain ⟨T, hT, hhead⟩ := h.entries k
  have hmem : b1 ∈ T := hk ▸ List.mem_of_mem_head? hhead
  rw [hS] at hT
  rcases List.mem_cons.mp hT with rfl | hT
  · exact hs.notMem _ hmem hb1
  · have ho := hs.rep.owned.perm_chains (List.Perm.swap L₁ _ rest)
    exact ho.not_mem_chain (L := L₁) hb1 (T := T) (by simp [hT]) hmem

/-- Splitting only reorders the records. -/
theorem records_split (h : m.Inv S) (hS : S.chains = L :: rest)
    (hs : Container.Splits m.container S L rest (p + 1) (newBit p) L₁ F b1 c) :
    (S.split B (newBit p) L rest L₁ F).records.Perm S.records := by
  have ho := h.rep.owned
  rw [hS] at ho
  have hrest : rest.flatten.flatMap (S.split B (newBit p) L rest L₁ F).recs
      = rest.flatten.flatMap S.recs := by
    refine List.flatMap_congr (fun i hi => ?_)
    obtain ⟨T, hT, hiT⟩ := List.mem_flatten.mp hi
    refine Container.split_recs_other (fun hL => ho.not_mem_chain hL hT hiT) (fun hL₁ => ?_)
    have ho' := hs.rep.owned.perm_chains (List.Perm.swap L₁ _ rest)
    exact ho'.not_mem_chain (L := L₁) hL₁ (T := T) (by simp [hT]) hiT
  rw [Shape.records_cons hS]
  show (List.flatMap _ (L.take (S.keep B (newBit p) L) :: L₁ :: rest).flatten).Perm _
  rw [List.flatten_cons, List.flatten_cons, List.flatMap_append, List.flatMap_append,
    hs.records0 ho.nodup_head, hs.records1, hrest, ← List.append_assoc]
  refine List.Perm.append_right _ ?_
  have := List.filter_append_perm (fun r : Record => !r.bit (newBit p)) (L.flatMap S.recs)
  simpa using this

/-- The records of the two halves. -/
theorem mem_split (h : m.Inv S) (hS : S.chains = L :: rest)
    (hs : Container.Splits m.container S L rest (p + 1) (newBit p) L₁ F b1 c) {r : Record} :
    ((∃ i ∈ L.take (S.keep B (newBit p) L), r ∈ (S.split B (newBit p) L rest L₁ F).recs i) →
      (∃ i ∈ L, r ∈ S.recs i) ∧ r.bit (newBit p) = false) ∧
    ((∃ i ∈ L₁, r ∈ (S.split B (newBit p) L rest L₁ F).recs i) →
      (∃ i ∈ L, r ∈ S.recs i) ∧ r.bit (newBit p) = true) := by
  have ho := h.rep.owned
  rw [hS] at ho
  constructor
  · intro hr
    rw [← List.mem_flatMap, hs.records0 ho.nodup_head, List.mem_filter, List.mem_flatMap] at hr
    simpa using hr
  · intro hr
    rw [← List.mem_flatMap, hs.records1, List.mem_filter, List.mem_flatMap] at hr
    exact hr

/-- What is left of the chain has the lower half of its cell. -/
theorem holds_lower (h : m.Inv S) (hS : S.chains = L :: rest) (hc : m.Holds S L b p q)
    (hp : p + 1 ≤ m.catalogue.layout.prefixBits)
    (hs : Container.Splits m.container S L rest (p + 1) (newBit p) L₁ F b1 c)
    (hf : Halved m.catalogue.lookup (m.catalogue.setBuffer f).lookup b1 p q) :
    (⟨m.catalogue.setBuffer f, c⟩ : HashMap B).Holds (S.split B (newBit p) L rest L₁ F)
      (L.take (S.keep B (newBit p) L)) b (p + 1) (2 * q) := by
  have hp32 : p < 32 := lt_of_lt_of_le hp h.cat.le32
  have hlt : 2 * q < 2 ^ (p + 1) := by
    have := hc.lt
    rw [pow_succ]
    omega
  have hb : b ≠ b1 := by
    rintro rfl
    exact hs.notMem _ (List.mem_of_mem_head? hc.head) (List.mem_of_mem_head? hs.head1)
  refine ⟨(S.head?_take_keep ..).trans hc.head, hc.cell.lower hp32 hf hb, by omega, hp, hlt,
    fun i hi => hs.depth i (Or.inl hi), fun i hi r hr => ?_⟩
  obtain ⟨⟨j, hj, hrj⟩, hbit⟩ := (h.mem_split hS hs).1 ⟨i, hi, hr⟩
  have hq := hc.hashes j hj r hrj
  have hdiv := topBits_succ_div (h := r.hash) hp32
  have hne : ¬ topBits (p + 1) r.hash = 2 * q + 1 := by
    rw [← bit_iff hp32 hq, hbit]
    simp
  omega

/-- The new chain has the upper half. -/
theorem holds_upper (h : m.Inv S) (hS : S.chains = L :: rest) (hc : m.Holds S L b p q)
    (hp : p + 1 ≤ m.catalogue.layout.prefixBits)
    (hs : Container.Splits m.container S L rest (p + 1) (newBit p) L₁ F b1 c)
    (hf : Halved m.catalogue.lookup (m.catalogue.setBuffer f).lookup b1 p q) :
    (⟨m.catalogue.setBuffer f, c⟩ : HashMap B).Holds (S.split B (newBit p) L rest L₁ F)
      L₁ b1 (p + 1) (2 * q + 1) := by
  have hp32 : p < 32 := lt_of_lt_of_le hp h.cat.le32
  have hlt : 2 * q + 1 < 2 ^ (p + 1) := by
    have := hc.lt
    rw [pow_succ]
    omega
  refine ⟨hs.head1, hf.upper (h.lookup_ne hS hs), by omega, hp, hlt, fun i hi => hs.depth i (Or.inr hi),
    fun i hi r hr => ?_⟩
  obtain ⟨⟨j, hj, hrj⟩, hbit⟩ := (h.mem_split hS hs).2 ⟨i, hi, hr⟩
  exact (bit_iff hp32 (hc.hashes j hj r hrj)).mp hbit

/-- The other chains have no bucket of the two halves. -/
theorem not_mem_halves (h : m.Inv S) (hS : S.chains = L :: rest)
    (hs : Container.Splits m.container S L rest (p + 1) (newBit p) L₁ F b1 c) {T : List ℕ} (hT : T ∈ rest) {i : ℕ}
    (hi : i ∈ T) : i ∉ L ∧ i ∉ L₁ := by
  have ho := h.rep.owned
  rw [hS] at ho
  have ho' := hs.rep.owned.perm_chains (List.Perm.swap L₁ _ rest)
  exact ⟨fun hL => ho.not_mem_chain hL hT hi,
    fun hL₁ => ho'.not_mem_chain (L := L₁) hL₁ (T := T) (by simp [hT]) hi⟩

/-- The split of a chain, with the catalogue sending the upper half of its cell to the new chain. -/
theorem split (h : m.Inv S) (hS : S.chains = L :: rest) (hc : m.Holds S L b p q)
    (hp : p + 1 ≤ m.catalogue.layout.prefixBits)
    (hs : Container.Splits m.container S L rest (p + 1) (newBit p) L₁ F b1 c)
    (hf : Halved m.catalogue.lookup (m.catalogue.setBuffer f).lookup b1 p q) :
    (⟨m.catalogue.setBuffer f, c⟩ : HashMap B).Inv (S.split B (newBit p) L rest L₁ F) := by
  have hp32 : p < 32 := lt_of_lt_of_le hp h.cat.le32
  refine ⟨h.cat.setBuffer f, hs.rep, fun k => ?_, fun T hT => ?_, ?_, ?_, ?_⟩
  · by_cases hk : topBits (p + 1) k = 2 * q + 1
    · exact ⟨L₁, by simp [Shape.split], ((hf k).1 hk).symm ▸ hs.head1⟩
    · obtain ⟨T, hT, hhead⟩ := h.entries k
      rw [hS] at hT
      rcases List.mem_cons.mp hT with rfl | hT
      · exact ⟨_, List.mem_cons_self, (S.head?_take_keep ..).trans (((hf k).2 hk).symm ▸ hhead)⟩
      · exact ⟨T, by simp [Shape.split, hT], ((hf k).2 hk).symm ▸ hhead⟩
  · rcases List.mem_cons.mp hT with rfl | hT
    · exact ⟨b, p + 1, 2 * q, h.holds_lower hS hc hp hs hf⟩
    · rcases List.mem_cons.mp hT with rfl | hT
      · exact ⟨b1, p + 1, 2 * q + 1, h.holds_upper hS hc hp hs hf⟩
      · obtain ⟨b', p', q', hc'⟩ := h.cells T (by rw [hS]; simp [hT])
        have hrest := fun (i : ℕ) (hi : i ∈ T) => h.not_mem_halves hS hs hT hi
        have hb' := h.head_ne hS hc.head hT hc'.head
        have hb1' : b' ≠ b1 := by
          rintro rfl
          exact (hrest _ (List.mem_of_mem_head? hc'.head)).2 (List.mem_of_mem_head? hs.head1)
        refine ⟨b', p', q', hc'.head, hc.cell.other hp32 hc'.cell hf hb' hb1', hc'.pos, hc'.le, hc'.lt,
          fun i hi => ?_, fun i hi r hr => ?_⟩
        · show (c.layout.buckets i).prefixBits = p'
          rw [hs.frame i (hrest i hi).1 (hrest i hi).2]
          exact hc'.depth i hi
        · rw [Container.split_recs_other (hrest i hi).1 (hrest i hi).2] at hr
          exact hc'.hashes i hi r hr
  · exact ((h.records_split hS hs).map _).nodup_iff.mpr h.keys
  · exact h.growth.trans_le (Nat.mul_le_mul_left 2 hs.count_le)
  · have hz : topBits (p + 1) (0 : Hash) = 0 := by simp [topBits]
    exact ((hf 0).2 (by omega)).trans h.origin

end HashMap.Inv

end DiskHash
