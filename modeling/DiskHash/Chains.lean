import DiskHash.Lib.Bins
import DiskHash.Lib.TopBits
import DiskHash.Split

/-!
# DiskHash.Chains — a chain as a row of lists of records

`c.Reads b L others bs`: the container is well-formed, `b` is the head of the chain of the buckets `L`, and
`bs` are the records of each of them.  On the byte level the operations of the container are then the
operations of a row of bins, and `split` deals the records of a chain out to two chains.
-/

namespace DiskHash.Container

open Packing

variable {B : ℕ} {c c' : Container B} {S : Shape} {b p : ℕ} {L L' : List ℕ} {others : List (List ℕ)}
  {bs : List (List Record)} {r : Record} {hash : Hash} {key : Bytes}

/-- The container is well-formed, and the chain at `b` reads as `bs`; the other chains are `others`. -/
structure Reads (c : Container B) (b : ℕ) (L : List ℕ) (others : List (List ℕ)) (bs : List (List Record)) :
    Prop where
  rep : ∃ S, c.Rep S ∧ S.chains = L :: others ∧ L.map S.recs = bs
  head : L.head? = some b

/-- The records of the chain are in the used bytes of its buckets, and the links go from one to the next. -/
theorem Reads.holds (h : c.Reads b L others bs) : Seg c.next (some b) L none ∧ bs.length = L.length ∧
    ∀ (n i : ℕ) (rs : List Record), L[n]? = some i → bs[n]? = some rs → c.Mapped i ∧ (c.layout.buckets i).Holds rs := by
  obtain ⟨⟨S, hrep, hS, rfl⟩, hhead⟩ := h
  have hL : L ∈ S.chains := by rw [hS]; simp
  refine ⟨hhead ▸ hrep.owned.linked L hL, by simp, fun n i rs hi hrs => ?_⟩
  have hmem := List.mem_of_getElem? hi
  rw [List.getElem?_map, hi] at hrs
  obtain rfl : S.recs i = rs := Option.some.inj hrs
  exact ⟨hrep.mapped hL hmem, hrep.holds_of_mem hL hmem⟩

theorem Rep.nodup_chain (h : c.Rep S) (hS : S.chains = L :: others) : L.Nodup := by
  have ho := h.owned
  rw [hS] at ho
  exact ho.nodup_head

/-- A row in which one bin changes. -/
theorem map_update {recs : ℕ → List Record} {L₁ L₂ : List ℕ} {i : ℕ} (hnodup : (L₁ ++ i :: L₂).Nodup)
    (rs : List Record) :
    (L₁ ++ i :: L₂).map (Function.update recs i rs) = L₁.map recs ++ rs :: L₂.map recs := by
  have hsame : ∀ T : List ℕ, i ∉ T → T.map (Function.update recs i rs) = T.map recs := by
    intro T hi
    apply List.map_congr_left
    intro j hj
    rw [Function.update_of_ne (by rintro rfl; exact hi hj)]
  have hi := List.nodup_middle.mp hnodup
  have hmem := (List.nodup_cons.mp hi).1
  rw [List.map_append, List.map_cons, Function.update_self, hsame L₁ (fun h => hmem (by simp [h])),
    hsame L₂ (fun h => hmem (by simp [h]))]

/-! ### Creating a record -/

theorem firstFit_old {L₁ L₂ : List ℕ} {i : ℕ} (hnodup : (L₁ ++ i :: L₂).Nodup)
    (hfull : ∀ j ∈ L₁, Full B S.recs r.size j) (hroom : ¬ Full B S.recs r.size i) :
    (L₁ ++ i :: L₂).map (Function.update S.recs i (S.recs i ++ [r])) =
      firstFit Record.size B r ((L₁ ++ i :: L₂).map S.recs) := by
  rw [map_update hnodup, List.map_append, List.map_cons]
  refine (firstFit_room (fun rs hrs => ?_) (Nat.le_of_not_lt hroom)).symm
  obtain ⟨j, hj, rfl⟩ := List.mem_map.mp hrs
  exact hfull j hj

theorem firstFit_new {id : ℕ} (hnodup : L.Nodup) (hid : id ∉ L) (hfull : ∀ j ∈ L, Full B S.recs r.size j) :
    (L ++ [id]).map (Function.update S.recs id [r]) = firstFit Record.size B r (L.map S.recs) := by
  rw [map_update (List.nodup_middle.mpr (by simpa using ⟨hid, hnodup⟩)), List.map_nil]
  refine (firstFit_full (fun rs hrs => ?_)).symm
  obtain ⟨j, hj, rfl⟩ := List.mem_map.mp hrs
  exact hfull j hj

/-- What `create_record` does to a row: the record is behind the others of the first bucket with room, or in one
new bucket at the end of the chain, as deep as the others. -/
structure Stored (c : Container B) (b : ℕ) (L : List ℕ) (others : List (List ℕ)) (bs : List (List Record))
    (r : Record) (v : View) (c' : Container B) (L' : List ℕ) : Prop where
  reads : c'.Reads b L' others (firstFit Record.size B r bs)
  chain : L' = L ∨ ∃ id, L' = L ++ [id] ∧ ∀ T ∈ L :: others, id ∉ T
  depth : ∀ i ∈ L', (c'.layout.buckets i).prefixBits = (c.layout.buckets b).prefixBits
  view : ∃ i ∈ L', ∃ rs, (c'.layout.buckets i).Holds (rs ++ [r]) ∧ v = Bucket.valueView i rs r
  shows : c'.view v = r.value
  frame : ∀ i, i ∉ L' → c'.layout.buckets i = c.layout.buckets i

theorem Inserted.stored (h : c.Rep S) (hS : S.chains = L :: others) (hb : L.head? = some b) {v : View}
    (hi : Inserted c S L others r v c') : ∃ L', Stored c b L others (L.map S.recs) r v c' L' := by
  cases hi with
  | old L₁ i L₂ bucket hL hfull hroom hv hc' _ hbits hrep =>
    subst hL
    have hmem : i ∈ L₁ ++ i :: L₂ := by simp
    have hLmem : L₁ ++ i :: L₂ ∈ S.chains := by rw [hS]; simp
    have hholds := hrep.holds_of_mem hLmem hmem
    change (c'.layout.buckets i).Holds (Function.update S.recs i (S.recs i ++ [r]) i) at hholds
    rw [Function.update_self] at hholds
    refine ⟨L₁ ++ i :: L₂, ⟨⟨_, hrep, hS, firstFit_old (h.nodup_chain hS) hfull hroom⟩, hb⟩, .inl rfl,
      fun j hj => ?_, ⟨i, hmem, S.recs i, hholds, hv⟩, ?_, fun j hj => ?_⟩
    · rw [← h.depth _ hLmem j hj b (List.mem_of_mem_head? hb), hc']
      by_cases hji : j = i
      · rw [hji, setBucket_self, hbits]
      · rw [setBucket_of_ne hji]
    · rw [hv]
      exact view_value hholds
    · rw [hc', setBucket_of_ne (by rintro rfl; exact hj hmem)]
  | new c₁ id bucket hfull hv hext hc' hrep =>
    have hmem : L ++ [id] ∈ (S.extend L others id).chains := by simp [Shape.extend]
    have hbmem : b ∈ L := List.mem_of_mem_head? hb
    have hid : b ≠ id := by
      rintro rfl
      exact hext.notMem hbmem
    have hholds := hrep.holds_of_mem hmem (i := id) (by simp)
    change (c'.layout.buckets id).Holds (Function.update S.recs id [r] id) at hholds
    rw [Function.update_self] at hholds
    have hall : ∀ T ∈ L :: others, id ∉ T := by
      intro T hT
      rw [← hS] at hT
      exact h.owned.taken_not_mem hext.source hT
    have hrow := firstFit_new (h.nodup_chain hS) hext.notMem hfull
    refine ⟨L ++ [id], ⟨⟨_, hrep, rfl, hrow⟩, by rw [List.head?_append, hb]; rfl⟩,
      .inr ⟨id, rfl, hall⟩, fun j hj => ?_, ⟨id, by simp, [], hholds, hv⟩, ?_, fun j hj => ?_⟩
    · rw [hrep.depth _ hmem j hj b (by simp [hbmem]), hc', setBucket_of_ne hid, (hext.same b hid).prefixBits]
    · rw [hv]
      exact view_value (show Bucket.Holds _ ([] ++ r :: []) from hholds)
    · rw [hc', setBucket_of_ne (by rintro rfl; exact hj (by simp)),
        hext.others j (by rintro rfl; exact hj (by simp)) (fun hm => hj (by simp [hm]))]

theorem Reads.create_runs (h : c.Reads b L others bs) (kernel : Kernel) (hr : r.size ≤ B) (fuel : ℕ) :
    Prog.Runs (createRecord kernel fuel b r.hash r.key r.value) c
      (fun v c' => ∃ L', Stored c b L others bs r v c' L')
      (fun e _ => Starved fuel L.length e ∨ e = .systemError ∧ ¬ kernel.Grants) := by
  obtain ⟨⟨S, hrep, hS, rfl⟩, hhead⟩ := h
  refine (createRecord_runs hrep kernel hr hS hhead fuel).mono (fun v c' hi => hi.stored hrep hS hhead) ?_
  rintro e c' (he | he)
  · exact .inl he
  · exact .inr ⟨he.fault, he.denied⟩

/-! ### Finding and removing -/

/-- Whether a record is the one that is looked for. -/
def wanted (hash : Hash) (key : Bytes) (x : Record) : Bool := decide (x.Is hash key)

theorem wanted_eq_false {x : Record} (h : ¬ x.Is hash key) : wanted hash key x = false := decide_eq_false h

/-- The value of the first record with this hash and key. -/
def lookupFirst (hash : Hash) (key : Bytes) (bs : List (List Record)) : Option Bytes :=
  (bs.flatten.find? (wanted hash key)).map Record.value

theorem wanted_of_absent (h : Absent L S.recs hash key) :
    ∀ rs ∈ L.map S.recs, ∀ x ∈ rs, wanted hash key x = false := by
  intro rs hrs x hx
  obtain ⟨i, hi, rfl⟩ := List.mem_map.mp hrs
  exact wanted_eq_false (h i hi x hx)

theorem any_of_absent (h : Absent L S.recs hash key) : (L.map S.recs).flatten.any (wanted hash key) = false := by
  rw [List.any_eq_false]
  intro x hx
  obtain ⟨rs, hrs, hxrs⟩ := List.mem_flatten.mp hx
  rw [wanted_of_absent h rs hrs x hxrs]
  decide

theorem find_of_absent (h : Absent L S.recs hash key) : (L.map S.recs).flatten.find? (wanted hash key) = none :=
  List.find?_eq_none.mpr (List.any_eq_false.mp (any_of_absent h))

variable {L₁ : List ℕ} {i : ℕ} {pre post : List Record}

/-- The located record is the first wanted one of the row. -/
theorem find_of_located (h : Located L S.recs hash key L₁ i pre r post) :
    (L.map S.recs).flatten.find? (wanted hash key) = some r := by
  obtain ⟨L₂, rfl⟩ := h.chain
  rw [← List.flatMap_def, List.find?_eq_some_iff_append]
  refine ⟨decide_eq_true h.first.is, L₁.flatMap S.recs ++ pre, post ++ L₂.flatMap S.recs, ?_, fun y hy => ?_⟩
  · simp [h.first.split]
  · have hy' : ¬ y.Is hash key := by
      rcases List.mem_append.mp hy with hy | hy
      · obtain ⟨j, hj, hyj⟩ := List.mem_flatMap.mp hy
        exact h.before j hj y hyj
      · exact h.first.before y hy
    rw [wanted_eq_false hy']
    rfl

theorem any_of_located (h : Located L S.recs hash key L₁ i pre r post) :
    (L.map S.recs).flatten.any (wanted hash key) = true :=
  List.any_eq_true.mpr ⟨r, List.mem_of_find?_eq_some (find_of_located h), decide_eq_true h.first.is⟩

theorem erase_of_located (h : Located L S.recs hash key L₁ i pre r post) (hnodup : L.Nodup) :
    L.map (Function.update S.recs i (pre ++ post)) = eraseFirst (wanted hash key) (L.map S.recs) := by
  obtain ⟨L₂, rfl⟩ := h.chain
  rw [map_update hnodup, List.map_append, List.map_cons, h.first.split]
  refine (eraseFirst_eq (fun rs hrs y hy => ?_) (fun y hy => wanted_eq_false (h.first.before y hy))
    (decide_eq_true h.first.is)).symm
  obtain ⟨j, hj, rfl⟩ := List.mem_map.mp hrs
  exact wanted_eq_false (h.before j hj y hy)

theorem Reads.find_runs (hB : B < 2 ^ 31) (h : c.Reads b L others bs) (hash : Hash) (key : Bytes) (fuel : ℕ) :
    Prog.Runs (findRecord hash key fuel (some b)) c
      (fun o c' => c' = c ∧ o.map c.view = lookupFirst hash key bs)
      (fun e _ => e = .outOfFuel ∧ fuel < L.length) := by
  obtain ⟨⟨S, hrep, hS, rfl⟩, hhead⟩ := h
  have hL : L ∈ S.chains := by rw [hS]; simp
  have hseg := hrep.owned.linked L hL
  rw [hhead] at hseg
  refine (findRecord_runs hB L fuel _ hseg (fun i hi => ⟨hrep.mapped hL hi, hrep.holds_of_mem hL hi⟩)).mono ?_
    (fun e _ he => ⟨he.1, he.2.2⟩)
  rintro o c' ⟨rfl, ho⟩
  refine ⟨rfl, ?_⟩
  unfold lookupFirst
  cases o with
  | none =>
    rw [find_of_absent ho]
    rfl
  | some v =>
    obtain ⟨L₁, i, pre, x, post, hloc, rfl⟩ := ho
    have hholds := hrep.holds_of_mem hL hloc.mem
    rw [hloc.first.split] at hholds
    rw [find_of_located hloc, Option.map_some, Option.map_some, view_value hholds]

/-- What `remove_record` does to a row. -/
structure Removed (c : Container B) (b : ℕ) (L : List ℕ) (others : List (List ℕ)) (bs : List (List Record))
    (hash : Hash) (key : Bytes) (found : Bool) (c' : Container B) : Prop where
  answer : found = bs.flatten.any (wanted hash key)
  reads : c'.Reads b L others (eraseFirst (wanted hash key) bs)
  unchanged : found = false → c' = c
  depth : ∀ i, (c'.layout.buckets i).prefixBits = (c.layout.buckets i).prefixBits
  frame : ∀ i, i ∉ L → c'.layout.buckets i = c.layout.buckets i

theorem Reads.remove_runs (hB : B < 2 ^ 31) (h : c.Reads b L others bs) (hash : Hash) (key : Bytes) (fuel : ℕ) :
    Prog.Runs (removeRecord hash key fuel (some b)) c
      (fun found c' => Removed c b L others bs hash key found c')
      (fun e _ => e = .outOfFuel ∧ fuel < L.length) := by
  obtain ⟨⟨S, hrep, hS, rfl⟩, hhead⟩ := h
  have hL : L ∈ S.chains := by rw [hS]; simp
  have hseg := hrep.owned.linked L hL
  rw [hhead] at hseg
  refine (removeRecord_runs hB L fuel _ hseg (fun i hi => ⟨hrep.mapped hL hi, hrep.holds_of_mem hL hi⟩)).mono ?_
    (fun e _ he => ⟨he.1, he.2.2⟩)
  intro found c' hr
  cases found with
  | false =>
    obtain ⟨habs, rfl⟩ := hr
    exact ⟨(any_of_absent habs).symm, ⟨⟨S, hrep, hS, (eraseFirst_absent (wanted_of_absent habs)).symm⟩, hhead⟩,
      fun _ => rfl, fun _ => rfl, fun _ _ => rfl⟩
  | true =>
    obtain ⟨L₁, i, pre, x, post, hloc, bucket, rfl, hholds, hnext, hbits⟩ := hr
    have hrep' := hrep.setBucket hholds hnext hbits (hrep.not_mem_free hL hloc.mem)
    refine ⟨(any_of_located hloc).symm, ⟨⟨_, hrep', hS, erase_of_located hloc (hrep.nodup_chain hS)⟩, hhead⟩,
      fun hf => (Bool.noConfusion hf), fun j => ?_, fun j hj => ?_⟩
    · by_cases hji : j = i
      · rw [hji, setBucket_self, hbits]
      · rw [setBucket_of_ne hji]
    · exact setBucket_of_ne (by rintro rfl; exact hj hloc.mem) _

/-- A container of one empty bucket. -/
theorem exists_reads : ∃ c : Container defaultBucketSize, c.Reads 0 [0] [] [[]] ∧
    (c.layout.buckets 0).prefixBits = 1 := by
  obtain ⟨c₀, hnew⟩ := new_returns (B := defaultBucketSize) Kernel.willing_grants false
  obtain ⟨hn, hf, hl, hs⟩ := new_ok hnew
  obtain ⟨id, c, -, ho, hc⟩ := (createBucket_runs (owned_nil hn hf hl hs) Kernel.willing 1).returns
    (fun _ _ he => he.denied Kernel.willing_grants)
  obtain ⟨rfl, hcount⟩ : id = 0 ∧ c.layout.bucketsCount = 1 := by
    have hbehind := hc.behind
    rwa [hn] at hbehind
  refine ⟨c, ⟨⟨⟨[[0]], [], fun _ => []⟩, ⟨ho, fun i hi => ?_, fun i hi => ?_, fun T hT i hi j hj => ?_⟩,
    rfl, rfl⟩, rfl⟩, hc.bucket.1⟩
  · obtain rfl : i = 0 := by omega
    exact Bucket.holds_nil hc.bucket.2
  · cases hi
  · obtain rfl : T = [0] := by simpa using hT
    rw [List.mem_singleton.mp hi, List.mem_singleton.mp hj]

/-- What `split` does to a chain: `L₀` is left of it and `L₁`, headed by `b1`, is new; the records go to one or the
other by bit `31 - p` of their hash, in order. -/
structure Dealt (c : Container B) (b p : ℕ) (L : List ℕ) (others : List (List ℕ)) (bs : List (List Record))
    (b1 : ℕ) (c' : Container B) (L₀ L₁ : List ℕ) : Prop where
  old : ∃ bs₀, c'.Reads b L₀ (L₁ :: others) bs₀ ∧ bs₀.flatten = bs.flatten.filter fun r => !r.hash.getLsbD (31 - p)
  new : ∃ bs₁, c'.Reads b1 L₁ (L₀ :: others) bs₁ ∧ bs₁.flatten = bs.flatten.filter fun r => r.hash.getLsbD (31 - p)
  kept : L₀ <+: L
  taken : ∀ T ∈ L :: others, ∀ i ∈ L₁, i ∉ T
  depth : ∀ i, i ∈ L₀ ∨ i ∈ L₁ → (c'.layout.buckets i).prefixBits = p + 1
  frame : ∀ i, i ∉ L → i ∉ L₁ → c'.layout.buckets i = c.layout.buckets i

theorem bit_newBit (r : Record) (p : ℕ) :
    r.bit (1#32 <<< (hashBits - (p + 1))) = r.hash.getLsbD (31 - p) := by
  have hs : hashBits - (p + 1) = 31 - p := by
    unfold hashBits
    omega
  have hlt : 31 - p < 32 := by omega
  rw [hs]
  unfold Record.bit
  rw [Bool.eq_iff_iff, decide_eq_true_iff, and_bit_ne_zero hlt]

theorem Splits.dealt (h : c.Rep S) (hS : S.chains = L :: others) (hb : L.head? = some b)
    {L₁ F : List ℕ} {b1 : ℕ} (hs : Splits c S L others (p + 1) (1#32 <<< (hashBits - (p + 1))) L₁ F b1 c') :
    ∃ L₀, Dealt c b p L others (L.map S.recs) b1 c' L₀ L₁ := by
  have hbit : ∀ r : Record, r.bit (1#32 <<< (hashBits - (p + 1))) = r.hash.getLsbD (31 - p) :=
    fun r => bit_newBit r p
  have hswap := hs.rep.perm_chains (List.Perm.swap _ _ _)
  have h0 := hs.records0 (h.nodup_chain hS)
  have h1 := hs.records1
  simp only [hbit] at h0 h1
  refine ⟨L.take (S.keep B (1#32 <<< (hashBits - (p + 1))) L), ⟨_, ⟨⟨_, hs.rep, rfl, rfl⟩, ?_⟩, ?_⟩,
    ⟨_, ⟨⟨_, hswap, rfl, rfl⟩, hs.head1⟩, ?_⟩, List.take_prefix _ _, fun T hT i hi hiT => ?_, hs.depth, hs.frame⟩
  · unfold Shape.keep
    rw [← hb]
    cases L <;> rfl
  · rw [← List.flatMap_def, ← List.flatMap_def, h0]
  · rw [← List.flatMap_def, ← List.flatMap_def]
    exact h1
  · rcases List.mem_cons.mp hT with rfl | hT
    · exact hs.notMem i hiT hi
    · exact hswap.owned.not_mem_chain hi (List.mem_cons_of_mem _ hT) hiT

theorem Reads.split_runs (hB : B < 2 ^ 31) (h : c.Reads b L others bs) (hp : (c.layout.buckets b).prefixBits = p)
    (hp32 : p < hashBits) (kernel : Kernel) (fuel : ℕ) :
    Prog.Runs (split kernel fuel b) c (fun b1 c' => ∃ L₀ L₁, Dealt c b p L others bs b1 c' L₀ L₁)
      (fun e _ => Starved fuel L.length e ∨ e = .systemError ∧ ¬ kernel.Grants) := by
  obtain ⟨⟨S, hrep, hS, rfl⟩, hhead⟩ := h
  refine (Container.split_runs hB hrep kernel hS hhead hp hp32 fuel).mono ?_ ?_
  · rintro b1 c' ⟨L₁, F, hs⟩
    obtain ⟨L₀, hd⟩ := hs.dealt hrep hS hhead
    exact ⟨L₀, L₁, hd⟩
  · rintro e c' (he | he)
    · exact .inl he
    · exact .inr ⟨he.fault, he.denied⟩

/-- A container of one bucket with one record. -/
theorem exists_reads_record : ∃ (c : Container defaultBucketSize) (L : List ℕ),
    c.Reads 0 L [] [[⟨7, [1], [2]⟩]] ∧ (c.layout.buckets 0).prefixBits = 1 := by
  obtain ⟨c₀, h₀, hp₀⟩ := exists_reads
  obtain ⟨v, c, -, L, hst⟩ := (h₀.create_runs (r := ⟨7, [1], [2]⟩) Kernel.willing (by decide) 2).returns (by
    rintro e _ (he | he)
    · exact absurd he.2 (by decide)
    · exact he.2 Kernel.willing_grants)
  refine ⟨c, L, hst.reads, ?_⟩
  rw [hst.depth 0 (List.mem_of_mem_head? hst.reads.head), hp₀]

end DiskHash.Container
