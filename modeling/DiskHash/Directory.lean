import DiskHash.Catalogue
import DiskHash.Lib.TopBits

/-!
# DiskHash.Directory — the catalogue as a function of the hash

`c.WellFormed`: the four header fields that index the entries agree with each other and the mapping covers
all entries.  `c.lookup` is the function from hashes to bucket ids that a well-formed catalogue stands for;
the operations of the catalogue are specified against its entries.
-/

namespace DiskHash.Catalogue

variable {c : Catalogue} {E : Fault → Catalogue → Prop}

/-! ### Entries -/

/-- The catalogue with other entries. -/
def setBuffer (c : Catalogue) (f : ℕ → ℕ) : Catalogue :=
  { c with layout := { c.layout with buffer := f } }

@[simp] theorem setBuffer_mapped (f : ℕ → ℕ) (i : ℕ) : (c.setBuffer f).Mapped i ↔ c.Mapped i := Iff.rfl

@[simp] theorem setBuffer_buffer (f : ℕ → ℕ) : (c.setBuffer f).layout.buffer = f := rfl

@[simp] theorem setBuffer_prefixBits (f : ℕ → ℕ) :
    (c.setBuffer f).layout.prefixBits = c.layout.prefixBits := rfl

theorem runs_entry {i : ℕ} {Q : ℕ → Catalogue → Prop} (hm : c.Mapped i) :
    Prog.Runs (entry i) c Q E ↔ Q (c.layout.buffer i) c := by
  simp [entry, hm]

theorem runs_setEntry {i v : ℕ} {Q : Unit → Catalogue → Prop} (hm : c.Mapped i) :
    Prog.Runs (setEntry i v) c Q E ↔ Q () (c.setBuffer (Function.update c.layout.buffer i v)) := by
  simp [setEntry, hm, setBuffer]

theorem fillEntries_runs (v : ℕ) :
    ∀ (n put : ℕ) (c : Catalogue), (∀ i, put ≤ i → i < put + n → c.Mapped i) →
      Prog.Runs (fillEntries v n put) c
        (fun _ c' => ∃ f, c' = c.setBuffer f ∧
          ∀ i, f i = if put ≤ i ∧ i < put + n then v else c.layout.buffer i) E
  | 0, put, c, _ => ⟨c.layout.buffer, rfl, fun i => by rw [if_neg (by omega)]⟩
  | n + 1, put, c, hm => by
    rw [fillEntries, Prog.runs_bind, runs_setEntry (hm put le_rfl (by omega))]
    refine (fillEntries_runs v n (put + 1) (c.setBuffer (Function.update c.layout.buffer put v))
      (fun i h1 h2 => hm i (by omega) (by omega))).mono ?_ (fun _ _ he => he)
    rintro _ c' ⟨f, rfl, hf⟩
    refine ⟨f, rfl, fun i => ?_⟩
    rw [hf, setBuffer_buffer]
    by_cases hi : i = put
    · subst hi
      rw [if_neg (by omega), if_pos (by omega), Function.update_self]
    · rw [Function.update_of_ne hi]
      by_cases h1 : put + 1 ≤ i ∧ i < put + 1 + n
      · rw [if_pos h1, if_pos (by omega)]
      · rw [if_neg h1, if_neg (by omega)]

/-- The entries are copied from the back, so each is read before it is overwritten. -/
theorem doubleEntries_runs :
    ∀ (n : ℕ) (c : Catalogue), (∀ i < 2 * n, c.Mapped i) →
      Prog.Runs (doubleEntries n (n - 1) (2 * n - 1)) c
        (fun _ c' => ∃ f, c' = c.setBuffer f ∧
          ∀ i, f i = if i < 2 * n then c.layout.buffer (i / 2) else c.layout.buffer i) E
  | 0, c, _ => ⟨c.layout.buffer, rfl, fun i => by simp⟩
  | n + 1, c, hm => by
    have hget : n + 1 - 1 = n := rfl
    have hput : 2 * (n + 1) - 1 = 2 * n + 1 := by omega
    have hput' : 2 * n + 1 - 2 = 2 * n - 1 := by omega
    rw [doubleEntries, hget, hput]
    simp only [Prog.runs_bind]
    rw [runs_entry (hm n (by omega)), runs_setEntry (hm _ (by omega)), runs_entry (by
        simpa using hm n (by omega)), runs_setEntry (by simpa using hm (2 * n) (by omega)), hput']
    refine (doubleEntries_runs n _ (by intro i hi; exact hm i (by omega))).mono ?_ (fun _ _ he => he)
    rintro _ c' ⟨f, rfl, hf⟩
    refine ⟨f, rfl, fun i => ?_⟩
    simp only [setBuffer_buffer, Nat.add_sub_cancel] at hf
    rw [hf]
    by_cases hi : i < 2 * n
    · rw [if_pos hi, if_pos (by omega), Function.update_of_ne (by omega), Function.update_of_ne (by omega)]
    · rw [if_neg hi]
      by_cases h0 : i = 2 * n
      · subst h0
        rw [if_pos (by omega), Function.update_self, Function.update_of_ne (by omega)]
        congr 1
        omega
      · rw [Function.update_of_ne h0]
        by_cases h1 : i = 2 * n + 1
        · subst h1
          rw [if_pos (by omega), Function.update_self]
          congr 1
          omega
        · rw [if_neg (by omega), Function.update_of_ne h1]

/-! ### Well-formed catalogues -/

structure WellFormed (c : Catalogue) : Prop where
  signature : c.layout.signature = Catalogue.signature
  pos : 1 ≤ c.layout.prefixBits
  le : c.layout.prefixBits ≤ hashBits
  shift : c.layout.prefixShift = hashBits - c.layout.prefixBits
  mask : ∀ i < hashBits, c.layout.prefixMask.getLsbD i = decide (hashBits - c.layout.prefixBits ≤ i)
  bufferSize : c.layout.bufferSize = 2 ^ c.layout.prefixBits
  covers : headerBytes + 2 ^ c.layout.prefixBits * entryBytes ≤ c.fileMap.length

/-- The function from hashes to bucket ids that the catalogue stands for. -/
def lookup (c : Catalogue) (hash : Hash) : ℕ := c.layout.buffer (topBits c.layout.prefixBits hash)

namespace WellFormed

theorem le32 (h : c.WellFormed) : c.layout.prefixBits ≤ 32 := h.le

theorem mapped (h : c.WellFormed) {i : ℕ} (hi : i < 2 ^ c.layout.prefixBits) : c.Mapped i := by
  have := Nat.mul_le_mul_right entryBytes (show i + 1 ≤ 2 ^ c.layout.prefixBits by omega)
  have := h.covers
  unfold Mapped
  omega

/-- The header fields do not depend on the entries. -/
theorem setBuffer (h : c.WellFormed) (f : ℕ → ℕ) : (c.setBuffer f).WellFormed :=
  ⟨h.signature, h.pos, h.le, h.shift, h.mask, h.bufferSize, h.covers⟩

theorem index_eq (h : c.WellFormed) (hash : Hash) :
    c.index hash = .ok (topBits c.layout.prefixBits hash) := by
  have hpos := h.pos
  have hle := h.le
  unfold index
  rw [h.shift, if_pos (by unfold hashBits at *; omega)]
  congr 1
  exact mask_shift h.mask

theorem runs_find (h : c.WellFormed) (hash : Hash) {Q : ℕ → Catalogue → Prop} :
    Prog.Runs (find hash) c Q E ↔ Q (c.lookup hash) c := by
  unfold find
  rw [Prog.runs_bind, Prog.runs_get, h.index_eq, Prog.runs_bind, Prog.runs_lift_ok,
    runs_entry (h.mapped (topBits_lt h.le32))]
  rfl

theorem runs_assign (h : c.WellFormed) (hash : Hash) (v : ℕ) {Q : Unit → Catalogue → Prop} :
    Prog.Runs (assign hash v) c Q E ↔
      Q () (c.setBuffer (Function.update c.layout.buffer (topBits c.layout.prefixBits hash) v)) := by
  unfold assign
  rw [Prog.runs_bind, Prog.runs_get, h.index_eq, Prog.runs_bind, Prog.runs_lift_ok,
    runs_setEntry (h.mapped (topBits_lt h.le32))]

end WellFormed

/-! ### The operations -/

/-- `clearLow` keeps the leading bits. -/
theorem getLsbD_clearLow (hash : Hash) (p : ℕ) {i : ℕ} (hi : i < 32) :
    (clearLow hash p).getLsbD i = (hash.getLsbD i && decide (hashBits - p ≤ i)) := by
  unfold clearLow
  rw [BitVec.getLsbD_setWidth, BitVec.getLsbD_and, BitVec.getLsbD_setWidth, BitVec.getLsbD_not,
    getLsbD_lowBits (by unfold hashBits; omega)]
  have h1 : i < 64 := by omega
  by_cases h2 : i < hashBits - p
  · have h3 : ¬ hashBits - p ≤ i := by omega
    simp [hi, h1, h2, h3]
  · have h3 : hashBits - p ≤ i := by omega
    simp [hi, h1, h2, h3]

/-- `set` rewrites the block of entries that share the `p` leading bits of the hash. -/
theorem set_runs (h : c.WellFormed) (hash : Hash) {p : ℕ} (hp : p ≤ c.layout.prefixBits) (v : ℕ) :
    Prog.Runs (set hash p v) c
      (fun _ c' => ∃ f, c' = c.setBuffer f ∧ ∀ i, f i =
        if i / 2 ^ (c.layout.prefixBits - p) = topBits p hash then v else c.layout.buffer i) E := by
  have hle := h.le
  have hclear : topBits c.layout.prefixBits (clearLow hash p)
      = topBits p hash * 2 ^ (c.layout.prefixBits - p) :=
    topBits_clear (w := 32) hp hle (fun i hi => getLsbD_clearLow hash p hi)
  unfold set
  simp only [Prog.runs_bind, Prog.runs_get, Prog.runs_check]
  refine ⟨fun _ => ?_, fun hn => absurd (hp.trans hle) hn⟩
  rw [h.index_eq, Prog.runs_lift_ok, hclear]
  refine ⟨fun _ => ?_, fun hn => absurd hp hn⟩
  refine (fillEntries_runs v _ _ c (fun i h1 h2 => h.mapped ?_)).mono ?_ (fun _ _ he => he)
  · have hlt := topBits_lt (p := p) (h := hash) (hp.trans h.le32)
    have hmul := Nat.mul_le_mul_right (2 ^ (c.layout.prefixBits - p))
      (show topBits p hash + 1 ≤ 2 ^ p by omega)
    rw [← pow_add, Nat.add_sub_cancel' hp, Nat.add_mul, Nat.one_mul] at hmul
    omega
  · rintro _ c' ⟨f, rfl, hf⟩
    refine ⟨f, rfl, fun i => ?_⟩
    rw [hf]
    by_cases hi : i / 2 ^ (c.layout.prefixBits - p) = topBits p hash
    · rw [if_pos hi, if_pos ((div_eq_iff_block (Nat.two_pow_pos _)).mp hi)]
    · rw [if_neg hi, if_neg (fun hb => hi ((div_eq_iff_block (Nat.two_pow_pos _)).mpr hb))]

/-- `set` changes the catalogue's function on the hashes with the same `p` leading bits. -/
theorem lookup_set {f : ℕ → ℕ} {hash : Hash} {p v : ℕ} (h : c.WellFormed) (hp : p ≤ c.layout.prefixBits)
    (hf : ∀ i, f i = if i / 2 ^ (c.layout.prefixBits - p) = topBits p hash then v else c.layout.buffer i)
    (k : Hash) :
    (c.setBuffer f).lookup k = if topBits p k = topBits p hash then v else c.lookup k := by
  show f (topBits c.layout.prefixBits k) = _
  rw [hf, topBits_div hp h.le32]
  rfl

/-- The mapping ends with the last entry. -/
def Exact (c : Catalogue) : Prop := c.fileMap.length = headerBytes + c.layout.bufferSize * entryBytes

/-- Then the entries that can be accessed are those below `buffer_size`. -/
theorem Exact.mapped_iff (h : c.Exact) (i : ℕ) : c.Mapped i ↔ i < c.layout.bufferSize := by
  have hlen : c.fileMap.length = headerBytes + c.layout.bufferSize * entryBytes := h
  unfold Mapped
  rw [hlen, Nat.add_le_add_iff_left]
  exact Nat.mul_le_mul_right_iff (by decide)

/-- The header that `split` writes before the file grows. -/
def deepened (c : Catalogue) : Catalogue :=
  { c with layout :=
    { c.layout with
      prefixBits := c.layout.prefixBits + 1
      prefixShift := c.layout.prefixShift - 1
      prefixMask := c.layout.prefixMask ||| 1#32 <<< (c.layout.prefixShift - 1)
      bufferSize := c.layout.bufferSize * 2 } }

theorem WellFormed.deepened_shift (h : c.WellFormed) :
    c.deepened.layout.prefixShift = hashBits - (c.layout.prefixBits + 1) := by
  show c.layout.prefixShift - 1 = _
  rw [h.shift]
  omega

theorem WellFormed.deepened_mask (h : c.WellFormed) (hlt : c.layout.prefixBits < hashBits) {i : ℕ}
    (hi : i < hashBits) :
    c.deepened.layout.prefixMask.getLsbD i = decide (hashBits - (c.layout.prefixBits + 1) ≤ i) := by
  have hbit : hashBits - c.layout.prefixBits - 1 < hashBits := by omega
  show (c.layout.prefixMask ||| 1#32 <<< (c.layout.prefixShift - 1)).getLsbD i = _
  rw [h.shift, getLsbD_or_bit (w := 32) hbit, h.mask i hi, ← Bool.decide_or]
  congr 1
  simp only [eq_iff_iff]
  omega

/-- How `split` ends without doubling the catalogue. -/
def SplitRefused (kernel : Kernel) (c : Catalogue) (e : Fault) : Prop :=
  (e = .systemError ∧ ¬ kernel.Grants) ∨ (e = .badShift ∧ c.layout.prefixBits = hashBits)

theorem resize_runs (kernel : Kernel) (n : ℕ) (c : Catalogue) :
    Prog.Runs (resize kernel n) c (fun _ c' => c'.layout = c.layout ∧ c'.fileMap.length = n)
      (fun e c' => e = .systemError ∧ ¬ kernel.Grants ∧ c'.layout = c.layout ∧
        c'.fileMap.length = c.fileMap.length) := by
  unfold resize
  rw [Prog.runs_zoom]
  exact (FileMap.resize_runs kernel n c.fileMap).mono (fun _ fm hfm => ⟨rfl, hfm⟩)
    (fun e fm he => ⟨he.1, he.2.2.2, rfl, he.2.2.1⟩)

/-- The layout has its first entry in it, so a mapping made for all entries ends with the last one. -/
theorem exact_of_length (hpos : 1 ≤ c.layout.bufferSize)
    (hlen : c.fileMap.length = layoutBytes + (c.layout.bufferSize - 1) * entryBytes) : c.Exact := by
  unfold Exact
  rw [hlen]
  simp only [layoutBytes, entryBytes]
  omega

theorem Exact.covers (h : c.Exact) {p : ℕ} (hsize : c.layout.bufferSize = 2 ^ p) :
    headerBytes + 2 ^ p * entryBytes ≤ c.fileMap.length := by
  rw [← hsize]
  exact h.ge

/-- The deepened header is well formed once the file is long enough for it. -/
theorem WellFormed.lengthened (h : c.WellFormed) (hlt : c.layout.prefixBits < hashBits) {c' : Catalogue}
    (hlay : c'.layout = c.deepened.layout) (hexact : c'.Exact) : c'.WellFormed := by
  have hbits : c'.layout.prefixBits = c.layout.prefixBits + 1 := by
    rw [hlay]
    rfl
  have hsize : c'.layout.bufferSize = 2 ^ c'.layout.prefixBits := by
    rw [hbits, pow_succ, ← h.bufferSize, hlay]
    rfl
  refine ⟨?_, ?_, ?_, ?_, fun i hi => ?_, hsize, hexact.covers hsize⟩
  · rw [hlay]
    exact h.signature
  · omega
  · omega
  · rw [hbits, ← h.deepened_shift, hlay]
  · rw [hbits, ← h.deepened_mask hlt hi, hlay]

/-- The catalogue after doubling. -/
structure Doubled (c c' : Catalogue) : Prop where
  wellFormed : c'.WellFormed
  prefixBits : c'.layout.prefixBits = c.layout.prefixBits + 1
  buffer : ∀ i < 2 ^ c'.layout.prefixBits, c'.layout.buffer i = c.layout.buffer (i / 2)
  exact : c'.Exact

/-- `split` writes the header and then makes the file longer. -/
theorem runs_split (kernel : Kernel) (hne : c.layout.prefixShift ≠ 0) (hlt : c.layout.prefixShift - 1 < hashBits)
    {Q : Unit → Catalogue → Prop} :
    Prog.Runs (split kernel) c Q E ↔
      Prog.Runs (resize kernel (layoutBytes + (c.layout.bufferSize * 2 - 1) * entryBytes)) c.deepened
        (fun _ c' => Prog.Runs (doubleEntries c.layout.bufferSize (c.layout.bufferSize - 1)
          (c.layout.bufferSize * 2 - 1)) c' Q E) E := by
  unfold split
  simp only [Prog.runs_bind, Prog.runs_get, Prog.runs_modify, Prog.runs_check, oneShl, if_pos hlt, Prog.runs_lift_ok]
  exact ⟨fun h => h.1 hne, fun h => ⟨fun _ => h, fun hn => absurd hne hn⟩⟩

/-- `split` doubles the catalogue. -/
theorem split_runs (h : c.WellFormed) (kernel : Kernel) :
    Prog.Runs (split kernel) c (fun _ c' => Doubled c c') (fun e _ => SplitRefused kernel c e) := by
  have hpos := h.pos
  have hle := h.le
  by_cases hz : c.layout.prefixBits = hashBits
  · unfold split
    simp only [Prog.runs_bind, Prog.runs_get, Prog.runs_modify, Prog.runs_check]
    exact ⟨fun hne => absurd (by rw [h.shift]; omega) hne, fun _ => Or.inr ⟨rfl, hz⟩⟩
  · have hlt : c.layout.prefixBits < hashBits := by omega
    rw [runs_split kernel (by rw [h.shift]; omega) (by rw [h.shift]; omega)]
    refine (resize_runs kernel _ _).mono ?_ (fun e _ he => Or.inl ⟨he.1, he.2.1⟩)
    rintro _ c' ⟨hlay, hlen⟩
    have hbits : c'.layout.prefixBits = c.layout.prefixBits + 1 := by
      rw [hlay]
      rfl
    have hsize : c'.layout.bufferSize = c.layout.bufferSize * 2 := by
      rw [hlay]
      rfl
    have hexact : c'.Exact := by
      refine exact_of_length ?_ (by rw [hlen, hsize])
      rw [hsize, h.bufferSize]
      exact Nat.mul_pos (Nat.two_pow_pos _) Nat.two_pos
    have hwf := h.lengthened hlt hlay hexact
    have hpow : 2 * 2 ^ c.layout.prefixBits = 2 ^ c'.layout.prefixBits := by rw [hbits, pow_succ']
    rw [Nat.mul_comm, h.bufferSize]
    refine (doubleEntries_runs _ c' (fun i hi => hwf.mapped (hpow ▸ hi))).mono ?_ (fun _ _ he => he)
    rintro _ c'' ⟨f, rfl, hf⟩
    refine ⟨hwf.setBuffer f, hbits, fun i hi => ?_, hexact⟩
    rw [setBuffer_prefixBits, ← hpow] at hi
    rw [setBuffer_buffer, hf, if_pos hi, hlay]
    rfl

/-- Doubling does not change the catalogue's function. -/
theorem Doubled.lookup {c' : Catalogue} (h : Doubled c c') (k : Hash) : c'.lookup k = c.lookup k := by
  have hle := h.wellFormed.le32
  have hlt : topBits c'.layout.prefixBits k < 2 ^ c'.layout.prefixBits := topBits_lt hle
  unfold Catalogue.lookup
  rw [h.buffer _ hlt]
  rw [h.prefixBits] at hle ⊢
  rw [topBits_succ_div hle]

/-! ### A new catalogue -/

theorem getLsbD_ones {p i : ℕ} (hp : p < hashBits) (hi : i < hashBits) :
    ((1#32 <<< p - 1#32) <<< (hashBits - p)).getLsbD i = decide (hashBits - p ≤ i) := by
  rw [BitVec.getLsbD_shiftLeft, getLsbD_lowBits (w := 32) hp]
  unfold hashBits at *
  by_cases h : 32 - p ≤ i
  · have h1 : ¬ i < 32 - p := by omega
    have h2 : i - (32 - p) < p := by omega
    simp [h, h1, h2, hi]
  · have h1 : i < 32 - p := by omega
    simp [h, h1]

/-- A new file is laid out as a well-formed catalogue whose entries are all invalid. -/
theorem init_runs (kernel : Kernel) {p : ℕ} (hp : 1 ≤ p) (hp' : p < hashBits) (c : Catalogue) :
    Prog.Runs (init kernel p) c
      (fun _ c' => c'.WellFormed ∧ c'.layout.prefixBits = p ∧ c'.Exact ∧
        ∀ i < 2 ^ p, c'.layout.buffer i = invalidBlockId)
      (fun e _ => e = .systemError ∧ ¬ kernel.Grants) := by
  unfold init
  rw [Prog.runs_bind]
  refine (resize_runs kernel _ c).mono ?_ (fun e _ he => ⟨he.1, he.2.1⟩)
  rintro _ c' ⟨-, hlen⟩
  have hpp := Nat.two_pow_pos p
  have hend : c'.fileMap.length = headerBytes + 2 ^ p * entryBytes := by
    rw [hlen]
    simp only [layoutBytes, entryBytes]
    omega
  simp only [Prog.runs_bind, Prog.runs_modify]
  rw [oneShl, if_pos hp', Prog.runs_lift_ok]
  refine (fillEntries_runs invalidBlockId (2 ^ p) 0 _ (fun i _ hi => ?_)).mono ?_ (fun _ _ he => he)
  · show headerBytes + (i + 1) * entryBytes ≤ c'.fileMap.length
    simp only [entryBytes] at *
    omega
  · rintro _ c'' ⟨f, rfl, hf⟩
    refine ⟨⟨rfl, hp, hp'.le, rfl, fun i hi => getLsbD_ones hp' hi, rfl, hend.ge⟩, rfl, hend, fun i hi => ?_⟩
    rw [setBuffer_buffer, hf, if_pos (by omega)]

theorem new_ok {kernel : Kernel} {p : ℕ} (hp : 1 ≤ p) (hp' : p < hashBits) {readOnly : Bool}
    (h : new kernel p readOnly emptyFile = .ok c) :
    c.WellFormed ∧ c.layout.prefixBits = p ∧ c.Exact ∧ ∀ i < 2 ^ p, c.layout.buffer i = invalidBlockId := by
  obtain ⟨fm, -, h⟩ := Prog.except_bind_ok.mp h
  have hrun := init_runs kernel hp hp' ⟨fm, emptyFile.layout⟩
  rw [if_pos (show emptyFile.layout.signature = 0 from rfl)] at h
  cases hinit : init kernel p ⟨fm, emptyFile.layout⟩ with
  | error e c' =>
    rw [hinit] at h
    cases h
  | ok a c' =>
    rw [hinit] at h
    exact Except.ok.inj h ▸ hrun.of_ok hinit

theorem new_returns {kernel : Kernel} (g : kernel.Grants) {p : ℕ} (hp : 1 ≤ p) (hp' : p < hashBits)
    (readOnly : Bool) : ∃ c, new kernel p readOnly emptyFile = .ok c := by
  obtain ⟨fm, hfm⟩ := FileMap.new_returns g readOnly emptyFile.size layoutBytes
  have hrun := init_runs kernel hp hp' ⟨fm, emptyFile.layout⟩
  obtain ⟨a, c, hc, -⟩ := hrun.returns (fun e _ he => he.2 g)
  refine ⟨c, Prog.except_bind_ok.mpr ⟨fm, hfm, ?_⟩⟩
  rw [if_pos (show emptyFile.layout.signature = 0 from rfl), hc]
  rfl

end DiskHash.Catalogue
