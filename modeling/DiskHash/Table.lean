import DiskHash.Directory
import DiskHash.Lib.Machine

/-!
# DiskHash.Table — what a catalogue is for

A catalogue stands for a function from hashes to bucket ids that can be changed on all hashes with the same
leading bits; its depth is how many of them it tells apart.  `table` says what the operations do to the
function, and every sequence of operations on a catalogue does just this.  A `split` that the system stops
does not: its header is written before the file grows.
-/

namespace DiskHash.Catalogue

variable {c c' : Catalogue} {kernel : Kernel}

/-! ### The function of a catalogue -/

/-- A function from hashes to bucket ids, and how many leading bits of a hash it may depend on. -/
structure Table where
  depth : ℕ
  value : Hash → ℕ

/-- The hashes that agree with `hash` on the `p` leading bits go to `v`. -/
def Table.set (t : Table) (hash : Hash) (p v : ℕ) : Table :=
  { t with value := fun k => if topBits p k = topBits p hash then v else t.value k }

/-- The operations of a catalogue. -/
inductive Call
  | find (hash : Hash)
  | assign (hash : Hash) (value : ℕ)
  | set (hash : Hash) (offset value : ℕ)
  | split (kernel : Kernel)

/-- What the operations do to the function. -/
def table (t : Table) : Call → Option ℕ × Table
  | .find hash => (some (t.value hash), t)
  | .assign hash v => (none, t.set hash t.depth v)
  | .set hash p v => (none, t.set hash p v)
  | .split _ => (none, { t with depth := t.depth + 1 })

def perform : Call → Prog Fault Catalogue (Option ℕ)
  | .find hash => do return some (← find hash)
  | .assign hash v => do assign hash v; return none
  | .set hash p v => do set hash p v; return none
  | .split kernel => do split kernel; return none

/-- `set` is called with a depth of the catalogue, and a catalogue of full depth is not split. -/
def Allowed (c : Catalogue) : Call → Prop
  | .set _ p _ => 1 ≤ p ∧ p ≤ c.layout.prefixBits
  | .split _ => c.layout.prefixBits < hashBits
  | _ => True

def Call.Granted : Call → Prop
  | .split kernel => kernel.Grants
  | _ => True

def Step (c : Catalogue) (call : Call) (answer : Option ℕ) (c' : Catalogue) : Prop :=
  c.Allowed call ∧ perform call c = .ok answer c'

/-- The catalogue stands for the function. -/
structure Stands (c : Catalogue) (t : Table) : Prop where
  wellFormed : c.WellFormed
  exact : c.Exact
  depth : c.layout.prefixBits = t.depth
  lookup : ∀ k, c.lookup k = t.value k

theorem Stands.find_eq {t : Table} (h : c.Stands t) (k : Hash) : find k c = .ok (t.value k) c := by
  refine Prog.Runs.eq_ok ((h.wellFormed.runs_find k).mpr ⟨?_, rfl⟩)
  exact h.lookup k

theorem Stands.set_runs {t : Table} (h : c.Stands t) (hash : Hash) {p : ℕ} (hp : p ≤ c.layout.prefixBits) (v : ℕ)
    {E : Fault → Catalogue → Prop} :
    Prog.Runs (set hash p v) c (fun _ c' => c'.Stands (t.set hash p v) ∧ c'.layout.prefixBits = c.layout.prefixBits)
      E := by
  refine (Catalogue.set_runs h.wellFormed hash hp v).mono ?_ (fun _ _ he => he)
  rintro _ c' ⟨f, rfl, hf⟩
  refine ⟨⟨h.wellFormed.setBuffer f, h.exact, h.depth, fun k => ?_⟩, rfl⟩
  rw [lookup_set h.wellFormed hp hf, h.lookup]
  rfl

theorem Stands.split_runs {t : Table} (h : c.Stands t) (hlt : c.layout.prefixBits < hashBits) (kernel : Kernel) :
    Prog.Runs (split kernel) c
      (fun _ c' => c'.Stands { t with depth := t.depth + 1 } ∧ c'.layout.prefixBits = c.layout.prefixBits + 1)
      (fun e _ => e = .systemError ∧ ¬ kernel.Grants) := by
  refine (Catalogue.split_runs h.wellFormed kernel).mono ?_ ?_
  · intro _ c' hd
    refine ⟨⟨hd.wellFormed, hd.exact, ?_, fun k => ?_⟩, hd.prefixBits⟩
    · rw [hd.prefixBits, h.depth]
    · rw [hd.lookup, h.lookup]
  · rintro e c' (he | ⟨-, hfull⟩)
    · exact he
    · omega

/-- One operation. -/
theorem Stands.perform_runs {t : Table} (h : c.Stands t) {call : Call} (hc : c.Allowed call) :
    Prog.Runs (perform call) c (fun answer c' => answer = (table t call).1 ∧ c'.Stands (table t call).2)
      (fun e _ => e = .systemError ∧ ¬ call.Granted) := by
  cases call with
  | find hash =>
    unfold perform
    rw [Prog.runs_bind, h.wellFormed.runs_find, Prog.runs_pure, h.lookup]
    exact ⟨rfl, h⟩
  | assign hash v =>
    unfold perform
    rw [Prog.runs_bind, h.wellFormed.runs_assign, Prog.runs_pure]
    refine ⟨rfl, h.wellFormed.setBuffer _, h.exact, h.depth, fun k => ?_⟩
    show Function.update c.layout.buffer _ v (topBits c.layout.prefixBits k)
      = if topBits t.depth k = topBits t.depth hash then v else t.value k
    rw [← h.depth, ← h.lookup, Function.update_apply]
    rfl
  | set hash p v =>
    unfold perform
    rw [Prog.runs_bind]
    exact (h.set_runs hash hc.2 v).mono (fun _ _ hs => ⟨rfl, hs.1⟩) (fun _ _ he => he)
  | split kernel =>
    unfold perform
    rw [Prog.runs_bind]
    exact (h.split_runs hc kernel).mono (fun _ _ hs => ⟨rfl, hs.1⟩) (fun _ _ he => he)

theorem Stands.step {t : Table} (h : c.Stands t) {call : Call} {answer : Option ℕ} (hs : Step c call answer c') :
    answer = (table t call).1 ∧ c'.Stands (table t call).2 := (h.perform_runs hs.1).of_ok hs.2

theorem Stands.step_returns {t : Table} (h : c.Stands t) (call : Call) (hc : c.Allowed call) (hg : call.Granted) :
    ∃ answer c', Step c call answer c' := by
  obtain ⟨answer, c', hrun, -⟩ := (h.perform_runs hc).returns (fun _ _ he => he.2 hg)
  exact ⟨answer, c', hc, hrun⟩

/-- `set` and `split` in either order give the same function. -/
theorem Stands.set_split {t : Table} (h : c.Stands t) (hash : Hash) {p : ℕ} (hp : p ≤ c.layout.prefixBits) (v : ℕ)
    (hlt : c.layout.prefixBits < hashBits) (g : kernel.Grants) :
    ∃ c₁ c₂, (do set hash p v; split kernel) c = .ok () c₁ ∧ (do split kernel; set hash p v) c = .ok () c₂ ∧
      ∀ k, ∃ b, find k c₁ = .ok b c₁ ∧ find k c₂ = .ok b c₂ := by
  have h₁ : Prog.Runs (do set hash p v; split kernel) c
      (fun _ c' => c'.Stands { t.set hash p v with depth := t.depth + 1 }) (fun _ _ => False) := by
    rw [Prog.runs_bind]
    refine (h.set_runs hash hp v).mono (fun _ c' hs => ?_) (fun _ _ he => he)
    exact (hs.1.split_runs (by omega) kernel).mono (fun _ _ hd => hd.1) (fun _ _ he => he.2 g)
  have h₂ : Prog.Runs (do split kernel; set hash p v) c
      (fun _ c' => c'.Stands { t.set hash p v with depth := t.depth + 1 }) (fun _ _ => False) := by
    rw [Prog.runs_bind]
    refine (h.split_runs hlt kernel).mono (fun _ c' hd => ?_) (fun _ _ he => he.2 g)
    exact (hd.1.set_runs hash (by omega) v).mono (fun _ _ hs => hs.1) (fun _ _ he => he)
  obtain ⟨_, c₁, hrun₁, hs₁⟩ := h₁.returns (fun _ _ he => he)
  obtain ⟨_, c₂, hrun₂, hs₂⟩ := h₂.returns (fun _ _ he => he)
  exact ⟨c₁, c₂, hrun₁, hrun₂, fun k => ⟨_, hs₁.find_eq k, hs₂.find_eq k⟩⟩

/-- The function of a new catalogue. -/
def Table.new (depth : ℕ) : Table := ⟨depth, fun _ => invalidBlockId⟩

theorem new_stands {p : ℕ} (hp : 1 ≤ p) (hp' : p < hashBits) {readOnly : Bool}
    (h : new kernel p readOnly emptyFile = .ok c) : c.Stands (Table.new p) := by
  obtain ⟨hwf, hbits, hexact, hentries⟩ := new_ok hp hp' h
  refine ⟨hwf, hexact, hbits, fun k => ?_⟩
  unfold lookup
  rw [hbits]
  exact hentries _ (topBits_lt hp'.le)

/-- In every sequence of operations on a new catalogue the answers are those of the table, and in every state
reached `find` computes the function of the table for every hash; just the entries below `buffer_size` can be
accessed, and no operation tries another, since every operation that is allowed returns; and `set` and `split`
can change places. -/
theorem catalogue_refines_table {p : ℕ} (hp : 1 ≤ p) (hp' : p < hashBits) {readOnly : Bool}
    (hnew : new kernel p readOnly emptyFile = .ok c) {tr : List (Call × Option ℕ)} (hrun : Run Step c tr c') :
    tr.map Prod.snd = (replay table (Table.new p) (tr.map Prod.fst)).1 ∧
    (∀ k, find k c' = .ok ((replay table (Table.new p) (tr.map Prod.fst)).2.value k) c') ∧
    c'.layout.prefixBits = (replay table (Table.new p) (tr.map Prod.fst)).2.depth ∧
    (∀ i, c'.Mapped i ↔ i < c'.layout.bufferSize) ∧
    (∀ call, c'.Allowed call → call.Granted → ∃ answer c'', Step c' call answer c'') ∧
    ∀ hash offset v (kernel : Kernel), c'.Allowed (.set hash offset v) → c'.Allowed (.split kernel) →
      kernel.Grants → ∃ c₁ c₂, (do set hash offset v; split kernel) c' = .ok () c₁ ∧
        (do split kernel; set hash offset v) c' = .ok () c₂ ∧
        ∀ k, ∃ b, find k c₁ = .ok b c₁ ∧ find k c₂ = .ok b c₂ := by
  obtain ⟨hanswers, h⟩ := Run.refines table (R := Stands) (fun _ _ _ _ _ hs hstep => hs.step hstep) hrun
    (new_stands hp hp' hnew)
  refine ⟨hanswers, h.find_eq, h.depth, fun i => h.exact.mapped_iff i, fun call hc hg => h.step_returns call hc hg,
    fun hash offset v kernel hset hsplit g => ?_⟩
  exact h.set_split hash hset.2 v hsplit g

/-- A catalogue of three bits in which a block of four entries is set and that is split. -/
theorem catalogue_refines_table_session : ∃ c c' : Catalogue, ∃ tr : List (Call × Option ℕ),
    new Kernel.willing 3 false emptyFile = .ok c ∧ Run Step c tr c' ∧
    tr.map Prod.fst = [.set 0x80000000 1 7, .split Kernel.willing] ∧ find 0xc0000000 c' = .ok 7 c' := by
  obtain ⟨c, hnew⟩ := new_returns Kernel.willing_grants (p := 3) (by decide) (by decide) false
  have h := new_stands (by decide) (by decide) hnew
  obtain ⟨a₁, c₁, hs₁⟩ := h.step_returns (.set 0x80000000 1 7) (by
    refine ⟨le_rfl, ?_⟩
    rw [h.depth]
    decide) trivial
  have h₁ := (h.step hs₁).2
  obtain ⟨a₂, c₂, hs₂⟩ := h₁.step_returns (.split Kernel.willing) (by
    show c₁.layout.prefixBits < hashBits
    rw [h₁.depth]
    decide) Kernel.willing_grants
  have hrun := Run.cons hs₁ (.single hs₂)
  exact ⟨c, c₂, _, hnew, hrun, rfl, (catalogue_refines_table (by decide) (by decide) hnew hrun).2.1 _⟩

/-! ### A doubling that fails -/

/-- What a doubling that fails should leave: the header and the entries as they were, so that `find` selects the
same entry for every hash. -/
structure Kept (c c' : Catalogue) : Prop where
  prefixBits : c'.layout.prefixBits = c.layout.prefixBits
  prefixShift : c'.layout.prefixShift = c.layout.prefixShift
  prefixMask : c'.layout.prefixMask = c.layout.prefixMask
  bufferSize : c'.layout.bufferSize = c.layout.bufferSize
  buffer : c'.layout.buffer = c.layout.buffer
  find : ∀ k, find k c' = .ok (c.lookup k) c'

/-- Copying the entries throws no `system_error`. -/
theorem doubleEntries_faults : ∀ (n get put : ℕ) (c : Catalogue),
    Prog.Runs (doubleEntries n get put) c (fun _ _ => True) (fun e _ => e = .outOfBounds)
  | 0, _, _, _ => trivial
  | n + 1, get, put, c => by
    unfold doubleEntries entry setEntry
    simp only [Prog.runs_bind, Prog.runs_get, Prog.runs_check, Prog.runs_pure, Prog.runs_modify]
    refine ⟨fun _ => ⟨fun _ => ⟨fun _ => ⟨fun _ => ?_, fun _ => trivial⟩, fun _ => trivial⟩, fun _ => trivial⟩,
      fun _ => trivial⟩
    exact doubleEntries_faults n (get - 1) (put - 2) _

theorem split_refused (hs : split kernel c = .error .systemError c') :
    c'.layout = c.deepened.layout ∧ c'.fileMap.start = c.fileMap.start ∧
      c'.fileMap.length = c.fileMap.length := by
  by_cases hz : c.layout.prefixShift = 0
  · have hruns : Prog.Runs (split kernel) c (fun _ _ => True) (fun e _ => e = .badShift) := by
      unfold split
      simp only [Prog.runs_bind, Prog.runs_get, Prog.runs_modify, Prog.runs_check]
      exact ⟨fun hne => absurd hz hne, fun _ => trivial⟩
    cases hruns.of_error hs
  · by_cases hlt : c.layout.prefixShift - 1 < hashBits
    · have hruns : Prog.Runs (split kernel) c (fun _ _ => True) (fun e c' => e = .systemError →
          c'.layout = c.deepened.layout ∧ c'.fileMap.start = c.fileMap.start ∧
            c'.fileMap.length = c.fileMap.length) := by
        rw [runs_split kernel hz hlt]
        unfold resize
        rw [Prog.runs_zoom]
        refine (FileMap.resize_runs kernel _ _).mono (fun _ fm _ => ?_) (fun e fm he _ => ⟨rfl, he.2.1, he.2.2.1⟩)
        exact (doubleEntries_faults _ _ _ _).mono (fun _ _ _ => trivial)
          (fun e _ he he' => by rw [he] at he'; cases he')
      exact hruns.of_error hs rfl
    · have hruns : Prog.Runs (split kernel) c (fun _ _ => True) (fun e _ => e = .badShift) := by
        unfold split
        simp only [Prog.runs_bind, Prog.runs_get, Prog.runs_modify, Prog.runs_check, oneShl, if_neg hlt]
        exact ⟨fun _ => rfl, fun _ => trivial⟩
      cases hruns.of_error hs

/-- The header of the greater catalogue over the old mapping: the greatest hash selects an entry past its end. -/
theorem WellFormed.find_faults (h : c.WellFormed) (hexact : c.Exact) (hlt : c.layout.prefixBits < hashBits)
    (hlay : c'.layout = c.deepened.layout) (hlen : c'.fileMap.length = c.fileMap.length) :
    find (~~~0) c' = .error .outOfBounds c' := by
  have hpos := h.pos
  have hindex : c'.index (~~~0) = .ok (topBits (c.layout.prefixBits + 1) (~~~0 : Hash)) := by
    unfold index
    rw [hlay, h.deepened_shift, if_pos (by omega)]
    congr 1
    exact mask_shift (fun i hi => h.deepened_mask hlt hi)
  have hge : 2 ^ c.layout.prefixBits ≤ topBits (c.layout.prefixBits + 1) (~~~0 : Hash) := by
    unfold topBits
    rw [Nat.le_div_iff_mul_le (Nat.two_pow_pos _), ← pow_add]
    refine (Nat.pow_le_pow_right (by decide) (?_ : _ ≤ 31)).trans (by decide)
    unfold hashBits at hlt
    omega
  have hfar : ¬ c'.Mapped (topBits (c.layout.prefixBits + 1) (~~~0 : Hash)) := by
    intro hm
    unfold Mapped at hm
    rw [hlen] at hm
    have hin := (hexact.mapped_iff _).mp hm
    rw [h.bufferSize] at hin
    omega
  refine Prog.Runs.eq_error ?_
  unfold find entry
  rw [Prog.runs_bind, Prog.runs_get, hindex, Prog.runs_bind, Prog.runs_lift_ok]
  simp only [Prog.runs_bind, Prog.runs_get, Prog.runs_check]
  exact ⟨fun hm => absurd hm hfar, fun _ => ⟨trivial, trivial⟩⟩

/-- After a doubling that fails `prefix_bits` is one more than before, whatever the catalogue was; and where its
header was right the greatest hash selects an entry that is not mapped. -/
theorem failed_split_deepens (hs : split kernel c = .error .systemError c') :
    (c'.layout = c.deepened.layout ∧ c'.fileMap.length = c.fileMap.length) ∧ ¬ Kept c c' ∧
    (c.WellFormed → c.Exact → c.layout.prefixBits < hashBits → find (~~~0) c' = .error .outOfBounds c') := by
  obtain ⟨hlay, -, hlen⟩ := split_refused hs
  refine ⟨⟨hlay, hlen⟩, fun hk => ?_, fun h hexact hlt => h.find_faults hexact hlt hlay hlen⟩
  have hbits : c'.layout.prefixBits = c.layout.prefixBits + 1 := by
    rw [hlay]
    rfl
  have hsame := hk.prefixBits
  omega

/-- A new catalogue whose doubling fails. -/
theorem exists_failed_split : ∃ c c' : Catalogue, new Kernel.willing 1 false emptyFile = .ok c ∧
    split Kernel.stubborn c = .error .systemError c' := by
  obtain ⟨c, hnew⟩ := new_returns Kernel.willing_grants (p := 1) (by decide) (by decide) false
  obtain ⟨h, hbits, hexact, -⟩ := new_ok (by decide) (by decide) hnew
  have hlen : c.fileMap.length = headerBytes + c.layout.bufferSize * entryBytes := hexact
  have hsize : c.layout.bufferSize = 2 := by
    rw [h.bufferSize, hbits]
    rfl
  have hshift : c.layout.prefixShift = 31 := by
    rw [h.shift, hbits]
    rfl
  have hruns : Prog.Runs (split Kernel.stubborn) c (fun _ _ => False) (fun e _ => e = .systemError) := by
    rw [runs_split Kernel.stubborn (by omega) (by rw [hshift]; decide)]
    unfold resize
    rw [Prog.runs_zoom]
    refine (FileMap.resize_refused ?_).mono (fun _ _ he => he.elim) (fun _ _ he => he)
    show _ ≠ c.fileMap.length
    rw [hlen, hsize]
    decide
  obtain ⟨e, c', hs, rfl⟩ := hruns.throws (fun _ _ he => he)
  exact ⟨c, c', hnew, hs⟩

theorem failed_split_deepens_session : ∃ c c' : Catalogue, new Kernel.willing 1 false emptyFile = .ok c ∧
    split Kernel.stubborn c = .error .systemError c' ∧ ¬ Kept c c' ∧ find (~~~0) c' = .error .outOfBounds c' := by
  obtain ⟨c, c', hnew, hs⟩ := exists_failed_split
  obtain ⟨h, hbits, hexact, -⟩ := new_ok (by decide) (by decide) hnew
  obtain ⟨-, hkept, hfind⟩ := failed_split_deepens hs
  exact ⟨c, c', hnew, hs, hkept, hfind h hexact (by rw [hbits]; decide)⟩

/-- A doubling that fails is not undone. -/
theorem failed_split_not_atomic : ¬ ∀ (c c' : Catalogue) (kernel : Kernel), c.WellFormed →
    c.layout.prefixBits < hashBits → split kernel c = .error .systemError c' → Kept c c' := by
  intro hall
  obtain ⟨c, c', hnew, hs⟩ := exists_failed_split
  obtain ⟨h, hbits, -, -⟩ := new_ok (by decide) (by decide) hnew
  have hsame := (hall c c' _ h (by rw [hbits]; decide) hs).prefixBits
  rw [(split_refused hs).1] at hsame
  have hbits' : c.deepened.layout.prefixBits = c.layout.prefixBits + 1 := rfl
  omega

end DiskHash.Catalogue
