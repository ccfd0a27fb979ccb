import Mathlib.Data.List.Basic
import Mathlib.Data.List.Flatten
import Mathlib.Data.List.Induction
import Mathlib.Algebra.BigOperators.Group.List.Basic
import Mathlib.Algebra.Order.Group.Nat
import Mathlib.Algebra.GroupWithZero.Nat

/-!
# DiskHash.Lib.Packing — records packed one after the other

* `packed enc rs`: the encodings of `rs` laid end to end.  For a self-delimiting encoding the records
  can be read back in one way only (`packed_inj`).
* `total size rs`, `Boundary size rs o`: the room the records take, and the offsets at which one of
  them starts or the last one ends.
* `nextFit size cap rs`: `rs` packed in order into blocks of capacity `cap`, a new block being opened
  when the next record does not fit the current one.
* `Fill.Behind`: packing a subsequence of the records of a list of blocks while these are being read
  never overtakes the reader, so the packed records may be written over the blocks already read.
-/

namespace Packing

variable {α β : Type}

/-! ### Self-delimiting encodings -/

/-- The end of an encoding can be told from its bytes. -/
structure SelfDelimiting (enc : α → List β) : Prop where
  ne_nil : ∀ a, enc a ≠ []
  cancel : ∀ {a a' : α} {t t' : List β}, enc a ++ t = enc a' ++ t' → a = a'

/-- The encodings of the records, laid end to end. -/
def packed (enc : α → List β) (rs : List α) : List β := rs.flatMap enc

@[simp] theorem packed_nil (enc : α → List β) : packed enc [] = [] := rfl

@[simp] theorem packed_cons (enc : α → List β) (r : α) (rs : List α) :
    packed enc (r :: rs) = enc r ++ packed enc rs := rfl

@[simp] theorem packed_append (enc : α → List β) (rs rs' : List α) :
    packed enc (rs ++ rs') = packed enc rs ++ packed enc rs' := List.flatMap_append

theorem packed_inj {enc : α → List β} (henc : SelfDelimiting enc) :
    ∀ {rs rs' : List α}, packed enc rs = packed enc rs' → rs = rs'
  | [], [], _ => rfl
  | [], r :: _, h => absurd (List.append_eq_nil_iff.mp h.symm).1 (henc.ne_nil r)
  | r :: _, [], h => absurd (List.append_eq_nil_iff.mp h).1 (henc.ne_nil r)
  | r :: rs, r' :: rs', h => by
    have hr : r = r' := henc.cancel h
    subst hr
    rw [packed_inj henc (List.append_cancel_left h)]

/-! ### Room and boundaries -/

section Total

variable (size : α → ℕ)

/-- The room the records take. -/
def total (rs : List α) : ℕ := (rs.map size).sum

@[simp] theorem total_nil : total size [] = 0 := rfl

@[simp] theorem total_cons (r : α) (rs : List α) : total size (r :: rs) = size r + total size rs := by
  simp [total]

@[simp] theorem total_append (rs rs' : List α) :
    total size (rs ++ rs') = total size rs + total size rs' := by
  simp [total]

theorem length_packed (enc : α → List β) (rs : List α) :
    (packed enc rs).length = total (fun r => (enc r).length) rs := by
  induction rs with
  | nil => rfl
  | cons r rs ih => simp [ih]

theorem total_flatMap {β : Type} (f : β → List α) (l : List β) :
    total size (l.flatMap f) = (l.map fun b => total size (f b)).sum := by
  induction l with
  | nil => rfl
  | cons b l ih => rw [List.flatMap_cons, total_append, List.map_cons, List.sum_cons, ih]

theorem total_le_of_mem {r : α} {rs : List α} (h : r ∈ rs) : size r ≤ total size rs := by
  induction rs with
  | nil => simp at h
  | cons r' rs ih =>
    rw [total_cons]
    rcases List.mem_cons.mp h with rfl | h
    · omega
    · have := ih h; omega

/-- Records that all take some room are at most as many as the room they take. -/
theorem length_le_total {rs : List α} (h : ∀ r ∈ rs, 0 < size r) : rs.length ≤ total size rs := by
  induction rs with
  | nil => simp
  | cons r rs ih =>
    have := ih (fun x hx => h x (List.mem_cons_of_mem _ hx))
    have := h r List.mem_cons_self
    rw [total_cons, List.length_cons]
    omega

/-- `o` is where some record starts or the last one ends. -/
def Boundary (rs : List α) (o : ℕ) : Prop := ∃ pre post, rs = pre ++ post ∧ o = total size pre

variable {size}

theorem boundary_zero (rs : List α) : Boundary size rs 0 := ⟨[], rs, rfl, rfl⟩

theorem boundary_total (rs : List α) : Boundary size rs (total size rs) := ⟨rs, [], by simp, rfl⟩

theorem Boundary.append {rs : List α} {o : ℕ} (h : Boundary size rs o) (rs' : List α) :
    Boundary size (rs ++ rs') o := by
  obtain ⟨pre, post, rfl, rfl⟩ := h
  exact ⟨pre, post ++ rs', by simp, rfl⟩

/-- A boundary before the end is the start of a record. -/
theorem Boundary.start {rs : List α} {o : ℕ} (h : Boundary size rs o) (ho : o < total size rs) :
    ∃ pre r post, rs = pre ++ r :: post ∧ o = total size pre := by
  obtain ⟨pre, post, rfl, rfl⟩ := h
  cases post with
  | nil => simp at ho
  | cons r post => exact ⟨pre, r, post, rfl, rfl⟩

/-- Two ways to cut a list are nested. -/
theorem append_eq_append_cases {a b c d : List α} (h : a ++ b = c ++ d) :
    (∃ t, c = a ++ t ∧ b = t ++ d) ∨ (∃ t, a = c ++ t ∧ d = t ++ b) := by
  rcases List.append_eq_append_iff.mp h with ⟨t, h1, h2⟩ | ⟨t, h1, h2⟩
  · exact Or.inl ⟨t, h1, h2⟩
  · exact Or.inr ⟨t, h1, h2⟩

/-- A boundary behind `pre` is one of the rest. -/
theorem boundary_append_add {pre rs : List α} {z : ℕ} :
    Boundary size (pre ++ rs) (total size pre + z) ↔ Boundary size rs z := by
  constructor
  · rintro ⟨p, post, hp, hz⟩
    rcases append_eq_append_cases hp with ⟨t, rfl, rfl⟩ | ⟨t, rfl, rfl⟩
    · exact ⟨t, post, rfl, by simpa using hz⟩
    · rw [total_append] at hz
      obtain rfl : z = 0 := by omega
      exact boundary_zero rs
  · rintro ⟨p, post, rfl, rfl⟩
    exact ⟨pre ++ p, post, by simp, by simp⟩

theorem boundary_append_le {pre rs : List α} {o : ℕ} (ho : o ≤ total size pre) :
    Boundary size (pre ++ rs) o ↔ Boundary size pre o := by
  refine ⟨?_, fun h => h.append rs⟩
  rintro ⟨p, post, hp, rfl⟩
  rcases append_eq_append_cases hp with ⟨t, rfl, rfl⟩ | ⟨t, rfl, rfl⟩
  · rw [total_append] at ho
    have hz : total size (pre ++ t) = total size pre := by rw [total_append]; omega
    exact hz ▸ boundary_total pre
  · exact ⟨p, t, rfl, rfl⟩

variable (size) in
/-- At the offset a record starts, or all records are before it. -/
def Settled (rs : List α) (o : ℕ) : Prop := Boundary size rs o ∨ total size rs ≤ o

theorem settled_append_add {pre rs : List α} {z : ℕ} :
    Settled size (pre ++ rs) (total size pre + z) ↔ Settled size rs z := by
  unfold Settled
  rw [boundary_append_add, total_append]
  exact or_congr Iff.rfl ⟨by omega, by omega⟩

theorem settled_append_le {pre rs : List α} {o : ℕ} (ho : o ≤ total size pre) :
    Settled size (pre ++ rs) o ↔ Boundary size pre o := by
  unfold Settled
  rw [boundary_append_le ho]
  refine ⟨fun h => h.elim id fun hle => ?_, Or.inl⟩
  rw [total_append] at hle
  obtain rfl : o = total size pre := by omega
  exact boundary_total pre

/-- A record is taken out: what is behind it moves by its size. -/
theorem settled_erase {pre post : List α} {r : α} {o : ℕ} (h : Settled size (pre ++ r :: post) o) :
    Settled size (pre ++ post) o ↔ (total size pre < o → Settled size (pre ++ r :: post) (o + size r)) := by
  rcases Nat.lt_or_ge (total size pre) o with hlt | hle
  · obtain ⟨z, rfl⟩ := Nat.exists_eq_add_of_le hlt.le
    have hr : total size [r] + z = z + size r := by simp [Nat.add_comm]
    rw [settled_append_add, Nat.add_assoc, settled_append_add, ← List.singleton_append, ← hr,
      settled_append_add]
    exact ⟨fun h _ => h, fun h => h hlt⟩
  · rw [settled_append_le hle]
    exact ⟨fun _ hlt => absurd hlt (Nat.not_lt.mpr hle), fun _ => (settled_append_le hle).mp h⟩

theorem settled_singleton {r : α} {o : ℕ} : Settled size [r] o ↔ o = 0 ∨ size r ≤ o := by
  constructor
  · rintro (⟨p, post, hp, hz⟩ | hle)
    · cases p with
      | nil => exact Or.inl hz
      | cons x p =>
        obtain ⟨rfl, -⟩ := List.cons.inj hp
        rw [total_cons] at hz
        omega
    · exact Or.inr (by simpa using hle)
  · rintro (rfl | hle)
    · exact Or.inl (boundary_zero _)
    · exact Or.inr (by simpa using hle)

/-- A record is added behind the others. -/
theorem settled_concat {rs : List α} {r : α} {o : ℕ} :
    Settled size (rs ++ [r]) o ↔
      Settled size rs o ∧ (o ≤ total size rs ∨ total size rs + size r ≤ o) := by
  rcases Nat.lt_or_ge (total size rs) o with hlt | hle
  · obtain ⟨z, rfl⟩ := Nat.exists_eq_add_of_le hlt.le
    rw [settled_append_add, settled_singleton]
    exact ⟨fun h => ⟨Or.inr hlt.le, Or.inr (by omega)⟩, fun h => by omega⟩
  · rw [settled_append_le hle]
    have : Settled size (rs ++ []) o ↔ Boundary size rs o := settled_append_le hle
    rw [List.append_nil] at this
    rw [this]
    exact ⟨fun h => ⟨h, Or.inl hle⟩, fun h => h.1⟩

end Total

/-! ### Next-fit packing -/

section NextFit

variable (size : α → ℕ) (cap : ℕ)

/-- A packing under way: the blocks that are closed and the block being filled. -/
structure Fill (α : Type) where
  closed : List (List α)
  cur : List α

/-- All blocks of a packing under way, in order. -/
def Fill.blocks (f : Fill α) : List (List α) := f.closed ++ [f.cur]

/-- A new block is opened when the current one has no room for the record. -/
def Fill.room (f : Fill α) (r : α) : Fill α :=
  if cap < total size f.cur + size r then ⟨f.closed ++ [f.cur], []⟩ else f

/-- A record is added to the current block. -/
def Fill.add (f : Fill α) (r : α) : Fill α := ⟨f.closed, f.cur ++ [r]⟩

/-- The next record goes to the current block if it fits there, and to a new block otherwise. -/
def Fill.push (f : Fill α) (r : α) : Fill α := (f.room size cap r).add r

def fill (rs : List α) : Fill α := rs.foldl (Fill.push size cap) ⟨[], []⟩

/-- The records packed in order into blocks of capacity `cap`. -/
def nextFit (rs : List α) : List (List α) := (fill size cap rs).blocks

variable {size cap}

theorem fill_concat (rs : List α) (r : α) :
    fill size cap (rs ++ [r]) = (fill size cap rs).push size cap r := by
  simp [fill]

theorem Fill.room_full {f : Fill α} {r : α} (h : cap < total size f.cur + size r) :
    f.room size cap r = ⟨f.closed ++ [f.cur], []⟩ := if_pos h

theorem Fill.room_fits {f : Fill α} {r : α} (h : ¬ cap < total size f.cur + size r) :
    f.room size cap r = f := if_neg h

/-- After `room` the record fits the current block. -/
theorem Fill.total_room_le {f : Fill α} {r : α} (hr : size r ≤ cap) :
    total size (f.room size cap r).cur + size r ≤ cap := by
  by_cases h : cap < total size f.cur + size r
  · rw [Fill.room_full h]; simpa using hr
  · rw [Fill.room_fits h]; omega

/-- The block number `m`, empty when it is not open yet. -/
def Fill.block (f : Fill α) (m : ℕ) : List α := f.blocks.getD m []

theorem Fill.length_blocks (f : Fill α) : f.blocks.length = f.closed.length + 1 := by
  simp [Fill.blocks]

@[simp] theorem Fill.block_cur (f : Fill α) : f.block f.closed.length = f.cur := by
  simp [Fill.block, Fill.blocks]

theorem Fill.block_eq_nil {f : Fill α} {m : ℕ} (h : f.closed.length < m) : f.block m = [] := by
  unfold Fill.block
  rw [List.getD_eq_getElem?_getD, List.getElem?_eq_none (by rw [f.length_blocks]; omega)]
  rfl

/-- Opening a block changes no block. -/
@[simp] theorem Fill.block_room (f : Fill α) (r : α) (m : ℕ) :
    (f.room size cap r).block m = f.block m := by
  by_cases h : cap < total size f.cur + size r
  · rw [Fill.room_full h]
    unfold Fill.block
    simp only [Fill.blocks, List.getD_eq_getElem?_getD]
    rcases Nat.lt_or_ge m (f.closed ++ [f.cur]).length with hm | hm
    · rw [List.getElem?_append_left hm]
    · rw [List.getElem?_append_right hm, List.getElem?_eq_none hm]
      cases m - (f.closed ++ [f.cur]).length <;> simp
  · rw [Fill.room_fits h]

theorem Fill.block_add_cur (f : Fill α) (r : α) : (f.add r).block f.closed.length = f.cur ++ [r] :=
  (f.add r).block_cur

theorem Fill.block_add_of_ne {f : Fill α} {m : ℕ} (h : m ≠ f.closed.length) (r : α) :
    (f.add r).block m = f.block m := by
  rcases Nat.lt_or_gt_of_ne h with h | h
  · unfold Fill.block
    simp only [Fill.blocks, Fill.add, List.getD_eq_getElem?_getD]
    rw [List.getElem?_append_left h, List.getElem?_append_left h]
  · rw [Fill.block_eq_nil h, Fill.block_eq_nil (f := f.add r) h]

/-- The blocks, read one after the other, are the records packed so far. -/
theorem Fill.flatMap_block (f : Fill α) :
    (List.range (f.closed.length + 1)).flatMap f.block = f.blocks.flatten := by
  rw [List.flatMap_def]
  congr 1
  refine List.ext_getElem? (fun m => ?_)
  rcases Nat.lt_or_ge m (f.closed.length + 1) with hm | hm
  · simp [Fill.block, List.getElem?_range hm, List.getElem?_eq_getElem (f.length_blocks ▸ hm)]
  · rw [List.getElem?_eq_none (by simpa using hm), List.getElem?_eq_none (by rw [f.length_blocks]; omega)]

theorem Fill.flatten_room (f : Fill α) (r : α) :
    (f.room size cap r).blocks.flatten = f.blocks.flatten := by
  by_cases h : cap < total size f.cur + size r
  · rw [Fill.room_full h]; simp [Fill.blocks]
  · rw [Fill.room_fits h]

theorem Fill.flatten_add (f : Fill α) (r : α) : (f.add r).blocks.flatten = f.blocks.flatten ++ [r] := by
  simp [Fill.blocks, Fill.add]

/-- A packing closes at most one block for each record. -/
theorem fill_closed_le (rs : List α) : (fill size cap rs).closed.length ≤ rs.length := by
  induction rs using List.reverseRecOn with
  | nil => exact le_rfl
  | append_singleton rs r ih =>
    rw [fill_concat, Fill.push, Fill.add]
    by_cases h : cap < total size (fill size cap rs).cur + size r
    · rw [Fill.room_full h]
      simpa using ih
    · rw [Fill.room_fits h]
      simp
      omega

/-- Packing only cuts the list of records. -/
theorem nextFit_flatten (rs : List α) : (nextFit size cap rs).flatten = rs := by
  induction rs using List.reverseRecOn with
  | nil => rfl
  | append_singleton rs r ih =>
    unfold nextFit at *
    rw [fill_concat, Fill.push, Fill.flatten_add, Fill.flatten_room, ih]

/-! ### Packing over the blocks being read -/

/-- The writer `f` is behind a reader that has read the records `done` of the block number `j`. -/
def Fill.Behind (size : α → ℕ) (f : Fill α) (j : ℕ) (done : List α) : Prop :=
  f.closed.length ≤ j ∧ (f.closed.length = j → total size f.cur ≤ total size done)

theorem behind_start : Fill.Behind size (fill size cap []) 0 [] := ⟨le_rfl, fun _ => le_rfl⟩

/-- The reader drops a record. -/
theorem Fill.Behind.skip {f : Fill α} {j : ℕ} {done : List α} (h : f.Behind size j done) (r : α) :
    f.Behind size j (done ++ [r]) := by
  refine ⟨h.1, fun hj => ?_⟩
  have := h.2 hj
  simp
  omega

/-- The reader adds a record of its block to the writer's block, which has room for it. -/
theorem Fill.Behind.add {f : Fill α} {j : ℕ} {done : List α} (h : f.Behind size j done) (r : α) :
    (f.add r).Behind size j (done ++ [r]) := by
  refine ⟨h.1, fun hj => ?_⟩
  have := h.2 hj
  simp only [Fill.add, total_append, total_cons, total_nil]
  omega

/-- A writer that opens a new block opens one the reader has reached. -/
theorem Fill.Behind.lt_of_full {f : Fill α} {j : ℕ} {done : List α} (h : f.Behind size j done) {r : α}
    (hr : total size (done ++ [r]) ≤ cap) (hf : cap < total size f.cur + size r) :
    f.closed.length < j := by
  simp only [total_append, total_cons, total_nil] at hr
  refine lt_of_le_of_ne h.1 (fun hj => ?_)
  have := h.2 hj
  omega

/-- Opening a new block keeps the writer behind. -/
theorem Fill.Behind.room {f : Fill α} {j : ℕ} {done : List α} (h : f.Behind size j done) {r : α}
    (hr : total size (done ++ [r]) ≤ cap) : (f.room size cap r).Behind size j done := by
  by_cases hf : cap < total size f.cur + size r
  · have hlt := h.lt_of_full hr hf
    rw [Fill.room_full hf]
    exact ⟨by simp; omega, fun _ => by simp⟩
  · rw [Fill.room_fits hf]
    exact h

/-- The reader goes on to the next block. -/
theorem Fill.Behind.next {f : Fill α} {j : ℕ} {done : List α} (h : f.Behind size j done) :
    f.Behind size (j + 1) [] := by
  have := h.1
  exact ⟨by omega, fun hj => by omega⟩

end NextFit

end Packing
