import DiskHash.Settings
import Mathlib.Data.Nat.Bitwise
import Mathlib.Data.Nat.Digits.Defs
import Mathlib.Data.Nat.Log
import Mathlib.Tactic.Ring

/-!
# DiskHash.Vbe — variable-byte integers

`write`, `read` and `length` of `vbe.h`.  `read` is a template over the type of the value: `w` is its
width.  The reader shifts an `unsigned char` promoted to a 32-bit `int`, so the shift amount has to stay
below 32 and the shifted group is sign-extended to the width of the value.

`read_write`: values below `2^31` survive the trip for both widths.  `length_write`: `length` is the
number of bytes `write` emits; `write_accounted`: which of them are marked, and what they add up to.
-/

namespace DiskHash.Vbe

def markOffset : ℕ := 7

def markMask : UInt8 := (1 : UInt8) <<< 7

def dataMask : UInt8 := ~~~ markMask

/-- `vbe::write`: the bytes written for a value. -/
def write (val : ℕ) : Bytes :=
  if dataMask.toNat < val then
    UInt8.ofNat ((val &&& dataMask.toNat) ||| markMask.toNat) :: write (val >>> markOffset)
  else [UInt8.ofNat val]
termination_by val
decreasing_by
  have : dataMask.toNat = 127 := rfl
  have : dataMask.toNat < val := by assumption
  simp only [markOffset, Nat.shiftRight_eq_div_pow]
  omega

/-- `group << offset` ORed into a value of width `w`: the shift is done on an `int`. -/
def shifted (w : ℕ) (group : UInt8) (offset : ℕ) : Except Fault (BitVec w) :=
  if offset < 32 then .ok ((BitVec.ofNat 32 group.toNat <<< offset).signExtend w)
  else .error .badShift

/-- The loop of `vbe::read`; also how many bytes it consumes. -/
def readLoop (w : ℕ) : Bytes → ℕ → BitVec w → Except Fault (BitVec w × ℕ)
  | [], _, _ => .error .outOfBounds
  | b :: bs, offset, val =>
    if b &&& markMask ≠ 0 then do
      let group ← shifted w (b &&& dataMask) offset
      let (val, n) ← readLoop w bs (offset + markOffset) (val ||| group)
      return (val, n + 1)
    else do
      let group ← shifted w b offset
      return (val ||| group, 1)

/-- `vbe::read`: the value that starts at `ptr` and the pointer past it. -/
def read (w : ℕ) (data : Bytes) (ptr : ℕ) : Except Fault (ℕ × ℕ) := do
  let (val, n) ← readLoop w (data.drop ptr) 0 0
  return (val.toNat, ptr + n)

/-- `std::bit_width`. -/
def bitWidth (val : ℕ) : ℕ := if val = 0 then 0 else val.log2 + 1

/-- `vbe::length`. -/
def length (val : ℕ) : ℕ := if val = 0 then 1 else (bitWidth val - 1) / markOffset + 1

/-! ### One turn of the writer -/

theorem write_small {v : ℕ} (h : v < 128) : write v = [UInt8.ofNat v] := by
  rw [write, if_neg]
  show ¬ 127 < v
  omega

theorem write_big {v : ℕ} (h : 128 ≤ v) :
    write v = UInt8.ofNat (v % 128 + 128) :: write (v / 128) := by
  rw [write, if_pos (show dataMask.toNat < v by show 127 < v; omega)]
  have h1 : v &&& dataMask.toNat = v % 128 := Nat.and_two_pow_sub_one_eq_mod v 7
  have h2 : v % 128 ||| markMask.toNat = v % 128 + 128 := by
    have h : 128 + v % 128 = 128 ||| v % 128 :=
      Nat.two_pow_add_eq_or_of_lt (i := 7) (Nat.mod_lt _ (by decide)) 1
    show v % 128 ||| 128 = _
    rw [Nat.or_comm, ← h, Nat.add_comm]
  rw [h1, h2]
  simp only [markOffset, Nat.shiftRight_eq_div_pow]

/-- The bytes `write` emits are below 256. -/
theorem toNat_ofNat_byte {n : ℕ} (h : n < 256) : (UInt8.ofNat n).toNat = n := by
  rw [UInt8.toNat_ofNat']
  exact Nat.mod_eq_of_lt h

theorem write_ne_nil (v : ℕ) : write v ≠ [] := by
  rw [write]
  split <;> simp

/-! ### `length` counts the bytes of `write` -/

theorem length_small {v : ℕ} (h : v < 128) : length v = 1 := by
  unfold length bitWidth
  by_cases h0 : v = 0
  · simp [h0]
  · have : v.log2 < 7 := (Nat.log2_lt h0).mpr h
    rw [if_neg h0, if_neg h0]
    simp only [markOffset]
    omega

theorem length_big {v : ℕ} (h : 128 ≤ v) : length v = length (v / 128) + 1 := by
  have h0 : v ≠ 0 := by omega
  have h1 : v / 128 ≠ 0 := by omega
  have hlog : v.log2 = (v / 128).log2 + 7 := by
    apply le_antisymm
    · refine Nat.lt_succ_iff.mp ((Nat.log2_lt h0).mpr ?_)
      have := (Nat.log2_lt h1).mp (Nat.lt_succ_self _)
      have e : 2 ^ ((v / 128).log2 + 7).succ = 2 ^ (v / 128).log2.succ * 128 := by
        rw [show ((v / 128).log2 + 7).succ = (v / 128).log2.succ + 7 by omega, pow_add]
        rfl
      omega
    · refine (Nat.le_log2 h0).mpr ?_
      have := Nat.log2_self_le h1
      rw [pow_add]
      omega
  unfold length bitWidth
  rw [if_neg h0, if_neg h0, if_neg h1, if_neg h1, hlog]
  simp only [markOffset]
  omega

theorem length_write (v : ℕ) : (write v).length = length v := by
  induction v using Nat.strong_induction_on with
  | _ v ih =>
    rcases Nat.lt_or_ge v 128 with h | h
    · rw [write_small h, length_small h]; rfl
    · rw [write_big h, length_big h, List.length_cons, ih (v / 128) (by omega)]

theorem length_pos (v : ℕ) : 0 < length v := by
  rw [← length_write]
  exact List.length_pos_iff.mpr (write_ne_nil v)

/-! ### The code is self-delimiting -/

theorem write_cancel : ∀ {v v' : ℕ} {t t' : Bytes}, write v ++ t = write v' ++ t' → v = v' ∧ t = t' := by
  intro v
  induction v using Nat.strong_induction_on with
  | _ v ih =>
    intro v' t t' h
    rcases Nat.lt_or_ge v 128 with hv | hv <;> rcases Nat.lt_or_ge v' 128 with hv' | hv'
    · rw [write_small hv, write_small hv'] at h
      obtain ⟨hb, ht⟩ := List.cons_eq_cons.mp h
      have := congrArg UInt8.toNat hb
      rw [toNat_ofNat_byte (n := v) (by omega), toNat_ofNat_byte (n := v') (by omega)] at this
      exact ⟨this, ht⟩
    · rw [write_small hv, write_big hv'] at h
      have := congrArg UInt8.toNat (List.cons_eq_cons.mp h).1
      rw [toNat_ofNat_byte (n := v) (by omega), toNat_ofNat_byte (by omega)] at this
      omega
    · rw [write_big hv, write_small hv'] at h
      have := congrArg UInt8.toNat (List.cons_eq_cons.mp h).1
      rw [toNat_ofNat_byte (n := v') (by omega), toNat_ofNat_byte (by omega)] at this
      omega
    · rw [write_big hv, write_big hv'] at h
      obtain ⟨hb, ht⟩ := List.cons_eq_cons.mp h
      have := congrArg UInt8.toNat hb
      rw [toNat_ofNat_byte (by omega), toNat_ofNat_byte (by omega)] at this
      obtain ⟨hdiv, ht⟩ := ih (v / 128) (by omega) ht
      exact ⟨by omega, ht⟩

/-! ### Reading back -/

theorem and_markMask (b : UInt8) : b &&& markMask = 0 ↔ b.toNat < 128 := by
  have key : ∀ i : Fin 256, (i.val &&& 128 = 0 ↔ i.val < 128) := by decide +kernel
  have h := key ⟨b.toNat, b.toNat_lt⟩
  rw [← h]
  constructor
  · intro hb
    have := congrArg UInt8.toNat hb
    rwa [UInt8.toNat_and] at this
  · intro hb
    apply UInt8.toNat_inj.mp
    rw [UInt8.toNat_and]
    exact hb

theorem and_dataMask (b : UInt8) : (b &&& dataMask).toNat = b.toNat % 128 := by
  rw [UInt8.toNat_and]
  exact Nat.and_two_pow_sub_one_eq_mod b.toNat 7

/-- What the groups of `v` give when they are ORed in from `offset` on: the low 32 bits of `v << offset`, with
the sign of an `int`. -/
def groups (w v offset : ℕ) : BitVec w := (BitVec.ofNat 32 v <<< offset).signExtend w

theorem shifted_eq {w : ℕ} {group : UInt8} {v offset : ℕ} (hv : group.toNat = v) :
    shifted w group offset = if offset < 32 then .ok (groups w v offset) else .error .badShift := by
  unfold shifted groups
  rw [hv]

/-- The first group of a long value and the rest of it. -/
theorem groups_split (w v offset : ℕ) :
    groups w (v % 128) offset ||| groups w (v / 128) (offset + 7) = groups w v offset := by
  have hv : v = v % 128 ||| (v / 128) <<< 7 := by
    have hor := Nat.two_pow_add_eq_or_of_lt (i := 7) (Nat.mod_lt v (by decide)) (v / 128)
    rw [Nat.shiftLeft_eq, Nat.mul_comm, Nat.or_comm, ← hor]
    omega
  have hlow : BitVec.ofNat 32 ((v / 128) <<< 7) = BitVec.ofNat 32 (v / 128) <<< 7 := by
    apply BitVec.eq_of_toNat_eq
    simp [Nat.shiftLeft_eq]
  unfold groups
  rw [← BitVec.signExtend_or, Nat.add_comm offset 7, BitVec.shiftLeft_add, ← BitVec.shiftLeft_or_distrib, ← hlow,
    ← BitVec.ofNat_or, ← hv]

/-- The reader on the bytes of a value: the value, if all shifts are below 32 bits. -/
theorem readLoop_write (w : ℕ) (rest : Bytes) : ∀ (v offset : ℕ) (val : BitVec w),
    readLoop w (write v ++ rest) offset val =
      if offset + 7 * (length v - 1) < 32 then .ok (val ||| groups w v offset, length v)
      else .error .badShift := by
  intro v
  induction v using Nat.strong_induction_on with
  | _ v ih =>
    intro offset val
    rcases Nat.lt_or_ge v 128 with h | h
    · have hb := toNat_ofNat_byte (show v < 256 by omega)
      have hm : UInt8.ofNat v &&& markMask = 0 := (and_markMask _).mpr (by omega)
      rw [write_small h, length_small h, List.singleton_append, readLoop, if_neg (not_not.mpr hm), shifted_eq hb]
      by_cases ho : offset < 32
      · rw [if_pos ho, if_pos (by omega)]
        rfl
      · rw [if_neg ho, if_neg (by omega)]
        rfl
    · have hb := toNat_ofNat_byte (show v % 128 + 128 < 256 by omega)
      have hd : (UInt8.ofNat (v % 128 + 128) &&& dataMask).toNat = v % 128 := by
        rw [and_dataMask, hb]
        omega
      have hm : UInt8.ofNat (v % 128 + 128) &&& markMask ≠ 0 := fun hc => by
        have := (and_markMask _).mp hc
        omega
      have hpos := length_pos (v / 128)
      rw [write_big h, length_big h, List.cons_append, readLoop, if_pos hm, shifted_eq hd]
      by_cases ho : offset < 32
      · rw [if_pos ho]
        show (do let (val, n) ← readLoop w (write (v / 128) ++ rest) (offset + 7) (val ||| groups w (v % 128) offset)
                 return (val, n + 1) : Except Fault (BitVec w × ℕ)) = _
        rw [ih (v / 128) (by omega), BitVec.or_assoc, groups_split]
        by_cases hlast : offset + 7 + 7 * (length (v / 128) - 1) < 32
        · rw [if_pos hlast, if_pos (by omega)]
          rfl
        · rw [if_neg hlast, if_neg (by omega)]
          rfl
      · rw [if_neg ho, if_neg (by omega)]
        rfl

theorem read_write_eq (w v : ℕ) (pre rest : Bytes) : read w (pre ++ write v ++ rest) pre.length =
    if 7 * (length v - 1) < 32 then .ok ((groups w v 0).toNat, pre.length + length v) else .error .badShift := by
  have hdrop : (pre ++ write v ++ rest).drop pre.length = write v ++ rest := by simp
  unfold read
  rw [hdrop, readLoop_write, Nat.zero_add]
  by_cases hl : 7 * (length v - 1) < 32
  · rw [if_pos hl, if_pos hl, show (0 : BitVec w) ||| groups w v 0 = groups w v 0 from BitVec.zero_or]
    rfl
  · rw [if_neg hl, if_neg hl]
    rfl

/-- How many groups a value has. -/
theorem length_le_iff : ∀ (n v : ℕ), length v ≤ n + 1 ↔ v < 2 ^ (7 * (n + 1))
  | 0, v => by
    rcases Nat.lt_or_ge v 128 with h | h
    · rw [length_small h]
      simpa using h
    · have := length_pos (v / 128)
      rw [length_big h]
      omega
  | n + 1, v => by
    have hpow : 2 ^ (7 * (n + 1 + 1)) = 2 ^ (7 * (n + 1)) * 128 := pow_add 2 (7 * (n + 1)) 7
    rcases Nat.lt_or_ge v 128 with h | h
    · have := Nat.two_pow_pos (7 * (n + 1))
      rw [length_small h, hpow]
      omega
    · rw [length_big h, Nat.add_le_add_iff_right, length_le_iff n (v / 128), hpow,
        Nat.div_lt_iff_lt_mul (by decide)]

/-- The groups of a value below `2^31` make up the value. -/
theorem toNat_groups {w v : ℕ} (hw : 32 ≤ w) (hv : v < 2 ^ 31) : (groups w v 0).toNat = v := by
  have hx : (BitVec.ofNat 32 v).toNat = v := by
    rw [BitVec.toNat_ofNat]
    omega
  have hmsb : (BitVec.ofNat 32 v).msb = false := by
    rw [BitVec.msb_eq_false_iff_two_mul_lt, hx]
    omega
  have hlt : (2 : ℕ) ^ 32 ≤ 2 ^ w := Nat.pow_le_pow_right (by decide) hw
  unfold groups
  rw [BitVec.shiftLeft_zero, BitVec.signExtend_eq_setWidth_of_msb_false hmsb, BitVec.toNat_setWidth, hx]
  exact Nat.mod_eq_of_lt (by omega)

/-- What `write` wrote is read back, whatever bytes follow. -/
theorem read_write {w : ℕ} (hw : 32 ≤ w) {v : ℕ} (hv : v < 2 ^ 31) {data pre rest : Bytes}
    (hd : data = pre ++ write v ++ rest) :
    read w data pre.length = .ok (v, pre.length + length v) := by
  have hl := (length_le_iff 4 v).mpr (by omega)
  rw [hd, read_write_eq, if_pos (by omega), toNat_groups hw hv]

example : read 64 (write 300 ++ [255]) 0 = .ok (300, 2) := by decide +kernel

/-! ### The whole type -/

/-- `read` after `write(v)`, both for a type of `w` bits: exactly `v`, and a pointer past exactly the bytes that
were written, whatever bytes stand before and after them. -/
def RoundTrips {w : ℕ} (v : BitVec w) : Prop :=
  ∀ pre rest : Bytes, read w (pre ++ write v.toNat ++ rest) pre.length
    = .ok (v.toNat, pre.length + (write v.toNat).length)

theorem roundTrips_iff_groups {w : ℕ} (v : BitVec w) :
    RoundTrips v ↔ v.toNat < 2 ^ 35 ∧ (groups w v.toNat 0).toNat = v.toNat := by
  have hl : 7 * (length v.toNat - 1) < 32 ↔ v.toNat < 2 ^ 35 := by
    have := length_le_iff 4 v.toNat
    omega
  unfold RoundTrips
  simp only [read_write_eq, length_write, hl]
  constructor
  · intro h
    have hr := h [] []
    by_cases hv : v.toNat < 2 ^ 35
    · rw [if_pos hv] at hr
      exact ⟨hv, congrArg Prod.fst (Except.ok.inj hr)⟩
    · rw [if_neg hv] at hr
      cases hr
  · rintro ⟨hv, hg⟩ pre rest
    rw [if_pos hv, hg]

/-- A group at the sign bit of an `int` is not what the writer took out of a `size_t`. -/
theorem toNat_groups_iff {v : ℕ} (hv : v < 2 ^ 35) : (groups 64 v 0).toNat = v ↔ v < 2 ^ 31 := by
  refine ⟨fun h => ?_, toNat_groups (by decide)⟩
  unfold groups at h
  rw [BitVec.shiftLeft_zero, BitVec.toNat_signExtend, BitVec.toNat_setWidth, BitVec.toNat_ofNat] at h
  by_cases hmsb : (BitVec.ofNat 32 v).msb = true
  · rw [if_pos hmsb] at h
    omega
  · have hlt := BitVec.msb_eq_false_iff_two_mul_lt.mp (Bool.eq_false_iff.mpr hmsb)
    rw [BitVec.toNat_ofNat] at hlt
    rw [if_neg hmsb] at h
    omega

/-- Every `unsigned` survives the trip; a `size_t` does just when it is below `2^31`. -/
theorem roundTrips_iff (u : BitVec 32) (v : BitVec 64) :
    RoundTrips u ∧ (RoundTrips v ↔ v.toNat < 2 ^ 31) := by
  refine ⟨(roundTrips_iff_groups u).mpr ⟨?_, ?_⟩, ?_⟩
  · have := u.isLt
    omega
  · unfold groups
    rw [BitVec.shiftLeft_zero, BitVec.signExtend_eq, BitVec.ofNat_toNat, BitVec.setWidth_eq]
  · rw [roundTrips_iff_groups]
    constructor
    · rintro ⟨hv, hg⟩
      exact (toNat_groups_iff hv).mp hg
    · intro hv
      have hv' : v.toNat < 2 ^ 35 := by omega
      exact ⟨hv', (toNat_groups_iff hv').mpr hv⟩

/-- The `size_t` of `2^31` is read back with all upper bits set. -/
theorem sizeT_not_roundTrips : ¬ ∀ v : BitVec 64, RoundTrips v := by
  intro h
  have hv := (toNat_groups_iff (by decide)).mp ((roundTrips_iff_groups (BitVec.ofNat 64 (2 ^ 31))).mp (h _)).2
  exact absurd hv (by decide)

/-! ### The account of the bytes -/

/-- All bytes of a value but the last one are marked. -/
theorem write_marks (v : ℕ) : (∀ b ∈ (write v).dropLast, b &&& markMask ≠ 0) ∧
    (write v).getLast (write_ne_nil v) &&& markMask = 0 := by
  induction v using Nat.strong_induction_on with
  | _ v ih =>
    rcases Nat.lt_or_ge v 128 with h | h
    · have hb := toNat_ofNat_byte (show v < 256 by omega)
      simp only [write_small h, List.dropLast_singleton, List.getLast_singleton]
      exact ⟨fun b hb => absurd hb List.not_mem_nil, (and_markMask _).mpr (by omega)⟩
    · have hb := toNat_ofNat_byte (show v % 128 + 128 < 256 by omega)
      obtain ⟨hinit, hlast⟩ := ih (v / 128) (by omega)
      simp only [write_big h, List.dropLast_cons_of_ne_nil (write_ne_nil _), List.getLast_cons (write_ne_nil _)]
      refine ⟨List.forall_mem_cons.mpr ⟨fun hc => ?_, hinit⟩, hlast⟩
      have := (and_markMask _).mp hc
      omega

/-- The groups of a value are its digits to base 128. -/
theorem ofDigits_write (v : ℕ) : Nat.ofDigits 128 ((write v).map fun b => (b &&& dataMask).toNat) = v := by
  induction v using Nat.strong_induction_on with
  | _ v ih =>
    rcases Nat.lt_or_ge v 128 with h | h
    · have hb := toNat_ofNat_byte (show v < 256 by omega)
      rw [write_small h, List.map_singleton, Nat.ofDigits_singleton, and_dataMask, hb]
      omega
    · have hb := toNat_ofNat_byte (show v % 128 + 128 < 256 by omega)
      rw [write_big h, List.map_cons, Nat.ofDigits_cons, ih (v / 128) (by omega), and_dataMask, hb]
      omega

theorem length_mono {v v' : ℕ} (h : v ≤ v') : length v ≤ length v' := by
  have hpos := length_pos v'
  have hlt : v' < 2 ^ (7 * (length v' - 1 + 1)) := (length_le_iff _ _).mp (by omega)
  have hle : length v ≤ length v' - 1 + 1 := (length_le_iff _ _).mpr (lt_of_le_of_lt h hlt)
  omega

theorem write_prefix_free {v v' : ℕ} (h : write v' <+: write v) : v' = v := by
  obtain ⟨t, ht⟩ := h
  rw [← List.append_nil (write v)] at ht
  exact (write_cancel ht).1

/-- The account `vbe::length` and the mark bits keep of the bytes of a value. -/
structure Accounted (v : ℕ) : Prop where
  length_eq : length v = (write v).length
  marked : ∀ b ∈ (write v).dropLast, b &&& markMask ≠ 0
  unmarked : (write v).getLast (write_ne_nil v) &&& markMask = 0
  value : Nat.ofDigits 128 ((write v).map fun b => (b &&& dataMask).toNat) = v

/-- The space accounting is exact for every value of a type of `w` bits; so longer encodings belong to greater
values, and no encoding is a proper prefix of another one. -/
theorem write_accounted {w : ℕ} (v : BitVec w) : Accounted v.toNat ∧ ∀ v' : BitVec w,
    (v ≤ v' → length v.toNat ≤ length v'.toNat) ∧ (write v'.toNat <+: write v.toNat → v' = v) := by
  refine ⟨⟨(length_write _).symm, (write_marks _).1, (write_marks _).2, ofDigits_write _⟩, fun v' => ⟨?_, ?_⟩⟩
  · intro h
    exact length_mono (BitVec.le_def.mp h)
  · intro h
    exact BitVec.eq_of_toNat_eq (write_prefix_free h)

end DiskHash.Vbe
