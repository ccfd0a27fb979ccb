import Mathlib.Data.Nat.Bitwise
import Mathlib.Tactic.Common
import Mathlib.Tactic.Ring

/-!
# DiskHash.Lib.BitBuffer — a word as a buffer of bits

A program that regroups bits keeps the pending ones in the low bits of a word and never clears the bits above:
they are shifted up and out.  `Low x n v` says that the low `n` bits of the word `x` are the number `v`; the
rules say what shifting digits in and reading fields out does to it, whatever the upper bits are.
-/

section BitBuffer

variable {w k n v : ℕ} {x d mask : BitVec w}

/-- The low `n` bits of the word are the number `v`. -/
def Low (x : BitVec w) (n v : ℕ) : Prop := x.toNat % 2 ^ n = v

theorem low_zero (x : BitVec w) : Low x 0 0 := by
  unfold Low
  rw [pow_zero, Nat.mod_one]

theorem Low.lt (h : Low x n v) : v < 2 ^ n := h ▸ Nat.mod_lt _ (Nat.two_pow_pos n)

theorem Low.testBit (h : Low x n v) (i : ℕ) : v.testBit i = (decide (i < n) && x.getLsbD i) := by
  have hv : x.toNat % 2 ^ n = v := h
  rw [← hv, Nat.testBit_mod_two_pow, BitVec.testBit_toNat]

theorem low_of_testBit (hv : v < 2 ^ n) (h : ∀ i < n, x.getLsbD i = v.testBit i) : Low x n v := by
  refine Nat.eq_of_testBit_eq (fun i => ?_)
  rw [Nat.testBit_mod_two_pow, BitVec.testBit_toNat]
  by_cases hi : i < n
  · simp [hi, h i hi]
  · have hlt : v < 2 ^ i := hv.trans_le (Nat.pow_le_pow_right (by decide) (by omega))
    simp [hi, Nat.testBit_lt_two_pow hlt]

/-- A digit of `k` bits is shifted in. -/
theorem Low.push (h : Low x n v) (hd : d.toNat < 2 ^ k) (hw : n + k ≤ w) :
    Low (x <<< k ||| d) (n + k) (v * 2 ^ k + d.toNat) := by
  have hsum : v * 2 ^ k + d.toNat < 2 ^ (n + k) := by
    have := Nat.mul_le_mul_right (2 ^ k) (show v + 1 ≤ 2 ^ n from h.lt)
    rw [pow_add, Nat.add_mul, Nat.one_mul] at *
    omega
  refine low_of_testBit hsum (fun i hi => ?_)
  rw [Nat.mul_comm, Nat.testBit_two_pow_mul_add _ hd, BitVec.getLsbD_or, BitVec.getLsbD_shiftLeft]
  have hiw : i < w := by omega
  by_cases hik : i < k
  · simp [hik, hiw, BitVec.testBit_toNat]
  · have hdi : d.toNat < 2 ^ i := hd.trans_le (Nat.pow_le_pow_right (by decide) (by omega))
    have hdbit : d.getLsbD i = false := by
      rw [← BitVec.testBit_toNat]
      exact Nat.testBit_lt_two_pow hdi
    have hin : i - k < n := by omega
    simp only [hik, hiw, hdbit, hin, h.testBit, if_false, decide_true, decide_false, Bool.not_false,
      Bool.true_and, Bool.or_false]

/-- Zeros are shifted in. -/
theorem Low.pad (h : Low x n v) (hw : n + k ≤ w) : Low (x <<< k) (n + k) (v * 2 ^ k) := by
  have hpush := h.push (d := 0#w) (k := k) (by simp) hw
  rwa [BitVec.or_zero, BitVec.toNat_ofNat, Nat.zero_mod, Nat.add_zero] at hpush

/-- The field of `k` bits above the low `n` is read. -/
theorem Low.field (h : Low x (n + k) v) (hmask : ∀ i, mask.getLsbD i = decide (i < k)) (hw : n + k ≤ w) :
    ((x.sshiftRight n) &&& mask).toNat = v / 2 ^ n := by
  refine Nat.eq_of_testBit_eq (fun i => ?_)
  rw [BitVec.testBit_toNat, BitVec.getLsbD_and, hmask, Nat.testBit_div_two_pow, h.testBit, BitVec.getLsbD_sshiftRight]
  by_cases hi : i < k
  · have h1 : n + i < w := by omega
    have h2 : ¬ w ≤ i := by omega
    have h3 : i + n < n + k := by omega
    simp only [hi, h1, h2, h3, if_true, decide_true, decide_false, Bool.not_false, Bool.true_and, Bool.and_true]
    rw [Nat.add_comm]
  · have h3 : ¬ i + n < n + k := by omega
    simp [hi, h3]

/-- The bits below the field are pending. -/
theorem Low.rest (h : Low x (n + k) v) : Low x n (v % 2 ^ n) := by
  have hv : x.toNat % 2 ^ (n + k) = v := h
  unfold Low
  rw [← hv, Nat.mod_mod_of_dvd _ (pow_dvd_pow 2 (Nat.le_add_right n k))]

/-- All pending bits are read. -/
theorem Low.all (h : Low x n v) (hmask : ∀ i, mask.getLsbD i = decide (i < n)) (hw : n ≤ w) :
    (x &&& mask).toNat = v := by
  have hfield := Low.field (n := 0) (k := n) (by rwa [Nat.zero_add]) hmask (by omega)
  rwa [BitVec.sshiftRight_zero, pow_zero, Nat.div_one] at hfield

end BitBuffer
