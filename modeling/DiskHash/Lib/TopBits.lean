import Mathlib.Data.Nat.Bitwise
import Mathlib.Tactic.Common
import Mathlib.Tactic.Ring

/-!
# DiskHash.Lib.TopBits — the leading bits of a word

`topBits p h` is the number formed by the `p` leading bits of the word `h`.  The words with the same `p`
leading bits are the cells of a partition that gets finer with `p`: each cell of depth `p` has two halves
of depth `p + 1`, told apart by the next bit.  A table of `2 ^ g` entries that is indexed by `g` leading
bits has one aligned block of `2 ^ (g - p)` entries for each cell of depth `p`.
-/

variable {w p g : ℕ} {h k : BitVec w}

/-- The number formed by the `p` leading bits of `h`. -/
def topBits (p : ℕ) (h : BitVec w) : ℕ := h.toNat / 2 ^ (w - p)

theorem testBit_topBits (i : ℕ) : (topBits p h).testBit i = h.getLsbD (w - p + i) := by
  unfold topBits
  rw [← Nat.shiftRight_eq_div_pow, Nat.testBit_shiftRight, BitVec.testBit_toNat]

theorem topBits_lt (hp : p ≤ w) : topBits p h < 2 ^ p := by
  unfold topBits
  rw [Nat.div_lt_iff_lt_mul (Nat.two_pow_pos _), ← pow_add]
  have hw : p + (w - p) = w := by omega
  rw [hw]
  exact h.isLt

/-- Every number of `p` bits is the leading bits of some word. -/
theorem exists_topBits (hp : p ≤ w) {i : ℕ} (hi : i < 2 ^ p) : ∃ h : BitVec w, topBits p h = i := by
  have hw : p + (w - p) = w := by omega
  have hlt : i * 2 ^ (w - p) < 2 ^ w := by
    calc i * 2 ^ (w - p) < 2 ^ p * 2 ^ (w - p) := Nat.mul_lt_mul_of_pos_right hi (Nat.two_pow_pos _)
      _ = 2 ^ w := by rw [← pow_add, hw]
  refine ⟨BitVec.ofNat w (i * 2 ^ (w - p)), ?_⟩
  unfold topBits
  rw [BitVec.toNat_ofNat, Nat.mod_eq_of_lt hlt, Nat.mul_div_cancel _ (Nat.two_pow_pos _)]

/-- Fewer leading bits are the leading bits of more of them. -/
theorem topBits_div (hpg : p ≤ g) (hg : g ≤ w) : topBits g h / 2 ^ (g - p) = topBits p h := by
  unfold topBits
  rw [Nat.div_div_eq_div_mul, ← pow_add]
  congr 2
  omega

/-- One more leading bit. -/
theorem topBits_succ (hp : p < w) :
    topBits (p + 1) h = 2 * topBits p h + (h.getLsbD (w - (p + 1))).toNat := by
  have hdiv := topBits_div (h := h) (Nat.le_succ p) hp
  rw [Nat.succ_sub (le_refl p), Nat.sub_self, pow_one] at hdiv
  have hbit := testBit_topBits (p := p + 1) (h := h) 0
  rw [Nat.testBit_zero, Nat.add_zero (w - (p + 1))] at hbit
  rw [← hbit, ← hdiv]
  rcases Nat.mod_two_eq_zero_or_one (topBits (p + 1) h) with hm | hm
  · rw [hm]
    simp
    omega
  · rw [hm]
    simp
    omega

/-- The half of its cell a word is in. -/
theorem topBits_succ_div (hp : p < w) : topBits (p + 1) h / 2 = topBits p h := by
  rw [topBits_succ hp]
  cases h.getLsbD (w - (p + 1))
  · simp
  · simp
    omega

theorem and_bit_ne_zero {s : ℕ} (hs : s < w) : h &&& 1#w <<< s ≠ 0 ↔ h.getLsbD s = true := by
  constructor
  · intro hne
    by_contra hb
    refine hne (BitVec.eq_of_getLsbD_eq (fun i hi => ?_))
    rw [BitVec.getLsbD_and, BitVec.getLsbD_shiftLeft, BitVec.getLsbD_one]
    by_cases his : i = s
    · subst his
      simp [Bool.eq_false_of_not_eq_true hb]
    · have : i < s ∨ ¬ i - s = 0 := by omega
      rcases this with h1 | h1 <;> simp [h1]
  · intro hb hz
    have hget := congrArg (fun x : BitVec w => x.getLsbD s) hz
    have hw : 0 < w := by omega
    simp only [BitVec.getLsbD_and, BitVec.getLsbD_shiftLeft, BitVec.getLsbD_one, hb] at hget
    simp [hs, hw] at hget

theorem getLsbD_or_bit {s : ℕ} (hs : s < w) (i : ℕ) :
    (h ||| 1#w <<< s).getLsbD i = (h.getLsbD i || decide (i = s)) := by
  rw [BitVec.getLsbD_or, BitVec.getLsbD_shiftLeft, BitVec.getLsbD_one]
  by_cases his : i = s
  · subst his
    have hw : 0 < w := by omega
    simp [hs, hw]
  · have : i < s ∨ ¬ i - s = 0 := by omega
    rcases this with h1 | h1 <;> simp [h1, his]

/-- One less than the `n`-th bit is the word of the `n` low bits. -/
theorem getLsbD_lowBits {n : ℕ} (hn : n < w) (i : ℕ) : (1#w <<< n - 1#w).getLsbD i = decide (i < n) := by
  have hone : (1#w).toNat = 1 := BitVec.toNat_one (by omega)
  have hshift : (1#w <<< n).toNat = 2 ^ n := by
    rw [← BitVec.twoPow_eq, BitVec.toNat_twoPow_of_lt hn]
  have hle : 1#w ≤ 1#w <<< n := by
    rw [BitVec.le_def, hone, hshift]
    exact Nat.one_le_two_pow
  rw [← BitVec.testBit_toNat, BitVec.toNat_sub_of_le hle, hshift, hone, Nat.testBit_two_pow_sub_one]

/-- Setting the next bit of a word moves it to the upper half of its cell. -/
theorem topBits_or_bit (hp : p < w) :
    topBits (p + 1) (h ||| 1#w <<< (w - (p + 1))) = 2 * topBits p h + 1 := by
  have hs : w - (p + 1) < w := by omega
  have htop : topBits p (h ||| 1#w <<< (w - (p + 1))) = topBits p h := by
    refine Nat.eq_of_testBit_eq (fun i => ?_)
    rw [testBit_topBits, testBit_topBits, getLsbD_or_bit hs]
    have : w - p + i ≠ w - (p + 1) := by omega
    simp [this]
  rw [topBits_succ hp, htop, getLsbD_or_bit hs]
  simp

/-- Masking with the leading bits and shifting down reads them. -/
theorem mask_shift {mask : BitVec w}
    (hmask : ∀ i < w, mask.getLsbD i = decide (w - g ≤ i)) :
    ((h &&& mask) >>> (w - g)).toNat = topBits g h := by
  refine Nat.eq_of_testBit_eq (fun i => ?_)
  rw [testBit_topBits, BitVec.testBit_toNat, BitVec.getLsbD_ushiftRight, BitVec.getLsbD_and]
  by_cases hi : w - g + i < w
  · rw [hmask _ hi]
    simp
  · rw [BitVec.getLsbD_of_ge _ _ (by omega)]
    simp

/-- Clearing all but `p` leading bits keeps those and leaves the first word of the cell. -/
theorem topBits_clear (hpg : p ≤ g) (hg : g ≤ w)
    (hk : ∀ i < w, k.getLsbD i = (h.getLsbD i && decide (w - p ≤ i))) :
    topBits g k = topBits p h * 2 ^ (g - p) := by
  refine Nat.eq_of_testBit_eq (fun i => ?_)
  rw [testBit_topBits, Nat.testBit_mul_two_pow, testBit_topBits]
  by_cases hi : w - g + i < w
  · rw [hk _ hi]
    by_cases hlow : g - p ≤ i
    · have hw : w - p ≤ w - g + i := by omega
      have heq : w - p + (i - (g - p)) = w - g + i := by omega
      simp [hlow, hw, heq]
    · have hw : ¬ w - p ≤ w - g + i := by omega
      simp [hlow, hw]
  · rw [BitVec.getLsbD_of_ge _ _ (by omega), BitVec.getLsbD_of_ge _ _ (by omega)]
    simp

/-- The entries of a block of `n`. -/
theorem div_eq_iff_block {i n q : ℕ} (hn : 0 < n) : i / n = q ↔ q * n ≤ i ∧ i < q * n + n := by
  rw [Nat.div_eq_iff hn]
  constructor <;> rintro ⟨h1, h2⟩ <;> constructor <;> omega

/-! ### Cells -/

section Cell

variable {ι : Type} {f f' : BitVec w → ι} {b b1 b' : ι} {q p' q' : ℕ}

/-- The words that `f` sends to `b` are those whose `p` leading bits are `q`. -/
def Cell (f : BitVec w → ι) (b : ι) (p q : ℕ) : Prop := ∀ h, f h = b ↔ topBits p h = q

theorem Cell.congr (hc : Cell f b p q) (hf : ∀ h, f' h = f h) : Cell f' b p q := fun h => by
  rw [hf]
  exact hc h

/-- `f'` is `f` with the upper half of the cell of `b` sent to `b1`. -/
def Halved (f f' : BitVec w → ι) (b1 : ι) (p q : ℕ) : Prop :=
  ∀ h, (topBits (p + 1) h = 2 * q + 1 → f' h = b1) ∧ (topBits (p + 1) h ≠ 2 * q + 1 → f' h = f h)

theorem Halved.upper (hf : Halved f f' b1 p q) (hb : ∀ h, f h ≠ b1) :
    Cell f' b1 (p + 1) (2 * q + 1) := fun h => by
  by_cases hh : topBits (p + 1) h = 2 * q + 1
  · exact ⟨fun _ => hh, fun _ => (hf h).1 hh⟩
  · rw [(hf h).2 hh]
    exact ⟨fun he => absurd he (hb h), fun he => absurd he hh⟩

theorem Cell.lower (hp : p < w) (hc : Cell f b p q) (hf : Halved f f' b1 p q) (hb : b ≠ b1) :
    Cell f' b (p + 1) (2 * q) := fun h => by
  have hdiv := topBits_succ_div (h := h) hp
  by_cases hh : topBits (p + 1) h = 2 * q + 1
  · rw [(hf h).1 hh]
    exact ⟨fun he => absurd he.symm hb, fun he => by omega⟩
  · rw [(hf h).2 hh, hc h]
    omega

theorem Cell.other (hp : p < w) (hc : Cell f b p q) (hc' : Cell f b' p' q') (hf : Halved f f' b1 p q)
    (hb : b' ≠ b) (hb1 : b' ≠ b1) : Cell f' b' p' q' := fun h => by
  have hdiv := topBits_succ_div (h := h) hp
  by_cases hh : topBits (p + 1) h = 2 * q + 1
  · rw [(hf h).1 hh]
    have hfb : f h = b := (hc h).mpr (by omega)
    exact ⟨fun he => absurd he.symm hb1, fun he => absurd (((hc' h).mpr he).symm.trans hfb) hb⟩
  · rw [(hf h).2 hh]
    exact hc' h

end Cell
