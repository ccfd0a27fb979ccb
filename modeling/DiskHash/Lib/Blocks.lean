import Mathlib.Data.List.Basic
import Mathlib.Data.List.Nodup
import Mathlib.Data.Nat.Init
import Mathlib.Algebra.Order.Group.Nat
import Mathlib.Tactic.Common

/-!
# DiskHash.Lib.Blocks — arrays made of blocks of equal entries

The first `n` entries of `f` are walked block by block: from the first entry of a block the walk goes on to
the next entry that differs from its left neighbour.  `Heads f n i vs` says that the blocks it meets from `i`
on have the values `vs`.  When the entries of each value are in one place, it meets each value once.
-/

section Blocks

variable {α : Type} [DecidableEq α] {f : ℕ → α} {n i : ℕ} {v : α} {vs : List α}

/-- The first of the `n` entries from `i` on that differs from its left neighbour. -/
def blockEnd (f : ℕ → α) : ℕ → ℕ → ℕ
  | 0, i => i
  | n + 1, i => if f i = f (i - 1) then blockEnd f n (i + 1) else i

theorem le_blockEnd (f : ℕ → α) : ∀ n i, i ≤ blockEnd f n i
  | 0, _ => le_rfl
  | n + 1, i => by
    rw [blockEnd]
    split
    · exact (Nat.le_succ i).trans (le_blockEnd f n (i + 1))
    · exact le_rfl

/-- The entries that are passed equal the one on their left. -/
theorem blockEnd_same (f : ℕ → α) : ∀ n i, 0 < i → ∀ k, i ≤ k → k < blockEnd f n i → f k = f (i - 1)
  | 0, i, _, k, h1, h2 => by
    rw [blockEnd] at h2
    omega
  | n + 1, i, hi, k, h1, h2 => by
    rw [blockEnd] at h2
    split at h2
    · next heq =>
      rcases Nat.eq_or_lt_of_le h1 with rfl | hlt
      · exact heq
      · rw [blockEnd_same f n (i + 1) (Nat.zero_lt_succ i) k hlt h2]
        exact heq
    · omega

/-- The walk stops at an entry that differs, if it stops early. -/
theorem blockEnd_differs (f : ℕ → α) : ∀ n i, 0 < i → blockEnd f n i < i + n → f (blockEnd f n i) ≠ f (i - 1)
  | 0, i, _, h => by
    rw [blockEnd] at h
    omega
  | n + 1, i, hi, h => by
    rw [blockEnd] at h ⊢
    split at h
    · next heq =>
      rw [if_pos heq]
      have := blockEnd_differs f n (i + 1) (Nat.zero_lt_succ i) (by omega)
      rwa [Nat.add_sub_cancel, heq] at this
    · next hne =>
      rw [if_neg hne]
      exact hne

/-- The values of the blocks from `i` on. -/
inductive Heads (f : ℕ → α) (n : ℕ) : ℕ → List α → Prop
  | nil {i : ℕ} : n ≤ i → Heads f n i []
  | cons {i : ℕ} {vs : List α} : i < n → Heads f n (blockEnd f (n - (i + 1)) (i + 1)) vs →
      Heads f n i (f i :: vs)

theorem exists_heads (f : ℕ → α) (n i : ℕ) : ∃ vs, Heads f n i vs := by
  induction hk : n - i using Nat.strong_induction_on generalizing i with
  | _ k ih =>
    by_cases hi : n ≤ i
    · exact ⟨[], .nil hi⟩
    · have hle := le_blockEnd f (n - (i + 1)) (i + 1)
      obtain ⟨vs, hvs⟩ := ih _ (by omega) (blockEnd f (n - (i + 1)) (i + 1)) rfl
      exact ⟨_, .cons (by omega) hvs⟩

/-- The values that are met are those of the entries. -/
theorem Heads.mem_iff (h : Heads f n i vs) : v ∈ vs ↔ ∃ k, i ≤ k ∧ k < n ∧ f k = v := by
  induction h with
  | nil hi =>
    constructor
    · intro hv
      cases hv
    · rintro ⟨k, h1, h2, -⟩
      omega
  | @cons i vs hi hvs ih =>
    have hle := le_blockEnd f (n - (i + 1)) (i + 1)
    rw [List.mem_cons, ih]
    constructor
    · rintro (rfl | ⟨k, h1, h2, rfl⟩)
      · exact ⟨i, le_rfl, hi, rfl⟩
      · exact ⟨k, by omega, h2, rfl⟩
    · rintro ⟨k, h1, h2, rfl⟩
      rcases Nat.lt_or_ge k (blockEnd f (n - (i + 1)) (i + 1)) with hlt | hge
      · left
        rcases Nat.eq_or_lt_of_le h1 with rfl | h1
        · rfl
        · exact blockEnd_same f _ _ (Nat.zero_lt_succ i) k h1 hlt
      · exact Or.inr ⟨k, hge, h2, rfl⟩

/-- The entries of each value are in one place. -/
def Blockwise (f : ℕ → α) (n : ℕ) : Prop := ∀ i j k, i ≤ j → j ≤ k → k < n → f i = f k → f j = f i

theorem Heads.nodup (h : Heads f n i vs) (hf : Blockwise f n) : vs.Nodup := by
  induction h with
  | nil _ => exact List.nodup_nil
  | @cons i vs hi hvs ih =>
    refine List.nodup_cons.mpr ⟨fun hm => ?_, ih⟩
    obtain ⟨k, h1, h2, heq⟩ := hvs.mem_iff.mp hm
    have hle := le_blockEnd f (n - (i + 1)) (i + 1)
    -- the block would go on to `k`
    have hdiffers := blockEnd_differs f (n - (i + 1)) (i + 1) (Nat.zero_lt_succ i) (by omega)
    exact hdiffers (hf i _ k (by omega) h1 h2 heq.symm)

end Blocks
