import Mathlib.Data.List.Basic
import Mathlib.Data.Nat.Notation
import Mathlib.Logic.Function.Basic

/-!
# DiskHash.Lib.Chain — singly linked chains in a store of cells

`Seg next a L b`: starting at the cell `a` and following the links `next`, the cells visited are `L`,
arriving at `b`.  A complete chain is `Seg next a L none`.  The links are a function of the cell, so a
segment survives every update outside the cells it visits.
-/

/-- The cells `L` visited from `a` along `next`, arriving at `b`. -/
def Seg {α : Type} (next : α → Option α) : Option α → List α → Option α → Prop
  | a, [], b => a = b
  | a, i :: L, b => a = some i ∧ Seg next (next i) L b

namespace Seg

variable {α : Type} {next next' : α → Option α} {a b : Option α} {L L₁ L₂ : List α} {i j : α}

@[simp] theorem nil_iff : Seg next a [] b ↔ a = b := Iff.rfl

@[simp] theorem cons_iff : Seg next a (i :: L) b ↔ a = some i ∧ Seg next (next i) L b := Iff.rfl

theorem append_iff : Seg next a (L₁ ++ L₂) b ↔ ∃ c, Seg next a L₁ c ∧ Seg next c L₂ b := by
  induction L₁ generalizing a with
  | nil => simp
  | cons i L ih => simp [ih, and_assoc]

/-- Segments only depend on the links of the cells they visit. -/
theorem congr (h : Seg next a L b) (hc : ∀ i ∈ L, next' i = next i) : Seg next' a L b := by
  induction L generalizing a with
  | nil => exact h
  | cons i L ih =>
    obtain ⟨rfl, h⟩ := h
    refine ⟨rfl, ?_⟩
    rw [hc i List.mem_cons_self]
    exact ih h (fun j hj => hc j (List.mem_cons_of_mem _ hj))

theorem head (h : Seg next (some i) (j :: L) b) : i = j := Option.some.inj h.1

/-- A complete chain visits one sequence of cells. -/
theorem unique (h : Seg next a L none) (h' : Seg next a L₁ none) : L = L₁ := by
  induction L generalizing a L₁ with
  | nil =>
    cases L₁ with
    | nil => rfl
    | cons j L₁ => rw [nil_iff] at h; subst h; exact absurd h'.1 (by simp)
  | cons i L ih =>
    obtain ⟨rfl, h⟩ := h
    cases L₁ with
    | nil => exact absurd h' (by simp)
    | cons j L₁ =>
      obtain ⟨hij, h'⟩ := h'
      cases hij
      rw [ih h h']

/-- What follows a cell of a complete chain. -/
theorem behind (h : Seg next a L none) (hi : i ∈ L) : ∃ L₂, Seg next (next i) L₂ none ∧ ∀ j ∈ L₂, j ∈ L := by
  obtain ⟨L₁, L₂, rfl⟩ := List.append_of_mem hi
  obtain ⟨c, -, -, h⟩ := append_iff.mp h
  exact ⟨L₂, h, fun j hj => by simp [hj]⟩

theorem start_concat (h : Seg next a (L ++ [i]) b) : Seg next a L (some i) := by
  obtain ⟨c, h, rfl, -⟩ := append_iff.mp h
  exact h

/-- Redirecting the last link redirects the segment. -/
theorem relink (h : Seg next a (L ++ [i]) b) (hn : ∀ j ∈ L, next' j = next j) :
    Seg next' a (L ++ [i]) (next' i) :=
  append_iff.mpr ⟨some i, (start_concat h).congr hn, rfl, rfl⟩

/-- Two segments one after the other, the first redirected to the second. -/
theorem trans {c : Option α} (h : Seg next a L₁ b) (h' : Seg next b L₂ c) :
    Seg next a (L₁ ++ L₂) c := append_iff.mpr ⟨b, h, h'⟩

/-- The link of a cell of a complete chain is the next cell of the chain. -/
theorem next_getElem? (h : Seg next a L none) {m : ℕ} (hm : L[m]? = some i) : next i = L[m + 1]? := by
  induction L generalizing a m with
  | nil => simp at hm
  | cons j L ih =>
    obtain ⟨rfl, h⟩ := h
    cases m with
    | zero =>
      obtain rfl : j = i := by simpa using hm
      cases L with
      | nil => simpa using h
      | cons k L => simpa using h.1
    | succ m => simpa using ih h (by simpa using hm)

theorem head_mem (h : Seg next (some i) L none) : i ∈ L := by
  cases L with
  | nil => exact absurd h (by simp)
  | cons j L => rw [head h]; exact List.mem_cons_self

end Seg
