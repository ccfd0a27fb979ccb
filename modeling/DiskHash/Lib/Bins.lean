import DiskHash.Lib.Packing

/-!
# DiskHash.Lib.Bins — items in a row of bins

A row of bins is the list of the items of each bin.  `firstFit` puts an item behind the items of the first bin
with room for it, or into a new bin at the end of the row; `eraseFirst` takes the first item with a property out
of its bin, and the other bins stay as they are.
-/

namespace Packing

variable {α : Type} (size : α → ℕ) (cap : ℕ)

/-- The row after the item `x` is put in. -/
def firstFit (x : α) : List (List α) → List (List α)
  | [] => [[x]]
  | b :: bs => if total size b + size x ≤ cap then (b ++ [x]) :: bs else b :: firstFit x bs

/-- The row without the first item that has the property. -/
def eraseFirst (p : α → Bool) : List (List α) → List (List α)
  | [] => []
  | b :: bs => if b.any p then b.eraseP p :: bs else b :: eraseFirst p bs

variable {size cap} {x : α} {p : α → Bool} {b pre post : List α} {bs bs' : List (List α)}

/-- The bins before the first one with room stay as they are. -/
theorem firstFit_append (hfull : ∀ c ∈ bs, cap < total size c + size x) :
    firstFit size cap x (bs ++ bs') = bs ++ firstFit size cap x bs' := by
  induction bs with
  | nil => rfl
  | cons c bs ih =>
    have hc := hfull c (by simp)
    rw [List.cons_append, firstFit, if_neg (by omega), ih (fun d hd => hfull d (by simp [hd])), List.cons_append]

theorem firstFit_room (hfull : ∀ c ∈ bs, cap < total size c + size x) (hroom : total size b + size x ≤ cap) :
    firstFit size cap x (bs ++ b :: bs') = bs ++ (b ++ [x]) :: bs' := by
  rw [firstFit_append hfull, firstFit, if_pos hroom]

theorem firstFit_full (hfull : ∀ c ∈ bs, cap < total size c + size x) :
    firstFit size cap x bs = bs ++ [[x]] := by
  have happ : firstFit size cap x (bs ++ []) = bs ++ firstFit size cap x [] := firstFit_append hfull
  rwa [List.append_nil] at happ

/-- The bins before the first item with the property stay as they are. -/
theorem eraseFirst_eq (hbefore : ∀ c ∈ bs, ∀ y ∈ c, p y = false) (hpre : ∀ y ∈ pre, p y = false) (hx : p x = true) :
    eraseFirst p (bs ++ (pre ++ x :: post) :: bs') = bs ++ (pre ++ post) :: bs' := by
  induction bs with
  | nil =>
    have hany : (pre ++ x :: post).any p = true := List.any_eq_true.mpr ⟨x, by simp, hx⟩
    have herase : (pre ++ x :: post).eraseP p = pre ++ post := by
      rw [List.eraseP_append_right _ (fun y hy => by rw [hpre y hy]; decide), List.eraseP_cons_of_pos hx]
    rw [List.nil_append, eraseFirst, if_pos hany, herase, List.nil_append]
  | cons c bs ih =>
    have hany : ¬ c.any p = true := by
      rw [List.any_eq_true]
      rintro ⟨y, hy, hpy⟩
      rw [hbefore c (by simp) y hy] at hpy
      cases hpy
    rw [List.cons_append, eraseFirst, if_neg hany, ih (fun d hd => hbefore d (by simp [hd])), List.cons_append]

/-- Without such an item the row stays as it is. -/
theorem eraseFirst_absent (h : ∀ c ∈ bs, ∀ y ∈ c, p y = false) : eraseFirst p bs = bs := by
  induction bs with
  | nil => rfl
  | cons c bs ih =>
    have hany : ¬ c.any p = true := by
      rw [List.any_eq_true]
      rintro ⟨y, hy, hpy⟩
      rw [h c (by simp) y hy] at hpy
      cases hpy
    rw [eraseFirst, if_neg hany, ih (fun d hd => h d (by simp [hd]))]

end Packing
