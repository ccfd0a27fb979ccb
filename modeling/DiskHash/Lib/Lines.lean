import Mathlib.Data.List.DropRight

/-!
# DiskHash.Lib.Lines — texts made of lines

The lines of a text are the parts between separators that are not empty.  A text written line by line has the
lines it was written from, and trimming separators off its ends loses none.
-/

section Lines

variable {α : Type} [DecidableEq α] {sep : α} {space : α → Bool}

/-- The parts of a text between separators that are not empty. -/
def lines (sep : α) (t : List α) : List (List α) := (t.splitOn sep).filter (· ≠ [])

/-- A text without the spaces at its ends. -/
def trim (space : α → Bool) (t : List α) : List α := (t.dropWhile space).rdropWhile space

/-- A line in front of a text. -/
theorem lines_line {l : List α} (h : sep ∉ l) (t : List α) :
    lines sep (l ++ sep :: t) = [l].filter (· ≠ []) ++ lines sep t := by
  unfold lines
  rw [List.splitOn_append_cons_self_of_not_mem h, ← List.singleton_append, List.filter_append]

theorem lines_cons_sep (t : List α) : lines sep (sep :: t) = lines sep t := lines_line (l := []) (by simp) t

theorem lines_concat_sep (t : List α) : lines sep (t ++ [sep]) = lines sep t := by
  unfold lines
  rw [List.splitOn_append_cons_self, List.filter_append]
  exact List.append_nil _

/-- A text written line by line. -/
theorem lines_flatMap {ls : List (List α)} (h : ∀ l ∈ ls, sep ∉ l) :
    lines sep (ls.flatMap (· ++ [sep])) = ls.filter (· ≠ []) := by
  induction ls with
  | nil => rfl
  | cons l ls ih =>
    obtain ⟨hl, hls⟩ := List.forall_mem_cons.mp h
    rw [List.flatMap_cons, List.append_assoc, List.singleton_append, lines_line hl, ih hls,
      ← List.filter_append, List.singleton_append]

section Trim

variable {t : List α}

theorem lines_dropWhile (h : ∀ c ∈ t, space c = true → c = sep) :
    lines sep (t.dropWhile space) = lines sep t := by
  induction t with
  | nil => rfl
  | cons c t ih =>
    obtain ⟨hc, ht⟩ := List.forall_mem_cons.mp h
    by_cases hs : space c = true
    · rw [List.dropWhile_cons_of_pos hs, ih ht, hc hs, lines_cons_sep]
    · rw [List.dropWhile_cons_of_neg hs]

theorem lines_rdropWhile (h : ∀ c ∈ t, space c = true → c = sep) :
    lines sep (t.rdropWhile space) = lines sep t := by
  induction t using List.reverseRecOn with
  | nil => rfl
  | append_singleton t c ih =>
    by_cases hs : space c = true
    · rw [List.rdropWhile_concat_pos _ _ _ hs, ih fun x hx => h x (List.mem_append_left _ hx),
        h c (by simp) hs, lines_concat_sep]
    · rw [List.rdropWhile_concat_neg _ _ _ hs]

/-- Trimming a text that has no spaces but separators. -/
theorem lines_trim (h : ∀ c ∈ t, space c = true → c = sep) : lines sep (trim space t) = lines sep t := by
  unfold trim
  rw [lines_rdropWhile fun c hc => h c ((List.dropWhile_sublist _).subset hc), lines_dropWhile h]

end Trim

end Lines
