import DiskHash.Lib.Machine

/-!
# DiskHash.Lib.Sweep — collecting the elements of an object part by part while others change it

An object has parts, and every element belongs to one part for good.  A sweep visits the parts one after the
other and collects what each holds at that moment; in between others call the object.  What it collects is not
what the object held at any one moment, but it has no element twice, every element that was there at all
moments, and only elements that were there at some moment.
-/

section Sweep

variable {σ δ ι ο α : Type} {step : σ → ι → ο → σ → Prop} {visit : σ → ℕ → List α → σ → Prop} {n : ℕ}

/-- A sweep: the object, the part to visit next, and what has been collected. -/
structure Sweep (σ α : Type) where
  object : σ
  next : ℕ
  found : List α

/-- While a sweep over `n` parts goes on, another call acts or the next part is visited. -/
inductive Sweeps (step : σ → ι → ο → σ → Prop) (visit : σ → ℕ → List α → σ → Prop) (n : ℕ) :
    Sweep σ α → Option ι → Option ο → Sweep σ α → Prop
  | call {s s' : σ} {i : ι} {o : ο} (p : ℕ) (l : List α) :
      step s i o s' → Sweeps step visit n ⟨s, p, l⟩ (some i) (some o) ⟨s', p, l⟩
  | visit {s s' : σ} {p : ℕ} {l' : List α} (l : List α) : p < n → visit s p l' s' →
      Sweeps step visit n ⟨s, p, l⟩ none none ⟨s', p + 1, l ++ l'⟩

/-- The states of a specification at the moments before, between and after the events. -/
def moments (spec : δ → ι → ο × δ) : δ → List (Option ι) → List δ
  | d, [] => [d]
  | d, some i :: es => d :: moments spec (spec d i).2 es
  | d, none :: es => d :: moments spec d es

/-- Visits alone leave one moment after the other as it was. -/
theorem eq_of_mem_moments (spec : δ → ι → ο × δ) {d e : δ} {m : ℕ}
    (h : e ∈ moments spec d (List.replicate m none)) : e = d := by
  induction m with
  | zero => exact List.mem_singleton.mp h
  | succ m ih =>
    rcases List.mem_cons.mp h with he | he
    · exact he
    · exact ih he

/-- What a sweep from part `p` to part `q` collects, when `Has d a` says that `a` is there at a moment. -/
structure Collects (home : α → ℕ) (Has : δ → α → Prop) (ds : List δ) (p q : ℕ) (l : List α) : Prop where
  nodup : l.Nodup
  some_moment : ∀ a ∈ l, p ≤ home a ∧ home a < q ∧ ∃ d ∈ ds, Has d a
  all_moments : ∀ a, p ≤ home a → home a < q → (∀ d ∈ ds, Has d a) → a ∈ l

namespace Collects

variable {home : α → ℕ} {Has : δ → α → Prop} {ds : List δ} {d : δ} {p q : ℕ} {l l' : List α}

theorem nil : Collects home Has ds p p [] :=
  ⟨List.nodup_nil, by simp, fun _ h h' => absurd h' (Nat.not_lt.mpr h)⟩

/-- A moment in which nothing is visited. -/
theorem later (h : Collects home Has ds p q l) : Collects home Has (d :: ds) p q l := by
  refine ⟨h.nodup, fun a ha => ?_, fun a hp hq hall => h.all_moments a hp hq fun e he => hall e (.tail _ he)⟩
  obtain ⟨hp, hq, e, he, hhas⟩ := h.some_moment a ha
  exact ⟨hp, hq, e, .tail _ he, hhas⟩

/-- A moment in which the first part is visited. -/
theorem visited (h : Collects home Has ds (p + 1) q l) (hpq : p < q) (hn : l'.Nodup)
    (hmem : ∀ a, a ∈ l' ↔ home a = p ∧ Has d a) : Collects home Has (d :: ds) p q (l' ++ l) := by
  refine ⟨List.nodup_append.mpr ⟨hn, h.nodup, ?_⟩, fun a ha => ?_, fun a hp hq hall => ?_⟩
  · rintro a ha b hb rfl
    have := ((hmem a).mp ha).1
    have := (h.some_moment a hb).1
    omega
  · rcases List.mem_append.mp ha with ha | ha
    · obtain ⟨hhome, hhas⟩ := (hmem a).mp ha
      exact ⟨Nat.le_of_eq hhome.symm, hhome ▸ hpq, d, .head _, hhas⟩
    · obtain ⟨hp, hq, e, he, hhas⟩ := h.some_moment a ha
      exact ⟨by omega, hq, e, .tail _ he, hhas⟩
  · rcases Nat.eq_or_lt_of_le hp with heq | hlt
    · exact List.mem_append_left _ ((hmem a).mpr ⟨heq.symm, hall d (.head _)⟩)
    · exact List.mem_append_right _ (h.all_moments a hlt hq fun e he => hall e (.tail _ he))

end Collects

/-- The parts are visited in their order. -/
theorem Run.sweep_next {w w' : Sweep σ α} {tr : List (Option ι × Option ο)}
    (h : Run (Sweeps step visit n) w tr w') : w.next ≤ w'.next := by
  induction h with
  | nil => exact Nat.le_refl _
  | cons hs _ ih =>
    cases hs with
    | call p l hs => exact ih
    | visit l hp hv => exact Nat.le_of_succ_le ih

/-- A sweep of an object that refines the specification collects what the specification has. -/
theorem Run.sweep (spec : δ → ι → ο × δ) (home : α → ℕ) (Has : δ → α → Prop) {R : σ → δ → Prop}
    (hstep : ∀ s i o s' d, R s d → step s i o s' → R s' (spec d i).2)
    (hvisit : ∀ s p l s' d, R s d → p < n → visit s p l s' →
      R s' d ∧ l.Nodup ∧ ∀ a, a ∈ l ↔ home a = p ∧ Has d a)
    {w w' : Sweep σ α} {tr : List (Option ι × Option ο)} (h : Run (Sweeps step visit n) w tr w') {d : δ}
    (hd : R w.object d) : (∃ e ∈ moments spec d (tr.map Prod.fst), R w'.object e) ∧
      ∃ l, w'.found = w.found ++ l ∧ Collects home Has (moments spec d (tr.map Prod.fst)) w.next w'.next l := by
  induction h generalizing d with
  | nil => exact ⟨⟨d, .head _, hd⟩, [], (List.append_nil _).symm, .nil⟩
  | cons hs hrest ih =>
    cases hs with
    | call p l hs =>
      obtain ⟨⟨e, he, hR⟩, l', hfound, hc⟩ := ih (hstep _ _ _ _ _ hd hs)
      exact ⟨⟨e, .tail _ he, hR⟩, l', hfound, hc.later⟩
    | @visit s s' p l' l hp hv =>
      obtain ⟨hR', hn, hmem⟩ := hvisit _ _ _ _ _ hd hp hv
      obtain ⟨⟨e, he, hR⟩, l'', hfound, hc⟩ := ih hR'
      exact ⟨⟨e, .tail _ he, hR⟩, l' ++ l'', by rw [hfound, List.append_assoc],
        hc.visited hrest.sweep_next hn hmem⟩

end Sweep
