import Mathlib.Data.List.Basic
import Mathlib.Tactic.Common

/-!
# DiskHash.Lib.Machine — components that answer calls, their runs and refinement

A component is given by a relation `step s i o s'`: the call `i` made in the state `s` may answer `o` and
leave the state `s'`.  `Run` is a sequence of such calls with their answers.  A specification is a
function: it has exactly one answer to each call, and `replay` gives its answers to a sequence.  A component
refines it when every step preserves a relation between the two states and gives the specified answer.
`Along` is a property of every step of a machine that is a function.
-/

section Machine

variable {σ δ ι ο : Type} {step : σ → ι → ο → σ → Prop}

/-- A sequence of calls with their answers. -/
inductive Run (step : σ → ι → ο → σ → Prop) : σ → List (ι × ο) → σ → Prop
  | nil (s : σ) : Run step s [] s
  | cons {s s' s'' : σ} {i : ι} {o : ο} {tr : List (ι × ο)} :
      step s i o s' → Run step s' tr s'' → Run step s ((i, o) :: tr) s''

namespace Run

theorem single {s s' : σ} {i : ι} {o : ο} (h : step s i o s') : Run step s [(i, o)] s' := .cons h (.nil _)

theorem append {s s' s'' : σ} {tr tr' : List (ι × ο)} (h : Run step s tr s') (h' : Run step s' tr' s'') :
    Run step s (tr ++ tr') s'' := by
  induction h with
  | nil => exact h'
  | cons hs _ ih => exact .cons hs (ih h')

/-- A run of two lists passes through a state between them. -/
theorem append_iff {s s'' : σ} {tr tr' : List (ι × ο)} :
    Run step s (tr ++ tr') s'' ↔ ∃ s', Run step s tr s' ∧ Run step s' tr' s'' := by
  constructor
  · intro h
    induction tr generalizing s with
    | nil => exact ⟨s, .nil s, h⟩
    | cons e tr ih =>
      cases h with
      | cons hs hrest =>
        obtain ⟨s', h, h'⟩ := ih hrest
        exact ⟨s', .cons hs h, h'⟩
  · rintro ⟨s', h, h'⟩
    exact h.append h'

/-- A machine that simulates another one step by step has its runs. -/
theorem simulates {step' : δ → ι → ο → δ → Prop} {R : σ → δ → Prop}
    (hstep : ∀ s i o s' d, R s d → step s i o s' → ∃ d', step' d i o d' ∧ R s' d')
    {s s' : σ} {tr : List (ι × ο)} (h : Run step s tr s') {d : δ} (hd : R s d) :
    ∃ d', Run step' d tr d' ∧ R s' d' := by
  induction h generalizing d with
  | nil => exact ⟨d, .nil d, hd⟩
  | cons hs _ ih =>
    obtain ⟨d₁, hs', hd₁⟩ := hstep _ _ _ _ _ hd hs
    obtain ⟨d₂, hrest, hd₂⟩ := ih hd₁
    exact ⟨d₂, .cons hs' hrest, hd₂⟩

/-- What every step preserves holds at the end of every run. -/
theorem invariant {P : σ → Prop} (hstep : ∀ s i o s', P s → step s i o s' → P s') {s s' : σ}
    {tr : List (ι × ο)} (h : Run step s tr s') (hs : P s) : P s' := by
  induction h with
  | nil => exact hs
  | cons hstep' _ ih => exact ih (hstep _ _ _ _ hs hstep')

end Run

/-! ### Specifications -/

/-- The answers of a specification to a sequence of calls, and its state after them. -/
def replay (spec : δ → ι → ο × δ) : δ → List ι → List ο × δ
  | d, [] => ([], d)
  | d, i :: is => ((spec d i).1 :: (replay spec (spec d i).2 is).1, (replay spec (spec d i).2 is).2)

@[simp] theorem length_replay (spec : δ → ι → ο × δ) (d : δ) (is : List ι) :
    (replay spec d is).1.length = is.length := by
  induction is generalizing d with
  | nil => rfl
  | cons i is ih => simp [replay, ih]

theorem replay_append (spec : δ → ι → ο × δ) (d : δ) (is is' : List ι) :
    replay spec d (is ++ is') = ((replay spec d is).1 ++ (replay spec (replay spec d is).2 is').1,
      (replay spec (replay spec d is).2 is').2) := by
  induction is generalizing d with
  | nil => rfl
  | cons i is ih => simp [replay, ih]

/-- A run gives the answers of the specification and ends in a related state, if every step does. -/
theorem Run.refines (spec : δ → ι → ο × δ) {R : σ → δ → Prop}
    (hstep : ∀ s i o s' d, R s d → step s i o s' → o = (spec d i).1 ∧ R s' (spec d i).2)
    {s s' : σ} {tr : List (ι × ο)} (h : Run step s tr s') {d : δ} (hd : R s d) :
    tr.map Prod.snd = (replay spec d (tr.map Prod.fst)).1 ∧ R s' (replay spec d (tr.map Prod.fst)).2 := by
  induction h generalizing d with
  | nil => exact ⟨rfl, hd⟩
  | cons hs _ ih =>
    obtain ⟨ho, hR⟩ := hstep _ _ _ _ _ hd hs
    obtain ⟨h1, h2⟩ := ih hR
    exact ⟨by simp [replay, ho, h1], h2⟩

/-! ### Every step of a run -/

/-- Every step that the calls make from `s` on has the property. -/
def Along (next : σ → ι → σ) (P : σ → ι → Prop) : σ → List ι → Prop
  | _, [] => True
  | s, i :: is => P s i ∧ Along next P (next s i) is

section Along

variable {next : σ → ι → σ} {P Q : σ → ι → Prop}

theorem along_of_forall (h : ∀ s i, P s i) : ∀ {s : σ} {is : List ι}, Along next P s is
  | _, [] => trivial
  | s, i :: _ => ⟨h s i, along_of_forall h⟩

theorem along_append (s : σ) (is is' : List ι) :
    Along next P s (is ++ is') ↔ Along next P s is ∧ Along next P (is.foldl next s) is' := by
  induction is generalizing s with
  | nil => simp [Along]
  | cons i is ih => simp only [List.cons_append, Along, ih, List.foldl_cons, and_assoc]

/-- Two properties hold along the same runs, if they are the same for the states of an invariant and the steps
with the property keep it. -/
theorem along_congr {I : σ → Prop} {is : List ι} (hiff : ∀ i ∈ is, ∀ s, I s → (P s i ↔ Q s i))
    (hnext : ∀ i ∈ is, ∀ s, I s → Q s i → I (next s i)) {s : σ} (hs : I s) :
    (Along next P s is ↔ Along next Q s is) ∧ (Along next Q s is → I (is.foldl next s)) := by
  induction is generalizing s with
  | nil => exact ⟨Iff.rfl, fun _ => hs⟩
  | cons i is ih =>
    obtain ⟨hi, his⟩ := List.forall_mem_cons.mp hiff
    obtain ⟨hn, hns⟩ := List.forall_mem_cons.mp hnext
    have hrest : Q s i → (Along next P (next s i) is ↔ Along next Q (next s i) is) ∧
        (Along next Q (next s i) is → I (is.foldl next (next s i))) := fun hq => ih his hns (hn s hs hq)
    refine ⟨?_, fun h => (hrest h.1).2 h.2⟩
    unfold Along
    rw [hi s hs]
    exact and_congr_right fun hq => (hrest hq).1

end Along

end Machine
