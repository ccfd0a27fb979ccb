import Mathlib.Logic.Relation
import Mathlib.Tactic.Common

/-!
# DiskHash.Lib.Prog — programs with a state and exceptions, and their rules

`Prog ε σ α` is a program over a state `σ` that returns an `α` or throws an `ε`.  An exception keeps
the state it was thrown in, as in a language whose objects survive a `throw`.  `Runs m s Q E` says
that `m` started in `s` either returns with `Q` or throws with `E`; one rule for every way to build
a program.  Loops carry fuel, and running out of it is one of the exceptions, so the same rules speak
about total and about partial correctness.
-/

namespace Prog

/-- How a program ends: with a result, or with an exception. -/
inductive Outcome (ε σ α : Type)
  | ok (a : α) (s : σ)
  | error (e : ε) (s : σ)

/-- The state at the end, with an exception caught. -/
def Outcome.state {ε σ α : Type} : Outcome ε σ α → σ
  | .ok _ s => s
  | .error _ s => s

/-- It ended with an exception. -/
def Outcome.Threw {ε σ α : Type} : Outcome ε σ α → Prop
  | .ok _ _ => False
  | .error _ _ => True

end Prog

/-- A program over the state `σ` that may throw an `ε`. -/
def Prog (ε σ α : Type) : Type := σ → Prog.Outcome ε σ α

namespace Prog

variable {ε σ τ α β : Type}

protected def bind (m : Prog ε σ α) (f : α → Prog ε σ β) : Prog ε σ β := fun s =>
  match m s with
  | .ok a s' => f a s'
  | .error e s' => .error e s'

instance : Monad (Prog ε σ) where
  pure a := fun s => .ok a s
  bind := Prog.bind

/-- Read the state. -/
def get : Prog ε σ σ := fun s => .ok s s

/-- Change the state. -/
def modify (f : σ → σ) : Prog ε σ Unit := fun s => .ok () (f s)

def throw (e : ε) : Prog ε σ α := fun s => .error e s

/-- Throw unless the condition holds. -/
def check (b : Prop) [Decidable b] (e : ε) : Prog ε σ Unit := if b then pure () else throw e

/-- A computation that does not look at the state. -/
def lift : Except ε α → Prog ε σ α
  | .ok a => pure a
  | .error e => throw e

/-- Run a program on the part `part` of a larger state. -/
def zoom (part : σ → τ) (put : τ → σ → σ) (m : Prog ε τ α) : Prog ε σ α := fun s =>
  match m (part s) with
  | .ok a t => .ok a (put t s)
  | .error e t => .error e (put t s)

/-- `m` started in `s` returns with `Q` or throws with `E`. -/
def Runs (m : Prog ε σ α) (s : σ) (Q : α → σ → Prop) (E : ε → σ → Prop) : Prop :=
  match m s with
  | .ok a s' => Q a s'
  | .error e s' => E e s'

section Rules

variable {m : Prog ε σ α} {s s' : σ} {Q Q' : α → σ → Prop} {E E' : ε → σ → Prop}

theorem Runs.mono (h : Runs m s Q E) (hQ : ∀ a r, Q a r → Q' a r) (hE : ∀ e r, E e r → E' e r) :
    Runs m s Q' E' := by
  unfold Runs at *
  cases hm : m s with
  | ok a r => rw [hm] at h; exact hQ a r h
  | error e r => rw [hm] at h; exact hE e r h

theorem Runs.of_ok (h : Runs m s Q E) {a : α} (hm : m s = .ok a s') : Q a s' := by
  unfold Runs at h
  rw [hm] at h
  exact h

theorem Runs.of_error (h : Runs m s Q E) {e : ε} (hm : m s = .error e s') : E e s' := by
  unfold Runs at h
  rw [hm] at h
  exact h

theorem runs_self (m : Prog ε σ α) (s : σ) : Runs m s (fun a r => m s = .ok a r) (fun e r => m s = .error e r) := by
  unfold Runs
  cases m s <;> rfl

/-- What a caller sees that catches the exception. -/
theorem runs_outcome {R : Prop → σ → Prop} : Runs m s (fun _ r => R False r) (fun _ r => R True r) ↔
    R (m s).Threw (m s).state := by
  unfold Runs
  cases m s <;> rfl

/-- A program with one possible end has that end. -/
theorem Runs.eq_ok {a : α} (h : Runs m s (fun b r => b = a ∧ r = s') (fun _ _ => False)) :
    m s = .ok a s' := by
  unfold Runs at h
  cases hm : m s with
  | ok b r => rw [hm] at h; rw [h.1, h.2]
  | error e r => rw [hm] at h; exact h.elim

theorem Runs.eq_error {e : ε} (h : Runs m s (fun _ _ => False) (fun e' r => e' = e ∧ r = s')) :
    m s = .error e s' := by
  unfold Runs at h
  cases hm : m s with
  | ok b r => rw [hm] at h; exact h.elim
  | error e' r => rw [hm] at h; rw [h.1, h.2]

/-- A program that cannot throw returns. -/
theorem Runs.returns (h : Runs m s Q E) (hE : ∀ e r, ¬ E e r) : ∃ a r, m s = .ok a r ∧ Q a r := by
  unfold Runs at h
  cases hm : m s with
  | ok a r => rw [hm] at h; exact ⟨a, r, rfl, h⟩
  | error e r => rw [hm] at h; exact absurd h (hE e r)

/-- A program that cannot return throws. -/
theorem Runs.throws (h : Runs m s Q E) (hQ : ∀ a r, ¬ Q a r) : ∃ e r, m s = .error e r ∧ E e r := by
  unfold Runs at h
  cases hm : m s with
  | ok a r => rw [hm] at h; exact absurd h (hQ a r)
  | error e r => rw [hm] at h; exact ⟨e, r, rfl, h⟩

theorem bind_assoc {γ : Type} (m : Prog ε σ α) (f : α → Prog ε σ β) (g : β → Prog ε σ γ) :
    m >>= f >>= g = m >>= fun a => f a >>= g := by
  funext s
  show Prog.bind (Prog.bind m f) g s = Prog.bind m (fun a => Prog.bind (f a) g) s
  unfold Prog.bind
  cases m s <;> rfl

@[simp] theorem runs_pure (a : α) : Runs (pure a : Prog ε σ α) s Q E ↔ Q a s := Iff.rfl

@[simp] theorem runs_get {Q : σ → σ → Prop} : Runs (get : Prog ε σ σ) s Q E ↔ Q s s := Iff.rfl

@[simp] theorem runs_modify (f : σ → σ) {Q : Unit → σ → Prop} :
    Runs (modify f : Prog ε σ Unit) s Q E ↔ Q () (f s) := Iff.rfl

@[simp] theorem runs_throw (e : ε) : Runs (throw e : Prog ε σ α) s Q E ↔ E e s := Iff.rfl

@[simp] theorem runs_bind (f : α → Prog ε σ β) {Q : β → σ → Prop} :
    Runs (m >>= f) s Q E ↔ Runs m s (fun a r => Runs (f a) r Q E) E := by
  show Runs (Prog.bind m f) s Q E ↔ _
  unfold Runs Prog.bind
  cases m s <;> rfl

/-- A sequence whose first part is known to return. -/
theorem runs_bind_of_ok {a : α} (h : m s = .ok a s') (f : α → Prog ε σ β) {Q : β → σ → Prop} :
    Runs (m >>= f) s Q E ↔ Runs (f a) s' Q E := by
  show Runs (Prog.bind m f) s Q E ↔ _
  unfold Runs Prog.bind
  rw [h]

/-- A sequence whose first part is known to throw. -/
theorem runs_bind_of_error {e : ε} (h : m s = .error e s') (f : α → Prog ε σ β) {Q : β → σ → Prop} :
    Runs (m >>= f) s Q E ↔ E e s' := by
  show Runs (Prog.bind m f) s Q E ↔ _
  unfold Runs Prog.bind
  rw [h]

@[simp] theorem runs_lift_ok (a : α) : Runs (lift (.ok a) : Prog ε σ α) s Q E ↔ Q a s := Iff.rfl

@[simp] theorem runs_check (b : Prop) [Decidable b] (e : ε) {Q : Unit → σ → Prop} :
    Runs (check b e : Prog ε σ Unit) s Q E ↔ (b → Q () s) ∧ (¬ b → E e s) := by
  unfold check
  by_cases h : b
  · rw [if_pos h]; simp [h]
  · rw [if_neg h]; simp [h]

@[simp] theorem runs_zoom (part : σ → τ) (put : τ → σ → σ) (m : Prog ε τ α) :
    Runs (zoom part put m) s Q E ↔
      Runs m (part s) (fun a t => Q a (put t s)) (fun e t => E e (put t s)) := by
  unfold Runs zoom
  cases m (part s) <;> rfl

/-- How a sequence returns. -/
theorem bind_eq_ok {f : α → Prog ε σ β} {b : β} :
    (m >>= f) s = .ok b s' ↔ ∃ a r, m s = .ok a r ∧ f a r = .ok b s' := by
  show Prog.bind m f s = _ ↔ _
  unfold Prog.bind
  cases hm : m s with
  | ok a r => simp
  | error e r => simp

/-- How a sequence throws. -/
theorem bind_eq_error {f : α → Prog ε σ β} {e : ε} :
    (m >>= f) s = .error e s' ↔ m s = .error e s' ∨ ∃ a r, m s = .ok a r ∧ f a r = .error e s' := by
  show Prog.bind m f s = _ ↔ _
  unfold Prog.bind
  cases hm : m s with
  | ok a r => simp
  | error e r => simp

theorem runs_ite {c : Prop} [Decidable c] {m₁ m₂ : Prog ε σ α} (h₁ : c → Runs m₁ s Q E)
    (h₂ : ¬ c → Runs m₂ s Q E) : Runs (if c then m₁ else m₂) s Q E := by
  by_cases h : c
  · rw [if_pos h]; exact h₁ h
  · rw [if_neg h]; exact h₂ h

end Rules

/-! ### Programs that only read -/

section Reads

variable {m : Prog ε σ α}

/-- The program leaves every state as it is, whether it returns or throws. -/
def Reads (m : Prog ε σ α) : Prop := ∀ s, (m s).state = s

theorem Reads.eq_of_ok (hm : m.Reads) {s t : σ} {a : α} (h : m s = .ok a t) : t = s := by
  have hs := hm s
  rw [h] at hs
  exact hs

/-- What a program that only reads is known to do it does in the state it began in. -/
theorem Reads.runs (hm : m.Reads) {s : σ} {Q : α → σ → Prop} {E : ε → σ → Prop} (h : Runs m s Q E) :
    Runs m s (fun a r => r = s ∧ Q a r) (fun e r => r = s ∧ E e r) := by
  have hs := hm s
  unfold Runs at *
  cases hms : m s with
  | ok a r =>
    rw [hms] at h hs
    exact ⟨hs, h⟩
  | error e r =>
    rw [hms] at h hs
    exact ⟨hs, h⟩

theorem reads_pure (a : α) : (pure a : Prog ε σ α).Reads := fun _ => rfl

theorem reads_get : (get : Prog ε σ σ).Reads := fun _ => rfl

theorem reads_throw (e : ε) : (throw e : Prog ε σ α).Reads := fun _ => rfl

theorem reads_lift (x : Except ε α) : (lift x : Prog ε σ α).Reads := by
  cases x <;> exact fun _ => rfl

theorem reads_check (b : Prop) [Decidable b] (e : ε) : (check b e : Prog ε σ Unit).Reads := by
  unfold check
  by_cases h : b
  · rw [if_pos h]
    exact reads_pure ()
  · rw [if_neg h]
    exact reads_throw e

theorem Reads.bind {f : α → Prog ε σ β} (hm : m.Reads) (hf : ∀ a, (f a).Reads) : (m >>= f).Reads := by
  intro s
  have hs := hm s
  show (Prog.bind m f s).state = s
  unfold Prog.bind
  cases hms : m s with
  | ok a r =>
    rw [hms] at hs
    exact (hf a r).trans hs
  | error e r =>
    rw [hms] at hs
    exact hs

theorem Reads.ite {c : Prop} [Decidable c] {m' : Prog ε σ α} (hm : m.Reads) (hm' : m'.Reads) :
    (if c then m else m').Reads := by
  by_cases h : c
  · rwa [if_pos h]
  · rwa [if_neg h]

/-- A part that is put back as it was. -/
theorem Reads.zoom {part : σ → τ} {put : τ → σ → σ} {m : Prog ε τ α} (hm : m.Reads) (hput : ∀ s, put (part s) s = s) :
    (zoom part put m).Reads := by
  intro s
  have hs := hm (part s)
  unfold Prog.zoom
  cases hms : m (part s) with
  | ok a t =>
    rw [hms] at hs
    exact (show t = part s from hs) ▸ hput s
  | error e t =>
    rw [hms] at hs
    exact (show t = part s from hs) ▸ hput s

end Reads

/-! ### Properties of the state that a program keeps -/

section Keeps

variable {I : σ → Prop} {m : Prog ε σ α}

/-- Whether it returns or throws, the program leaves a state with the property when it finds one. -/
def Keeps (I : σ → Prop) (m : Prog ε σ α) : Prop := ∀ s, I s → I (m s).state

theorem Reads.keeps (hm : m.Reads) : m.Keeps I := by
  intro s hs
  rwa [hm s]

theorem keeps_pure (a : α) : (pure a : Prog ε σ α).Keeps I := (reads_pure a).keeps

theorem keeps_get : (get : Prog ε σ σ).Keeps I := reads_get.keeps

theorem keeps_throw (e : ε) : (throw e : Prog ε σ α).Keeps I := (reads_throw e).keeps

theorem keeps_lift (x : Except ε α) : (lift x : Prog ε σ α).Keeps I := (reads_lift x).keeps

theorem keeps_check (b : Prop) [Decidable b] (e : ε) : (check b e : Prog ε σ Unit).Keeps I := (reads_check b e).keeps

theorem keeps_modify {f : σ → σ} (h : ∀ s, I s → I (f s)) : (modify f : Prog ε σ Unit).Keeps I := h

theorem keeps_of_runs (h : ∀ s, I s → Runs m s (fun _ r => I r) (fun _ r => I r)) : m.Keeps I := fun s hs =>
  (runs_outcome (R := fun _ r => I r)).mp (h s hs)

theorem Keeps.runs (hm : m.Keeps I) {s : σ} (hs : I s) : Runs m s (fun _ r => I r) (fun _ r => I r) :=
  (runs_outcome (R := fun _ r => I r)).mpr (hm s hs)

theorem Keeps.bind {f : α → Prog ε σ β} (hm : m.Keeps I) (hf : ∀ a, (f a).Keeps I) : (m >>= f).Keeps I :=
  keeps_of_runs fun _ hs => (runs_bind f).mpr <| (hm.runs hs).mono (fun a _ hr => (hf a).runs hr) fun _ _ hr => hr

theorem Keeps.ite {c : Prop} [Decidable c] {m' : Prog ε σ α} (hm : m.Keeps I) (hm' : m'.Keeps I) :
    (if c then m else m').Keeps I := by
  by_cases h : c
  · rwa [if_pos h]
  · rwa [if_neg h]

/-- A property of a part. -/
theorem Keeps.zoom {J : τ → Prop} {part : σ → τ} {put : τ → σ → σ} {m : Prog ε τ α} (hm : m.Keeps J)
    (hpart : ∀ s, I s → J (part s)) (hput : ∀ s t, I s → J t → I (put t s)) : (zoom part put m).Keeps I :=
  keeps_of_runs fun s hs => (runs_zoom part put m).mpr <|
    (hm.runs (hpart s hs)).mono (fun _ r hr => hput s r hs hr) fun _ r hr => hput s r hs hr

end Keeps

/-! ### Programs that read a part of a state -/

section Confined

variable {R : σ → σ → Prop} {e : ε} {m : Prog ε σ α}

/-- The program ends in the same way in related states and changes neither, or in the first of them it ends with
`e`: there it asked for what only the second has. -/
def Confined (R : σ → σ → Prop) (e : ε) (m : Prog ε σ α) : Prop :=
  ∀ s s', R s s' → m s = .error e s ∨ (∃ a, m s = .ok a s ∧ m s' = .ok a s') ∨
    ∃ e', m s = .error e' s ∧ m s' = .error e' s'

theorem confined_pure (a : α) : (pure a : Prog ε σ α).Confined R e := fun _ _ _ => .inr (.inl ⟨a, rfl, rfl⟩)

theorem confined_throw (e' : ε) : (throw e' : Prog ε σ α).Confined R e := fun _ _ _ => .inr (.inr ⟨e', rfl, rfl⟩)

theorem confined_lift (x : Except ε α) : (lift x : Prog ε σ α).Confined R e := by
  cases x with
  | ok a => exact confined_pure a
  | error e' => exact confined_throw e'

theorem confined_unless (b : Prop) [Decidable b] (e' : ε) : (check b e' : Prog ε σ Unit).Confined R e := by
  unfold check
  by_cases h : b
  · rw [if_pos h]
    exact confined_pure ()
  · rw [if_neg h]
    exact confined_throw e'

/-- A program that is another one in related states. -/
theorem Confined.congr {m' : Prog ε σ α} (hm : m.Confined R e) (h : ∀ s s', R s s' → m' s = m s ∧ m' s' = m s') :
    m'.Confined R e := by
  intro s s' hR
  rw [(h s s' hR).1, (h s s' hR).2]
  exact hm s s' hR

theorem Confined.bind {f : α → Prog ε σ β} (hm : m.Confined R e) (hf : ∀ a, (f a).Confined R e) :
    (m >>= f).Confined R e := by
  intro s s' h
  rcases hm s s' h with herr | ⟨a, hs, hs'⟩ | ⟨e', hs, hs'⟩
  · exact .inl (bind_eq_error.mpr (.inl herr))
  · have hbind : (m >>= f) s = f a s := show Prog.bind m f s = _ by unfold Prog.bind; rw [hs]
    have hbind' : (m >>= f) s' = f a s' := show Prog.bind m f s' = _ by unfold Prog.bind; rw [hs']
    rw [hbind, hbind']
    exact hf a s s' h
  · exact .inr (.inr ⟨e', bind_eq_error.mpr (.inl hs), bind_eq_error.mpr (.inl hs')⟩)

theorem Confined.ite {c : Prop} [Decidable c] {m' : Prog ε σ α} (hm : m.Confined R e) (hm' : m'.Confined R e) :
    (if c then m else m').Confined R e := by
  by_cases h : c
  · rwa [if_pos h]
  · rwa [if_neg h]

/-- A part of the state on which related states agree. -/
theorem confined_get {f : σ → Prog ε σ β} (hf : ∀ s s', R s s' → f s = f s') (hm : ∀ s, (f s).Confined R e) :
    (get >>= f).Confined R e := by
  intro s s' h
  show f s s = _ ∨ (∃ a, f s s = _ ∧ f s' s' = _) ∨ ∃ e', f s s = _ ∧ f s' s' = _
  rw [← hf s s' h]
  exact hm s s s' h

/-- A part that is read behind a check; what passes in the first state passes in the second. -/
theorem confined_check {p : σ → Prop} [DecidablePred p] {g : σ → α} (hp : ∀ s s', R s s' → p s → p s')
    (hg : ∀ s s', R s s' → g s = g s') :
    (get >>= fun s => check (p s) e >>= fun _ => pure (g s) : Prog ε σ α).Confined R e := by
  have hpass : ∀ s, p s → (get >>= fun s => check (p s) e >>= fun _ => pure (g s) : Prog ε σ α) s = .ok (g s) s := by
    intro s hs
    show Prog.bind (check (p s) e) _ s = _
    unfold check
    rw [if_pos hs]
    rfl
  intro s s' h
  by_cases hs : p s
  · exact .inr (.inl ⟨g s, hpass s hs, hg s s' h ▸ hpass s' (hp s s' h hs)⟩)
  · refine .inl (show Prog.bind (check (p s) e) _ s = _ from ?_)
    unfold check
    rw [if_neg hs]
    rfl

theorem Confined.zoom {R' : τ → τ → Prop} {part : σ → τ} {put : τ → σ → σ} {m : Prog ε τ α} (hm : m.Confined R' e)
    (hR : ∀ s s', R s s' → R' (part s) (part s')) (hput : ∀ s, put (part s) s = s) :
    (zoom part put m).Confined R e := by
  have hok : ∀ s a, m (part s) = .ok a (part s) → Prog.zoom part put m s = .ok a s := fun s a h => by
    unfold Prog.zoom
    rw [h]
    exact congrArg (Outcome.ok a) (hput s)
  have herr : ∀ s e', m (part s) = .error e' (part s) → Prog.zoom part put m s = .error e' s := fun s e' h => by
    unfold Prog.zoom
    rw [h]
    exact congrArg (Outcome.error e') (hput s)
  intro s s' h
  rcases hm _ _ (hR s s' h) with he | ⟨a, hs, hs'⟩ | ⟨e', hs, hs'⟩
  · exact .inl (herr s e he)
  · exact .inr (.inl ⟨a, hok s a hs, hok s' a hs'⟩)
  · exact .inr (.inr ⟨e', herr s e' hs, herr s' e' hs'⟩)

/-- What the program returns in the first state it returns in the second. -/
theorem Confined.eq_ok (hm : m.Confined R e) {s s' : σ} (h : R s s') {a : α} {t : σ} (hrun : m s = .ok a t) :
    t = s ∧ m s' = .ok a s' := by
  rcases hm s s' h with he | ⟨b, hs, hs'⟩ | ⟨e', hs, -⟩
  · rw [he] at hrun
    cases hrun
  · rw [hs] at hrun
    obtain ⟨rfl, rfl⟩ := Outcome.ok.inj hrun
    exact ⟨rfl, hs'⟩
  · rw [hs] at hrun
    cases hrun

end Confined

/-! ### Two programs beside each other -/

section Follows

variable {γ δ : Type} {R : σ → τ → Prop} {V : α → β → Prop} {F : ε → Prop} {p : Prog ε σ α} {q : Prog ε τ β}

/-- Where the second program returns, the first one returns something related to it and leaves a related state, or it
throws an exception of `F`.  Nothing is said of the runs in which the second one throws. -/
def Follows (R : σ → τ → Prop) (V : α → β → Prop) (F : ε → Prop) (p : Prog ε σ α) (q : Prog ε τ β) : Prop :=
  ∀ s t, R s t → ∀ b t', q t = .ok b t' → Runs p s (fun a s' => V a b ∧ R s' t') fun e _ => F e

theorem follows_pure {a : α} {b : β} (h : V a b) : Follows R V F (pure a : Prog ε σ α) (pure b) := by
  rintro s t hR _ _ ⟨⟩
  exact ⟨h, hR⟩

theorem follows_throw {e : ε} (he : F e) (q : Prog ε τ β) : Follows R V F (throw e) q := fun _ _ _ _ _ _ => he

/-- Whatever is asked where the second program throws. -/
theorem follows_thrown (p : Prog ε σ α) (e : ε) : Follows R V F p (throw e) := by
  rintro s t - _ _ ⟨⟩

theorem follows_get : Follows R R F (get : Prog ε σ σ) get := by
  rintro s t hR _ _ ⟨⟩
  exact ⟨hR, hR⟩

theorem follows_modify {f : σ → σ} {g : τ → τ} (h : ∀ s t, R s t → R (f s) (g t)) :
    Follows R Eq F (modify f : Prog ε σ Unit) (modify g) := by
  rintro s t hR _ _ ⟨⟩
  exact ⟨rfl, h s t hR⟩

theorem follows_lift (x : Except ε α) : Follows R Eq F (lift x : Prog ε σ α) (lift x) := by
  cases x with
  | ok a => exact follows_pure rfl
  | error e => exact follows_thrown _ e

/-- What the second program makes sure of holds in the first one too. -/
theorem follows_check {b c : Prop} [Decidable b] [Decidable c] (e : ε) (h : c → b) :
    Follows R Eq F (check b e : Prog ε σ Unit) (check c e) := by
  unfold check
  by_cases hc : c
  · rw [if_pos hc, if_pos (h hc)]
    exact follows_pure rfl
  · rw [if_neg hc]
    exact follows_thrown _ e

/-- The first program may fail here. -/
theorem follows_excused (b c : Prop) [Decidable b] [Decidable c] {e : ε} (he : F e) :
    Follows R Eq F (check b e : Prog ε σ Unit) (check c e) := by
  by_cases hb : b
  · exact follows_check e fun _ => hb
  · unfold check
    rw [if_neg hb]
    exact follows_throw he _

/-- Programs of which each is known to end in a state that is related to what it began with. -/
theorem follows_of_runs {p : Prog ε σ Unit} {q : Prog ε τ Unit} {P : σ → σ → Prop} {Q : τ → τ → Prop}
    (hp : ∀ s, Runs p s (fun _ s' => P s s') fun e _ => F e) (hq : ∀ t, Runs q t (fun _ t' => Q t t') fun _ _ => True)
    (h : ∀ s s' t t', R s t → P s s' → Q t t' → R s' t') : Follows R Eq F p q := fun s t hR _ t' ht =>
  (hp s).mono (fun _ s' hs => ⟨rfl, h s s' t t' hR hs ((hq t).of_ok ht)⟩) fun _ _ he => he

theorem Follows.bind {W : γ → δ → Prop} {f : α → Prog ε σ γ} {g : β → Prog ε τ δ} (hpq : Follows R V F p q)
    (hfg : ∀ a b, V a b → Follows R W F (f a) (g b)) : Follows R W F (p >>= f) (q >>= g) := by
  intro s t hR d t'' ht
  obtain ⟨b, t', hq, hg⟩ := bind_eq_ok.mp ht
  rw [runs_bind]
  refine (hpq s t hR b t' hq).mono ?_ fun _ _ he => he
  rintro a s' ⟨hV, hR'⟩
  exact hfg a b hV s' t' hR' d t'' hg

theorem Follows.ite {c d : Prop} [Decidable c] [Decidable d] {p' : Prog ε σ α} {q' : Prog ε τ β} (hcd : c ↔ d)
    (hpq : Follows R V F p q) (hpq' : Follows R V F p' q') :
    Follows R V F (if c then p else p') (if d then q else q') := by
  by_cases hc : c
  · rwa [if_pos hc, if_pos (hcd.mp hc)]
  · rwa [if_neg hc, if_neg fun hd => hc (hcd.mpr hd)]

theorem Follows.zoom {σ' τ' : Type} {R' : σ' → τ' → Prop} {part : σ → σ'} {put : σ' → σ → σ} {part' : τ → τ'}
    {put' : τ' → τ → τ} {p : Prog ε σ' α} {q : Prog ε τ' β} (hpq : Follows R' V F p q)
    (hR : ∀ s t, R s t → R' (part s) (part' t)) (hput : ∀ s t u v, R s t → R' u v → R (put u s) (put' v t)) :
    Follows R V F (zoom part put p) (zoom part' put' q) := by
  intro s t h b t' ht
  unfold Prog.zoom at ht
  cases hq : q (part' t) with
  | error e v =>
    rw [hq] at ht
    cases ht
  | ok b v =>
    rw [hq] at ht
    cases ht
    rw [runs_zoom]
    exact (hpq _ _ (hR s t h) b v hq).mono (fun _ u hu => ⟨hu.1, hput s t u v h hu.2⟩) fun _ _ he => he

end Follows

/-! ### Steps of a loop -/

section Passes

variable {step : α → Prog ε σ α} {x y z : α × σ}

/-- A loop that does `step` again and again passes from one head, with its state, to another. -/
def Passes (step : α → Prog ε σ α) : α × σ → α × σ → Prop :=
  Relation.ReflTransGen fun x y => step x.1 x.2 = .ok y.1 y.2

theorem Passes.refl : Passes step x x := Relation.ReflTransGen.refl

theorem Passes.trans (h : Passes step x y) (h' : Passes step y z) : Passes step x z := Relation.ReflTransGen.trans h h'

theorem Passes.head {a a' : α} {s s' : σ} (h : step a s = .ok a' s') (h' : Passes step (a', s') z) :
    Passes step (a, s) z := Relation.ReflTransGen.head h h'

/-- What every step preserves holds at every head. -/
theorem Passes.invariant {I : α → σ → Prop} {E : ε → σ → Prop} (hstep : ∀ a s, I a s → Runs (step a) s I E)
    (h : Passes step x y) (hx : I x.1 x.2) : I y.1 y.2 := by
  induction h with
  | refl => exact hx
  | tail _ hs ih => exact (hstep _ _ ih).of_ok hs

end Passes

/-! ### Computations without a state -/

theorem except_bind_ok {x : Except ε α} {f : α → Except ε β} {b : β} :
    (x >>= f) = .ok b ↔ ∃ a, x = .ok a ∧ f a = .ok b := by
  cases x with
  | error e =>
    constructor
    · intro h
      cases h
    · rintro ⟨a, ha, -⟩
      cases ha
  | ok a =>
    constructor
    · intro h
      exact ⟨a, rfl, h⟩
    · rintro ⟨a', ha, h⟩
      cases ha
      exact h

/-! ### Evaluation, for closed runs -/

section Eval

variable {s : σ}

theorem bind_ok {m : Prog ε σ α} {a : α} {s' : σ} (h : m s = .ok a s') (f : α → Prog ε σ β) :
    (m >>= f) s = f a s' := by
  show Prog.bind m f s = _
  unfold Prog.bind
  rw [h]

theorem get_bind (f : σ → Prog ε σ α) (s : σ) : (get >>= f) s = f s s := rfl

theorem bind_error {m : Prog ε σ α} {e : ε} {s' : σ} (h : m s = .error e s') (f : α → Prog ε σ β) :
    (m >>= f) s = .error e s' := by
  show Prog.bind m f s = _
  unfold Prog.bind
  rw [h]

theorem zoom_ok {part : σ → τ} {put : τ → σ → σ} {m : Prog ε τ α} {a : α} {t : τ}
    (h : m (part s) = .ok a t) : zoom part put m s = .ok a (put t s) := by
  unfold zoom
  rw [h]

theorem zoom_error {part : σ → τ} {put : τ → σ → σ} {m : Prog ε τ α} {e : ε} {t : τ}
    (h : m (part s) = .error e t) : zoom part put m s = .error e (put t s) := by
  unfold zoom
  rw [h]

end Eval

end Prog
