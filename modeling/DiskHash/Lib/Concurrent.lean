import DiskHash.Lib.Machine
import Mathlib.Logic.Function.Basic

/-!
# DiskHash.Lib.Concurrent — clients that share an object whose calls are atomic

A client invokes a call, the call acts on the object in one atomic step, and the client gets its answer; other
clients act in between.  The acts of a run, in their order, are a run of the object alone, and every client
sees whole calls one after the other.  So an object that refines a specification is linearizable: its answers
are those of the specification to the acts in their order, and each act lies between its invocation and its
response.
-/

section Concurrent

variable {σ δ κ ι ο : Type} {step : σ → ι → ο → σ → Prop}

/-- What a client does with a call. -/
inductive ClientAction (ι ο : Type)
  | invoke (i : ι)
  | act (i : ι) (o : ο)
  | respond (i : ι) (o : ο)

/-- How far a client is with its call. -/
inductive Stage (ι ο : Type)
  | idle
  | waiting (i : ι)
  | acted (i : ι) (o : ο)

/-- The action is the next of its call. -/
inductive Stage.Next : Stage ι ο → ClientAction ι ο → Stage ι ο → Prop
  | invoke (i : ι) : Next .idle (.invoke i) (.waiting i)
  | act (i : ι) (o : ο) : Next (.waiting i) (.act i o) (.acted i o)
  | respond (i : ι) (o : ο) : Next (.acted i o) (.respond i o) .idle

/-- What an action does to the object. -/
inductive ClientAction.Effect (step : σ → ι → ο → σ → Prop) : σ → ClientAction ι ο → σ → Prop
  | invoke (s : σ) (i : ι) : Effect step s (.invoke i) s
  | act {s s' : σ} {i : ι} {o : ο} : step s i o s' → Effect step s (.act i o) s'
  | respond (s : σ) (i : ι) (o : ο) : Effect step s (.respond i o) s

/-- A client takes its next action. -/
def Concurrent [DecidableEq κ] (step : σ → ι → ο → σ → Prop) (s : σ × (κ → Stage ι ο)) (c : κ)
    (a : ClientAction ι ο) (s' : σ × (κ → Stage ι ο)) : Prop :=
  a.Effect step s.1 s'.1 ∧ ∃ st, (s.2 c).Next a st ∧ s'.2 = Function.update s.2 c st

/-- The act of an action, if it is one. -/
def ClientAction.act? : ClientAction ι ο → Option (ι × ο)
  | .act i o => some (i, o)
  | _ => none

/-- The acts of all clients in their order. -/
def actsOf (tr : List (κ × ClientAction ι ο)) : List (ι × ο) := tr.filterMap fun e => e.2.act?

/-- What one client does. -/
def ofClient [DecidableEq κ] (c : κ) (tr : List (κ × ClientAction ι ο)) : List (ClientAction ι ο) :=
  (tr.filter fun e => e.1 = c).map Prod.snd

/-- Calls one after the other: each is invoked, acts once, and then gives the answer of its act. -/
inductive Serial : Stage ι ο → List (ClientAction ι ο) → Prop
  | nil (st : Stage ι ο) : Serial st []
  | cons {st st' : Stage ι ο} {a : ClientAction ι ο} {as : List (ClientAction ι ο)} :
      st.Next a st' → Serial st' as → Serial st (a :: as)

/-- The history is that of the specification executed at the acts. -/
structure Linearizes [DecidableEq κ] (spec : δ → ι → ο × δ) (d : δ) (tr : List (κ × ClientAction ι ο)) : Prop where
  answers : (actsOf tr).map Prod.snd = (replay spec d ((actsOf tr).map Prod.fst)).1
  serial : ∀ c, Serial .idle (ofClient c tr)

variable [DecidableEq κ]

namespace Concurrent

variable {s s' : σ} {stages : κ → Stage ι ο} {c : κ} {i : ι} {o : ο}

theorem invoke (h : stages c = .idle) :
    Concurrent step (s, stages) c (.invoke i) (s, Function.update stages c (.waiting i)) := by
  refine ⟨.invoke s i, _, ?_, rfl⟩
  show (stages c).Next _ _
  rw [h]
  exact .invoke i

theorem act (h : stages c = .waiting i) (hs : step s i o s') :
    Concurrent step (s, stages) c (.act i o) (s', Function.update stages c (.acted i o)) := by
  refine ⟨.act hs, _, ?_, rfl⟩
  show (stages c).Next _ _
  rw [h]
  exact .act i o

theorem respond (h : stages c = .acted i o) :
    Concurrent step (s, stages) c (.respond i o) (s, Function.update stages c .idle) := by
  refine ⟨.respond s i o, _, ?_, rfl⟩
  show (stages c).Next _ _
  rw [h]
  exact .respond i o

end Concurrent

/-- The acts of a run are a run of the object. -/
theorem Run.acts {s s' : σ × (κ → Stage ι ο)} {tr : List (κ × ClientAction ι ο)} (h : Run (Concurrent step) s tr s') :
    Run step s.1 (actsOf tr) s'.1 := by
  induction h with
  | nil => exact .nil _
  | @cons s s' s'' c a tr hs _ ih =>
    obtain ⟨s, stages⟩ := s
    obtain ⟨s', stages'⟩ := s'
    obtain ⟨heff, -⟩ := hs
    cases heff with
    | invoke i => exact ih
    | act hact => exact .cons hact ih
    | respond i o => exact ih

theorem Run.serial {s s' : σ × (κ → Stage ι ο)} {tr : List (κ × ClientAction ι ο)}
    (h : Run (Concurrent step) s tr s') (c : κ) : Serial (s.2 c) (ofClient c tr) := by
  induction h with
  | nil => exact .nil _
  | @cons s s' s'' c' a tr hs _ ih =>
    obtain ⟨-, st, hnext, hst⟩ := hs
    by_cases hc : c' = c
    · subst hc
      rw [hst, Function.update_self] at ih
      have : ofClient c' ((c', a) :: tr) = a :: ofClient c' tr := by simp [ofClient]
      rw [this]
      exact .cons hnext ih
    · rw [hst, Function.update_of_ne (Ne.symm hc)] at ih
      have : ofClient c ((c', a) :: tr) = ofClient c tr := by simp [ofClient, hc]
      rwa [this]

/-- An object whose steps refine the specification is linearizable. -/
theorem Run.linearizes (spec : δ → ι → ο × δ) {R : σ → δ → Prop}
    (hstep : ∀ s i o s' d, R s d → step s i o s' → o = (spec d i).1 ∧ R s' (spec d i).2)
    {s s' : σ × (κ → Stage ι ο)} {tr : List (κ × ClientAction ι ο)} (h : Run (Concurrent step) s tr s')
    (hidle : ∀ c, s.2 c = .idle) {d : δ} (hd : R s.1 d) :
    Linearizes spec d tr ∧ R s'.1 (replay spec d ((actsOf tr).map Prod.fst)).2 := by
  obtain ⟨hanswers, hR⟩ := h.acts.refines spec hstep hd
  exact ⟨⟨hanswers, fun c => hidle c ▸ h.serial c⟩, hR⟩

end Concurrent
