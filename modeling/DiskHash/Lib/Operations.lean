import DiskHash.Lib.Machine
import DiskHash.Lib.Prog
import Mathlib.Logic.Function.Basic

/-!
# DiskHash.Lib.Operations — clients whose operations make several calls of a shared object

An operation is a tree: it ends with a result, or it makes a call and goes on with the answer.  A client starts an
operation, its calls act on the object one by one, other clients act in between, and the result is the response.
What a client does between its invocation and its response is its operation with the answers the object gave, and
all clients together run the object.
-/

section Operations

variable {σ δ κ φ ι ο α : Type}

/-- An operation that makes calls one after the other and ends with a result. -/
inductive Operation (ι ο α : Type)
  | done (a : α)
  | call (i : ι) (next : ο → Operation ι ο α)

namespace Operation

/-- The operation makes the call, gets the answer and goes on. -/
inductive Step : Operation ι ο α → ι → ο → Operation ι ο α → Prop
  | call (i : ι) (next : ο → Operation ι ο α) (o : ο) : Step (.call i next) i o (next o)

/-- The operation without other clients, when each call is a program. -/
def prog {ε : Type} (impl : ι → Prog ε σ ο) : Operation ι ο α → Prog ε σ α
  | done a => pure a
  | call i next => impl i >>= fun o => (next o).prog impl

/-- An operation that has ended makes no more calls. -/
theorem run_done {a : α} {l : List (ι × ο)} {t : Operation ι ο α} (h : Run Step (done a) l t) :
    l = [] ∧ t = done a := by
  cases h with
  | nil => exact ⟨rfl, rfl⟩
  | cons hs _ => cases hs

/-- How an operation that begins with a call ends. -/
theorem run_call {i : ι} {next : ο → Operation ι ο α} {l : List (ι × ο)} {a : α}
    (h : Run Step (call i next) l (done a)) : ∃ o l', l = (i, o) :: l' ∧ Run Step (next o) l' (done a) := by
  cases h with
  | cons hs hrest =>
    cases hs
    exact ⟨_, _, rfl, hrest⟩

/-- An operation of one call. -/
theorem run_single {i : ι} {f : ο → α} {l : List (ι × ο)} {a : α}
    (h : Run Step (call i fun o => done (f o)) l (done a)) : ∃ o, l = [(i, o)] ∧ a = f o := by
  obtain ⟨o, l', rfl, hrest⟩ := run_call h
  obtain ⟨rfl, hdone⟩ := run_done hrest
  cases hdone
  exact ⟨o, rfl, rfl⟩

end Operation

/-! ### Clients -/

/-- What a client does. -/
inductive Operation.Action (φ ι ο α : Type)
  | invoke (q : φ)
  | act (i : ι) (o : ο)
  | respond (a : α)

/-- The action is the next of a client; between its operations it has none left. -/
inductive Operation.Action.Next (ops : φ → Operation ι ο α) :
    Option (Operation ι ο α) → Operation.Action φ ι ο α → Option (Operation ι ο α) → Prop
  | invoke (q : φ) : Next ops none (.invoke q) (some (ops q))
  | act (i : ι) (next : ο → Operation ι ο α) (o : ο) : Next ops (some (.call i next)) (.act i o) (some (next o))
  | respond (a : α) : Next ops (some (.done a)) (.respond a) none

/-- What an action does to the object. -/
inductive Operation.Action.Effect (step : σ → ι → ο → σ → Prop) : σ → Operation.Action φ ι ο α → σ → Prop
  | invoke (s : σ) (q : φ) : Effect step s (.invoke q) s
  | act {s s' : σ} {i : ι} {o : ο} : step s i o s' → Effect step s (.act i o) s'
  | respond (s : σ) (a : α) : Effect step s (.respond a) s

/-- The call of an action, if it makes one. -/
def Operation.Action.act? : Operation.Action φ ι ο α → Option (ι × ο)
  | .act i o => some (i, o)
  | _ => none

/-- The calls of all clients in their order. -/
def callsOf (tr : List (κ × Operation.Action φ ι ο α)) : List (ι × ο) := tr.filterMap fun e => e.2.act?

section CallsOf

variable {tr tr' : List (κ × Operation.Action φ ι ο α)} {c : κ}

@[simp] theorem callsOf_append : callsOf (tr ++ tr') = callsOf tr ++ callsOf tr' := List.filterMap_append ..

@[simp] theorem callsOf_invoke (q : φ) : callsOf ((c, .invoke q) :: tr) = callsOf tr := rfl

@[simp] theorem callsOf_act (i : ι) (o : ο) : callsOf ((c, .act i o) :: tr) = (i, o) :: callsOf tr := rfl

@[simp] theorem callsOf_respond (a : α) : callsOf ((c, .respond a) :: tr) = callsOf tr := rfl

@[simp] theorem callsOf_nil : callsOf ([] : List (κ × Operation.Action φ ι ο α)) = [] := rfl

end CallsOf

variable [DecidableEq κ]

/-- A client takes its next action. -/
def Serving (ops : φ → Operation ι ο α) (step : σ → ι → ο → σ → Prop) (s : σ × (κ → Option (Operation ι ο α))) (c : κ)
    (a : Operation.Action φ ι ο α) (s' : σ × (κ → Option (Operation ι ο α))) : Prop :=
  a.Effect step s.1 s'.1 ∧ ∃ t, a.Next ops (s.2 c) t ∧ s'.2 = Function.update s.2 c t

/-- The calls of one client. -/
def callsBy (c : κ) (tr : List (κ × Operation.Action φ ι ο α)) : List (ι × ο) := callsOf (tr.filter fun e => e.1 = c)

/-- In the trace the client does not respond. -/
def Unanswered (c : κ) (tr : List (κ × Operation.Action φ ι ο α)) : Prop := ∀ a, (c, .respond a) ∉ tr

section Runs

variable {ops : φ → Operation ι ο α} {step : σ → ι → ο → σ → Prop} {s s' : σ × (κ → Option (Operation ι ο α))}
  {tr tr' : List (κ × Operation.Action φ ι ο α)} {c : κ}

/-! #### The actions of a client -/

namespace Serving

variable {t : σ} {rest : κ → Option (Operation ι ο α)}

theorem invoke (c : κ) (q : φ) (h : rest c = none) :
    Serving ops step (t, rest) c (.invoke q) (t, Function.update rest c (some (ops q))) := by
  refine ⟨.invoke t q, _, ?_, rfl⟩
  show Operation.Action.Next ops (rest c) _ _
  rw [h]
  exact .invoke q

theorem act (c : κ) {t' : σ} {i : ι} {o : ο} {next : ο → Operation ι ο α} (h : rest c = some (.call i next))
    (hs : step t i o t') : Serving ops step (t, rest) c (.act i o) (t', Function.update rest c (some (next o))) := by
  refine ⟨.act hs, _, ?_, rfl⟩
  show Operation.Action.Next ops (rest c) _ _
  rw [h]
  exact .act i next o

theorem respond (c : κ) {a : α} (h : rest c = some (.done a)) :
    Serving ops step (t, rest) c (.respond a) (t, Function.update rest c none) := by
  refine ⟨.respond t a, _, ?_, rfl⟩
  show Operation.Action.Next ops (rest c) _ _
  rw [h]
  exact .respond a

end Serving

/-! #### Runs -/

/-- What a client does before it responds is its operation with the answers it got. -/
theorem Run.follows (h : Run (Serving ops step) s tr s') {t : Operation ι ο α} (ht : s.2 c = some t)
    (hno : Unanswered c tr) : ∃ t', s'.2 c = some t' ∧ Run Operation.Step t (callsBy c tr) t' := by
  induction h generalizing t with
  | nil => exact ⟨t, ht, .nil t⟩
  | @cons s s' s'' c' a tr hs _ ih =>
    obtain ⟨-, t', hnext, hupd⟩ := hs
    have hno' : Unanswered c tr := fun a ha => hno a (.tail _ ha)
    by_cases hc : c' = c
    · subst hc
      have hcons : callsBy c' ((c', a) :: tr) = callsOf ((c', a) :: tr.filter fun e => e.1 = c') := by
        simp [callsBy]
      rw [ht] at hnext
      rw [hcons]
      cases hnext with
      | act i next o =>
        obtain ⟨t'', ht'', hrun⟩ := ih (hupd ▸ Function.update_self ..) hno'
        exact ⟨t'', ht'', .cons (.call i next o) hrun⟩
      | respond a => exact absurd (.head _) (hno a)
    · have hcons : callsBy c ((c', a) :: tr) = callsBy c tr := by simp [callsBy, hc]
      rw [hcons]
      exact ih (by rw [hupd, Function.update_of_ne (Ne.symm hc), ht]) hno'

/-- The states of an operation with its response: after its invocation the client has all of it to do, and before
its response it has done all of it. -/
theorem Run.window {pre mid post : List (κ × Operation.Action φ ι ο α)} {q : φ} {a : α}
    (h : Run (Serving ops step) s (pre ++ (c, .invoke q) :: mid ++ (c, .respond a) :: post) s') :
    ∃ s₁ s₂, Run (Serving ops step) s (pre ++ [(c, .invoke q)]) s₁ ∧ s₁.2 c = some (ops q) ∧
      Run (Serving ops step) s₁ mid s₂ ∧ s₂.2 c = some (.done a) := by
  rw [List.append_cons pre, Run.append_iff] at h
  obtain ⟨s₂, hmid, hend⟩ := h
  obtain ⟨s₁, hpre, hmid⟩ := Run.append_iff.mp hmid
  refine ⟨s₁, s₂, hpre, ?_, hmid, ?_⟩
  · obtain ⟨s₀, -, hinv⟩ := Run.append_iff.mp hpre
    cases hinv with
    | cons hinv hnil =>
      cases hnil
      obtain ⟨-, t, hnext, hupd⟩ := hinv
      generalize s₀.2 c = t₀ at hnext
      cases hnext
      rw [hupd, Function.update_self]
  · cases hend with
    | cons hres _ =>
      obtain ⟨-, t, hnext, -⟩ := hres
      generalize hs : s₂.2 c = t₀ at hnext
      cases hnext
      rfl

/-- An operation with its response ends with the response on the answers it got in between. -/
theorem Run.completed {pre mid post : List (κ × Operation.Action φ ι ο α)} {q : φ} {a : α}
    (h : Run (Serving ops step) s (pre ++ (c, .invoke q) :: mid ++ (c, .respond a) :: post) s')
    (hno : Unanswered c mid) : Run Operation.Step (ops q) (callsBy c mid) (.done a) := by
  obtain ⟨s₁, s₂, -, hs₁, hmid, hs₂⟩ := h.window
  obtain ⟨t, ht, hrun⟩ := hmid.follows hs₁ hno
  rw [hs₂] at ht
  cases ht
  exact hrun

/-- The calls of a client are acts of its own in the trace. -/
theorem mem_callsBy {i : ι} {o : ο} (h : (i, o) ∈ callsBy c tr) : (c, .act i o) ∈ tr := by
  obtain ⟨⟨c', a⟩, hmem, hact⟩ := List.mem_filterMap.mp h
  obtain ⟨hmem, hc⟩ := List.mem_filter.mp hmem
  cases a with
  | invoke q => cases hact
  | act i' o' =>
    cases hact
    exact of_decide_eq_true hc ▸ hmem
  | respond a => cases hact

/-- Clients of an object that simulates another one behave as clients of the other one. -/
theorem Run.serving {step' : δ → ι → ο → δ → Prop} {R : σ → δ → Prop}
    (hstep : ∀ s i o s' d, R s d → step s i o s' → ∃ d', step' d i o d' ∧ R s' d')
    (h : Run (Serving ops step) s tr s') {d : δ} (hd : R s.1 d) :
    ∃ d', Run (Serving ops step') (d, s.2) tr (d', s'.2) ∧ R s'.1 d' := by
  have hsim : ∃ d', Run (Serving ops step') (d, s.2) tr d' ∧ R s'.1 d'.1 ∧ s'.2 = d'.2 := by
    have hstart : R s.1 (d, s.2).1 ∧ s.2 = (d, s.2).2 := ⟨hd, rfl⟩
    refine h.simulates (R := fun s (d : δ × (κ → Option (Operation ι ο α))) => R s.1 d.1 ∧ s.2 = d.2) ?_ hstart
    rintro ⟨s, rest⟩ c a ⟨s', rest'⟩ ⟨d, _⟩ ⟨hR, rfl⟩ ⟨heff, ht⟩
    cases heff with
    | invoke q => exact ⟨(d, rest'), ⟨.invoke d q, ht⟩, hR, rfl⟩
    | act hact =>
      obtain ⟨d', hact', hR'⟩ := hstep _ _ _ _ _ hR hact
      exact ⟨(d', rest'), ⟨.act hact', ht⟩, hR', rfl⟩
    | respond a => exact ⟨(d, rest'), ⟨.respond d a, ht⟩, hR, rfl⟩
  obtain ⟨⟨d', rest⟩, hrun, hR, rfl⟩ := hsim
  exact ⟨d', hrun, hR⟩

end Runs

end Operations
