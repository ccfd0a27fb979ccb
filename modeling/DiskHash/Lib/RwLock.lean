import DiskHash.Lib.Operations
import DiskHash.Lib.Prog

/-!
# DiskHash.Lib.RwLock — critical sections under readers-writer locks

An object has cells, each under a lock of its own.  A section runs on one cell: it takes the lock of the cell, alone or
together with other readers, makes its steps one by one while other clients act in between, and gives the lock back.
Sections that share a lock only read.  Every run of the clients, with all its steps, is then a run in which each
section acts at once at the moment it gives its lock back.
-/

/-- A program cut into the steps between which others may act. -/
inductive Script (ε τ α : Type)
  | done (a : α)
  | fail (e : ε)
  | step (put : τ → τ) (next : τ → Script ε τ α)

namespace Script

variable {ε τ α β : Type}

/-- A call of the object, and the rest of the script with its result. -/
def call (m : Prog ε τ β) (rest : β → Script ε τ α) : Script ε τ α :=
  .step (fun s => (m s).state) fun s => match m s with
    | .ok b _ => rest b
    | .error e _ => .fail e

/-- The steps of a script one after the other. -/
def prog : Script ε τ α → Prog ε τ α
  | .done a => pure a
  | .fail e => Prog.throw e
  | .step put next => fun s => (next s).prog (put s)

theorem prog_call (m : Prog ε τ β) (rest : β → Script ε τ α) :
    (call m rest).prog = m >>= fun b => (rest b).prog := by
  funext s
  show (match m s with
    | .ok b _ => rest b
    | .error e _ => fail e).prog (m s).state = Prog.bind m (fun b => (rest b).prog) s
  unfold Prog.bind
  cases m s <;> rfl

/-- How a script that begins with a call returns. -/
theorem call_eq_ok {m : Prog ε τ β} {rest : β → Script ε τ α} {s s' : τ} {a : α} :
    (call m rest).prog s = .ok a s' ↔ ∃ b r, m s = .ok b r ∧ (rest b).prog r = .ok a s' := by
  rw [prog_call, Prog.bind_eq_ok]

/-- How a script that begins with a call fails. -/
theorem call_eq_error {m : Prog ε τ β} {rest : β → Script ε τ α} {s s' : τ} {e : ε} :
    (call m rest).prog s = .error e s' ↔
      m s = .error e s' ∨ ∃ b r, m s = .ok b r ∧ (rest b).prog r = .error e s' := by
  rw [prog_call, Prog.bind_eq_error]

/-- No step of the script changes anything. -/
inductive Reads : Script ε τ α → Prop
  | done (a : α) : Reads (.done a)
  | fail (e : ε) : Reads (.fail e)
  | step {put : τ → τ} {next : τ → Script ε τ α} :
      (∀ s, put s = s) → (∀ s, Reads (next s)) → Reads (.step put next)

theorem Reads.call {m : Prog ε τ β} {rest : β → Script ε τ α} (hm : m.Reads) (hrest : ∀ b, (rest b).Reads) :
    (call m rest).Reads := by
  refine .step hm fun s => ?_
  cases m s with
  | ok b s' => exact hrest b
  | error e s' => exact .fail e

end Script

section RwLock

variable {κ φ ε ℓ τ ι ο α : Type}

/-- The sections of an object: the cell each works on, if it is alone there, and its possible scripts. -/
structure Monitor (ε ℓ τ ι ο : Type) where
  cell : ι → ℓ
  exclusive : ι → Bool
  body : ι → Script ε τ ο → Prop
  reads : ∀ i b, body i b → exclusive i = false → b.Reads

/-- What a client is doing. -/
inductive Thread (ε τ ι ο α : Type)
  | idle
  | running (t : Operation ι ο α)
  | inside (i : ι) (next : ο → Operation ι ο α) (b : Script ε τ ο)

/-- The operation a client still has to do, when a section counts as not done before it is left. -/
def Thread.rest : Thread ε τ ι ο α → Option (Operation ι ο α)
  | idle => none
  | running t => some t
  | inside i next _ => some (.call i next)

/-- A client outside of all sections. -/
def Thread.outside : Option (Operation ι ο α) → Thread ε τ ι ο α
  | none => idle
  | some t => running t

inductive LockAction (φ ι ο α : Type)
  | invoke (q : φ)
  | lock (i : ι)
  | step
  | unlock (i : ι) (o : ο)
  | respond (a : α)

/-- What is seen of an action when sections act at once. -/
def LockAction.seen : LockAction φ ι ο α → Option (Operation.Action φ ι ο α)
  | invoke q => some (.invoke q)
  | lock _ => none
  | step => none
  | unlock i o => some (.act i o)
  | respond a => some (.respond a)

/-- What is seen of a trace. -/
def seen (tr : List (κ × LockAction φ ι ο α)) : List (κ × Operation.Action φ ι ο α) :=
  tr.filterMap fun e => e.2.seen.map fun a => (e.1, a)

namespace Monitor

variable (M : Monitor ε ℓ τ ι ο)

/-- The lock of the section can be taken. -/
def Free (threads : κ → Thread ε τ ι ο α) (i : ι) : Prop :=
  ∀ c j next b, threads c = .inside j next b → M.cell j = M.cell i → M.exclusive i = false ∧ M.exclusive j = false

section Machine

variable [DecidableEq κ] [DecidableEq ℓ]

/-- A section acts at once. -/
def Atomic (cells : ℓ → τ) (i : ι) (o : ο) (cells' : ℓ → τ) : Prop :=
  ∃ b t, M.body i b ∧ b.prog (cells (M.cell i)) = .ok o t ∧ cells' = Function.update cells (M.cell i) t

/-- A client takes its next step.  One whose section failed takes none. -/
inductive Locked (ops : φ → Operation ι ο α) :
    (ℓ → τ) × (κ → Thread ε τ ι ο α) → κ → LockAction φ ι ο α → (ℓ → τ) × (κ → Thread ε τ ι ο α) → Prop
  | invoke {cells : ℓ → τ} {threads : κ → Thread ε τ ι ο α} {c : κ} (q : φ) : threads c = .idle →
      Locked ops (cells, threads) c (.invoke q) (cells, Function.update threads c (.running (ops q)))
  | lock {cells : ℓ → τ} {threads : κ → Thread ε τ ι ο α} {c : κ} {i : ι} {next : ο → Operation ι ο α}
      {b : Script ε τ ο} : threads c = .running (.call i next) → M.body i b → M.Free threads i →
      Locked ops (cells, threads) c (.lock i) (cells, Function.update threads c (.inside i next b))
  | step {cells : ℓ → τ} {threads : κ → Thread ε τ ι ο α} {c : κ} {i : ι} {next : ο → Operation ι ο α}
      {put : τ → τ} {rest : τ → Script ε τ ο} : threads c = .inside i next (.step put rest) →
      Locked ops (cells, threads) c .step (Function.update cells (M.cell i) (put (cells (M.cell i))),
        Function.update threads c (.inside i next (rest (cells (M.cell i)))))
  | unlock {cells : ℓ → τ} {threads : κ → Thread ε τ ι ο α} {c : κ} {i : ι} {next : ο → Operation ι ο α} {o : ο} :
      threads c = .inside i next (.done o) →
      Locked ops (cells, threads) c (.unlock i o) (cells, Function.update threads c (.running (next o)))
  | respond {cells : ℓ → τ} {threads : κ → Thread ε τ ι ο α} {c : κ} {a : α} : threads c = .running (.done a) →
      Locked ops (cells, threads) c (.respond a) (cells, Function.update threads c .idle)

/-- A step that is a call, which returns and leaves the cell as it was. -/
theorem Locked.returned {β : Type} {M : Monitor ε ℓ τ ι ο} {ops : φ → Operation ι ο α} {cells : ℓ → τ}
    {threads : κ → Thread ε τ ι ο α} {c : κ} {i : ι} {next : ο → Operation ι ο α} {m : Prog ε τ β}
    {rest : β → Script ε τ ο} {b : β} (hi : threads c = .inside i next (.call m rest))
    (hm : m (cells (M.cell i)) = .ok b (cells (M.cell i))) :
    M.Locked ops (cells, threads) c .step (cells, Function.update threads c (.inside i next (rest b))) := by
  have hstep : M.Locked ops (cells, threads) c .step _ := .step hi
  simp only [hm] at hstep
  rwa [Prog.Outcome.state, Function.update_eq_self] at hstep

end Machine

/-- The cells as they are without the sections that have not been left. -/
structure Behind (cells₀ cells : ℓ → τ) (threads : κ → Thread ε τ ι ο α) : Prop where
  begun : ∀ c i next b, threads c = .inside i next b → ∃ b₀, M.body i b₀ ∧
    b₀.prog (cells₀ (M.cell i)) = b.prog (cells (M.cell i)) ∧ (M.exclusive i = false → b.Reads)
  alone : ∀ c i next b, threads c = .inside i next b → M.exclusive i = true →
    ∀ c' j next' b', threads c' = .inside j next' b' → M.cell j = M.cell i → c' = c
  quiet : ∀ l, (∀ c i next b, threads c = .inside i next b → M.cell i = l → M.exclusive i = false) →
    cells₀ l = cells l

variable {M} {cells₀ cells : ℓ → τ} {threads : κ → Thread ε τ ι ο α}

/-- Clients that have not begun are behind nothing. -/
theorem Behind.start (cells : ℓ → τ) : M.Behind cells cells fun _ : κ => (.idle : Thread ε τ ι ο α) :=
  ⟨fun _ _ _ _ h => (by cases h), fun _ _ _ _ h => (by cases h), fun _ _ => rfl⟩

variable [DecidableEq κ] {c : κ} {t : Thread ε τ ι ο α}

theorem rest_update : (fun c' => (Function.update threads c t c').rest) =
    Function.update (fun c' => (threads c').rest) c t.rest := by
  funext c'
  by_cases hc : c' = c
  · subst hc
    rw [Function.update_self, Function.update_self]
  · rw [Function.update_of_ne hc, Function.update_of_ne hc]

/-- A client in a section, after another one or itself has moved out of any. -/
theorem inside_update {c' : κ} {i : ι} {next : ο → Operation ι ο α} {b : Script ε τ ο}
    (ht : ∀ i next b, t ≠ .inside i next b) (h : Function.update threads c t c' = .inside i next b) :
    c' ≠ c ∧ threads c' = .inside i next b := by
  by_cases hc : c' = c
  · subst hc
    rw [Function.update_self] at h
    exact absurd h (ht i next b)
  · rw [Function.update_of_ne hc] at h
    exact ⟨hc, h⟩

/-- A client outside of all sections moves on outside. -/
theorem Behind.outside (h : M.Behind cells₀ cells threads) (hc : ∀ i next b, threads c ≠ .inside i next b)
    (ht : ∀ i next b, t ≠ .inside i next b) : M.Behind cells₀ cells (Function.update threads c t) := by
  refine ⟨fun c' i next b hi => h.begun c' i next b (inside_update ht hi).2, ?_, fun l hl => h.quiet l ?_⟩
  · intro c₁ i next b hi hex c₂ j next' b' hj hcell
    exact h.alone c₁ i next b (inside_update ht hi).2 hex c₂ j next' b' (inside_update ht hj).2 hcell
  · intro c' i next b hi hcell
    have hne : c' ≠ c := by
      rintro rfl
      exact hc i next b hi
    exact hl c' i next b ((Function.update_of_ne hne ..).trans hi) hcell

/-- A client enters a section, which has not done anything yet. -/
theorem Behind.enter (h : M.Behind cells₀ cells threads) {i : ι} {next : ο → Operation ι ο α} {b : Script ε τ ο}
    (hc : ∀ i next b, threads c ≠ .inside i next b) (hb : M.body i b) (hfree : M.Free threads i) :
    M.Behind cells₀ cells (Function.update threads c (.inside i next b)) := by
  -- nobody who is alone in a section works on this cell
  have hcell : cells₀ (M.cell i) = cells (M.cell i) :=
    h.quiet _ fun c' j next' b' hj hcell => (hfree c' j next' b' hj hcell).2
  refine ⟨fun c' j next' b' hj => ?_, fun c₁ j next' b' hj hex c₂ k next'' b'' hk hjk => ?_, fun l hl => h.quiet l ?_⟩
  · by_cases hc' : c' = c
    · subst hc'
      rw [Function.update_self] at hj
      cases hj
      exact ⟨b, hb, by rw [hcell], M.reads i b hb⟩
    · rw [Function.update_of_ne hc'] at hj
      exact h.begun c' j next' b' hj
  · by_cases h₁ : c₁ = c
    · subst h₁
      rw [Function.update_self] at hj
      cases hj
      by_contra h₂
      rw [Function.update_of_ne h₂] at hk
      have := (hfree c₂ k next'' b'' hk hjk).1
      rw [hex] at this
      cases this
    · rw [Function.update_of_ne h₁] at hj
      by_cases h₂ : c₂ = c
      · subst h₂
        rw [Function.update_self] at hk
        cases hk
        have := (hfree c₁ j next' b' hj hjk.symm).2
        rw [hex] at this
        cases this
      · rw [Function.update_of_ne h₂] at hk
        exact h.alone c₁ j next' b' hj hex c₂ k next'' b'' hk hjk
  · intro c' j next' b' hj hjl
    have hne : c' ≠ c := by
      rintro rfl
      exact hc j next' b' hj
    exact hl c' j next' b' ((Function.update_of_ne hne ..).trans hj) hjl

variable [DecidableEq ℓ] {ops : φ → Operation ι ο α} {cells' : ℓ → τ} {threads' : κ → Thread ε τ ι ο α}

/-- A client makes a step in its section. -/
theorem Behind.go (h : M.Behind cells₀ cells threads) {i : ι} {next : ο → Operation ι ο α} {put : τ → τ}
    {rest : τ → Script ε τ ο} (hi : threads c = .inside i next (.step put rest)) :
    M.Behind cells₀ (Function.update cells (M.cell i) (put (cells (M.cell i))))
      (Function.update threads c (.inside i next (rest (cells (M.cell i))))) := by
  obtain ⟨b₀, hb₀, hprog, hreads⟩ := h.begun c i next _ hi
  have hinside : ∀ {c' : κ} {j : ι} {next' : ο → Operation ι ο α} {b' : Script ε τ ο},
      Function.update threads c (.inside i next (rest (cells (M.cell i)))) c' = .inside j next' b' →
      ∃ b'', threads c' = .inside j next' b'' ∧ (c' ≠ c → b'' = b') := by
    intro c' j next' b' hj
    by_cases hc' : c' = c
    · subst hc'
      rw [Function.update_self] at hj
      cases hj
      exact ⟨_, hi, fun hne => absurd rfl hne⟩
    · rw [Function.update_of_ne hc'] at hj
      exact ⟨b', hj, fun _ => rfl⟩
  have hsame : M.exclusive i = false → put (cells (M.cell i)) = cells (M.cell i) := by
    intro hex
    cases hreads hex with
    | step hput _ => exact hput _
  refine ⟨fun c' j next' b' hj => ?_, fun c₁ j next' b' hj hex c₂ k next'' b'' hk hjk => ?_, fun l hl => ?_⟩
  · by_cases hc' : c' = c
    · subst hc'
      rw [Function.update_self] at hj
      cases hj
      refine ⟨b₀, hb₀, by rw [Function.update_self]; exact hprog, fun hex => ?_⟩
      cases hreads hex with
      | step _ hrest => exact hrest _
    · rw [Function.update_of_ne hc'] at hj
      obtain ⟨b₁, hb₁, hprog', hreads'⟩ := h.begun c' j next' b' hj
      refine ⟨b₁, hb₁, ?_, hreads'⟩
      by_cases hcell : M.cell j = M.cell i
      · -- two clients work on the cell, so the step only reads
        have hex : M.exclusive i = false := by
          by_contra hex
          exact hc' (h.alone c i next _ hi (by simpa using hex) c' j next' b' hj hcell)
        rw [hsame hex, Function.update_eq_self, hprog']
      · rw [Function.update_of_ne hcell, hprog']
  · obtain ⟨b₁, h₁, -⟩ := hinside hj
    obtain ⟨b₂, h₂, -⟩ := hinside hk
    exact h.alone c₁ j next' b₁ h₁ hex c₂ k next'' b₂ h₂ hjk
  · have hex : M.cell i = l → M.exclusive i = false := fun hcell =>
      hl c i next _ (Function.update_self ..) hcell
    have hl₀ : cells₀ l = cells l := by
      refine h.quiet l fun c' j next' b' hj hcell => ?_
      by_cases hc' : c' = c
      · subst hc'
        rw [hi] at hj
        cases hj
        exact hex hcell
      · exact hl c' j next' b' ((Function.update_of_ne hc' ..).trans hj) hcell
    by_cases hcell : l = M.cell i
    · subst hcell
      rw [hsame (hex rfl), Function.update_self, hl₀]
    · rw [Function.update_of_ne hcell, hl₀]

/-- A client leaves its section, which now counts as done. -/
theorem Behind.leave (h : M.Behind cells₀ cells threads) {i : ι} {next : ο → Operation ι ο α} {o : ο}
    (hi : threads c = .inside i next (.done o)) :
    M.Atomic cells₀ i o (Function.update cells₀ (M.cell i) (cells (M.cell i))) ∧
      M.Behind (Function.update cells₀ (M.cell i) (cells (M.cell i))) cells
        (Function.update threads c (.running (next o))) := by
  have hout : ∀ (j : ι) (next' : ο → Operation ι ο α) (b' : Script ε τ ο),
      (.running (next o) : Thread ε τ ι ο α) ≠ .inside j next' b' := fun _ _ _ heq => by cases heq
  obtain ⟨b₀, hb₀, hprog, -⟩ := h.begun c i next _ hi
  refine ⟨⟨b₀, _, hb₀, hprog, rfl⟩, fun c' j next' b' hj => ?_,
    fun c₁ j next' b' hj hex c₂ k next'' b'' hk hjk => ?_, fun l hl => ?_⟩
  · obtain ⟨hne, hj⟩ := inside_update hout hj
    obtain ⟨b₁, hb₁, hprog', hreads'⟩ := h.begun c' j next' b' hj
    refine ⟨b₁, hb₁, ?_, hreads'⟩
    by_cases hcell : M.cell j = M.cell i
    · -- the client was not alone, so the cell has not changed
      have hboth : ∀ c' k next' b', threads c' = .inside k next' b' → M.cell k = M.cell i → M.exclusive k = false := by
        intro c₁ k next₁ b₁ hk hki
        by_contra hex
        have hck := h.alone c₁ k next₁ b₁ hk (by simpa using hex)
        exact hne ((hck c' j next' b' hj (hcell.trans hki.symm)).trans (hck c i next _ hi hki.symm).symm)
      rw [hcell, Function.update_self, ← h.quiet _ hboth, ← hcell, hprog', hcell, h.quiet _ hboth]
    · rw [Function.update_of_ne hcell, hprog']
  · exact h.alone c₁ j next' b' (inside_update hout hj).2 hex c₂ k next'' b'' (inside_update hout hk).2 hjk
  · by_cases hcell : l = M.cell i
    · subst hcell
      rw [Function.update_self]
    · rw [Function.update_of_ne hcell]
      refine h.quiet l fun c' j next' b' hj hjl => ?_
      have hne : c' ≠ c := by
        rintro rfl
        rw [hi] at hj
        cases hj
        exact hcell hjl.symm
      exact hl c' j next' b' ((Function.update_of_ne hne ..).trans hj) hjl

/-- One step of a client is nothing, or an action of a client whose sections act at once. -/
theorem Behind.locked (h : M.Behind cells₀ cells threads) {a : LockAction φ ι ο α}
    (hs : M.Locked ops (cells, threads) c a (cells', threads')) : ∃ cells₀',
      Run (Serving ops M.Atomic) (cells₀, fun c => (threads c).rest) (seen [(c, a)])
        (cells₀', fun c => (threads' c).rest) ∧ M.Behind cells₀' cells' threads' := by
  cases hs with
  | invoke q hidle =>
    refine ⟨cells₀, .single ⟨.invoke _ q, _, ?_, rest_update⟩, h.outside (by simp [hidle]) (by simp)⟩
    show Operation.Action.Next ops (threads c).rest (.invoke q) (some (ops q))
    rw [hidle]
    exact .invoke q
  | @lock _ _ _ i next b hrun hb hfree =>
    have hrest : (fun c => (threads c).rest) = fun c' => (Function.update threads c (.inside i next b) c').rest := by
      rw [rest_update]
      refine (Function.update_eq_self_iff.mpr ?_).symm
      show _ = (threads c).rest
      rw [hrun]
      rfl
    exact ⟨cells₀, hrest ▸ .nil _, h.enter (by simp [hrun]) hb hfree⟩
  | @step _ _ _ i next put rest hi =>
    have hrest : (fun c => (threads c).rest) =
        fun c' => (Function.update threads c (.inside i next (rest (cells (M.cell i)))) c').rest := by
      rw [rest_update]
      refine (Function.update_eq_self_iff.mpr ?_).symm
      show _ = (threads c).rest
      rw [hi]
      rfl
    exact ⟨cells₀, hrest ▸ .nil _, h.go hi⟩
  | @unlock _ _ _ i next o hi =>
    obtain ⟨hatomic, hbehind⟩ := h.leave hi
    refine ⟨_, .single ⟨.act hatomic, _, ?_, rest_update⟩, hbehind⟩
    show Operation.Action.Next ops (threads c).rest (.act i o) (some (next o))
    rw [hi]
    exact .act i next o
  | @respond _ _ _ a hrun =>
    refine ⟨cells₀, .single ⟨.respond _ a, _, ?_, rest_update⟩, h.outside (by simp [hrun]) (by simp)⟩
    show Operation.Action.Next ops (threads c).rest (.respond a) none
    rw [hrun]
    exact .respond a

/-- Every run under the locks is seen as a run of clients whose sections act at once, in the order in which they are
left. -/
theorem run_atomic {tr : List (κ × LockAction φ ι ο α)} {s s' : (ℓ → τ) × (κ → Thread ε τ ι ο α)}
    (hrun : Run (M.Locked ops) s tr s') (h : M.Behind cells₀ s.1 s.2) :
    ∃ cells₀', Run (Serving ops M.Atomic) (cells₀, fun c => (s.2 c).rest) (seen tr)
      (cells₀', fun c => (s'.2 c).rest) ∧ M.Behind cells₀' s'.1 s'.2 := by
  induction hrun generalizing cells₀ with
  | nil => exact ⟨cells₀, .nil _, h⟩
  | @cons s s' s'' c a tr hs _ ih =>
    obtain ⟨cells₁, hstep, h₁⟩ := h.locked hs
    obtain ⟨cells₂, hrest, h₂⟩ := ih h₁
    have hseen : seen ((c, a) :: tr) = seen [(c, a)] ++ seen tr := by
      rw [seen, ← List.singleton_append, List.filterMap_append]
      rfl
    exact ⟨cells₂, hseen ▸ hstep.append hrest, h₂⟩

/-- A section that is not disturbed makes its steps. -/
theorem run_script {i : ι} {next : ο → Operation ι ο α} {b : Script ε τ ο} {o : ο} {r : τ}
    (h : b.prog (cells (M.cell i)) = .ok o r) :
    ∃ k, Run (M.Locked ops) (cells, Function.update threads c (.inside i next b)) (List.replicate k (c, .step))
      (Function.update cells (M.cell i) r, Function.update threads c (.inside i next (.done o))) := by
  induction b generalizing cells with
  | done a =>
    cases h
    exact ⟨0, by rw [Function.update_eq_self]; exact .nil _⟩
  | fail e => cases h
  | step put rest ih =>
    have hrest : (rest (cells (M.cell i))).prog
        (Function.update cells (M.cell i) (put (cells (M.cell i))) (M.cell i)) = .ok o r := by
      rw [Function.update_self]
      exact h
    obtain ⟨k, hk⟩ := ih _ hrest
    rw [Function.update_idem] at hk
    refine ⟨k + 1, .cons (.step (Function.update_self ..)) ?_⟩
    rwa [Function.update_idem]

omit [DecidableEq ℓ] in
theorem outside_update {rest : κ → Option (Operation ι ο α)} {t : Option (Operation ι ο α)} :
    (fun c' => (Thread.outside (Function.update rest c t c') : Thread ε τ ι ο α)) =
      Function.update (fun c' => Thread.outside (rest c')) c (Thread.outside t) := by
  funext c'
  by_cases hc : c' = c
  · subst hc
    rw [Function.update_self, Function.update_self]
  · rw [Function.update_of_ne hc, Function.update_of_ne hc]

/-- An action of a client whose sections act at once, made under the locks. -/
theorem serving_locked {s s' : (ℓ → τ) × (κ → Option (Operation ι ο α))} {a : Operation.Action φ ι ο α}
    (hs : Serving ops M.Atomic s c a s') : ∃ ltr, seen ltr = [(c, a)] ∧
      Run (M.Locked ops) (s.1, fun c => Thread.outside (s.2 c)) ltr (s'.1, fun c => Thread.outside (s'.2 c)) := by
  obtain ⟨cells, rest⟩ := s
  obtain ⟨cells', rest'⟩ := s'
  obtain ⟨heff, t, hnext, rfl⟩ := hs
  dsimp only at heff hnext ⊢
  rw [outside_update]
  generalize hc : rest c = t₀ at hnext
  cases hnext with
  | invoke q =>
    cases heff
    exact ⟨[(c, .invoke q)], rfl, .single (.invoke q (congrArg Thread.outside hc))⟩
  | respond a =>
    cases heff
    exact ⟨[(c, .respond a)], rfl, .single (.respond (congrArg Thread.outside hc))⟩
  | act i next o =>
    cases heff with
    | act hatomic =>
      obtain ⟨b, r, hb, hprog, rfl⟩ := hatomic
      have hfree : M.Free (fun c' => (Thread.outside (rest c') : Thread ε τ ι ο α)) i := by
        intro c' j next' b' hj
        replace hj : Thread.outside (rest c') = .inside j next' b' := hj
        cases hrest : rest c' with
        | none =>
          rw [hrest] at hj
          cases hj
        | some t =>
          rw [hrest] at hj
          cases hj
      obtain ⟨k, hk⟩ : ∃ k, Run (M.Locked ops) (cells, Function.update (fun c' => Thread.outside (rest c')) c
          (.inside i next b)) (List.replicate k (c, .step)) (Function.update cells (M.cell i) r, _) :=
        run_script hprog
      have hunlock : M.Locked ops (Function.update cells (M.cell i) r,
          Function.update (fun c' => Thread.outside (rest c')) c (.inside i next (.done o))) c (.unlock i o) _ :=
        .unlock (Function.update_self ..)
      refine ⟨(c, .lock i) :: (List.replicate k (c, .step) ++ [(c, .unlock i o)]), ?_,
        .cons (.lock (congrArg Thread.outside hc) hb hfree) (hk.append ?_)⟩
      · simp [seen, LockAction.seen]
      · rw [Function.update_idem] at hunlock
        exact .single hunlock

/-- Clients whose sections act at once are seen of clients under the locks. -/
theorem run_locked {tr : List (κ × Operation.Action φ ι ο α)} {s s' : (ℓ → τ) × (κ → Option (Operation ι ο α))}
    (hrun : Run (Serving ops M.Atomic) s tr s') : ∃ ltr, seen ltr = tr ∧
      Run (M.Locked ops) (s.1, fun c => Thread.outside (s.2 c)) ltr (s'.1, fun c => Thread.outside (s'.2 c)) := by
  induction hrun with
  | nil => exact ⟨[], rfl, .nil _⟩
  | @cons s s' s'' c a tr hs _ ih =>
    obtain ⟨ltr₁, hseen₁, hrun₁⟩ := serving_locked hs
    obtain ⟨ltr₂, hseen₂, hrun₂⟩ := ih
    refine ⟨ltr₁ ++ ltr₂, ?_, hrun₁.append hrun₂⟩
    rw [seen, List.filterMap_append]
    exact congrArg₂ (· ++ ·) hseen₁ hseen₂

/-- While a client is busy some client can go on, unless a section has failed. -/
theorem progress (hbody : ∀ i, ∃ b, M.body i b) (hbusy : ∃ c, threads c ≠ .idle)
    (hfail : ∀ c i next e, threads c ≠ .inside i next (.fail e)) :
    ∃ c a s', (∀ q, a ≠ .invoke q) ∧ M.Locked ops (cells, threads) c a s' := by
  by_cases hin : ∃ c i next b, threads c = .inside i next b
  · obtain ⟨c, i, next, b, hi⟩ := hin
    cases b with
    | done o => exact ⟨c, _, _, by simp, .unlock hi⟩
    | fail e => exact absurd hi (hfail c i next e)
    | step put rest => exact ⟨c, _, _, by simp, .step hi⟩
  · -- every lock is free
    obtain ⟨c, hc⟩ := hbusy
    cases ht : threads c with
    | idle => exact absurd ht hc
    | inside i next b => exact absurd ⟨c, i, next, b, ht⟩ hin
    | running t =>
      cases t with
      | done a => exact ⟨c, _, _, by simp, .respond ht⟩
      | call i next =>
        obtain ⟨b, hb⟩ := hbody i
        exact ⟨c, _, _, by simp, .lock ht hb fun c' j next' b' hj _ => absurd ⟨c', j, next', b', hj⟩ hin⟩

end Monitor

end RwLock
