import DiskHash.Python

/-!
# DiskHash.ReadOnly — Python programs that read the files of an earlier program

A program that opens files to read has shorter mappings than the one that wrote them.  Each of its calls ends as it
would with the mappings of the first program, or leaves the mapping, so what is seen of it is an echo of a program
with these.
-/

namespace DiskHash

namespace PyDiskHash

open Python

variable {m' m : HashMap defaultBucketSize} {d' d : PyDiskHash} (fuel : ℕ) (key : Bytes)

/-- Both are read-only, and closed, or open with these maps. -/
def Echoes (m' m : HashMap defaultBucketSize) (d' d : PyDiskHash) : Prop :=
  d'.readOnly = true ∧ d.readOnly = true ∧ (d'.map = some m' ∧ d.map = some m ∨ d'.map = none ∧ d.map = none)

theorem ensureOpen_confined : ensureOpen.Confined (Echoes m' m) (.fault .outOfBounds) := by
  refine Prog.confined_get (fun d' d h => ?_) fun _ => Prog.confined_unless _ _
  have hsome : d'.map.isSome = d.map.isSome := by
    rcases h with ⟨-, -, ⟨h', h⟩ | ⟨h', h⟩⟩ <;> rw [h', h]
    rfl
  rw [hsome]

/-- A method that changes a map only raises. -/
theorem readOnly_confined {α : Type} (p : Prog PyError PyDiskHash α) :
    (Prog.get >>= fun self => if self.readOnly then Prog.throw (.raised isReadOnly) else p :
      Prog PyError PyDiskHash α).Confined
      (Echoes m' m) (.fault .outOfBounds) := by
  refine (Prog.confined_throw (.raised isReadOnly)).congr fun d' d h => ⟨?_, ?_⟩
  · show (if d'.readOnly then _ else _ : Prog PyError PyDiskHash α) d' = _
    rw [if_pos h.1]
  · show (if d.readOnly then _ else _ : Prog PyError PyDiskHash α) d = _
    rw [if_pos h.2.1]

variable (hs : m'.Shorter m)
include hs

theorem onMap_confined {α : Type} {p : Prog Fault (HashMap defaultBucketSize) α}
    (hp : p.Confined HashMap.Shorter .outOfBounds) : (onMap p).Confined (Echoes m' m) (.fault .outOfBounds) := by
  rintro ⟨_, readOnly'⟩ ⟨_, readOnly⟩ ⟨-, -, ⟨rfl, rfl⟩ | ⟨rfl, rfl⟩⟩
  · unfold onMap
    rcases hp m' m hs with he | ⟨a, ha', ha⟩ | ⟨e, he', he⟩
    · left
      dsimp only
      rw [he]
    · right; left
      refine ⟨a, ?_⟩
      dsimp only
      rw [ha', ha]
      exact ⟨rfl, rfl⟩
    · right; right
      refine ⟨.fault e, ?_⟩
      dsimp only
      rw [he', he]
      exact ⟨rfl, rfl⟩
  · exact .inl rfl

theorem lookup_confined : (lookup fuel key).Confined (Echoes m' m) (.fault .outOfBounds) := by
  refine onMap_confined hs <| (HashMap.find_confined _ _ _).bind fun r => Prog.confined_get (fun m' m h => ?_) fun _ =>
    Prog.confined_pure _
  have hview : m'.container.view = m.container.view := by
    funext v
    unfold Container.view
    rw [h.2.1]
  rw [hview]

theorem keyed_confined (os : Os) (c : KeyCall) : (c.run os fuel).Confined (Echoes m' m) (.fault .outOfBounds) := by
  cases c with
  | get key default =>
    refine (ensureOpen_confined.bind fun _ => (lookup_confined fuel key hs).bind fun r => ?_).bind fun _ =>
      Prog.confined_pure _
    cases r <;> exact Prog.confined_pure _
  | getitem key =>
    refine (ensureOpen_confined.bind fun _ => (lookup_confined fuel key hs).bind fun r => ?_).bind fun _ =>
      Prog.confined_pure _
    cases r with
    | none => exact Prog.confined_throw _
    | some bs => exact Prog.confined_pure _
  | contains key =>
    exact (ensureOpen_confined.bind fun _ => (lookup_confined fuel key hs).bind fun _ => Prog.confined_pure _).bind
      fun _ => Prog.confined_pure _
  | setitem key value =>
    exact (ensureOpen_confined.bind fun _ => readOnly_confined _).bind fun _ => Prog.confined_pure _
  | delitem key =>
    exact (ensureOpen_confined.bind fun _ => readOnly_confined _).bind fun _ => Prog.confined_pure _

end PyDiskHash

namespace PyDiskHashIterator

variable {m' m : HashMap defaultBucketSize} (hs : m'.Shorter m) (fuel : ℕ)
include hs

theorem new_confined : (new fuel).Confined (PyDiskHash.Echoes m' m) (.fault .outOfBounds) :=
  PyDiskHash.ensureOpen_confined.bind fun _ =>
    (PyDiskHash.onMap_confined hs (ConstIterator.atBegin_confined fuel)).bind fun _ => Prog.confined_pure _

theorem next_confined (it : PyDiskHashIterator) :
    (it.next fuel).Confined (PyDiskHash.Echoes m' m) (.fault .outOfBounds) := by
  refine (Prog.confined_throw _).ite <| PyDiskHash.onMap_confined hs <| (ConstIterator.deref_confined _).bind fun v =>
    (ConstIterator.next_confined _ _).bind fun _ => Prog.confined_get (fun m' m h => ?_) fun _ => Prog.confined_pure _
  unfold Container.view
  rw [h.2.1]

end PyDiskHashIterator

namespace Python

variable {m' m : HashMap defaultBucketSize} {o o' : Objects} {s : PyDict} {r : Except PyException Answer}

/-- The same iterators over maps of which one echoes the other. -/
def Echoes (m' m : HashMap defaultBucketSize) (o' o : Objects) : Prop :=
  PyDiskHash.Echoes m' m o'.map o.map ∧ o'.iterators = o.iterators

/-- What is seen of the program with the one map is seen of it with the other. -/
def Echoing (m' m : HashMap defaultBucketSize) (p : Prog PyError Objects Answer) : Prop :=
  ∀ o' o, Echoes m' m o' o → ∀ r t', seen (p o') = some (r, t') → ∃ t, seen (p o) = some (r, t) ∧ Echoes m' m t' t

theorem onSelf_confined {α : Type} {p : Prog PyError PyDiskHash α}
    (hp : p.Confined (PyDiskHash.Echoes m' m) (.fault .outOfBounds)) :
    (onSelf p).Confined (Echoes m' m) (.fault .outOfBounds) := hp.zoom (fun _ _ h => h.1) fun _ => rfl

theorem Echoing.of_confined {p : Prog PyError Objects Answer} (hp : p.Confined (Echoes m' m) (.fault .outOfBounds)) :
    Echoing m' m p := by
  intro o' o h r t' hseen
  rcases hp o' o h with he | ⟨a, ha', ha⟩ | ⟨e, he', he⟩
  · rw [he] at hseen
    cases hseen
  · rw [ha'] at hseen
    cases hseen
    exact ⟨o, by rw [ha]; rfl, h⟩
  · rw [he'] at hseen
    cases e with
    | fault f => cases hseen
    | raised e =>
      cases hseen
      exact ⟨o, by rw [he]; rfl, h⟩

/-- A program that goes on with what a confined one returns. -/
theorem Echoing.of_bind {α : Type} {p : Prog PyError Objects α} {f : α → Prog PyError Objects Answer}
    (hp : p.Confined (Echoes m' m) (.fault .outOfBounds)) (hf : ∀ a, Echoing m' m (f a)) : Echoing m' m (p >>= f) := by
  intro o' o h
  rcases hp o' o h with he | ⟨a, ha', ha⟩ | ⟨e, he', he⟩
  · rw [Prog.bind_error he]
    intro r t' hseen
    cases hseen
  · rw [Prog.bind_ok ha', Prog.bind_ok ha]
    exact hf a o' o h
  · rw [Prog.bind_error he', Prog.bind_error he]
    exact Echoing.of_confined (Prog.confined_throw e) o' o h

/-- Every call but `bytes_allocated`. -/
theorem call_echoing (hs : m'.Shorter m) (os : Os) (fuel : ℕ) {call : Call} (hcall : call ≠ .bytesAllocated) :
    Echoing m' m (call.run os fuel) := by
  cases call with
  | keyed c =>
    exact .of_confined (onSelf_confined (PyDiskHash.keyed_confined fuel hs os c))
  | bytesAllocated => exact absurd rfl hcall
  | iter =>
    refine .of_bind (onSelf_confined (PyDiskHashIterator.new_confined hs fuel)) fun it => ?_
    rintro ⟨d', its⟩ ⟨d, _⟩ ⟨h, rfl⟩ r t' hseen
    cases hseen
    exact ⟨_, rfl, h, rfl⟩
  | next i =>
    rintro ⟨d', its⟩ ⟨d, _⟩ ⟨h, rfl⟩
    cases hit : its[i]? with
    | none =>
      intro r t' hseen
      rw [next_run_none hit] at hseen
      cases hseen
    | some it =>
      rw [next_run hit, next_run hit]
      refine Echoing.of_bind (onSelf_confined (PyDiskHashIterator.next_confined hs fuel it)) (fun x => ?_) _ _ ⟨h, rfl⟩
      rintro ⟨d', its⟩ ⟨d, _⟩ ⟨h, rfl⟩ r t' hseen
      cases hseen
      exact ⟨_, rfl, h, rfl⟩
  | enter => exact .of_confined (Prog.confined_pure _)
  | exit =>
    rintro ⟨d', its⟩ ⟨d, _⟩ ⟨h, rfl⟩ r t' hseen
    cases hseen
    exact ⟨_, rfl, ⟨h.1, h.2.1, .inr ⟨rfl, rfl⟩⟩, rfl⟩
  | close =>
    rintro ⟨d', its⟩ ⟨d, _⟩ ⟨h, rfl⟩ r t' hseen
    cases hseen
    exact ⟨_, rfl, ⟨h.1, h.2.1, .inr ⟨rfl, rfl⟩⟩, rfl⟩

/-- `bytes_allocated` tells the lengths of the mappings and changes nothing. -/
theorem bytesAllocated_echo {t' : Objects} (h : Echoes m' m o' o) (hstep : Step o' .bytesAllocated r t') :
    t' = o' ∧ ∀ n, r = .ok (.size n) → n = m'.bytesAllocated := by
  obtain ⟨⟨_, readOnly⟩, its⟩ := o'
  obtain ⟨⟨-, -, ⟨rfl, -⟩ | ⟨rfl, -⟩⟩, -⟩ := h
  · obtain ⟨os, fuel, hseen⟩ := hstep
    cases hseen
    refine ⟨rfl, fun n hn => ?_⟩
    cases hn
    rfl
  · obtain ⟨os, fuel, hseen⟩ := hstep
    cases hseen
    exact ⟨rfl, fun n hn => by cases hn⟩

/-- A program with the echo: its calls but `bytes_allocated` mean what they mean for the map that is echoed. -/
theorem echo_run (hs : m'.Shorter m) {tr : List (Call × Except PyException Answer)} {t' : Objects}
    (hrun : Run Step o' tr t') (h : Echoes m' m o' o) (hrep : Represents o s) :
    (∃ t, Echoes m' m t' t) ∧
    (∃ s', Run Means s (tr.filter fun e => e.1 ≠ .bytesAllocated) s') ∧
    ∀ n, (.bytesAllocated, .ok (.size n)) ∈ tr → n = m'.bytesAllocated := by
  induction hrun generalizing o s with
  | nil => exact ⟨⟨o, h⟩, ⟨s, .nil s⟩, fun n hn => by cases hn⟩
  | @cons o' t' t'' call r tr hstep _ ih =>
    by_cases hcall : call = .bytesAllocated
    · subst hcall
      obtain ⟨rfl, hsize⟩ := bytesAllocated_echo h hstep
      obtain ⟨hend, hmeans, hall⟩ := ih h hrep
      refine ⟨hend, by simpa using hmeans, fun n hn => ?_⟩
      rcases List.mem_cons.mp hn with hn | hn
      · exact hsize n (Prod.mk.inj hn).2.symm
      · exact hall n hn
    · obtain ⟨os, fuel, hseen⟩ := hstep
      obtain ⟨t, ht, hecho⟩ := call_echoing hs os fuel hcall o' o h r t' hseen
      obtain ⟨s₁, hs₁, hrep₁⟩ := step_means hrep ⟨os, fuel, ht⟩
      obtain ⟨hend, ⟨s', hmeans⟩, hall⟩ := ih hecho hrep₁
      refine ⟨hend, ⟨s', ?_⟩, fun n hn => ?_⟩
      · rw [List.filter_cons_of_pos (by simpa using hcall)]
        exact .cons hs₁ hmeans
      · rcases List.mem_cons.mp hn with hn | hn
        · exact absurd (Prod.mk.inj hn).1.symm hcall
        · exact hall n hn

end Python

end DiskHash
