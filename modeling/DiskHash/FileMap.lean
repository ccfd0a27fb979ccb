import DiskHash.Settings

/-!
# DiskHash.FileMap — a file mapped into memory (`linux/file_map.cpp`)

`Kernel` is what the operating system answers to the system calls of one call of the library; a call that
grows a file asks for a different length each time, so answers by argument lose no pattern of failures.
A failing system call throws `system_error` and leaves the mapping as it was.  What the file holds is
kept by its owner (`Container`, `Catalogue`): the mapping is shared, so bytes written through it are the
bytes of the file, and bytes the file never had read as zero.
-/

namespace DiskHash

/-- The answers of the system calls. -/
structure Kernel where
  openFile : (readOnly : Bool) → Bool
  fstat : Bool
  lseek : ℕ → Bool
  write : ℕ → Bool
  mmap : (readOnly : Bool) → (length : ℕ) → Option ℕ
  mremap : (start oldLength newLength : ℕ) → Option ℕ

/-- A kernel that grants every call. -/
structure Kernel.Grants (kernel : Kernel) : Prop where
  openFile : ∀ readOnly, kernel.openFile readOnly = true
  fstat : kernel.fstat = true
  lseek : ∀ n, kernel.lseek n = true
  write : ∀ n, kernel.write n = true
  mmap : ∀ readOnly n, (kernel.mmap readOnly n).isSome
  mremap : ∀ s m n, (kernel.mremap s m n).isSome

/-- A kernel that grants every call and never moves a mapping. -/
def Kernel.willing : Kernel :=
  ⟨fun _ => true, true, fun _ => true, fun _ => true, fun _ _ => some 0, fun start _ _ => some start⟩

theorem Kernel.willing_grants : Kernel.willing.Grants :=
  ⟨fun _ => rfl, rfl, fun _ => rfl, fun _ => rfl, fun _ _ => rfl, fun _ _ _ => rfl⟩

/-- A kernel that grants every call but `mremap`. -/
def Kernel.stubborn : Kernel := { Kernel.willing with mremap := fun _ _ _ => none }

/-- `file_map`: `size` is the size of the file behind `fd_`, `start` and `length` are the members. -/
structure FileMap where
  size : ℕ
  start : ℕ
  length : ℕ

namespace FileMap

/-- `file_map::file_map` on a file of `size` bytes. -/
def new (kernel : Kernel) (readOnly : Bool) (size length : ℕ) : Except Fault FileMap :=
  if ¬ kernel.openFile readOnly then .error .systemError
  else if ¬ kernel.fstat then .error .systemError
  else if length = 0 then
    match kernel.mmap readOnly size with
    | none => .error .systemError
    | some start => .ok ⟨size, start, size⟩
  else if size < length ∧ ¬ kernel.lseek length then .error .systemError
  else if size < length ∧ ¬ kernel.write length then .error .systemError
  else
    match kernel.mmap readOnly length with
    | none => .error .systemError
    | some start => .ok ⟨if size < length then length + 1 else size, start, length⟩

/-- The part of `resize` that makes the file longer: a byte is written at the new length. -/
def extend (kernel : Kernel) (length : ℕ) : Prog Fault FileMap Unit := do
  let fm ← Prog.get
  if fm.length < length then do
    Prog.check (kernel.lseek length = true) .systemError
    Prog.check (kernel.write length = true) .systemError
    Prog.modify fun fm => { fm with size := max fm.size (length + 1) }
  else return ()

/-- `file_map::resize`. -/
def resize (kernel : Kernel) (length : ℕ) : Prog Fault FileMap Unit := do
  let fm ← Prog.get
  if length = fm.length then return ()
  else do
    extend kernel length
    match kernel.mremap fm.start fm.length length with
    | none => Prog.throw .systemError
    | some start => Prog.modify fun fm => { fm with start := start, length := length }

/-- What is left of a mapping after a `resize` that threw. -/
def Refused (kernel : Kernel) (fm : FileMap) (e : Fault) (fm' : FileMap) : Prop :=
  e = .systemError ∧ fm'.start = fm.start ∧ fm'.length = fm.length ∧ ¬ kernel.Grants

theorem extend_runs (kernel : Kernel) (length : ℕ) (fm : FileMap) :
    Prog.Runs (extend kernel length) fm (fun _ fm' => fm'.start = fm.start ∧ fm'.length = fm.length)
      (Refused kernel fm) := by
  unfold extend
  simp only [Prog.runs_bind, Prog.runs_get]
  refine Prog.runs_ite (fun _ => ?_) (fun _ => ⟨rfl, rfl⟩)
  simp only [Prog.runs_bind, Prog.runs_check, Prog.runs_modify]
  exact ⟨fun _ => ⟨fun _ => ⟨trivial, trivial⟩, fun h => ⟨rfl, rfl, rfl, fun g => h (g.write _)⟩⟩,
    fun h => ⟨rfl, rfl, rfl, fun g => h (g.lseek _)⟩⟩

/-- `resize` sets the length, or throws and keeps the mapping. -/
theorem resize_runs (kernel : Kernel) (length : ℕ) (fm : FileMap) :
    Prog.Runs (resize kernel length) fm (fun _ fm' => fm'.length = length) (Refused kernel fm) := by
  unfold resize
  simp only [Prog.runs_bind, Prog.runs_get]
  refine Prog.runs_ite (fun h => h.symm) (fun _ => ?_)
  rw [Prog.runs_bind]
  refine (extend_runs kernel length fm).mono (fun _ r hr => ?_) (fun _ _ h => h)
  cases hm : kernel.mremap fm.start fm.length length with
  | none =>
    refine ⟨rfl, hr.1, hr.2, fun g => ?_⟩
    have := g.mremap fm.start fm.length length
    rw [hm] at this
    exact absurd this (by simp)
  | some start => rfl

/-- Without `mremap` the length of a mapping cannot change. -/
theorem resize_refused {fm : FileMap} {length : ℕ} (hne : length ≠ fm.length) :
    Prog.Runs (resize Kernel.stubborn length) fm (fun _ _ => False) (fun e _ => e = .systemError) := by
  unfold resize
  rw [Prog.runs_bind, Prog.runs_get, if_neg hne, Prog.runs_bind]
  exact (extend_runs Kernel.stubborn length fm).mono (fun _ _ _ => rfl) (fun _ _ hr => hr.1)

/-- The constructor maps the length it was asked for. -/
theorem new_length {kernel : Kernel} {readOnly : Bool} {size length : ℕ} {fm : FileMap} (hl : length ≠ 0)
    (h : new kernel readOnly size length = .ok fm) : fm.length = length := by
  unfold new at h
  cases hm : kernel.mmap readOnly length with
  | none =>
    simp only [hm, if_neg hl] at h
    split_ifs at h
  | some start =>
    simp only [hm, if_neg hl] at h
    split_ifs at h <;> rw [← Except.ok.inj h]

theorem new_returns {kernel : Kernel} (g : kernel.Grants) (readOnly : Bool) (size length : ℕ) :
    ∃ fm, new kernel readOnly size length = .ok fm := by
  obtain ⟨s₁, h1⟩ := Option.isSome_iff_exists.mp (g.mmap readOnly size)
  obtain ⟨s₂, h2⟩ := Option.isSome_iff_exists.mp (g.mmap readOnly length)
  unfold new
  simp only [g.openFile, g.fstat, g.lseek, g.write, h1, h2, not_true_eq_false, and_false, if_false]
  by_cases hl : length = 0
  · rw [if_pos hl]
    exact ⟨_, rfl⟩
  · rw [if_neg hl]
    exact ⟨_, rfl⟩

end FileMap

end DiskHash
