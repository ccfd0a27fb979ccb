import DiskHash.FileMap
import DiskHash.Lib.Machine

/-!
# DiskHash.Mapping — what a `file_map` holds of the kernel (`linux/file_map.cpp`, `macos/file_map.cpp`)

A `file_map` on both systems, with the regions the kernel maps for it.  Linux moves a mapping with one call,
`mremap`; macOS has none, so `resize` unmaps the region and maps the file again.  A null `start_` is `none`.
A failing system call leaves the kernel as it was; what was asked of it for a region it does not map is kept in
`strays`.

On Linux a `file_map` never describes a region it does not have.  On macOS it does so exactly after a `resize`
that unmapped its region and was then refused the new one.
-/

namespace DiskHash

/-- A start and a length. -/
abbrev Region := Option ℕ × ℕ

/-- The answers of the system calls, with those that give something back. -/
structure Answers extends Kernel where
  munmap : Region → Bool
  close : Bool

/-- `file_map` and the kernel: `size` is the size of the file, `held` are the regions that are mapped. -/
structure Mapping where
  readOnly : Bool
  isOpen : Bool
  start : Option ℕ
  length : ℕ
  size : ℕ
  held : List Region
  strays : List Region

namespace Mapping

/-- The region the members describe. -/
def region (fm : Mapping) : Region := (fm.start, fm.length)

/-- `file_map::file_map` on a file of `size` bytes. -/
def new (kernel : Kernel) (readOnly : Bool) (size length : ℕ) : Except Fault Mapping := do
  let fm ← FileMap.new kernel readOnly size length
  return ⟨readOnly, true, some fm.start, fm.length, fm.size, [(some fm.start, fm.length)], []⟩

/-- Something is asked for the region of the members. -/
def ask : Prog Fault Mapping Unit := Prog.modify fun fm =>
  { fm with strays := if fm.region ∈ fm.held then fm.strays else fm.region :: fm.strays }

/-- `munmap(start_, length_)`. -/
def munmap (k : Answers) : Prog Fault Mapping Unit := do
  ask
  let fm ← Prog.get
  Prog.check (k.munmap fm.region = true) .systemError
  Prog.modify fun fm => { fm with held := fm.held.erase fm.region }

/-- The part of `resize` that makes the file longer. -/
def extend (k : Answers) (length : ℕ) : Prog Fault Mapping Unit := do
  let fm ← Prog.get
  if fm.length < length then do
    Prog.check (k.lseek length = true) .systemError
    Prog.check (k.write length = true) .systemError
    Prog.modify fun fm => { fm with size := max fm.size (length + 1) }
  else return ()

/-- The part of `close` that gives the region back. -/
def release (k : Answers) : Prog Fault Mapping Unit := do
  let fm ← Prog.get
  if fm.start ≠ none then do
    munmap k
    Prog.modify fun fm => { fm with start := none }
  else return ()

/-- `file_map::close`, on both systems. -/
def close (k : Answers) : Prog Fault Mapping Unit := do
  release k
  let fm ← Prog.get
  if fm.isOpen then do
    Prog.check (k.close = true) .systemError
    Prog.modify fun fm => { fm with isOpen := false }
  else return ()

end Mapping

namespace Linux

/-- `file_map::resize`. -/
def resize (k : Answers) (length : ℕ) : Prog Fault Mapping Unit := do
  let fm ← Prog.get
  if length = fm.length then return ()
  else do
    Mapping.extend k length
    Mapping.ask
    match k.mremap (fm.start.getD 0) fm.length length with
    | none => Prog.throw .systemError
    | some start => Prog.modify fun fm => { fm with
        start := some start, length := length, held := (some start, length) :: fm.held.erase fm.region }

end Linux

namespace MacOs

/-- `file_map::resize`. -/
def resize (k : Answers) (length : ℕ) : Prog Fault Mapping Unit := do
  let fm ← Prog.get
  if length = fm.length then return ()
  else do
    Mapping.extend k length
    Mapping.munmap k
    match k.mmap fm.readOnly length with
    | none => Prog.throw .systemError
    | some start => Prog.modify fun fm => { fm with
        start := some start, length := length, held := (some start, length) :: fm.held }

end MacOs

/-- The two implementations. -/
inductive Platform
  | linux
  | macos
  deriving DecidableEq

/-- The calls to a `file_map`. -/
inductive FileMapCall
  | resize (length : ℕ)
  | close

namespace Mapping

/-- A call of one of the implementations with the answers of its system calls. -/
def perform : Platform → Answers × FileMapCall → Prog Fault Mapping Unit
  | .linux, (k, .resize length) => Linux.resize k length
  | .macos, (k, .resize length) => MacOs.resize k length
  | _, (k, .close) => close k

/-- What a call leaves, whether it returned or threw. -/
def next (platform : Platform) (fm : Mapping) (call : Answers × FileMapCall) : Mapping :=
  (perform platform call fm).state

/-- `resize` unmaps the region and is refused the new one. -/
def Loses (fm : Mapping) : Answers × FileMapCall → Prop
  | (k, .resize length) => length ≠ fm.length ∧ (fm.length < length → k.lseek length = true ∧ k.write length = true) ∧
      k.munmap fm.region = true ∧ k.mmap fm.readOnly length = none
  | (_, .close) => False

/-- The call does not lose the region; on Linux none does. -/
def Spares (platform : Platform) (fm : Mapping) (call : Answers × FileMapCall) : Prop :=
  platform = .macos → ¬ Loses fm call

/-- The members describe no region, or the one that is mapped. -/
def Described (fm : Mapping) : Prop := fm.start = none ∨ fm.held = [fm.region]

/-- A region is described that is mapped. -/
structure Mapped (fm : Mapping) : Prop where
  start : fm.start ≠ none
  held : fm.held = [fm.region]
  strays : fm.strays = []

/-- What is asked of a call: the members describe what is held, a `resize` that throws keeps the region usable, and
nothing is asked for a region that is not mapped. -/
structure Sound (platform : Platform) (fm : Mapping) (call : Answers × FileMapCall) : Prop where
  described : Described (next platform fm call)
  kept : ∀ k length, call = (k, .resize length) → (perform platform call fm).Threw →
    (next platform fm call).region = fm.region ∧ (next platform fm call).held = fm.held
  strays : (next platform fm call).strays = []

section Steps

variable {k : Answers} {fm : Mapping}

theorem ask_mapped (h : fm.Mapped) : ask fm = .ok () fm := by
  have hmem : fm.region ∈ fm.held := by
    rw [h.held]
    exact List.mem_singleton_self _
  unfold ask Prog.modify
  dsimp only
  rw [if_pos hmem]

theorem munmap_runs (h : fm.Mapped) : Prog.Runs (munmap k) fm
    (fun _ fm' => k.munmap fm.region = true ∧ fm' = { fm with held := [] })
    (fun _ fm' => k.munmap fm.region ≠ true ∧ fm' = fm) := by
  unfold munmap
  rw [Prog.runs_bind]
  refine Prog.Runs.mono (Q := fun _ r => r = fm) (E := fun _ _ => False) ?_ (fun _ r hr => ?_) (fun _ _ he => he.elim)
  · unfold Prog.Runs
    rw [ask_mapped h]
  · subst hr
    simp only [Prog.runs_bind, Prog.runs_get, Prog.runs_check, Prog.runs_modify]
    refine ⟨fun hk => ⟨hk, ?_⟩, fun hk => ⟨hk, trivial⟩⟩
    rw [h.held, List.erase_cons_head]

theorem extend_runs (length : ℕ) : Prog.Runs (extend k length) fm
    (fun _ fm' => (fm.length < length → k.lseek length = true ∧ k.write length = true) ∧
      ∃ n, fm' = { fm with size := n })
    (fun _ fm' => fm.length < length ∧ ¬ (k.lseek length = true ∧ k.write length = true) ∧ fm' = fm) := by
  unfold extend
  simp only [Prog.runs_bind, Prog.runs_get]
  refine Prog.runs_ite (fun hl => ?_) (fun hl => ⟨fun hl' => absurd hl' hl, fm.size, rfl⟩)
  simp only [Prog.runs_bind, Prog.runs_check, Prog.runs_modify]
  refine ⟨fun hs => ⟨fun hw => ⟨fun _ => ⟨hs, hw⟩, _, rfl⟩, fun hw => ⟨hl, fun h => hw h.2, trivial⟩⟩,
    fun hs => ⟨hl, fun h => hs h.1, trivial⟩⟩

/-- On Linux a `resize` that throws keeps the region. -/
theorem linux_resize_runs (h : fm.Mapped) (length : ℕ) : Prog.Runs (Linux.resize k length) fm
    (fun _ fm' => fm'.Mapped) (fun _ fm' => fm'.Mapped ∧ fm'.region = fm.region ∧ fm'.held = fm.held) := by
  unfold Linux.resize
  simp only [Prog.runs_bind, Prog.runs_get]
  refine Prog.runs_ite (fun _ => h) (fun _ => ?_)
  rw [Prog.runs_bind]
  refine (extend_runs length).mono ?_ ?_
  · rintro - r ⟨-, n, rfl⟩
    have hr : ({ fm with size := n } : Mapping).Mapped := ⟨h.start, h.held, h.strays⟩
    rw [Prog.runs_bind]
    unfold Prog.Runs
    rw [ask_mapped hr]
    dsimp only
    cases hm : k.mremap (fm.start.getD 0) fm.length length with
    | none => exact ⟨hr, rfl, rfl⟩
    | some start =>
      refine ⟨Option.some_ne_none start, ?_, h.strays⟩
      show (some start, length) :: fm.held.erase fm.region = _
      rw [h.held, List.erase_cons_head]
      rfl
  · rintro e r ⟨-, -, rfl⟩
    exact ⟨h, rfl, rfl⟩

/-- On macOS a `resize` that throws keeps the region unless it loses it. -/
theorem macos_resize_runs (h : fm.Mapped) (length : ℕ) : Prog.Runs (MacOs.resize k length) fm
    (fun _ fm' => ¬ Loses fm (k, .resize length) ∧ fm'.Mapped)
    (fun _ fm' => ¬ Loses fm (k, .resize length) ∧ fm'.Mapped ∧ fm'.region = fm.region ∧ fm'.held = fm.held ∨
      Loses fm (k, .resize length) ∧ fm'.start ≠ none ∧ fm'.held = []) := by
  unfold MacOs.resize
  simp only [Prog.runs_bind, Prog.runs_get]
  refine Prog.runs_ite (fun hl => ⟨fun hc => hc.1 hl, h⟩) (fun hl => ?_)
  rw [Prog.runs_bind]
  refine (extend_runs length).mono ?_ ?_
  · rintro - r ⟨hext, n, rfl⟩
    have hr : ({ fm with size := n } : Mapping).Mapped := ⟨h.start, h.held, h.strays⟩
    rw [Prog.runs_bind]
    refine (munmap_runs hr).mono ?_ ?_
    · rintro - r ⟨hun, rfl⟩
      cases hm : k.mmap fm.readOnly length with
      | none => exact .inr ⟨⟨hl, hext, hun, hm⟩, h.start, rfl⟩
      | some start =>
        refine ⟨fun hc => ?_, Option.some_ne_none start, rfl, h.strays⟩
        have hnone := hc.2.2.2
        rw [hm] at hnone
        cases hnone
    · rintro e r ⟨hun, rfl⟩
      exact .inl ⟨fun hc => hun hc.2.2.1, hr, rfl, rfl⟩
  · rintro e r ⟨hlt, hext, rfl⟩
    exact .inl ⟨fun hc => hext (hc.2.1 hlt), h, rfl, rfl⟩

/-- A region is described that is mapped, or none. -/
def Closing (fm : Mapping) : Prop := fm.Mapped ∨ fm.start = none ∧ fm.strays = []

theorem close_runs (h : fm.Closing) :
    Prog.Runs (close k) fm (fun _ fm' => fm'.Closing) (fun _ fm' => fm'.Closing) := by
  have hrelease : Prog.Runs (release k) fm (fun _ fm' => fm'.start = none ∧ fm'.strays = [])
      (fun _ fm' => fm'.Closing) := by
    unfold release
    simp only [Prog.runs_bind, Prog.runs_get]
    refine Prog.runs_ite (fun hs => ?_) (fun hs => ?_)
    · have hm : fm.Mapped := h.resolve_right fun hc => hs hc.1
      rw [Prog.runs_bind]
      refine (munmap_runs hm).mono ?_ ?_
      · rintro - r ⟨-, rfl⟩
        exact ⟨rfl, hm.strays⟩
      · rintro e r ⟨-, rfl⟩
        exact h
    · rcases h with hm | hnone
      · exact absurd hm.start hs
      · exact hnone
  unfold close
  rw [Prog.runs_bind]
  refine hrelease.mono (fun _ r hr => ?_) (fun _ _ hr => hr)
  simp only [Prog.runs_bind, Prog.runs_get]
  refine Prog.runs_ite (fun _ => ?_) (fun _ => .inr hr)
  simp only [Prog.runs_bind, Prog.runs_check, Prog.runs_modify]
  exact ⟨fun _ => .inr hr, fun _ => .inr hr⟩

end Steps

section Runs

variable {platform : Platform} {k : Answers} {fm : Mapping}

/-- A `resize` is sound unless it loses the region, and then one is mapped after it. -/
theorem resize_sound (h : fm.Mapped) (length : ℕ) :
    (Sound platform fm (k, .resize length) ↔ Spares platform fm (k, .resize length)) ∧
      (Spares platform fm (k, .resize length) → (next platform fm (k, .resize length)).Mapped) := by
  have hmapped : ∀ {threw : Prop} {fm' : Mapping}, fm'.Mapped →
      (threw → fm'.region = fm.region ∧ fm'.held = fm.held) → Described fm' ∧
        (∀ k' n, (k, FileMapCall.resize length) = (k', .resize n) → threw →
          fm'.region = fm.region ∧ fm'.held = fm.held) ∧ fm'.strays = [] :=
    fun hm hk => ⟨.inr hm.held, fun _ _ _ => hk, hm.strays⟩
  cases platform with
  | linux =>
    have hr := Prog.runs_outcome (R := fun threw fm' => fm'.Mapped ∧
      (threw → fm'.region = fm.region ∧ fm'.held = fm.held)).mp
        ((linux_resize_runs (k := k) h length).mono (fun _ _ hm => ⟨hm, False.elim⟩)
          (fun _ _ hm => ⟨hm.1, fun _ => hm.2⟩))
    obtain ⟨hd, hk, hs⟩ := hmapped hr.1 hr.2
    exact ⟨⟨fun _ => Platform.noConfusion, fun _ => ⟨hd, hk, hs⟩⟩, fun _ => hr.1⟩
  | macos =>
    have hr := Prog.runs_outcome (R := fun threw fm' => ¬ Loses fm (k, .resize length) ∧ fm'.Mapped ∧
      (threw → fm'.region = fm.region ∧ fm'.held = fm.held) ∨
        Loses fm (k, .resize length) ∧ fm'.start ≠ none ∧ fm'.held = []).mp
        ((macos_resize_runs (k := k) h length).mono (fun _ _ hm => .inl ⟨hm.1, hm.2, False.elim⟩)
          (fun _ _ hm => hm.imp (fun hk => ⟨hk.1, hk.2.1, fun _ => hk.2.2⟩) id))
    rcases hr with ⟨hl, hm, hk⟩ | ⟨hl, hstart, hheld⟩
    · obtain ⟨hd, hk', hs⟩ := hmapped hm hk
      exact ⟨⟨fun _ _ => hl, fun _ => ⟨hd, hk', hs⟩⟩, fun _ => hm⟩
    · refine ⟨⟨fun hsound => ?_, fun hc => absurd hl (hc rfl)⟩, fun hc => absurd hl (hc rfl)⟩
      rcases hsound.described with hnone | hmem
      · exact absurd hnone hstart
      · rw [show (next .macos fm (k, .resize length)).held = [] from hheld] at hmem
        cases hmem

/-- A `close` is sound in any case. -/
theorem close_sound (h : fm.Closing) :
    Sound platform fm (k, .close) ∧ (next platform fm (k, .close)).Closing := by
  have hr : (next platform fm (k, .close)).Closing := by
    have hclose := (Prog.runs_outcome (R := fun _ fm' => Closing fm')).mp (close_runs (k := k) h)
    cases platform <;> exact hclose
  refine ⟨⟨hr.imp Mapped.held And.left |>.symm, ?_, ?_⟩, hr⟩
  · intro k' length hcall
    cases hcall
  · rcases hr with hm | hnone
    · exact hm.strays
    · exact hnone.2

theorem new_mapped {kernel : Kernel} {readOnly : Bool} {size length : ℕ}
    (h : new kernel readOnly size length = .ok fm) : fm.Mapped := by
  obtain ⟨f, -, hf⟩ := Prog.except_bind_ok.mp h
  cases hf
  exact ⟨Option.some_ne_none _, rfl, rfl⟩

/-- Some lengths to resize to, and then some attempts to close. -/
def calls (resizes : List (Answers × ℕ)) (closes : List Answers) : List (Answers × FileMapCall) :=
  resizes.map (fun r => (r.1, .resize r.2)) ++ closes.map (·, .close)

theorem resizes_sound (h : fm.Mapped) (resizes : List (Answers × ℕ)) :
    (Along (next platform) (Sound platform) fm (resizes.map fun r => (r.1, .resize r.2)) ↔
      Along (next platform) (Spares platform) fm (resizes.map fun r => (r.1, .resize r.2))) ∧
    (Along (next platform) (Spares platform) fm (resizes.map fun r => (r.1, .resize r.2)) →
      Mapped ((resizes.map fun r => (r.1, .resize r.2)).foldl (next platform) fm)) := by
  refine along_congr (fun call hcall fm hm => ?_) (fun call hcall fm hm => ?_) h
  · obtain ⟨r, -, rfl⟩ := List.mem_map.mp hcall
    exact (resize_sound hm r.2).1
  · obtain ⟨r, -, rfl⟩ := List.mem_map.mp hcall
    exact (resize_sound hm r.2).2

theorem closes_sound (h : fm.Closing) (closes : List Answers) :
    Along (next platform) (Sound platform) fm (closes.map (·, .close)) ↔
      Along (next platform) (Spares platform) fm (closes.map (·, .close)) := by
  refine (along_congr (I := Closing) (fun call hcall fm hm => ?_) (fun call hcall fm hm _ => ?_) h).1
  · obtain ⟨k, -, rfl⟩ := List.mem_map.mp hcall
    exact ⟨fun _ _ => not_false, fun _ => (close_sound hm).1⟩
  · obtain ⟨k, -, rfl⟩ := List.mem_map.mp hcall
    exact (close_sound hm).2

theorem calls_sound_iff (h : fm.Mapped) (resizes : List (Answers × ℕ)) (closes : List Answers) :
    Along (next platform) (Sound platform) fm (calls resizes closes) ↔
      Along (next platform) (Spares platform) fm (calls resizes closes) := by
  unfold calls
  rw [along_append, along_append, (resizes_sound h resizes).1]
  exact and_congr_right fun hs => closes_sound (.inl ((resizes_sound h resizes).2 hs)) closes

/-- Through any calls of `resize` and then of `close`, a `file_map` on Linux describes what it holds; on macOS it
does so exactly if no `resize` loses the region. -/
theorem described_iff {kernel : Kernel} {readOnly : Bool} {size length : ℕ}
    (h : new kernel readOnly size length = .ok fm) (resizes : List (Answers × ℕ)) (closes : List Answers) :
    Along (next .linux) (Sound .linux) fm (calls resizes closes) ∧
      (Along (next .macos) (Sound .macos) fm (calls resizes closes) ↔
        Along (next .macos) (fun fm call => ¬ Loses fm call) fm (calls resizes closes)) := by
  refine ⟨(calls_sound_iff (new_mapped h) resizes closes).mpr ?_, ?_⟩
  · exact along_of_forall fun _ _ hp => Platform.noConfusion hp
  · rw [calls_sound_iff (new_mapped h) resizes closes]
    unfold Spares
    simp only [forall_const]

end Runs

/-- A kernel that gives regions back but has no new one. -/
def Answers.exhausted : Answers :=
  { Kernel.willing with mmap := fun _ _ => none, munmap := fun _ => true, close := true }

/-- A file of 200 bytes of which 100 are mapped, resized to 50 and closed. -/
theorem described_iff_exhausted :
    Along (next .linux) (Sound .linux) ⟨false, true, some 0, 100, 200, [(some 0, 100)], []⟩
      (calls [(Answers.exhausted, 50)] [Answers.exhausted]) ∧
    (Along (next .macos) (Sound .macos) ⟨false, true, some 0, 100, 200, [(some 0, 100)], []⟩
      (calls [(Answers.exhausted, 50)] [Answers.exhausted]) ↔
      Along (next .macos) (fun fm call => ¬ Loses fm call) ⟨false, true, some 0, 100, 200, [(some 0, 100)], []⟩
        (calls [(Answers.exhausted, 50)] [Answers.exhausted])) :=
  described_iff (show new Kernel.willing false 200 100 = .ok _ from rfl) _ _

/-- On macOS the members still describe the region that was unmapped. -/
theorem macos_not_described : ¬ ∀ (platform : Platform) (kernel : Kernel) (readOnly : Bool) (size length : ℕ)
    (fm : Mapping) (resizes : List (Answers × ℕ)) (closes : List Answers),
    new kernel readOnly size length = .ok fm → Along (next platform) (Sound platform) fm (calls resizes closes) := by
  intro h
  have hsound := (h .macos Kernel.willing false 200 100 _ [(Answers.exhausted, 50)] [] rfl).1
  rcases hsound.described with hstart | hheld
  · cases hstart
  · cases hheld

/-- What `FileMap` keeps of a mapping. -/
def view (fm : Mapping) : FileMap := ⟨fm.size, fm.start.getD 0, fm.length⟩

theorem extend_view (k : Answers) (length : ℕ) (fm : Mapping) :
    Prog.Runs (extend k length) fm
      (fun _ fm' => FileMap.extend k.toKernel length fm.view = .ok () fm'.view ∧
        fm'.start = fm.start ∧ fm'.length = fm.length)
      (fun e fm' => FileMap.extend k.toKernel length fm.view = .error e fm'.view) := by
  have hget : (Prog.get : Prog Fault FileMap FileMap) fm.view = .ok fm.view fm.view := rfl
  unfold extend FileMap.extend
  rw [Prog.bind_ok hget]
  simp only [Prog.runs_bind, Prog.runs_get]
  by_cases hl : fm.length < length
  · rw [if_pos hl, if_pos (show fm.view.length < length from hl)]
    by_cases hs : k.lseek length = true
    · by_cases hw : k.write length = true
      · simp only [Prog.check, hs, hw, if_true]
        exact ⟨rfl, rfl, rfl⟩
      · simp only [Prog.check, hs, hw, if_true]
        rfl
    · simp only [Prog.check, hs]
      rfl
  · rw [if_neg hl, if_neg (show ¬ fm.view.length < length from hl)]
    exact ⟨rfl, rfl, rfl⟩

/-- The `resize` of the hash map's files is the one of Linux. -/
theorem linux_resize_view (k : Answers) (length : ℕ) (fm : Mapping) :
    Prog.Runs (Linux.resize k length) fm (fun _ fm' => FileMap.resize k.toKernel length fm.view = .ok () fm'.view)
      (fun e fm' => FileMap.resize k.toKernel length fm.view = .error e fm'.view) := by
  have hget : (Prog.get : Prog Fault FileMap FileMap) fm.view = .ok fm.view fm.view := rfl
  unfold Linux.resize FileMap.resize
  rw [Prog.bind_ok hget]
  simp only [Prog.runs_bind, Prog.runs_get]
  by_cases hl : length = fm.length
  · rw [if_pos hl, if_pos (show length = fm.view.length from hl)]
    rfl
  · rw [if_neg hl, if_neg (show ¬ length = fm.view.length from hl), Prog.runs_bind]
    refine (extend_view k length fm).mono ?_ (fun e r hr => Prog.bind_error hr _)
    rintro - r ⟨hext, hstart, hlength⟩
    rw [Prog.bind_ok hext, Prog.runs_bind]
    unfold ask
    rw [Prog.runs_modify]
    cases hm : k.mremap (fm.start.getD 0) fm.length length with
    | none =>
      simp only [view, hm]
      rfl
    | some start =>
      simp only [view, hm]
      rfl
end Mapping

end DiskHash
