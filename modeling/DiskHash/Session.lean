import DiskHash.Lib.Machine
import DiskHash.Map

/-!
# DiskHash.Session — sessions with the map, and the dictionary they refine

A session is a run of calls that returned.  What the map stands for is a dictionary keyed by hash and key;
its specification `dictionary` has one answer to every call, and every session gives these answers.
-/

namespace DiskHash

/-- A call of the map.  `get` is told what the system answers to its system calls. -/
inductive Call
  | get (os : Os) (hash : Hash) (key default : Bytes)
  | find (hash : Hash) (key : Bytes)
  | remove (hash : Hash) (key : Bytes)

/-- The answers, with the bytes a returned view shows at that moment. -/
inductive Answer
  | value (bs : Bytes)
  | lookup (o : Option Bytes)
  | removed (b : Bool)
  deriving DecidableEq

namespace Call

variable {B : ℕ}

def run (fuel : ℕ) : Call → Prog Fault (HashMap B) Answer
  | get os hash key default => do
    let v ← HashMap.get os fuel hash key default
    let m ← Prog.get
    return .value (m.container.view v)
  | find hash key => do
    let v ← HashMap.find fuel hash key
    let m ← Prog.get
    return .lookup (v.map m.container.view)
  | remove hash key => do
    let b ← HashMap.remove fuel hash key
    return .removed b

/-- The record the call may insert fits a bucket, the system grants what the call asks of it, and there are
not more buckets than hashes. -/
def Admissible (m : HashMap B) : Call → Prop
  | get os _ key default =>
    Container.bytesRequired key default ≤ B ∧ os.Grants ∧ m.container.layout.bucketsCount ≤ 2 ^ 32
  | find _ _ => True
  | remove _ _ => True

end Call

/-- The call returned. -/
def Step {B : ℕ} (m : HashMap B) (call : Call) (answer : Answer) (m' : HashMap B) : Prop :=
  ∃ fuel, call.run fuel m = .ok answer m'

/-- The maps of the sessions that begin with files that do not exist. -/
def Reachable {B : ℕ} (m : HashMap B) : Prop :=
  ∃ os m₀ tr, HashMap.new os false (Files.empty B) = .ok m₀ ∧ Run Step m₀ tr m

/-! ### The dictionary -/

/-- What the map stands for. -/
abbrev Contents : Type := Dict (Hash × Bytes) Bytes

/-- What the calls do to a dictionary. -/
def dictionary (D : Contents) : Call → Answer × Contents
  | .get _ hash key default =>
    (.value (D.getOrInsert (hash, key) default).1, (D.getOrInsert (hash, key) default).2)
  | .find hash key => (.lookup (D (hash, key)), D)
  | .remove hash key => (.removed (D (hash, key)).isSome, D.erase (hash, key))

namespace HashMap

variable {B : ℕ} {m m' : HashMap B} {S S' : Shape} {hash : Hash} {key : Bytes} {D : Contents}

/-- The records of the shape are the entries of the dictionary. -/
def Lists (S : Shape) (D : Contents) : Prop :=
  Dict.Lists (fun r : Record => (r.hash, r.key)) Record.value S.records D

/-- The map stands for the dictionary. -/
def Represents (m : HashMap B) (D : Contents) : Prop := ∃ S, m.Inv S ∧ Lists S D

theorem is_iff {r : Record} : r.Is hash key ↔ (r.hash, r.key) = (hash, key) := by
  rw [Prod.mk.injEq]
  rfl

theorem Lists.none_iff (h : Lists S D) : D (hash, key) = none ↔ ∀ r ∈ S.records, ¬ r.Is hash key := by
  rw [Dict.Lists.none_iff h]
  simp only [is_iff, ne_eq]

theorem Lists.some_of_mem (h : Lists S D) {r : Record} (hr : r ∈ S.records) (hi : r.Is hash key) :
    D (hash, key) = some r.value := by
  rw [← is_iff.mp hi]
  exact Dict.Lists.some_of_mem h hr

theorem find_step (hB : B < 2 ^ 31) (h : m.Inv S) (hD : Lists S D) (fuel : ℕ) (hash : Hash)
    (key : Bytes) :
    Prog.Runs (find fuel hash key) m (fun o m' => m' = m ∧ o.map m.container.view = D (hash, key))
      (fun e _ => Container.Starved fuel m.container.layout.bucketsCount e) := by
  refine (find_runs hB h fuel hash key).mono ?_ (fun e m' he => he.2)
  rintro o m' ⟨rfl, L, hL, hhead, ho⟩
  refine ⟨rfl, ?_⟩
  cases o with
  | none => exact (hD.none_iff.mpr ((h.absent_iff hL hhead).mp ho)).symm
  | some v =>
    obtain ⟨i, pre, r, post, ⟨L', hL', hi⟩, hrec, his, -, hview⟩ := h.found hL ho
    rw [Option.map_some, hview]
    exact (hD.some_of_mem (Shape.mem_records.mpr ⟨L', hL', i, hi, by simp [hrec]⟩) his).symm

theorem remove_step (hB : B < 2 ^ 31) (h : m.Inv S) (hD : Lists S D) (fuel : ℕ) (hash : Hash)
    (key : Bytes) :
    Prog.Runs (remove fuel hash key) m
      (fun b m' => b = (D (hash, key)).isSome ∧ m'.Represents (D.erase (hash, key)))
      (fun e _ => Container.Starved fuel m.container.layout.bucketsCount e) := by
  refine (remove_runs hB h fuel hash key).mono (fun b m' hr => ?_) (fun e m' he => he.2)
  cases b with
  | false =>
    obtain ⟨rfl, habs⟩ := hr
    have hnone := hD.none_iff.mpr habs
    refine ⟨by rw [hnone]; rfl, S, h, ?_⟩
    have : D.erase (hash, key) = D := Function.update_eq_self_iff.mpr hnone.symm
    rwa [this]
  | true =>
    obtain ⟨i, pre, r, post, S', hrem, hinv, hperm, -⟩ := hr
    have hr := hrem.first.is
    have hmem : r ∈ S.records := hperm.mem_iff.mpr (by simp)
    refine ⟨by rw [hD.some_of_mem hmem hr]; rfl, S', hinv, ?_⟩
    have := (Dict.Lists.perm hD hperm).erase
    rwa [is_iff.mp hr] at this

/-- `get` leaves a record of the hash and the key, and returns the view of its value. -/
theorem get_located (hB : B < 2 ^ 31) (os : Os) (h : m.Inv S) (hD : Lists S D) (fuel : ℕ) (hash : Hash)
    (key default : Bytes) :
    Prog.Runs (get os fuel hash key default) m
      (fun v m' => ∃ S' i pre r post, m'.Inv S' ∧ Lists S' (D.getOrInsert (hash, key) default).2 ∧
        (∃ L ∈ S'.chains, i ∈ L) ∧ S'.recs i = pre ++ r :: post ∧ r.Is hash key ∧ v = Bucket.valueView i pre r)
      (fun e _ => GetFails os m fuel (m.container.layout.bucketsCount + S.records.length + 1) e ∨
        B < Container.bytesRequired key default ∧ e = .outOfFuel) := by
  obtain ⟨L, rest, p, q, hperm, h', hf⟩ := h.front hash
  have hrec : S.records.Perm (Shape.records { S with chains := L :: rest }) := hperm.flatten.flatMap_right _
  have hD' : Lists { S with chains := L :: rest } D := Dict.Lists.perm hD hrec
  refine (get_runs hB os h' hf fuel key default).mono (fun v m' hg => ?_)
    (fun e m' he => by rwa [hrec.length_eq])
  cases hg with
  | found hfind hm =>
    subst hm
    obtain ⟨i, pre, r, post, ⟨L', hL', hi⟩, hreci, his, hv, -⟩ :=
      h'.found (L := L) (by rw [hf.chains]; simp) hfind
    have hsome := hD'.some_of_mem (Shape.mem_records.mpr ⟨L', hL', i, hi, hreci ▸ by simp⟩) his
    rw [Dict.getOrInsert_some hsome]
    exact ⟨_, i, pre, r, post, h', hD', ⟨L', hL', hi⟩, hreci, his, hv⟩
  | stored b' m₁ S₁ L₁ rest₁ habs hm hi hcat =>
    obtain ⟨hw, hrec'⟩ := hm.stored habs hi hcat
    have hnone := hD'.none_iff.mpr habs
    rw [Dict.getOrInsert_none hnone]
    obtain ⟨T, hT, hmem⟩ := S₁.target_mem_write B m₁.container.layout.bucketsCount L₁ rest₁ ⟨hash, key, default⟩
    refine ⟨_, _, _, ⟨hash, key, default⟩, [], hw.inv, ?_, ⟨T, hT, hmem⟩, ?_, ⟨rfl, rfl⟩, hw.view⟩
    · exact (Dict.Lists.cons (e := (⟨hash, key, default⟩ : Record)) hD' hnone).perm hrec'.symm
    · rw [S₁.write_recs, Function.update_self]

theorem get_step (hB : B < 2 ^ 31) (os : Os) (h : m.Inv S) (hD : Lists S D) (fuel : ℕ) (hash : Hash)
    (key default : Bytes) :
    Prog.Runs (get os fuel hash key default) m
      (fun v m' => m'.container.view v = (D.getOrInsert (hash, key) default).1 ∧
        m'.Represents (D.getOrInsert (hash, key) default).2)
      (fun e _ => GetFails os m fuel (m.container.layout.bucketsCount + S.records.length + 1) e ∨
        B < Container.bytesRequired key default ∧ e = .outOfFuel) := by
  refine (get_located hB os h hD fuel hash key default).mono ?_ (fun _ _ he => he)
  rintro v m' ⟨S', i, pre, r, post, h', hD', ⟨L, hL, hi⟩, hrec, his, rfl⟩
  have hholds := h'.rep.holds_of_mem hL hi
  rw [hrec] at hholds
  have hsome := hD'.some_of_mem (Shape.mem_records.mpr ⟨L, hL, i, hi, hrec ▸ by simp⟩) his
  rw [Dict.getOrInsert_self, Option.some.injEq] at hsome
  exact ⟨(Container.view_value hholds).trans hsome.symm, S', h', hD'⟩

/-- A call gives the answer of the dictionary; an admissible one can only fail by running out of fuel. -/
theorem call_runs (hB : B < 2 ^ 31) (h : m.Inv S) (hD : Lists S D) (fuel : ℕ) (call : Call) :
    Prog.Runs (call.run fuel) m
      (fun a m' => a = (dictionary D call).1 ∧ m'.Represents (dictionary D call).2)
      (fun e _ => call.Admissible m →
        Container.Starved fuel (m.container.layout.bucketsCount + S.records.length + 1) e) := by
  cases call with
  | get os hash key default =>
    refine Prog.runs_bind _ |>.mpr ((get_step hB os h hD fuel hash key default).mono ?_ ?_)
    · rintro v m' ⟨hv, hr⟩
      exact ⟨congrArg Answer.value hv, hr⟩
    · rintro e m' (he | ⟨hlt, -⟩) ⟨hfit, hg, hcount⟩
      · cases he with
        | starved hs => exact hs
        | refused _ hn => exact absurd hg hn
        | overgrown _ hlt => omega
      · omega
  | find hash key =>
    refine Prog.runs_bind _ |>.mpr ((find_step hB h hD fuel hash key).mono ?_ ?_)
    · rintro o m' ⟨rfl, ho⟩
      exact ⟨congrArg Answer.lookup ho, S, h, hD⟩
    · intro e m' he _
      exact ⟨he.1, he.2.trans (by omega)⟩
  | remove hash key =>
    refine Prog.runs_bind _ |>.mpr ((remove_step hB h hD fuel hash key).mono ?_ ?_)
    · rintro b m' ⟨hb, hr⟩
      exact ⟨congrArg Answer.removed hb, hr⟩
    · intro e m' he _
      exact ⟨he.1, he.2.trans (by omega)⟩

theorem step_refines (hB : B < 2 ^ 31) {call : Call} {answer : Answer} (hm : m.Represents D)
    (hs : Step m call answer m') :
    answer = (dictionary D call).1 ∧ m'.Represents (dictionary D call).2 := by
  obtain ⟨S, h, hD⟩ := hm
  obtain ⟨fuel, hrun⟩ := hs
  exact (call_runs hB h hD fuel call).of_ok hrun

/-- Every admissible call returns, given enough fuel. -/
theorem call_returns (hB : B < 2 ^ 31) (hm : m.Represents D) (call : Call) (hcall : call.Admissible m) :
    ∃ n, ∀ fuel, n ≤ fuel → ∃ answer m', call.run fuel m = .ok answer m' := by
  obtain ⟨S, h, hD⟩ := hm
  refine ⟨m.container.layout.bucketsCount + S.records.length + 2, fun fuel hf => ?_⟩
  obtain ⟨a, m', hrun, -⟩ := (call_runs hB h hD fuel call).returns (fun e _ he => by
    have := (he hcall).2
    omega)
  exact ⟨a, m', hrun⟩

/-- Storing a new record in a chain that is not crowded writes it to that chain. -/
theorem stored_uncrowded (hB : B < 2 ^ 31) {L : List ℕ} {rest : List (List ℕ)} {p q : ℕ} {r : Record}
    (h : m.Inv S) (hf : Front m S r.hash L rest p q) (hun : crowded B S.recs L = false)
    (habs : ∀ x ∈ S.records, ¬ x.Is r.hash r.key) (hfit : r.size ≤ B)
    (hcount : m.container.layout.bucketsCount ≤ 2 ^ 32) :
    ∃ answer v m', Step m (.get Os.willing r.hash r.key r.value) answer m' ∧ Wrote m S L rest r v m' := by
  obtain ⟨v, m', hget, hgot⟩ := (get_runs hB Os.willing h hf
    (m.container.layout.bucketsCount + S.records.length + 2) r.key r.value).returns (by
      rintro e m' (he | ⟨hlt, -⟩)
      · cases he with
        | starved hs =>
          have := hs.2
          omega
        | refused _ hn => exact hn Os.willing_grants
        | overgrown _ hlt => omega
      · exact absurd hfit (Nat.not_le.mpr hlt))
  refine ⟨_, v, m', ⟨_, (Prog.bind_ok hget _)⟩, ?_⟩
  cases hgot with
  | found hfind hm =>
    obtain ⟨i, pre, x, post, ⟨T, hT, hiT⟩, hrec, his, -⟩ := h.found (L := L) (by rw [hf.chains]; simp) hfind
    exact absurd his (habs x (Shape.mem_records.mpr ⟨T, hT, i, hiT, by simp [hrec]⟩))
  | stored b' m₁ S₁ L₁ rest₁ habs' hm hins hcat =>
    obtain ⟨hw, -⟩ := hm.stored habs' hins hcat
    have hsplit : ¬ Divides m S L p := fun hd => by
      have := hd.1
      rw [hun] at this
      cases this
    cases hm.divided with
    | keep _ hm₁ => exact hm₁ ▸ hw
    | lower b1 L₁' F hd => exact absurd hd hsplit
    | upper b1 _ F hd => exact absurd hd hsplit

theorem new_represents {os : Os} {readOnly : Bool} (h : new os readOnly (Files.empty B) = .ok m) :
    m.Represents Dict.empty :=
  ⟨newShape, new_inv h, Dict.Lists.nil⟩

end HashMap

/-- The answers of a session are those of the dictionary. -/
theorem session_refines {B : ℕ} (hB : B < 2 ^ 31) {os : Os} {m₀ m : HashMap B} {tr : List (Call × Answer)}
    (hnew : HashMap.new os false (Files.empty B) = .ok m₀) (hrun : Run Step m₀ tr m) :
    tr.map Prod.snd = (replay dictionary Dict.empty (tr.map Prod.fst)).1 ∧
      m.Represents (replay dictionary Dict.empty (tr.map Prod.fst)).2 :=
  Run.refines dictionary (R := HashMap.Represents)
    (fun _ _ _ _ _ hm hs => HashMap.step_refines hB hm hs) hrun (HashMap.new_represents hnew)

/-- Reachable maps stand for some dictionary. -/
theorem Reachable.represents {B : ℕ} (hB : B < 2 ^ 31) {m : HashMap B} (h : Reachable m) :
    ∃ D, m.Represents D := by
  obtain ⟨os, m₀, tr, hnew, hrun⟩ := h
  exact ⟨_, (session_refines hB hnew hrun).2⟩

theorem Reachable.inv {B : ℕ} (hB : B < 2 ^ 31) {m : HashMap B} (h : Reachable m) : ∃ S, m.Inv S := by
  obtain ⟨D, S, hS, -⟩ := h.represents hB
  exact ⟨S, hS⟩

/-! ### The map of the library -/

theorem defaultBucketSize_lt : defaultBucketSize < 2 ^ 31 := by decide

/-- A session that stores one value. -/
theorem exists_session (hash : Hash) : ∃ m : HashMap defaultBucketSize,
    Reachable m ∧ m.Represents (Dict.empty.insert (hash, [1]) [2]) := by
  obtain ⟨m₀, hnew⟩ := HashMap.new_returns (B := defaultBucketSize) Os.willing_grants false
  have hrep := HashMap.new_represents hnew
  have hcall : (Call.get Os.willing hash [1] [2]).Admissible m₀ :=
    ⟨by decide, Os.willing_grants, (HashMap.new_count hnew).le.trans (by decide)⟩
  obtain ⟨n, h⟩ := HashMap.call_returns defaultBucketSize_lt hrep _ hcall
  obtain ⟨a, m, hrun⟩ := h n le_rfl
  have hstep : Step m₀ (.get Os.willing hash [1] [2]) a m := ⟨n, hrun⟩
  exact ⟨m, ⟨Os.willing, m₀, _, hnew, .single hstep⟩,
    (HashMap.step_refines defaultBucketSize_lt hrep hstep).2⟩

/-- The map refines the dictionary: the constructor returns on files that do not exist, the answers of every
session are those of the dictionary, and after every session every admissible call returns. -/
theorem map_refines_dictionary :
    (∀ os : Os, os.Grants →
      ∃ m₀ : HashMap defaultBucketSize, HashMap.new os false (Files.empty defaultBucketSize) = .ok m₀) ∧
    ∀ (os : Os) (m₀ m : HashMap defaultBucketSize) (tr : List (Call × Answer)),
      HashMap.new os false (Files.empty defaultBucketSize) = .ok m₀ → Run Step m₀ tr m →
      tr.map Prod.snd = (replay dictionary Dict.empty (tr.map Prod.fst)).1 ∧
      ∀ call : Call, call.Admissible m →
        ∃ n, ∀ fuel, n ≤ fuel → ∃ answer m', call.run fuel m = .ok answer m' := by
  refine ⟨fun os hos => HashMap.new_returns hos false, fun os m₀ m tr hnew hrun => ?_⟩
  obtain ⟨hanswers, hrep⟩ := session_refines defaultBucketSize_lt hnew hrun
  exact ⟨hanswers, fun call hcall => HashMap.call_returns defaultBucketSize_lt hrep call hcall⟩

/-- A session that stores a value, finds it, removes it and finds nothing. -/
theorem map_refines_dictionary_session :
    ∃ m₀ m : HashMap defaultBucketSize,
      HashMap.new Os.willing false (Files.empty defaultBucketSize) = .ok m₀ ∧
      Run Step m₀ [(.get Os.willing 7 [1] [2], .value [2]), (.find 7 [1], .lookup (some [2])),
        (.remove 7 [1], .removed true), (.find 7 [1], .lookup none)] m := by
  obtain ⟨m₀, hnew⟩ := map_refines_dictionary.1 Os.willing Os.willing_grants
  have hsession := map_refines_dictionary.2 Os.willing m₀
  -- each call returns, and what it answers is what the dictionary answers
  obtain ⟨n₁, h₁⟩ := (hsession m₀ [] hnew (.nil _)).2 (.get Os.willing 7 [1] [2])
    ⟨by decide, Os.willing_grants, (HashMap.new_count hnew).le.trans (by decide)⟩
  obtain ⟨a₁, m₁, hrun₁⟩ := h₁ n₁ le_rfl
  have r₁ := Run.single (show Step m₀ _ a₁ m₁ from ⟨n₁, hrun₁⟩)
  obtain ⟨ha₁, hnext₁⟩ := hsession m₁ _ hnew r₁
  obtain ⟨n₂, h₂⟩ := hnext₁ (.find 7 [1]) trivial
  obtain ⟨a₂, m₂, hrun₂⟩ := h₂ n₂ le_rfl
  have r₂ := r₁.append (Run.single (show Step m₁ _ a₂ m₂ from ⟨n₂, hrun₂⟩))
  obtain ⟨n₃, h₃⟩ := (hsession m₂ _ hnew r₂).2 (.remove 7 [1]) trivial
  obtain ⟨a₃, m₃, hrun₃⟩ := h₃ n₃ le_rfl
  have r₃ := r₂.append (Run.single (show Step m₂ _ a₃ m₃ from ⟨n₃, hrun₃⟩))
  obtain ⟨n₄, h₄⟩ := (hsession m₃ _ hnew r₃).2 (.find 7 [1]) trivial
  obtain ⟨a₄, m₄, hrun₄⟩ := h₄ n₄ le_rfl
  have r₄ := r₃.append (Run.single (show Step m₃ _ a₄ m₄ from ⟨n₄, hrun₄⟩))
  have hall := (hsession m₄ _ hnew r₄).1
  have hvals : [a₁, a₂, a₃, a₄] =
      [.value [2], .lookup (some [2]), .removed true, .lookup none] := hall
  simp only [List.cons.injEq, and_true] at hvals
  obtain ⟨rfl, rfl, rfl, rfl⟩ := hvals
  exact ⟨m₀, m₄, hnew, r₄⟩

end DiskHash
