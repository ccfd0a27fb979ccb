import DiskHash.Lib.Concurrent
import DiskHash.Iteration
import DiskHash.Sharded

/-!
# DiskHash.Linearizable — the sharded map is a linearizable insert-once dictionary

Shard `i` of `n` stores the part of the dictionary whose keys have the index `i`, each with its hash.  A critical
section changes this part alone, so the sharded map refines one dictionary over keys, whatever `n` is, and
clients whose critical sections interleave see this dictionary executed in the order of the sections.
-/

namespace DiskHash

/-- A call of the sharded map. -/
inductive ShardedCall
  | get (key : Bytes)
  | set (key value : Bytes)
  | remove (key : Bytes)

inductive ShardedAnswer
  | lookup (o : Option Bytes)
  | done (b : Bool)
  deriving DecidableEq

namespace ShardedCall

def run (os : Os) (fuel : ℕ) : ShardedCall → Prog Fault ShardedHashMap ShardedAnswer
  | get key => do
    let o ← ShardedHashMap.get fuel key
    return .lookup o
  | set key value => do
    let b ← ShardedHashMap.set os fuel key value
    return .done b
  | remove key => do
    let b ← ShardedHashMap.remove fuel key
    return .done b

/-- The record fits a bucket, and no shard has more buckets than there are hashes. -/
def Admissible (s : ShardedHashMap) : ShardedCall → Prop
  | set key value => Container.bytesRequired key value ≤ defaultBucketSize ∧
      ∀ m ∈ s.shards, m.container.layout.bucketsCount ≤ 2 ^ 32
  | _ => True

/-- The call is a `set` of the key. -/
def Sets (k : Bytes) : ShardedCall → Prop
  | set key _ => key = k
  | _ => False

/-- The call is a `remove` of the key. -/
def Removes (k : Bytes) : ShardedCall → Prop
  | remove key => key = k
  | _ => False

end ShardedCall

/-- What the calls do to a dictionary. -/
def insertOnce (D : Dict Bytes Bytes) : ShardedCall → ShardedAnswer × Dict Bytes Bytes
  | .get key => (.lookup (D key), D)
  | .set key value => match D key with
    | some _ => (.done false, D)
    | none => (.done true, D.insert key value)
  | .remove key => (.done (D key).isSome, D.erase key)

theorem insertOnce_present {D : Dict Bytes Bytes} {key v : Bytes} (h : D key = some v) (value : Bytes) :
    insertOnce D (.set key value) = (.done false, D) := by
  simp only [insertOnce, h]

theorem insertOnce_absent {D : Dict Bytes Bytes} {key : Bytes} (h : D key = none) (value : Bytes) :
    insertOnce D (.set key value) = (.done true, D.insert key value) := by
  simp only [insertOnce, h]

namespace ShardedHashMap

variable {s : ShardedHashMap} {D D' : Dict Bytes Bytes} {m m' : HashMap defaultBucketSize} {n i : ℕ}
  {key value : Bytes} {α : Type} {Q : α → ShardedHashMap → Prop} {E : Fault → ShardedHashMap → Prop}

/-- The call returned, whatever the system answered. -/
def Step (s : ShardedHashMap) (call : ShardedCall) (answer : ShardedAnswer) (s' : ShardedHashMap) : Prop :=
  ∃ os fuel, call.run os fuel s = .ok answer s'

/-- The index of the shard of a key, of `n` shards. -/
def home (n : ℕ) (key : Bytes) : ℕ := (fnv1a key).toNat % n

/-- The part of a dictionary that shard `i` of `n` stores. -/
def part (n i : ℕ) (D : Dict Bytes Bytes) : Contents := D.tagged hashKey fun key => home n key = i

/-- The sharded map stands for the dictionary. -/
structure Represents (s : ShardedHashMap) (D : Dict Bytes Bytes) : Prop where
  pos : 0 < s.numShards
  length : s.shards.length = s.numShards
  shard : ∀ i (m : HashMap defaultBucketSize), s.shards[i]? = some m → m.Represents (part s.numShards i D)

theorem part_hashKey : part n (home n key) D (hashKey key, key) = D key := Dict.tagged_tag rfl

theorem part_insert : (part n (home n key) D).insert (hashKey key, key) value =
    part n (home n key) (D.insert key value) := Dict.tagged_insert (P := fun k => home n k = home n key) rfl value

theorem part_erase : (part n (home n key) D).erase (hashKey key, key) = part n (home n key) (D.erase key) :=
  Dict.tagged_erase (P := fun k => home n k = home n key) rfl

/-! ### One critical section -/

theorem runs_onShard {idx : ℕ} {sec : Prog Fault (HashMap defaultBucketSize) α}
    (hm : s.shards[idx]? = some m) :
    Prog.Runs (onShard idx sec) s Q E ↔ Prog.Runs sec m
      (fun a m' => Q a { s with shards := s.shards.set idx m' })
      (fun e m' => E e { s with shards := s.shards.set idx m' }) := by
  unfold Prog.Runs onShard
  simp only [hm]
  cases sec m <;> rfl

/-- A section that leaves its shard with its part of the new dictionary. -/
theorem Represents.section_ (h : s.Represents D) (hlt : i < s.shards.length)
    (hm' : m'.Represents (part s.numShards i D')) (hD : ∀ key, home s.numShards key ≠ i → D key = D' key) :
    Represents { s with shards := s.shards.set i m' } D' := by
  refine ⟨h.pos, (List.length_set ..).trans h.length, fun j m hm => ?_⟩
  by_cases hj : i = j
  · subst hj
    rw [List.getElem?_set_self hlt] at hm
    cases hm
    exact hm'
  · rw [List.getElem?_set_ne hj] at hm
    have hpart : part s.numShards j D = part s.numShards j D' :=
      Dict.tagged_congr fun key hk => hD key fun heq => hj (heq.symm.trans hk)
    exact hpart ▸ h.shard j m hm

/-- The shard of a key and what it stores, for a section of a call with this key. -/
theorem Represents.at_key (h : s.Represents D) (key : Bytes) :
    ∃ m S, s.shards[s.shardIndex key]? = some m ∧ m.Inv S ∧
      HashMap.Lists S (part s.numShards (home s.numShards key) D) ∧
      ∀ m' D', m'.Represents (part s.numShards (home s.numShards key) D') → (∀ k ≠ key, D k = D' k) →
        Represents { s with shards := s.shards.set (s.shardIndex key) m' } D' := by
  have hlt : home s.numShards key < s.shards.length := by
    rw [h.length]
    exact Nat.mod_lt _ h.pos
  obtain ⟨S, hS, hD⟩ := h.shard _ _ (List.getElem?_eq_getElem hlt)
  refine ⟨_, S, List.getElem?_eq_getElem hlt, hS, hD, fun m' D' hm' hk => ?_⟩
  exact h.section_ hlt hm' fun k hne => hk k fun heq => hne (heq ▸ rfl)

/-- A section that changes nothing. -/
theorem set_same (hm : s.shards[i]? = some m) : { s with shards := s.shards.set i m } = s := by
  obtain ⟨hlt, rfl⟩ := List.getElem?_eq_some_iff.mp hm
  rw [List.set_getElem_self]

theorem get_runs (h : s.Represents D) (key : Bytes) : ∃ n, ∀ fuel, Prog.Runs (get fuel key) s
    (fun o s' => s' = s ∧ o = D key) (fun e _ => Container.Starved fuel n e) := by
  obtain ⟨m, S, hm, hS, hD, -⟩ := h.at_key key
  refine ⟨m.container.layout.bucketsCount, fun fuel => ?_⟩
  unfold get
  rw [Prog.runs_bind, Prog.runs_get, runs_onShard hm, Prog.runs_bind]
  refine (HashMap.find_step defaultBucketSize_lt hS hD fuel (hashKey key) key).mono ?_ (fun _ _ he => he)
  rintro o m' ⟨rfl, ho⟩
  exact ⟨set_same hm, ho.trans part_hashKey⟩

theorem set_runs (h : s.Represents D) (os : Os) (key value : Bytes) : ∃ n, ∀ fuel,
    Prog.Runs (set os fuel key value) s
      (fun b s' => ShardedAnswer.done b = (insertOnce D (.set key value)).1 ∧
        s'.Represents (insertOnce D (.set key value)).2)
      (fun e _ => os.Grants → (ShardedCall.set key value).Admissible s → Container.Starved fuel n e) := by
  obtain ⟨m, S, hm, hS, hD, hnext⟩ := h.at_key key
  refine ⟨m.container.layout.bucketsCount + S.records.length + 1, fun fuel => ?_⟩
  unfold set
  rw [Prog.runs_bind, Prog.runs_get, runs_onShard hm, Prog.runs_bind]
  refine (HashMap.find_step defaultBucketSize_lt hS hD fuel (hashKey key) key).mono ?_
    (fun _ _ he _ _ => ⟨he.1, he.2.trans (by omega)⟩)
  rintro o m' ⟨rfl, ho⟩
  have hfind := ho.trans part_hashKey
  cases o with
  | some v =>
    rw [insertOnce_present hfind.symm]
    exact ⟨rfl, hnext _ D ⟨S, hS, hD⟩ fun _ _ => rfl⟩
  | none =>
    -- the second search finds nothing either, so `get` stores the record
    rw [insertOnce_absent hfind.symm]
    dsimp only
    rw [Prog.runs_bind]
    refine (HashMap.get_step defaultBucketSize_lt os hS hD fuel (hashKey key) key value).mono ?_ ?_
    · rintro v m' ⟨-, hr⟩
      rw [Dict.getOrInsert_none ho.symm, part_insert] at hr
      exact ⟨rfl, hnext _ _ hr fun k hk => (Dict.insert_of_ne _ hk _).symm⟩
    · rintro e m' (he | ⟨hlt, -⟩) hg ⟨hfit, hcount⟩
      · cases he with
        | starved hs => exact hs
        | refused _ hn => exact absurd hg hn
        | overgrown _ hlt =>
          have := hcount _ (List.mem_of_getElem? hm)
          omega
      · omega

theorem remove_runs (h : s.Represents D) (key : Bytes) : ∃ n, ∀ fuel, Prog.Runs (remove fuel key) s
    (fun b s' => b = (D key).isSome ∧ s'.Represents (D.erase key)) (fun e _ => Container.Starved fuel n e) := by
  obtain ⟨m, S, hm, hS, hD, hnext⟩ := h.at_key key
  refine ⟨m.container.layout.bucketsCount, fun fuel => ?_⟩
  unfold remove
  rw [Prog.runs_bind, Prog.runs_get, runs_onShard hm]
  refine (HashMap.remove_step defaultBucketSize_lt hS hD fuel (hashKey key) key).mono ?_ (fun _ _ he => he)
  rintro b m' ⟨hb, hr⟩
  rw [part_hashKey] at hb
  rw [part_erase] at hr
  exact ⟨hb, hnext _ _ hr fun k hk => (Dict.erase_of_ne _ hk).symm⟩

/-- A call gives the answer of the dictionary; an admissible one can only fail by running out of fuel. -/
theorem call_runs (h : s.Represents D) (os : Os) (call : ShardedCall) : ∃ n, ∀ fuel,
    Prog.Runs (call.run os fuel) s
      (fun a s' => a = (insertOnce D call).1 ∧ s'.Represents (insertOnce D call).2)
      (fun e _ => os.Grants → call.Admissible s → Container.Starved fuel n e) := by
  cases call with
  | get key =>
    obtain ⟨n, hn⟩ := get_runs h key
    refine ⟨n, fun fuel => (Prog.runs_bind _).mpr ((hn fuel).mono ?_ (fun _ _ he _ _ => he))⟩
    rintro o s' ⟨rfl, rfl⟩
    exact ⟨rfl, h⟩
  | set key value =>
    obtain ⟨n, hn⟩ := set_runs h os key value
    exact ⟨n, fun fuel => (Prog.runs_bind _).mpr (hn fuel)⟩
  | remove key =>
    obtain ⟨n, hn⟩ := remove_runs h key
    refine ⟨n, fun fuel => (Prog.runs_bind _).mpr ((hn fuel).mono ?_ (fun _ _ he _ _ => he))⟩
    rintro b s' ⟨rfl, hr⟩
    exact ⟨rfl, hr⟩

theorem step_refines {s' : ShardedHashMap} {call : ShardedCall} {answer : ShardedAnswer} (h : s.Represents D)
    (hs : Step s call answer s') :
    answer = (insertOnce D call).1 ∧ s'.Represents (insertOnce D call).2 := by
  obtain ⟨os, fuel, hrun⟩ := hs
  obtain ⟨n, hn⟩ := call_runs h os call
  exact (hn fuel).of_ok hrun

/-- Every admissible call returns, given enough fuel. -/
theorem call_returns (h : s.Represents D) {os : Os} (hos : os.Grants) (call : ShardedCall)
    (hcall : call.Admissible s) : ∃ n, ∀ fuel, n ≤ fuel → ∃ answer s', call.run os fuel s = .ok answer s' := by
  obtain ⟨n, hn⟩ := call_runs h os call
  refine ⟨n + 1, fun fuel hf => ?_⟩
  obtain ⟨a, s', hrun, -⟩ := (hn fuel).returns (fun e _ he => by
    have := (he hos hcall).2
    omega)
  exact ⟨a, s', hrun⟩

/-! ### The constructor -/

theorem openShards_empty {os : Os} {n i : ℕ} {shards : List (HashMap defaultBucketSize)}
    (h : openShards os (fun _ => Files.empty defaultBucketSize) n i = .ok shards) : shards.length = n ∧
      ∀ m ∈ shards, HashMap.new os false (Files.empty defaultBucketSize) = .ok m := by
  induction n generalizing i shards with
  | zero =>
    cases h
    exact ⟨rfl, by simp⟩
  | succ n ih =>
    obtain ⟨m, hm, h⟩ := Prog.except_bind_ok.mp h
    obtain ⟨rest, hrest, h⟩ := Prog.except_bind_ok.mp h
    cases h
    obtain ⟨hlen, hall⟩ := ih hrest
    exact ⟨by rw [List.length_cons, hlen], List.forall_mem_cons.mpr ⟨hm, hall⟩⟩

theorem openShards_returns {os : Os} (hos : os.Grants) (n i : ℕ) :
    ∃ shards, openShards os (fun _ => Files.empty defaultBucketSize) n i = .ok shards := by
  induction n generalizing i with
  | zero => exact ⟨[], rfl⟩
  | succ n ih =>
    obtain ⟨m, hm⟩ := HashMap.new_returns (B := defaultBucketSize) hos false
    obtain ⟨rest, hrest⟩ := ih (i + 1)
    exact ⟨m :: rest, Prog.except_bind_ok.mpr ⟨m, hm, Prog.except_bind_ok.mpr ⟨rest, hrest, rfl⟩⟩⟩

theorem new_empty {os : Os} (h : new os (fun _ => Files.empty defaultBucketSize) n = .ok s) :
    s.numShards = n ∧ s.shards.length = n ∧
      ∀ m ∈ s.shards, HashMap.new os false (Files.empty defaultBucketSize) = .ok m := by
  obtain ⟨shards, hshards, h⟩ := Prog.except_bind_ok.mp h
  cases h
  exact ⟨rfl, openShards_empty hshards⟩

theorem new_returns {os : Os} (hos : os.Grants) (n : ℕ) :
    ∃ s, new os (fun _ => Files.empty defaultBucketSize) n = .ok s := by
  obtain ⟨shards, hshards⟩ := openShards_returns hos n 0
  exact ⟨_, Prog.except_bind_ok.mpr ⟨shards, hshards, rfl⟩⟩

theorem new_represents {os : Os} (hn : 1 ≤ n)
    (h : new os (fun _ => Files.empty defaultBucketSize) n = .ok s) : s.Represents Dict.empty := by
  obtain ⟨rfl, hlen, hall⟩ := new_empty h
  refine ⟨hn, hlen, fun i m hm => ?_⟩
  rw [part, Dict.tagged_empty]
  exact HashMap.new_represents (hall m (List.mem_of_getElem? hm))

end ShardedHashMap

/-! ### Concurrent calls of `set` -/

section FirstSet

variable {D : Dict Bytes Bytes} {k v : Bytes} {call : ShardedCall} {tr : List (ShardedCall × ShardedAnswer)}

/-- The first `set` of the key answers true and every other one false; `get` finds the value of the first. -/
def FirstSetWins (k : Bytes) (tr : List (ShardedCall × ShardedAnswer)) : Prop :=
  ∃ pre v post, tr = pre ++ (.set k v, .done true) :: post ∧
    (∀ e ∈ pre, ¬ e.1.Sets k ∧ (e.1 = .get k → e.2 = .lookup none)) ∧
    ∀ e ∈ post, (e.1.Sets k → e.2 = .done false) ∧ (e.1 = .get k → e.2 = .lookup (some v))

/-- Only `remove` changes the value of a key. -/
theorem insertOnce_keeps (h : D k = some v) (hrem : ¬ call.Removes k) :
    (insertOnce D call).2 k = some v ∧ (call.Sets k → (insertOnce D call).1 = .done false) ∧
      (call = .get k → (insertOnce D call).1 = .lookup (some v)) := by
  cases call with
  | get key =>
    refine ⟨h, False.elim, fun heq => ?_⟩
    cases heq
    exact congrArg ShardedAnswer.lookup h
  | set key value =>
    refine ⟨?_, fun heq => ?_, fun heq => by cases heq⟩
    · cases hD : D key with
      | some w => rwa [insertOnce_present hD]
      | none =>
        have hne : k ≠ key := by
          rintro rfl
          rw [h] at hD
          cases hD
        rw [insertOnce_absent hD]
        exact (Dict.insert_of_ne _ hne _).trans h
    · cases heq
      rw [insertOnce_present h]
  | remove key => exact ⟨(Dict.erase_of_ne _ (Ne.symm hrem)).trans h, False.elim, fun heq => by cases heq⟩

/-- Only `set` adds a key. -/
theorem insertOnce_lacks (h : D k = none) (hset : ¬ call.Sets k) :
    (insertOnce D call).2 k = none ∧ (call = .get k → (insertOnce D call).1 = .lookup none) := by
  cases call with
  | get key =>
    refine ⟨h, fun heq => ?_⟩
    cases heq
    exact congrArg ShardedAnswer.lookup h
  | set key value =>
    refine ⟨?_, fun heq => by cases heq⟩
    cases hD : D key with
    | some w => rwa [insertOnce_present hD]
    | none =>
      rw [insertOnce_absent hD]
      exact (Dict.insert_of_ne _ (Ne.symm hset) _).trans h
  | remove key =>
    refine ⟨?_, fun heq => by cases heq⟩
    by_cases hk : k = key
    · subst hk
      exact Dict.erase_self ..
    · exact (Dict.erase_of_ne _ hk).trans h

theorem present_answers (h : D k = some v) (hrem : ∀ e ∈ tr, ¬ e.1.Removes k)
    (hans : tr.map Prod.snd = (replay insertOnce D (tr.map Prod.fst)).1) :
    ∀ e ∈ tr, (e.1.Sets k → e.2 = .done false) ∧ (e.1 = .get k → e.2 = .lookup (some v)) := by
  induction tr generalizing D with
  | nil => simp
  | cons e tr ih =>
    obtain ⟨hhead, htail⟩ := List.cons.inj hans
    obtain ⟨hremhead, hremtail⟩ := List.forall_mem_cons.mp hrem
    obtain ⟨hkeep, hset, hget⟩ := insertOnce_keeps h hremhead
    exact List.forall_mem_cons.mpr
      ⟨⟨fun hs => hhead.trans (hset hs), fun hg => hhead.trans (hget hg)⟩, ih hkeep hremtail htail⟩

/-- Of the `set` calls on an absent key that nobody removes one wins. -/
theorem first_set_wins (h : D k = none) (hrem : ∀ e ∈ tr, ¬ e.1.Removes k) (hset : ∃ e ∈ tr, e.1.Sets k)
    (hans : tr.map Prod.snd = (replay insertOnce D (tr.map Prod.fst)).1) : FirstSetWins k tr := by
  induction tr generalizing D with
  | nil =>
    obtain ⟨e, he, -⟩ := hset
    cases he
  | cons e tr ih =>
    obtain ⟨hhead, htail⟩ := List.cons.inj hans
    obtain ⟨hremhead, hremtail⟩ := List.forall_mem_cons.mp hrem
    obtain ⟨call, answer⟩ := e
    dsimp only at hhead htail hremhead
    by_cases hs : call.Sets k
    · cases call with
      | set key value =>
        cases hs
        rw [insertOnce_absent h] at hhead htail
        subst hhead
        exact ⟨[], value, tr, rfl, by simp, present_answers (Dict.insert_self ..) hremtail htail⟩
      | get key => exact hs.elim
      | remove key => exact hs.elim
    · obtain ⟨e, he, hes⟩ := hset
      have he' : e ∈ tr := by
        rcases List.mem_cons.mp he with rfl | he
        · exact absurd hes hs
        · exact he
      obtain ⟨hlack, hget⟩ := insertOnce_lacks h hs
      obtain ⟨pre, v, post, rfl, hpre, hpost⟩ := ih hlack hremtail ⟨e, he', hes⟩ htail
      refine ⟨(call, answer) :: pre, v, post, rfl, List.forall_mem_cons.mpr ⟨⟨hs, ?_⟩, hpre⟩, hpost⟩
      exact fun hg => hhead.trans (hget hg)

end FirstSet

/-! ### Clients -/

/-- Clients of a sharded map, none of which is in a call. -/
theorem ShardedHashMap.clients_linearize {κ : Type} [DecidableEq κ] {os : Os} {n : ℕ} (hn : 1 ≤ n)
    {s₀ s : ShardedHashMap} {stages : κ → Stage ShardedCall ShardedAnswer}
    {tr : List (κ × ClientAction ShardedCall ShardedAnswer)}
    (hnew : ShardedHashMap.new os (fun _ => Files.empty defaultBucketSize) n = .ok s₀)
    (hrun : Run (Concurrent ShardedHashMap.Step) (s₀, fun _ => .idle) tr (s, stages)) :
    Linearizes insertOnce Dict.empty tr ∧
      s.Represents (replay insertOnce Dict.empty ((actsOf tr).map Prod.fst)).2 :=
  hrun.linearizes insertOnce (fun _ _ _ _ _ h hs => step_refines h hs) (fun _ => rfl)
    (ShardedHashMap.new_represents hn hnew)

/-- The sharded map is linearizable: in every interleaving of clients the answers are those of the dictionary
executed in the order of the critical sections, and they do not depend on the number of shards; of the `set`
calls on a key that is absent and not removed one wins; every admissible call returns. -/
theorem sharded_linearizable {κ : Type} [DecidableEq κ] {os : Os} {n : ℕ} (hn : 1 ≤ n)
    {s₀ s : ShardedHashMap} {stages : κ → Stage ShardedCall ShardedAnswer}
    {tr : List (κ × ClientAction ShardedCall ShardedAnswer)}
    (hnew : ShardedHashMap.new os (fun _ => Files.empty defaultBucketSize) n = .ok s₀)
    (hrun : Run (Concurrent ShardedHashMap.Step) (s₀, fun _ => .idle) tr (s, stages)) :
    Linearizes insertOnce Dict.empty tr ∧
    (∀ {os' : Os} {n' : ℕ} {s₀' s' : ShardedHashMap} {stages' : κ → Stage ShardedCall ShardedAnswer}
      {tr' : List (κ × ClientAction ShardedCall ShardedAnswer)}, 1 ≤ n' →
      ShardedHashMap.new os' (fun _ => Files.empty defaultBucketSize) n' = .ok s₀' →
      Run (Concurrent ShardedHashMap.Step) (s₀', fun _ => .idle) tr' (s', stages') →
      (actsOf tr').map Prod.fst = (actsOf tr).map Prod.fst → actsOf tr' = actsOf tr) ∧
    (∀ (k : Bytes) (pre post : List (ShardedCall × ShardedAnswer)), actsOf tr = pre ++ post →
      (replay insertOnce Dict.empty (pre.map Prod.fst)).2 k = none →
      (∀ e ∈ post, ¬ e.1.Removes k) → (∃ e ∈ post, e.1.Sets k) → FirstSetWins k post) ∧
    ∀ (os : Os) (call : ShardedCall), os.Grants → call.Admissible s →
      ∃ m, ∀ fuel, m ≤ fuel → ∃ answer s', call.run os fuel s = .ok answer s' := by
  obtain ⟨hlin, hrep⟩ := ShardedHashMap.clients_linearize hn hnew hrun
  refine ⟨hlin, ?_, ?_, fun _ call hos hcall => ShardedHashMap.call_returns hrep hos call hcall⟩
  · intro os' n' s₀' s' stages' tr' hn' hnew' hrun' hcalls
    have hlin' := (ShardedHashMap.clients_linearize hn' hnew' hrun').1
    have hanswers : (actsOf tr').map Prod.snd = (actsOf tr).map Prod.snd := by
      rw [hlin'.answers, hlin.answers, hcalls]
    rw [← List.zip_unzip (actsOf tr'), ← List.zip_unzip (actsOf tr), List.unzip_eq_map, List.unzip_eq_map,
      hcalls, hanswers]
  · intro k pre post hacts habs hrem hset
    have hanswers := hlin.answers
    rw [hacts, List.map_append, List.map_append, replay_append] at hanswers
    have hlen : (pre.map Prod.snd).length = (replay insertOnce Dict.empty (pre.map Prod.fst)).1.length := by
      rw [length_replay, List.length_map, List.length_map]
    exact first_set_wins habs hrem hset (List.append_inj hanswers hlen).2

/-- Two clients: one stores a value while the other looks for its key. -/
theorem sharded_linearizable_session : ∃ s₀ s : ShardedHashMap,
    ∃ stages : Bool → Stage ShardedCall ShardedAnswer,
    ShardedHashMap.new Os.willing (fun _ => Files.empty defaultBucketSize) 2 = .ok s₀ ∧
    Run (Concurrent ShardedHashMap.Step) (s₀, fun _ => .idle)
      [(true, .invoke (.set [1] [2])), (false, .invoke (.get [1])), (true, .act (.set [1] [2]) (.done true)),
        (false, .act (.get [1]) (.lookup (some [2]))), (false, .respond (.get [1]) (.lookup (some [2]))),
        (true, .respond (.set [1] [2]) (.done true))] (s, stages) ∧
    FirstSetWins [1] [(.set [1] [2], .done true), (.get [1], .lookup (some [2]))] := by
  obtain ⟨s₀, hnew⟩ := ShardedHashMap.new_returns Os.willing_grants 2
  have hrep₀ := ShardedHashMap.new_represents (by decide) hnew
  have hall := (ShardedHashMap.new_empty hnew).2.2
  obtain ⟨f₁, h₁⟩ := ShardedHashMap.call_returns hrep₀ Os.willing_grants (.set [1] [2])
    ⟨by decide, fun m hm => (HashMap.new_count (hall m hm)).le.trans (by decide)⟩
  obtain ⟨a₁, s₁, hs₁⟩ := h₁ f₁ le_rfl
  have hstep₁ : ShardedHashMap.Step s₀ (.set [1] [2]) a₁ s₁ := ⟨_, f₁, hs₁⟩
  obtain ⟨rfl, hrep₁⟩ := ShardedHashMap.step_refines hrep₀ hstep₁
  obtain ⟨f₂, h₂⟩ := ShardedHashMap.call_returns hrep₁ Os.willing_grants (.get [1]) trivial
  obtain ⟨a₂, s₂, hs₂⟩ := h₂ f₂ le_rfl
  have hstep₂ : ShardedHashMap.Step s₁ (.get [1]) a₂ s₂ := ⟨_, f₂, hs₂⟩
  obtain ⟨rfl, -⟩ := ShardedHashMap.step_refines hrep₁ hstep₂
  have hrun : Run (Concurrent ShardedHashMap.Step) (s₀, fun _ : Bool => .idle) _ (s₂, _) :=
    .cons (Concurrent.invoke (c := true) rfl) <| .cons (Concurrent.invoke (c := false) rfl) <|
    .cons (Concurrent.act (c := true) rfl hstep₁) <| .cons (Concurrent.act (c := false) rfl hstep₂) <|
    .cons (Concurrent.respond (c := false) rfl) <| .single (Concurrent.respond (c := true) rfl)
  refine ⟨s₀, s₂, _, hnew, hrun, ?_⟩
  exact (sharded_linearizable (by decide) hnew hrun).2.2.1 [1] [] _ rfl rfl (by simp [ShardedCall.Removes])
    ⟨_, .head _, rfl⟩

end DiskHash
