import DiskHash.Lib.Sweep
import DiskHash.Linearizable

/-!
# DiskHash.Keys — listing the keys while other clients write (`sharded_hash_map::keys`)

`keys` takes the lock of one shard at a time, so other calls change shards it has left and shards it has yet to
enter.  A key never leaves its shard, and in its critical section the scan lists each key of the shard once.
-/

namespace DiskHash

namespace ShardedHashMap

variable {s : ShardedHashMap} {D : Dict Bytes Bytes} {n i : ℕ}

/-- The scan of shard `i` returned. -/
def Scans (s : ShardedHashMap) (i : ℕ) (ks : List Bytes) (s' : ShardedHashMap) : Prop :=
  ∃ fuel steps, scanShard fuel steps i s = .ok ks s'

/-- The keys of the entries of one part. -/
theorem part_keys {es : List Record}
    (h : Dict.Lists (fun r : Record => (r.hash, r.key)) Record.value es (part n i D)) :
    (es.map Record.key).Nodup ∧ ∀ k, k ∈ es.map Record.key ↔ home n k = i ∧ (D k).isSome := by
  have hplace : ∀ r ∈ es, (r.hash = hashKey r.key ∧ home n r.key = i) ∧ D r.key = some r.value := by
    intro r hr
    have hsome := h.some_of_mem hr
    unfold part Dict.tagged at hsome
    split_ifs at hsome with hp
    exact ⟨hp, hsome⟩
  constructor
  · -- the hash is a function of the key
    have hmap : es.map (fun r : Record => (r.hash, r.key)) =
        (es.map Record.key).map fun key => (hashKey key, key) := by
      rw [List.map_map]
      exact List.map_congr_left fun r hr => Prod.ext (hplace r hr).1.1 rfl
    exact List.Nodup.of_map _ (hmap ▸ h.nodup)
  · intro k
    rw [List.mem_map]
    constructor
    · rintro ⟨r, hr, rfl⟩
      obtain ⟨⟨-, hhome⟩, hsome⟩ := hplace r hr
      exact ⟨hhome, by rw [hsome]; rfl⟩
    · rintro ⟨rfl, hk⟩
      obtain ⟨v, hv⟩ := Option.isSome_iff_exists.mp hk
      obtain ⟨r, hr, hkey, -⟩ := (h.some_iff _ v).mp (part_hashKey.trans hv)
      exact ⟨r, hr, congrArg Prod.snd hkey⟩

/-- A scan lists the keys whose place is the shard, each once, and changes nothing. -/
theorem scanShard_runs (h : s.Represents D) (hi : i < s.numShards) : ∃ f l, ∀ fuel steps,
    Prog.Runs (scanShard fuel steps i) s
      (fun ks s' => s' = s ∧ ks.Nodup ∧ ∀ k, k ∈ ks ↔ home s.numShards k = i ∧ (D k).isSome)
      (fun _ _ => steps < l ∨ fuel < f) := by
  have hlt : i < s.shards.length := by rwa [h.length]
  obtain ⟨S, hS, hD⟩ := h.shard i _ (List.getElem?_eq_getElem hlt)
  obtain ⟨es, hperm, hloop⟩ := ConstIterator.loop_runs defaultBucketSize_lt hS
  refine ⟨s.shards[i].container.layout.bucketsCount, es.length, fun fuel steps => ?_⟩
  unfold scanShard
  rw [runs_onShard (List.getElem?_eq_getElem hlt), Prog.runs_bind]
  refine ((Prog.runs_bind _).mp (hloop fuel steps)).mono (fun it m' hc => ?_) (fun _ _ he => he.2)
  rw [Prog.runs_bind]
  refine hc.mono ?_ (fun _ _ he => he.2)
  rintro l m' ⟨rfl, -, rfl⟩
  rw [Prog.runs_pure, List.map_map]
  exact ⟨set_same (List.getElem?_eq_getElem hlt), part_keys (Dict.Lists.perm hD hperm.symm)⟩

/-- A scan returns, given enough fuel. -/
theorem scanShard_returns (h : s.Represents D) (hi : i < s.numShards) :
    ∃ n, ∀ fuel steps, n ≤ fuel → n ≤ steps → ∃ ks, scanShard fuel steps i s = .ok ks s := by
  obtain ⟨f, l, hscan⟩ := scanShard_runs h hi
  refine ⟨max f l, fun fuel steps hf hs => ?_⟩
  obtain ⟨ks, s', hrun, rfl, -⟩ := (hscan fuel steps).returns (fun _ _ he => by omega)
  exact ⟨ks, hrun⟩

theorem scans_list {ks : List Bytes} {s' : ShardedHashMap} (h : s.Represents D) (hi : i < s.numShards)
    (hs : Scans s i ks s') : s' = s ∧ ks.Nodup ∧ ∀ k, k ∈ ks ↔ home s.numShards k = i ∧ (D k).isSome := by
  obtain ⟨fuel, steps, hrun⟩ := hs
  obtain ⟨f, l, hscan⟩ := scanShard_runs h hi
  exact (hscan fuel steps).of_ok hrun

/-! ### The number of shards does not change -/

theorem onShard_numShards {α : Type} (idx : ℕ) (sec : Prog Fault (HashMap defaultBucketSize) α) :
    Prog.Runs (onShard idx sec) s (fun _ s' => s'.numShards = s.numShards) (fun _ _ => True) := by
  unfold Prog.Runs onShard
  cases s.shards[idx]? with
  | none => trivial
  | some m =>
    dsimp only
    cases sec m <;> trivial

theorem run_numShards (os : Os) (fuel : ℕ) (call : ShardedCall) :
    Prog.Runs (call.run os fuel) s (fun _ s' => s'.numShards = s.numShards) (fun _ _ => True) := by
  cases call with
  | get key => exact (Prog.runs_bind _).mpr ((Prog.runs_bind _).mpr (onShard_numShards ..))
  | set key value => exact (Prog.runs_bind _).mpr ((Prog.runs_bind _).mpr (onShard_numShards ..))
  | remove key => exact (Prog.runs_bind _).mpr ((Prog.runs_bind _).mpr (onShard_numShards ..))

theorem Step.numShards {call : ShardedCall} {answer : ShardedAnswer} {s' : ShardedHashMap}
    (hs : Step s call answer s') : s'.numShards = s.numShards := by
  obtain ⟨os, fuel, hrun⟩ := hs
  exact (run_numShards os fuel call).of_ok hrun

/-! ### The whole list -/

/-- A sweep over the shards collects the keys of the dictionary at its moments. -/
theorem sweep_collects {w : Sweep ShardedHashMap Bytes} {tr : List (Option ShardedCall × Option ShardedAnswer)}
    (h : s.Represents D) (hrun : Run (Sweeps Step Scans s.numShards) ⟨s, i, []⟩ tr w) :
    (∃ E, w.object.Represents E ∧ w.object.numShards = s.numShards) ∧
      Collects (home s.numShards) (fun D k => (D k).isSome) (moments insertOnce D (tr.map Prod.fst))
        i w.next w.found := by
  have hsweep := hrun.sweep insertOnce (home s.numShards) (fun D k => (D k).isSome)
    (R := fun t D => t.Represents D ∧ t.numShards = s.numShards) ?_ ?_ ⟨h, rfl⟩
  · obtain ⟨⟨E, -, hE⟩, l, hfound, hc⟩ := hsweep
    rw [hfound]
    exact ⟨⟨E, hE⟩, hc⟩
  · rintro t call answer t' D ⟨ht, hn⟩ hs
    exact ⟨(step_refines ht hs).2, hs.numShards.trans hn⟩
  · rintro t p l t' D ⟨ht, hn⟩ hp hv
    rw [← hn] at hp ⊢
    obtain ⟨rfl, hl⟩ := scans_list ht hp hv
    exact ⟨⟨ht, rfl⟩, hl⟩

/-- `keys` is a sweep in which nobody else acts. -/
theorem keysLoop_sweeps {fuel steps m : ℕ} {l ks : List Bytes} {s' : ShardedHashMap} (h : s.Represents D)
    (hi : i + m = s.numShards) (hrun : keysLoop fuel steps m i s = .ok ks s') :
    s' = s ∧ Run (Sweeps Step Scans s.numShards) ⟨s, i, l⟩ (List.replicate m (none, none))
      ⟨s, s.numShards, l ++ ks⟩ := by
  induction m generalizing i l ks with
  | zero =>
    cases hrun
    rw [List.append_nil, ← hi]
    exact ⟨rfl, .nil _⟩
  | succ m ih =>
    obtain ⟨ks₁, s₁, hscan, hrun⟩ := Prog.bind_eq_ok.mp hrun
    obtain ⟨ks₂, s₂, hrest, hrun⟩ := Prog.bind_eq_ok.mp hrun
    cases hrun
    have hlt : i < s.numShards := by omega
    obtain ⟨rfl, -⟩ := scans_list h hlt ⟨fuel, steps, hscan⟩
    obtain ⟨rfl, hsweep⟩ := ih (l := l ++ ks₁) (by omega) hrest
    rw [← List.append_assoc]
    exact ⟨rfl, .cons (.visit l hlt ⟨fuel, steps, hscan⟩) hsweep⟩

/-- On a quiet map `keys` lists the keys of the dictionary, each once. -/
theorem keys_lists {fuel steps : ℕ} {ks : List Bytes} {s' : ShardedHashMap} (h : s.Represents D)
    (hrun : keys fuel steps s = .ok ks s') : s' = s ∧ ks.Nodup ∧ ∀ k, k ∈ ks ↔ (D k).isSome := by
  obtain ⟨_, _, hget, hrun⟩ := Prog.bind_eq_ok.mp hrun
  cases hget
  obtain ⟨rfl, hsweep⟩ := keysLoop_sweeps (l := []) h (by rw [Nat.zero_add, h.length]) hrun
  obtain ⟨-, hc⟩ := sweep_collects h hsweep
  rw [List.map_replicate] at hc
  refine ⟨rfl, hc.nodup, fun k => ⟨fun hk => ?_, fun hk => ?_⟩⟩
  · obtain ⟨-, -, E, hE, hhas⟩ := hc.some_moment k hk
    rwa [eq_of_mem_moments _ hE] at hhas
  · refine hc.all_moments k (Nat.zero_le _) (Nat.mod_lt _ h.pos) fun E hE => ?_
    rwa [eq_of_mem_moments _ hE]

theorem keysLoop_returns (h : s.Represents D) (m : ℕ) (hi : i + m = s.numShards) :
    ∃ n, ∀ fuel steps, n ≤ fuel → n ≤ steps → ∃ ks, keysLoop fuel steps m i s = .ok ks s := by
  induction m generalizing i with
  | zero => exact ⟨0, fun _ _ _ _ => ⟨[], rfl⟩⟩
  | succ m ih =>
    obtain ⟨n₁, h₁⟩ := scanShard_returns h (i := i) (by omega)
    obtain ⟨n₂, h₂⟩ := ih (i := i + 1) (by omega)
    refine ⟨max n₁ n₂, fun fuel steps hf hs => ?_⟩
    obtain ⟨ks₁, hscan⟩ := h₁ fuel steps (by omega) (by omega)
    obtain ⟨ks₂, hrest⟩ := h₂ fuel steps (by omega) (by omega)
    exact ⟨ks₁ ++ ks₂, (Prog.bind_ok hscan _).trans ((Prog.bind_ok hrest _))⟩

theorem keys_returns (h : s.Represents D) :
    ∃ n, ∀ fuel steps, n ≤ fuel → n ≤ steps → ∃ ks, keys fuel steps s = .ok ks s :=
  keysLoop_returns h s.shards.length (by rw [Nat.zero_add, h.length])

end ShardedHashMap

/-- One call of `keys` among calls of other clients: it lists no key twice, every key that is there the whole
time, and only keys that are there at some moment.  Each of its turns returns. -/
theorem keys_under_concurrency {os : Os} {n : ℕ} (hn : 1 ≤ n) {s₀ s : ShardedHashMap}
    {before : List (ShardedCall × ShardedAnswer)} {w : Sweep ShardedHashMap Bytes}
    {tr : List (Option ShardedCall × Option ShardedAnswer)}
    (hnew : ShardedHashMap.new os (fun _ => Files.empty defaultBucketSize) n = .ok s₀)
    (hbefore : Run ShardedHashMap.Step s₀ before s)
    (hrun : Run (Sweeps ShardedHashMap.Step ShardedHashMap.Scans s.shards.length) ⟨s, 0, []⟩ tr w) :
    (w.next = s.shards.length → w.found.Nodup ∧
      (∀ k, (∀ D ∈ moments insertOnce (replay insertOnce Dict.empty (before.map Prod.fst)).2 (tr.map Prod.fst),
        (D k).isSome) → k ∈ w.found) ∧
      ∀ k ∈ w.found, ∃ D ∈ moments insertOnce (replay insertOnce Dict.empty (before.map Prod.fst)).2
        (tr.map Prod.fst), (D k).isSome) ∧
    (w.next < s.shards.length → ∃ m, ∀ fuel steps, m ≤ fuel → m ≤ steps →
      ∃ ks, ShardedHashMap.scanShard fuel steps w.next w.object = .ok ks w.object) := by
  obtain ⟨-, hrep⟩ := hbefore.refines insertOnce (fun _ _ _ _ _ h hs => ShardedHashMap.step_refines h hs)
    (ShardedHashMap.new_represents hn hnew)
  rw [hrep.length] at hrun ⊢
  obtain ⟨⟨E, hE, hcount⟩, hc⟩ := ShardedHashMap.sweep_collects hrep hrun
  refine ⟨fun hend => ⟨hc.nodup, fun k hk => ?_, fun k hk => ?_⟩, fun hlt => ?_⟩
  · refine hc.all_moments k (Nat.zero_le _) ?_ hk
    rw [hend]
    exact Nat.mod_lt _ hrep.pos
  · exact (hc.some_moment k hk).2.2
  · exact ShardedHashMap.scanShard_returns hE (hcount ▸ hlt)

/-- A key is stored, and while the only shard waits for its scan another client looks for the key. -/
theorem keys_under_concurrency_session : ∃ s₀ s : ShardedHashMap,
    ShardedHashMap.new Os.willing (fun _ => Files.empty defaultBucketSize) 1 = .ok s₀ ∧
    Run ShardedHashMap.Step s₀ [(.set [1] [2], .done true)] s ∧
    Run (Sweeps ShardedHashMap.Step ShardedHashMap.Scans s.shards.length) ⟨s, 0, []⟩
      [(some (.get [1]), some (.lookup (some [2]))), (none, none)] ⟨s, s.shards.length, [[1]]⟩ := by
  obtain ⟨s₀, hnew⟩ := ShardedHashMap.new_returns Os.willing_grants 1
  have hrep₀ := ShardedHashMap.new_represents (by decide) hnew
  obtain ⟨hcount, -, hall⟩ := ShardedHashMap.new_empty hnew
  obtain ⟨f₁, hset⟩ := ShardedHashMap.call_returns hrep₀ Os.willing_grants (.set [1] [2])
    ⟨by decide, fun m hm => (HashMap.new_count (hall m hm)).le.trans (by decide)⟩
  obtain ⟨a₁, s, hs⟩ := hset f₁ le_rfl
  have hstep : ShardedHashMap.Step s₀ (.set [1] [2]) a₁ s := ⟨_, f₁, hs⟩
  obtain ⟨rfl, hrep⟩ := ShardedHashMap.step_refines hrep₀ hstep
  obtain ⟨n, hget⟩ := ShardedHashMap.get_runs hrep [1]
  obtain ⟨o, s₁, hg, rfl, rfl⟩ := (hget (n + 1)).returns (fun _ _ he => absurd he.2 (Nat.not_succ_le_self n))
  have hfind : ShardedHashMap.Step s₁ (.get [1]) (.lookup (some [2])) s₁ :=
    ⟨Os.willing, n + 1, Prog.bind_ok hg _⟩
  have hlen : s₁.shards.length = 1 := hrep.length.trans (hstep.numShards.trans hcount)
  obtain ⟨m, hscan⟩ := ShardedHashMap.scanShard_returns hrep (i := 0) hrep.pos
  obtain ⟨ks, hks⟩ := hscan m m le_rfl le_rfl
  have hrun : Run (Sweeps ShardedHashMap.Step ShardedHashMap.Scans s₁.shards.length) ⟨s₁, 0, []⟩ _
      ⟨s₁, 1, [] ++ ks⟩ :=
    .cons (.call 0 [] hfind) (.single (.visit [] (by omega) ⟨m, m, hks⟩))
  obtain ⟨hnodup, hall, hsome⟩ :=
    (keys_under_concurrency (by decide) hnew (.single hstep) hrun).1 hlen.symm
  have hmoments : ∀ D ∈ moments insertOnce (replay insertOnce Dict.empty [.set [1] [2]]).2
      [some (.get [1]), none], D = Dict.empty.insert [1] [2] := fun D hD =>
    List.eq_of_mem_replicate (show D ∈ List.replicate 3 (Dict.empty.insert [1] [2]) from hD)
  have hmem : ∀ k, k ∈ ks ↔ k ∈ [[1]] := by
    intro k
    rw [List.mem_singleton]
    constructor
    · intro hk
      obtain ⟨D, hD, hhas⟩ := hsome k hk
      by_contra hne
      rw [hmoments D hD, Dict.insert_of_ne _ hne] at hhas
      cases hhas
    · rintro rfl
      refine hall [1] fun D hD => ?_
      rw [hmoments D hD, Dict.insert_self]
      rfl
  have hlist : ks = [[1]] :=
    List.perm_singleton.mp ((List.perm_ext_iff_of_nodup hnodup (List.nodup_singleton _)).mpr hmem)
  subst hlist
  exact ⟨s₀, s₁, hnew, .single hstep, hlen ▸ hrun⟩

end DiskHash
