import DiskHash.Lib.RwLock
import DiskHash.Keys
import DiskHash.Reading
import Mathlib.Data.List.Infix
import Mathlib.Data.List.OfFn

/-!
# DiskHash.Locking — the locks of the sharded map

Every shard has a `shared_mutex`: `get` and each turn of `keys` hold it together with other readers, `set` and
`remove` hold it alone.  Inside, the code calls the map of the shard one operation at a time, so clients interleave
between these calls.  They are seen as clients of a dictionary on which whole sections act at once.
-/

namespace DiskHash

/-- The sections of the sharded map: one for a call with a key, one for a shard that `keys` visits. -/
inductive ShardSection
  | call (c : ShardedCall)
  | scan (idx : ℕ)

inductive SectionAnswer
  | answer (a : ShardedAnswer)
  | keys (ks : List Bytes)

/-- The keys of a scan. -/
def SectionAnswer.listed : SectionAnswer → List Bytes
  | .answer _ => []
  | .keys ks => ks

/-- The key of a call. -/
def ShardedCall.key : ShardedCall → Bytes
  | .get key => key
  | .set key _ => key
  | .remove key => key

namespace ShardSection

/-- The shard whose mutex the section holds. -/
def shard (n : ℕ) [NeZero n] : ShardSection → Fin n
  | call c => Fin.ofNat n (fnv1a c.key).toNat
  | scan idx => Fin.ofNat n idx

/-- The section holds a `unique_lock`, not a `shared_lock`. -/
def exclusive : ShardSection → Bool
  | call (.get _) => false
  | call (.set _ _) => true
  | call (.remove _) => true
  | scan _ => false

/-- The loop of a scan: the iterator is compared, read and moved on in steps of its own. -/
def scanLoop (fuel : ℕ) : ℕ → ConstIterator → List Bytes → Script Fault (HashMap defaultBucketSize) SectionAnswer
  | steps, it, ks =>
    if it.equal ConstIterator.atEnd then .done (.keys ks)
    else match steps with
      | 0 => .fail .outOfFuel
      | steps + 1 =>
        .call (ConstIterator.deref it) fun kv =>
        .call (do let map ← Prog.get; return map.container.view kv.1) fun k =>
        .call (ConstIterator.next fuel it) fun it => scanLoop fuel steps it (ks ++ [k])

/-- What a section does while it holds the mutex, call by call. -/
def script (os : Os) (fuel steps : ℕ) : ShardSection → Script Fault (HashMap defaultBucketSize) SectionAnswer
  | call (.get key) =>
    .call (HashMap.find fuel (ShardedHashMap.hashKey key) key) fun result =>
    .call (do let map ← Prog.get; return result.map map.container.view) fun o => .done (.answer (.lookup o))
  | call (.set key value) =>
    .call (HashMap.find fuel (ShardedHashMap.hashKey key) key) fun
      | some _ => .done (.answer (.done false))
      | none =>
        .call (HashMap.get os fuel (ShardedHashMap.hashKey key) key value) fun _ => .done (.answer (.done true))
  | call (.remove key) =>
    .call (HashMap.remove fuel (ShardedHashMap.hashKey key) key) fun b => .done (.answer (.done b))
  | scan _ => .call (ConstIterator.atBegin fuel) fun it => scanLoop fuel steps it []

/-! ### The sections that share the mutex only read -/

section Reads

variable (os : Os) (fuel steps : ℕ)

theorem scanLoop_reads (it : ConstIterator) (ks : List Bytes) : (scanLoop fuel steps it ks).Reads := by
  induction steps generalizing it ks with
  | zero =>
    unfold scanLoop
    split
    · exact .done _
    · exact .fail _
  | succ steps ih =>
    unfold scanLoop
    split
    · exact .done _
    · exact .call (ConstIterator.deref_reads it) fun _ =>
        .call (Prog.reads_get.bind fun _ => Prog.reads_pure _) fun _ =>
        .call (ConstIterator.next_reads fuel it) fun _ => ih _ _

theorem script_reads {i : ShardSection} (hi : i.exclusive = false) : (script os fuel steps i).Reads := by
  cases i with
  | call c =>
    cases c with
    | get key =>
      exact .call (HashMap.find_reads _ _ _) fun _ =>
        .call (Prog.reads_get.bind fun _ => Prog.reads_pure _) fun _ => .done _
    | set key value => cases hi
    | remove key => cases hi
  | scan idx => exact .call (ConstIterator.atBegin_reads _) fun _ => scanLoop_reads _ _ _ _

end Reads

/-! ### A section without the others -/

section Alone

variable {os : Os} {fuel steps : ℕ} {m m' : HashMap defaultBucketSize} {o : SectionAnswer}

theorem scanLoop_ok {it : ConstIterator} {ks : List Bytes} (h : (scanLoop fuel steps it ks).prog m = .ok o m') :
    ∃ es, ConstIterator.collect fuel steps it m = .ok es m' ∧ o = .keys (ks ++ es.map Prod.fst) := by
  induction steps generalizing it ks m with
  | zero =>
    unfold scanLoop at h
    unfold ConstIterator.collect
    split at h
    · next hend =>
      cases h
      exact ⟨[], by rw [if_pos hend]; rfl, by simp⟩
    · cases h
  | succ steps ih =>
    unfold scanLoop at h
    unfold ConstIterator.collect
    split at h
    · next hend =>
      cases h
      exact ⟨[], by rw [if_pos hend]; rfl, by simp⟩
    · next hend =>
      obtain ⟨kv, m₁, hderef, h⟩ := Script.call_eq_ok.mp h
      obtain ⟨k, m₂, hk, h⟩ := Script.call_eq_ok.mp h
      cases hk
      obtain ⟨it', m₃, hnext, h⟩ := Script.call_eq_ok.mp h
      obtain ⟨es, hes, rfl⟩ := ih h
      refine ⟨(m₁.container.view kv.1, m₁.container.view kv.2) :: es, ?_, by simp⟩
      rw [if_neg hend]
      refine Prog.bind_eq_ok.mpr ⟨kv, m₁, hderef, ?_⟩
      exact Prog.bind_eq_ok.mpr ⟨m₁, m₁, rfl,
        Prog.bind_eq_ok.mpr ⟨it', m₃, hnext, Prog.bind_eq_ok.mpr ⟨es, m', hes, rfl⟩⟩⟩

end Alone

end ShardSection

/-! ### The shards and their locks -/

namespace ShardedHashMap

variable {n : ℕ}

/-- The sharded map with the given shards. -/
def ofShards (shards : Fin n → HashMap defaultBucketSize) : ShardedHashMap := ⟨List.ofFn shards, n⟩

theorem ofShards_getElem? (shards : Fin n → HashMap defaultBucketSize) (i : Fin n) :
    (ofShards shards).shards[i.val]? = some (shards i) := by
  simp [ofShards]

theorem ofShards_update (shards : Fin n → HashMap defaultBucketSize) (i : Fin n) (m : HashMap defaultBucketSize) :
    ofShards (Function.update shards i m) =
      { ofShards shards with shards := (ofShards shards).shards.set i m } := by
  unfold ofShards
  rw [ShardedHashMap.mk.injEq]
  refine ⟨List.ext_getElem? fun j => ?_, rfl⟩
  by_cases hj : i.val = j
  · subst hj
    rw [List.getElem?_set_self (by simp)]
    simp
  · rw [List.getElem?_set_ne hj, List.getElem?_ofFn, List.getElem?_ofFn]
    split
    · next hlt =>
      rw [Function.update_of_ne]
      rintro rfl
      exact hj rfl
    · rfl

/-- A new map has its shards. -/
theorem new_ofShards {os : Os} {s : ShardedHashMap}
    (h : new os (fun _ => Files.empty defaultBucketSize) n = .ok s) :
    ∃ shards : Fin n → HashMap defaultBucketSize, s = ofShards shards := by
  obtain ⟨rfl, hlen, -⟩ := new_empty h
  obtain ⟨shards, numShards⟩ := s
  dsimp only at hlen
  subst hlen
  exact ⟨shards.get, by rw [ofShards, List.ofFn_get]⟩

theorem onShard_ok {s : ShardedHashMap} {idx : ℕ} {m m' : HashMap defaultBucketSize} {α : Type} {a : α}
    {sec : Prog Fault (HashMap defaultBucketSize) α} (hm : s.shards[idx]? = some m) (h : sec m = .ok a m') :
    onShard idx sec s = .ok a { s with shards := s.shards.set idx m' } := by
  unfold onShard
  rw [hm]
  dsimp only
  rw [h]

theorem onShard_error {s : ShardedHashMap} {idx : ℕ} {m m' : HashMap defaultBucketSize} {α : Type} {e : Fault}
    {sec : Prog Fault (HashMap defaultBucketSize) α} (hm : s.shards[idx]? = some m) (h : sec m = .error e m') :
    onShard idx sec s = .error e { s with shards := s.shards.set idx m' } := by
  unfold onShard
  rw [hm]
  dsimp only
  rw [h]

end ShardedHashMap

/-- The sections of a map with `n` shards, each under the mutex of its shard. -/
def shardMonitor (n : ℕ) [NeZero n] :
    Monitor Fault (Fin n) (HashMap defaultBucketSize) ShardSection SectionAnswer where
  cell := ShardSection.shard n
  exclusive := ShardSection.exclusive
  body i b := ∃ os fuel steps, b = ShardSection.script os fuel steps i
  reads := by
    rintro i b ⟨os, fuel, steps, rfl⟩ hi
    exact ShardSection.script_reads os fuel steps hi

/-- What a section does to a dictionary, when it acts at once. -/
inductive DictSection (n : ℕ) : Dict Bytes Bytes → ShardSection → SectionAnswer → Dict Bytes Bytes → Prop
  | call (D : Dict Bytes Bytes) (c : ShardedCall) :
      DictSection n D (.call c) (.answer (insertOnce D c).1) (insertOnce D c).2
  | scan (D : Dict Bytes Bytes) {idx : ℕ} {ks : List Bytes} : ks.Nodup →
      (∀ k, k ∈ ks ↔ ShardedHashMap.home n k = idx % n ∧ (D k).isSome) → DictSection n D (.scan idx) (.keys ks) D

section Atomic

variable {n : ℕ} [NeZero n] {shards shards' : Fin n → HashMap defaultBucketSize} {os : Os} {fuel steps : ℕ}

open ShardedHashMap

/-- The script of a call does on its shard what the call does on the map. -/
theorem script_call {c : ShardedCall} {o : SectionAnswer} {m' : HashMap defaultBucketSize}
    (h : (ShardSection.script os fuel steps (.call c)).prog (shards (ShardSection.shard n (.call c))) = .ok o m') :
    ∃ a, o = .answer a ∧ c.run os fuel (ofShards shards) =
      .ok a (ofShards (Function.update shards (ShardSection.shard n (.call c)) m')) := by
  rw [ofShards_update]
  have hm := ofShards_getElem? shards (ShardSection.shard n (.call c))
  cases c with
  | get key =>
    obtain ⟨result, m₁, hfind, h⟩ := Script.call_eq_ok.mp h
    obtain ⟨o', m₂, hcopy, h⟩ := Script.call_eq_ok.mp h
    cases hcopy
    cases h
    refine ⟨_, rfl, Prog.bind_ok ?_ _⟩
    refine Prog.bind_eq_ok.mpr ⟨_, _, rfl, onShard_ok hm (Prog.bind_eq_ok.mpr ⟨_, _, hfind, rfl⟩)⟩
  | set key value =>
    obtain ⟨result, m₁, hfind, h⟩ := Script.call_eq_ok.mp h
    cases result with
    | some v =>
      cases h
      refine ⟨_, rfl, Prog.bind_ok ?_ _⟩
      exact Prog.bind_eq_ok.mpr ⟨_, _, rfl, onShard_ok hm (Prog.bind_eq_ok.mpr ⟨_, _, hfind, rfl⟩)⟩
    | none =>
      obtain ⟨v, m₂, hget, h⟩ := Script.call_eq_ok.mp h
      cases h
      refine ⟨_, rfl, Prog.bind_ok ?_ _⟩
      exact Prog.bind_eq_ok.mpr ⟨_, _, rfl, onShard_ok hm (Prog.bind_eq_ok.mpr ⟨_, _, hfind,
        Prog.bind_eq_ok.mpr ⟨_, _, hget, rfl⟩⟩)⟩
  | remove key =>
    obtain ⟨b, m₁, hremove, h⟩ := Script.call_eq_ok.mp h
    cases h
    exact ⟨_, rfl, Prog.bind_ok (Prog.bind_eq_ok.mpr ⟨_, _, rfl, onShard_ok hm hremove⟩) _⟩

/-- If the script of a call fails, the call throws. -/
theorem script_call_fails {c : ShardedCall} {e : Fault} {m' : HashMap defaultBucketSize}
    (h : (ShardSection.script os fuel steps (.call c)).prog (shards (ShardSection.shard n (.call c))) = .error e m') :
    (c.run os fuel (ofShards shards)).Threw := by
  have hm := ofShards_getElem? shards (ShardSection.shard n (.call c))
  have hthrew : ∀ {o : Prog.Outcome Fault ShardedHashMap ShardedAnswer} {e : Fault} {s : ShardedHashMap},
      o = .error e s → o.Threw := by
    rintro _ e s rfl
    trivial
  cases c with
  | get key =>
    rcases Script.call_eq_error.mp h with hfind | ⟨result, m₁, -, h⟩
    · exact hthrew (Prog.bind_error (onShard_error hm (Prog.bind_error hfind _)) _)
    · rcases Script.call_eq_error.mp h with hcopy | ⟨_, _, hcopy, h⟩
      · cases hcopy
      · cases h
  | set key value =>
    rcases Script.call_eq_error.mp h with hfind | ⟨result, m₁, hfind, h⟩
    · exact hthrew (Prog.bind_error (onShard_error hm (Prog.bind_error hfind _)) _)
    · cases result with
      | some v => cases h
      | none =>
        rcases Script.call_eq_error.mp h with hget | ⟨v, m₂, -, h⟩
        · exact hthrew (Prog.bind_error (onShard_error hm ((Prog.bind_ok hfind _).trans (Prog.bind_error hget _))) _)
        · cases h
  | remove key =>
    rcases Script.call_eq_error.mp h with hremove | ⟨b, m₁, -, h⟩
    · exact hthrew (Prog.bind_error (onShard_error hm hremove) _)
    · cases h

/-- The script of a scan lists what `keys` lists of its shard. -/
theorem script_scan {idx : ℕ} {o : SectionAnswer} {m' : HashMap defaultBucketSize}
    (h : (ShardSection.script os fuel steps (.scan idx)).prog (shards (ShardSection.shard n (.scan idx))) = .ok o m') :
    ∃ ks, o = .keys ks ∧ scanShard fuel steps (idx % n) (ofShards shards) =
      .ok ks (ofShards (Function.update shards (ShardSection.shard n (.scan idx)) m')) := by
  rw [ofShards_update]
  have hm := ofShards_getElem? shards (ShardSection.shard n (.scan idx))
  obtain ⟨it, m₁, hbegin, h⟩ := Script.call_eq_ok.mp h
  obtain ⟨es, hes, rfl⟩ := ShardSection.scanLoop_ok h
  refine ⟨_, by rw [List.nil_append], onShard_ok hm (Prog.bind_eq_ok.mpr ⟨_, _, hbegin, ?_⟩)⟩
  exact Prog.bind_eq_ok.mpr ⟨_, _, hes, rfl⟩

/-- A section of a map that stands for a dictionary acts on the dictionary. -/
theorem atomic_refines {D : Dict Bytes Bytes} {i : ShardSection} {o : SectionAnswer}
    (h : (ofShards shards).Represents D) (hs : (shardMonitor n).Atomic shards i o shards') :
    ∃ D', DictSection n D i o D' ∧ (ofShards shards').Represents D' := by
  obtain ⟨b, m', ⟨os, fuel, steps, rfl⟩, hprog, rfl⟩ := hs
  cases i with
  | call c =>
    obtain ⟨a, rfl, hrun⟩ := script_call hprog
    obtain ⟨rfl, hrep⟩ := step_refines h ⟨os, fuel, hrun⟩
    exact ⟨_, .call D c, hrep⟩
  | scan idx =>
    obtain ⟨ks, rfl, hrun⟩ := script_scan hprog
    obtain ⟨hsame, hnodup, hmem⟩ := scans_list h (Nat.mod_lt _ (NeZero.pos n)) ⟨fuel, steps, hrun⟩
    exact ⟨D, .scan D hnodup hmem, hsame ▸ h⟩

/-- The section of an admissible call acts. -/
theorem atomic_returns {D : Dict Bytes Bytes} (h : (ofShards shards).Represents D) {os : Os} (hos : os.Grants)
    (c : ShardedCall) (hc : c.Admissible (ofShards shards)) :
    ∃ o shards', (shardMonitor n).Atomic shards (.call c) o shards' := by
  obtain ⟨f, hreturns⟩ := call_returns h hos c hc
  obtain ⟨a, s', hrun⟩ := hreturns f le_rfl
  cases hprog : (ShardSection.script os f 0 (.call c)).prog (shards (ShardSection.shard n (.call c))) with
  | ok o m' => exact ⟨o, _, _, m', ⟨os, f, 0, rfl⟩, hprog, rfl⟩
  | error e m' =>
    have hthrew := script_call_fails hprog
    rw [hrun] at hthrew
    exact hthrew.elim

end Atomic

/-! ### Operations of clients -/

/-- The loop of `keys`, for `m` shards from number `idx` on. -/
def keysPlan {α : Type} (f : List Bytes → α) : ℕ → ℕ → List Bytes → Operation ShardSection SectionAnswer α
  | 0, _, ks => .done (f ks)
  | m + 1, idx, ks => .call (.scan idx) fun o => keysPlan f m (idx + 1) (ks ++ o.listed)

/-- The calls with a key among the sections. -/
def sectionCalls (l : List (ShardSection × SectionAnswer)) : List ShardedCall :=
  l.filterMap fun e => match e.1 with
    | .call c => some c
    | .scan _ => none

section Clients

variable {κ φ α : Type}

/-- What is stored after a trace that begins with an empty map. -/
def stored (tr : List (κ × Operation.Action φ ShardSection SectionAnswer α)) : Dict Bytes Bytes :=
  (replay insertOnce Dict.empty (sectionCalls (callsOf tr))).2

/-- What is stored at the moments of a trace. -/
def storedDuring (pre mid : List (κ × Operation.Action φ ShardSection SectionAnswer α)) : List (Dict Bytes Bytes) :=
  mid.inits.map fun m => stored (pre ++ m)

variable {pre mid post tr : List (κ × Operation.Action φ ShardSection SectionAnswer α)} {c : κ} {n : ℕ}

theorem storedDuring_cons (e : κ × Operation.Action φ ShardSection SectionAnswer α) :
    storedDuring pre (e :: mid) = stored pre :: storedDuring (pre ++ [e]) mid := by
  simp [storedDuring, Function.comp_def]

theorem mem_storedDuring {D : Dict Bytes Bytes} :
    D ∈ storedDuring pre mid ↔ ∃ m₁ m₂, mid = m₁ ++ m₂ ∧ D = stored (pre ++ m₁) := by
  simp only [storedDuring, List.mem_map, List.mem_inits]
  constructor
  · rintro ⟨m₁, ⟨m₂, rfl⟩, rfl⟩
    exact ⟨m₁, m₂, rfl, rfl⟩
  · rintro ⟨m₁, m₂, rfl, rfl⟩
    exact ⟨m₁, ⟨m₂, rfl⟩, rfl⟩

theorem stored_call (call : ShardedCall) (o : SectionAnswer) :
    stored (pre ++ [(c, .act (.call call) o)]) = (insertOnce (stored pre) call).2 := by
  unfold stored
  rw [callsOf_append, callsOf_act, callsOf_nil, sectionCalls, List.filterMap_append, replay_append]
  rfl

theorem stored_scan (idx : ℕ) (o : SectionAnswer) : stored (pre ++ [(c, .act (.scan idx) o)]) = stored pre := by
  unfold stored
  rw [callsOf_append, callsOf_act, callsOf_nil, sectionCalls, List.filterMap_append, replay_append]
  rfl

theorem stored_act {i : ShardSection} {o : SectionAnswer} {D : Dict Bytes Bytes}
    (h : DictSection n (stored pre) i o D) : stored (pre ++ [(c, .act i o)]) = D := by
  cases h with
  | call call => exact stored_call call _
  | scan hnodup hmem => exact stored_scan _ _

theorem stored_invoke (q : φ) : stored (pre ++ [(c, .invoke q)]) = stored pre := by
  unfold stored
  rw [callsOf_append, callsOf_invoke, callsOf_nil, List.append_nil]

theorem stored_respond (a : α) : stored (pre ++ [(c, .respond a)]) = stored pre := by
  unfold stored
  rw [callsOf_append, callsOf_respond, callsOf_nil, List.append_nil]

variable [DecidableEq κ] {ops : φ → Operation ShardSection SectionAnswer α}
  {s s' : Dict Bytes Bytes × (κ → Option (Operation ShardSection SectionAnswer α))}

theorem serving_stored {a : Operation.Action φ ShardSection SectionAnswer α}
    (hs : Serving ops (DictSection n) s c a s') (h : s.1 = stored pre) : s'.1 = stored (pre ++ [(c, a)]) := by
  obtain ⟨D, rest⟩ := s
  obtain ⟨D', rest'⟩ := s'
  obtain ⟨heff, -⟩ := hs
  cases heff with
  | invoke q => exact h.trans (stored_invoke q).symm
  | act hact => exact (stored_act (h ▸ hact)).symm
  | respond a => exact h.trans (stored_respond a).symm

theorem run_stored (hrun : Run (Serving ops (DictSection n)) s tr s') (h : s.1 = stored pre) :
    s'.1 = stored (pre ++ tr) := by
  induction hrun generalizing pre with
  | nil => rwa [List.append_nil]
  | @cons s s₁ s' c a tr hs _ ih =>
    have := ih (serving_stored hs h)
    rwa [List.append_assoc] at this

/-- An operation of one call gets the answer of the dictionary at a moment between its invocation and its response. -/
theorem call_window {q : φ} {a : α} {call : ShardedCall} {f : SectionAnswer → α}
    (hrun : Run (Serving ops (DictSection n)) (Dict.empty, fun _ => none)
      (pre ++ (c, .invoke q) :: mid ++ (c, .respond a) :: post) s')
    (hno : Unanswered c mid) (hop : ops q = .call (.call call) fun o => .done (f o)) :
    ∃ m₁ m₂ answer, mid = m₁ ++ (c, .act (.call call) (.answer answer)) :: m₂ ∧
      answer = (insertOnce (stored (pre ++ (c, .invoke q) :: m₁)) call).1 ∧ a = f (.answer answer) := by
  have hdone := hrun.completed hno
  rw [hop] at hdone
  obtain ⟨o, hcalls, rfl⟩ := Operation.run_single hdone
  have hmem : (ShardSection.call call, o) ∈ callsBy c mid := by
    rw [hcalls]
    exact .head _
  obtain ⟨m₁, m₂, rfl⟩ := List.append_of_mem (mem_callsBy hmem)
  -- the state in which the section acts
  rw [List.append_assoc, List.cons_append, List.append_assoc, ← List.cons_append, ← List.append_assoc] at hrun
  obtain ⟨s₁, hbefore, hafter⟩ := Run.append_iff.mp hrun
  have hs₁ : s₁.1 = stored ([] ++ (pre ++ (c, .invoke q) :: m₁)) := run_stored hbefore rfl
  cases hafter with
  | @cons _ s₂ _ _ _ _ hact _ =>
    obtain ⟨D₂, rest₂⟩ := s₂
    obtain ⟨heff, -⟩ := hact
    cases heff with
    | act hsec =>
      rw [hs₁] at hsec
      cases hsec with
      | call call => exact ⟨m₁, m₂, _, rfl, rfl, rfl⟩

/-- What a client that lists the keys has collected. -/
theorem keys_collects {f : List Bytes → α} {m p : ℕ} {ks : List Bytes}
    (hrun : Run (Serving ops (DictSection n)) s mid s') (hs : s.1 = stored pre)
    (hc : s.2 c = some (keysPlan f m p ks)) (hn : p + m = n) (hno : Unanswered c mid) :
    ∃ m' p' l, s'.2 c = some (keysPlan f m' p' (ks ++ l)) ∧ p ≤ p' ∧ p' + m' = n ∧
      Collects (ShardedHashMap.home n) (fun D k => (D k).isSome) (storedDuring pre mid) p p' l := by
  induction hrun generalizing pre m p ks with
  | nil => exact ⟨m, p, [], by rwa [List.append_nil], le_rfl, hn, .nil⟩
  | @cons s s₁ s' c' a mid hstep _ ih =>
    have hs₁ := serving_stored hstep hs
    have hno' : Unanswered c mid := fun a ha => hno a (.tail _ ha)
    obtain ⟨heff, rest, hnext, hupd⟩ := hstep
    rw [storedDuring_cons]
    by_cases hcc : c' = c
    · subst hcc
      rw [hc] at hnext
      cases m with
      | zero =>
        cases hnext
        exact absurd (.head _) (hno _)
      | succ m =>
        obtain ⟨D, rest₀⟩ := s
        obtain ⟨D₁, rest₁⟩ := s₁
        cases hnext with
        | act i next o =>
        cases heff with
        | act hsec =>
        cases hsec with
        | scan hnodup hmem =>
          obtain rfl : D = stored pre := hs
          have hp : p % n = p := Nat.mod_eq_of_lt (by omega)
          rw [hp] at hmem
          obtain ⟨m', p', l, hend, hle, hn', hcol⟩ := ih hs₁ (hupd ▸ Function.update_self ..) (by omega) hno'
          rw [SectionAnswer.listed, List.append_assoc] at hend
          exact ⟨m', p', _, hend, by omega, hn', hcol.visited (by omega) hnodup hmem⟩
    · have hc₁ : s₁.2 c = some (keysPlan f m p ks) := by
        rw [hupd, Function.update_of_ne (Ne.symm hcc), hc]
      obtain ⟨m', p', l, hend, hle, hn', hcol⟩ := ih hs₁ hc₁ hn hno'
      exact ⟨m', p', l, hend, hle, hn', hcol.later⟩

/-- The list has no key twice, every key that is stored at all moments, and only keys that are stored at some. -/
structure ListsDuring (pre mid : List (κ × Operation.Action φ ShardSection SectionAnswer α)) (ks : List Bytes) :
    Prop where
  nodup : ks.Nodup
  sometime : ∀ k ∈ ks, ∃ m₁ m₂, mid = m₁ ++ m₂ ∧ (stored (pre ++ m₁) k).isSome
  always : ∀ k, (∀ m₁ m₂, mid = m₁ ++ m₂ → (stored (pre ++ m₁) k).isSome) → k ∈ ks

/-- An operation that lists the keys lists those of the moments between its invocation and its response. -/
theorem keys_window [NeZero n] {q : φ} {a : α} {f : List Bytes → α}
    (hrun : Run (Serving ops (DictSection n)) (Dict.empty, fun _ => none)
      (pre ++ (c, .invoke q) :: mid ++ (c, .respond a) :: post) s')
    (hno : Unanswered c mid) (hop : ops q = keysPlan f n 0 []) :
    ∃ ks, a = f ks ∧ ListsDuring (pre ++ [(c, .invoke q)]) mid ks := by
  obtain ⟨s₁, s₂, hpre, hs₁, hmid, hs₂⟩ := hrun.window
  have hstored : s₁.1 = stored ([] ++ (pre ++ [(c, .invoke q)])) := run_stored hpre rfl
  obtain ⟨m, p, l, hend, -, hn, hcol⟩ := keys_collects hmid hstored (hop ▸ hs₁) (Nat.zero_add n) hno
  rw [List.nil_append] at hend hcol
  rw [hs₂, Option.some.injEq] at hend
  cases m with
  | succ m => cases hend
  | zero =>
    cases hend
    refine ⟨l, rfl, hcol.nodup, fun k hk => ?_, fun k hk => ?_⟩
    · obtain ⟨-, -, D, hD, hsome⟩ := hcol.some_moment k hk
      obtain ⟨m₁, m₂, hmid, rfl⟩ := mem_storedDuring.mp hD
      exact ⟨m₁, m₂, hmid, hsome⟩
    · refine hcol.all_moments k (Nat.zero_le _) ?_ fun D hD => ?_
      · rw [Nat.add_zero] at hn
        rw [hn]
        exact Nat.mod_lt _ (NeZero.pos n)
      · obtain ⟨m₁, m₂, hmid, rfl⟩ := mem_storedDuring.mp hD
        exact hk m₁ m₂ hmid

end Clients

section Locks

open ShardedHashMap

variable {κ φ α : Type} [DecidableEq κ] {os : Os} {n : ℕ} [NeZero n]
  {ops : φ → Operation ShardSection SectionAnswer α} {shards₀ shards : Fin n → HashMap defaultBucketSize}
  {threads : κ → Thread Fault (HashMap defaultBucketSize) ShardSection SectionAnswer α}
  {tr : List (κ × LockAction φ ShardSection SectionAnswer α)}

/-- Clients of a new sharded map with all their steps under the locks are seen as clients of a dictionary; the map
stands for this dictionary but for the sections that have not been left. -/
theorem locked_seen (hnew : ShardedHashMap.new os (fun _ => Files.empty defaultBucketSize) n = .ok (ofShards shards₀))
    (hrun : Run ((shardMonitor n).Locked ops) (shards₀, fun _ => .idle) tr (shards, threads)) :
    ∃ D shards', Run (Serving ops (DictSection n)) (Dict.empty, fun _ => none) (seen tr)
        (D, fun c => (threads c).rest) ∧
      (ofShards shards').Represents D ∧ (shardMonitor n).Behind shards' shards threads := by
  obtain ⟨shards', hseen, hbehind⟩ := Monitor.run_atomic hrun (Monitor.Behind.start shards₀)
  have hsim : ∃ D, Run (Serving ops (DictSection n)) (Dict.empty, fun _ => none) (seen tr)
      (D, fun c => (threads c).rest) ∧ (ofShards shards').Represents D := by
    refine hseen.serving (R := fun shards D => (ofShards shards).Represents D) ?_ ?_
    · exact fun _ _ _ _ _ h hs => atomic_refines h hs
    · exact new_represents (NeZero.pos n) hnew
  obtain ⟨D, hrun', hD⟩ := hsim
  exact ⟨D, shards', hrun', hD, hbehind⟩

end Locks

/-- What a client of the sharded map asks for. -/
inductive MapRequest
  | call (c : ShardedCall)
  | keys

/-- The sections of a request. -/
def MapRequest.plan (n : ℕ) : MapRequest → Operation ShardSection SectionAnswer SectionAnswer
  | call c => .call (.call c) fun o => .done o
  | keys => keysPlan .keys n 0 []

end DiskHash
