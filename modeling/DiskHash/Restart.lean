import DiskHash.Locking
import DiskHash.Persistence
import DiskHash.Service
import DiskHash.Wrapped

/-!
# DiskHash.Restart — the server is stopped and started again, with as many shards or with others

Every shard has files of its own, and they are still there when the server starts again.  The number of shards says
in which of them a key is looked for.  So what a file stores is the outcome of the calls that were made while their
keys belonged to it, and two servers with different numbers of shards share the keys that both place alike.
-/

namespace DiskHash

namespace ShardedHashMap

/-- `sharded_hash_map::close`: the files of all shards afterwards, given those that are not open. -/
def close (s : ShardedHashMap) (files : ℕ → Files defaultBucketSize) (i : ℕ) : Files defaultBucketSize :=
  match s.shards[i]? with
  | some map => map.close
  | none => files i

/-- A shard stores what it would store if it were the only one. -/
theorem contents_eq_part (D : Dict Bytes Bytes) : WrappedHashMap.contents fnv1a D = part 1 0 D := by
  funext p
  exact if_congr (and_congr_right fun _ => iff_of_true trivial (Nat.mod_one _)) rfl rfl

end ShardedHashMap

namespace HttpServer

/-- A server, and the files of its database when it was started. -/
structure Hosted where
  files : ℕ → Files defaultBucketSize
  db : ShardedHashMap

/-- The server on files that nobody has made yet. -/
def Hosted.fresh (db₀ : ShardedHashMap) : Hosted := ⟨fun _ => Files.empty defaultBucketSize, db₀⟩

/-- What happens to a server. -/
inductive HostEvent
  | request (req : Request)
  | restart (os : Os) (numShards : ℕ)

/-- A request that was answered, or the `close` of a server and the constructor of the next one. -/
inductive Hosting : Hosted → HostEvent → Option Response → Hosted → Prop
  | request {s : Hosted} {req : Request} {res : Response} {db' : ShardedHashMap} :
      Admissible s.db req → Serves s.db req res db' → Hosting s (.request req) (some res) ⟨s.files, db'⟩
  | restart {s : Hosted} {os : Os} {numShards : ℕ} {db' : ShardedHashMap} :
      1 ≤ numShards → ShardedHashMap.new os (s.db.close s.files) numShards = .ok db' →
      Hosting s (.restart os numShards) none ⟨s.db.close s.files, db'⟩

/-! ### The files as dictionaries -/

/-- How many shards are open, and what the files store. -/
structure Stock where
  numShards : ℕ
  files : ℕ → Dict Bytes Bytes

/-- A call goes to the file of its key. -/
def Stock.call (K : Stock) (c : ShardedCall) : ShardedAnswer × Stock :=
  ((insertOnce (K.files (ShardedHashMap.home K.numShards c.key)) c).1,
    ⟨K.numShards, Function.update K.files (ShardedHashMap.home K.numShards c.key)
      (insertOnce (K.files (ShardedHashMap.home K.numShards c.key)) c).2⟩)

/-- The keys of `m` files from number `i` on, one file after the other. -/
inductive Inventory (files : ℕ → Dict Bytes Bytes) : ℕ → ℕ → List Bytes → Prop
  | nil (i : ℕ) : Inventory files 0 i []
  | cons {m i : ℕ} {ks rest : List Bytes} : ks.Nodup → (∀ k, k ∈ ks ↔ (files i k).isSome) →
      Inventory files m (i + 1) rest → Inventory files (m + 1) i (ks ++ rest)

/-- The service of a server that is stopped and started again. -/
inductive StockService : Stock → HostEvent → Option Response → Stock → Prop
  | call {K : Stock} {req : Request} {c : ShardedCall} : asks req = some c →
      StockService K (.request req) (some (reply c (K.call c).1)) (K.call c).2
  | list {K : Stock} {req : Request} {ks : List Bytes} : ListsKeys req → Inventory K.files K.numShards 0 ks →
      StockService K (.request req) (some (listing ks)) K
  | fixed {K : Stock} {req : Request} : asks req = none → ¬ ListsKeys req →
      StockService K (.request req) (some (fixedReply req)) K
  | restart {K : Stock} {os : Os} {numShards : ℕ} : 1 ≤ numShards →
      StockService K (.restart os numShards) none ⟨numShards, K.files⟩

/-- The calls that are made while their keys belong to file `i`, by a server that begins with `n` shards. -/
def routed (i : ℕ) : ℕ → List HostEvent → List ShardedCall
  | _, [] => []
  | n, .request req :: events =>
    ((asks req).filter fun c => ShardedHashMap.home n c.key = i).toList ++ routed i n events
  | _, .restart _ numShards :: events => routed i numShards events

/-! ### The files of the shards -/

section Files

variable {s s' : Hosted} {K : Stock} {D : Dict Bytes Bytes} {files : Files defaultBucketSize} {os : Os}
  {m : HashMap defaultBucketSize} {i n : ℕ}

/-- The files of a shard are new, or a map was closed that stored the dictionary. -/
def Shelved (files : Files defaultBucketSize) (D : Dict Bytes Bytes) : Prop :=
  files = Files.empty defaultBucketSize ∧ D = Dict.empty ∨
    ∃ m : HashMap defaultBucketSize, m.Keeps (WrappedHashMap.contents fnv1a D) ∧ files = m.close

theorem Shelved.opens (h : Shelved files D) (hnew : HashMap.new os false files = .ok m) :
    m.Keeps (WrappedHashMap.contents fnv1a D) := by
  rcases h with ⟨rfl, rfl⟩ | ⟨m', hm', rfl⟩
  · rw [WrappedHashMap.contents, Dict.tagged_empty]
    exact (HashMap.new_represents hnew).keeps
  · exact HashMap.keeps_reopen hm' hnew

/-- The files of a server store what the stock says. -/
structure Stocks (s : Hosted) (K : Stock) : Prop where
  pos : 0 < K.numShards
  numShards : s.db.numShards = K.numShards
  length : s.db.shards.length = K.numShards
  kept : ∀ (i : ℕ) (m : HashMap defaultBucketSize), s.db.shards[i]? = some m →
    m.Keeps (WrappedHashMap.contents fnv1a (K.files i))
  shelved : ∀ i, s.db.shards[i]? = none → Shelved (s.files i) (K.files i)

theorem openShards_ok {files : ℕ → Files defaultBucketSize} {shards : List (HashMap defaultBucketSize)}
    (h : ShardedHashMap.openShards os files n i = .ok shards) : shards.length = n ∧
      ∀ (j : ℕ) (m : HashMap defaultBucketSize), shards[j]? = some m →
        HashMap.new os false (files (i + j)) = .ok m := by
  induction n generalizing i shards with
  | zero =>
    cases h
    exact ⟨rfl, fun j m hm => by simp at hm⟩
  | succ n ih =>
    obtain ⟨m₀, hm₀, h⟩ := Prog.except_bind_ok.mp h
    obtain ⟨rest, hrest, h⟩ := Prog.except_bind_ok.mp h
    cases h
    obtain ⟨hlen, hall⟩ := ih hrest
    refine ⟨by rw [List.length_cons, hlen], fun j m hm => ?_⟩
    cases j with
    | zero =>
      cases hm
      exact hm₀
    | succ j =>
      rw [show i + (j + 1) = i + 1 + j by omega]
      exact hall j m hm

theorem openShards_exist {files : ℕ → Files defaultBucketSize}
    (h : ∀ i, ∃ m, HashMap.new os false (files i) = .ok m) (n i : ℕ) :
    ∃ shards, ShardedHashMap.openShards os files n i = .ok shards := by
  induction n generalizing i with
  | zero => exact ⟨[], rfl⟩
  | succ n ih =>
    obtain ⟨m, hm⟩ := h i
    obtain ⟨rest, hrest⟩ := ih (i + 1)
    exact ⟨m :: rest, Prog.except_bind_ok.mpr ⟨m, hm, Prog.except_bind_ok.mpr ⟨rest, hrest, rfl⟩⟩⟩

/-- A constructor call on the files of a stock. -/
theorem stocks_new {files : ℕ → Files defaultBucketSize} {F : ℕ → Dict Bytes Bytes} {db : ShardedHashMap}
    (h : ∀ i, Shelved (files i) (F i)) (hn : 1 ≤ n) (hnew : ShardedHashMap.new os files n = .ok db) :
    Stocks ⟨files, db⟩ ⟨n, F⟩ := by
  obtain ⟨shards, hshards, hnew⟩ := Prog.except_bind_ok.mp hnew
  cases hnew
  obtain ⟨hlen, hall⟩ := openShards_ok hshards
  refine ⟨hn, rfl, hlen, fun i m hm => ?_, fun i _ => h i⟩
  have hopen := hall i m hm
  rw [Nat.zero_add] at hopen
  exact (h i).opens hopen

theorem Stocks.closed (h : Stocks s K) (i : ℕ) : Shelved (s.db.close s.files i) (K.files i) := by
  unfold ShardedHashMap.close
  cases hm : s.db.shards[i]? with
  | none => exact h.shelved i hm
  | some m => exact .inr ⟨m, h.kept i m hm, rfl⟩

/-- A server can be started again with any number of shards, when the system grants the calls. -/
theorem Stocks.restarts (h : Stocks s K) (hos : os.Grants) (hn : 1 ≤ n) :
    ∃ s', Hosting s (.restart os n) none s' := by
  have hopens : ∀ i, ∃ m, HashMap.new os false (s.db.close s.files i) = .ok m := by
    intro i
    rcases h.closed i with ⟨hfiles, -⟩ | ⟨m, hm, hfiles⟩
    · rw [hfiles]
      exact HashMap.new_returns hos false
    · rw [hfiles]
      exact hm.reopens hos false
  obtain ⟨shards, hshards⟩ := openShards_exist hopens n 0
  exact ⟨_, .restart hn (Prog.except_bind_ok.mpr ⟨shards, hshards, rfl⟩)⟩

/-- A section that leaves its shard with another dictionary. -/
theorem Stocks.put (h : Stocks s K) (hlt : i < s.db.shards.length) (hm : m.Keeps (WrappedHashMap.contents fnv1a D)) :
    Stocks ⟨s.files, { s.db with shards := s.db.shards.set i m }⟩ ⟨K.numShards, Function.update K.files i D⟩ := by
  refine ⟨h.pos, h.numShards, (List.length_set ..).trans h.length, fun j m' hm' => ?_, fun j hj => ?_⟩
  · dsimp only at hm' ⊢
    by_cases hij : i = j
    · subst hij
      rw [List.getElem?_set_self hlt] at hm'
      cases hm'
      rwa [Function.update_self]
    · rw [List.getElem?_set_ne hij] at hm'
      rw [Function.update_of_ne (Ne.symm hij)]
      exact h.kept j m' hm'
  · dsimp only at hj ⊢
    have hij : i ≠ j := by
      rintro rfl
      rw [List.getElem?_set_self hlt] at hj
      cases hj
    rw [List.getElem?_set_ne hij] at hj
    rw [Function.update_of_ne (Ne.symm hij)]
    exact h.shelved j hj

/-- A section on the shard of a key. -/
theorem Stocks.section_runs {α : Type} {key : Bytes} {sec : Prog Fault (HashMap defaultBucketSize) α} {P : α → Prop}
    (h : Stocks s K) (hsec : ∀ m ∈ s.db.shards,
      m.Keeps (WrappedHashMap.contents fnv1a (K.files (ShardedHashMap.home K.numShards key))) →
        Prog.Runs sec m (fun a m' => P a ∧ m'.Keeps (WrappedHashMap.contents fnv1a D)) fun e _ => Lost e) :
    Prog.Runs (do let s ← Prog.get; ShardedHashMap.onShard (s.shardIndex key) sec) s.db
      (fun a db' => P a ∧
        Stocks ⟨s.files, db'⟩ ⟨K.numShards, Function.update K.files (ShardedHashMap.home K.numShards key) D⟩)
      (fun e _ => Lost e) := by
  have hlt : ShardedHashMap.home K.numShards key < s.db.shards.length := by
    rw [h.length]
    exact Nat.mod_lt _ h.pos
  have hindex : s.db.shardIndex key = ShardedHashMap.home K.numShards key := by
    rw [ShardedHashMap.shardIndex, h.numShards]
    rfl
  have hm := List.getElem?_eq_getElem hlt
  rw [Prog.runs_bind, Prog.runs_get, hindex, ShardedHashMap.runs_onShard hm]
  exact (hsec _ (List.getElem_mem hlt) (h.kept _ _ hm)).mono (fun _ _ ha => ⟨ha.1, h.put hlt ha.2⟩) fun _ _ he => he

/-- A call answers as the stock does and leaves the files with what the stock says, or it is lost. -/
theorem Stocks.call_runs (h : Stocks s K) {c : ShardedCall} (hc : c.Admissible s.db) (os : Os) (fuel : ℕ) :
    Prog.Runs (c.run os fuel) s.db (fun a db' => a = (K.call c).1 ∧ Stocks ⟨s.files, db'⟩ (K.call c).2)
      (fun e _ => Lost e) := by
  cases c with
  | get key =>
    refine (Prog.runs_bind _).mpr ((h.section_runs (P := fun o => .lookup o = (K.call (.get key)).1)
      fun m _ hm => (Prog.runs_bind _).mpr ?_).mono (fun _ _ ha => ha) fun _ _ he => he)
    refine (HashMap.keeps_find defaultBucketSize_lt hm).mono ?_ fun _ _ he => he
    rintro o m' ⟨rfl, ho⟩
    exact ⟨congrArg ShardedAnswer.lookup (ho.trans WrappedHashMap.contents_hash), hm⟩
  | set key value =>
    refine (Prog.runs_bind _).mpr ((h.section_runs (P := fun b => .done b = (K.call (.set key value)).1)
      fun m hmem hm => (Prog.runs_bind _).mpr ?_).mono (fun _ _ ha => ha) fun _ _ he => he)
    refine (HashMap.keeps_find defaultBucketSize_lt hm).mono ?_ fun _ _ he => he
    rintro o m' ⟨rfl, ho⟩
    have hfind := ho.trans WrappedHashMap.contents_hash
    unfold Stock.call
    dsimp only [ShardedCall.key]
    cases o with
    | some v =>
      rw [insertOnce_present hfind.symm]
      exact ⟨rfl, hm⟩
    | none =>
      rw [insertOnce_absent hfind.symm]
      dsimp only
      rw [Prog.runs_bind]
      refine (HashMap.keeps_get defaultBucketSize_lt hm os hc.1 (hc.2 _ hmem)).mono ?_ fun _ _ he => he
      rintro v m' ⟨-, hm'⟩
      rw [Dict.getOrInsert_none ho.symm] at hm'
      exact ⟨rfl, WrappedHashMap.contents_insert value ▸ hm'⟩
  | remove key =>
    refine (Prog.runs_bind _).mpr ((h.section_runs (P := fun b => .done b = (K.call (.remove key)).1)
      fun m _ hm => ?_).mono (fun _ _ ha => ha) fun _ _ he => he)
    refine (HashMap.keeps_remove defaultBucketSize_lt hm).mono ?_ fun _ _ he => he
    rintro b m' ⟨rfl, hm'⟩
    refine ⟨congrArg (fun o : Option Bytes => ShardedAnswer.done o.isSome) WrappedHashMap.contents_hash, ?_⟩
    exact WrappedHashMap.contents_erase ▸ hm'

/-- `keys` goes through the files of the open shards, or it is lost. -/
theorem Stocks.keysLoop_runs (h : Stocks s K) (fuel steps n : ℕ) {i : ℕ} (hi : i + n ≤ K.numShards) :
    Prog.Runs (ShardedHashMap.keysLoop fuel steps n i) s.db (fun ks db' => db' = s.db ∧ Inventory K.files n i ks)
      (fun e _ => Lost e) := by
  induction n generalizing i with
  | zero => exact ⟨rfl, .nil i⟩
  | succ n ih =>
    have hlt : i < s.db.shards.length := by
      rw [h.length]
      omega
    have hm := List.getElem?_eq_getElem hlt
    unfold ShardedHashMap.keysLoop ShardedHashMap.scanShard
    rw [Prog.runs_bind, ShardedHashMap.runs_onShard hm]
    have hloop := HashMap.keeps_loop defaultBucketSize_lt (h.kept i _ hm) fuel steps
    rw [Prog.runs_bind] at hloop ⊢
    refine hloop.mono (fun it m' hit => ?_) fun _ _ he => he
    rw [Prog.runs_bind]
    refine hit.mono ?_ fun _ _ he => he
    rintro shown m' ⟨rfl, es, hes, rfl⟩
    rw [Prog.runs_pure, ShardedHashMap.set_same hm, Prog.runs_bind]
    refine (ih (by omega)).mono ?_ fun _ _ he => he
    rintro rest db' ⟨rfl, hrest⟩
    rw [ShardedHashMap.contents_eq_part] at hes
    obtain ⟨hnodup, hmem⟩ := ShardedHashMap.part_keys hes
    rw [List.map_map]
    exact ⟨rfl, .cons hnodup (fun k => (hmem k).trans (and_iff_right (Nat.mod_one _))) hrest⟩

/-- A request is answered as by the service, or it is lost. -/
theorem Stocks.request_runs (h : Stocks s K) {req : Request} (hreq : Admissible s.db req) (os : Os) (fuel steps : ℕ) :
    Prog.Runs (handleRequest os fuel steps req) s.db
      (fun res db' => ∃ K', StockService K (.request req) (some res) K' ∧ Stocks ⟨s.files, db'⟩ K')
      (fun e _ => Lost e) := by
  rw [handleRequest_eq]
  cases hasks : asks req with
  | some c =>
    dsimp only
    rw [Prog.runs_bind]
    refine (h.call_runs (hreq c hasks) os fuel).mono ?_ fun _ _ he => he
    rintro a db' ⟨rfl, hdb⟩
    exact ⟨_, .call hasks, hdb⟩
  | none =>
    dsimp only
    refine Prog.runs_ite (fun hkeys => ?_) fun hkeys => ⟨K, .fixed hasks hkeys, h⟩
    refine (Prog.runs_bind _).mpr ((h.keysLoop_runs fuel steps s.db.shards.length ?_).mono ?_ fun _ _ he => he)
    · rw [Nat.zero_add, h.length]
    · rintro ks db' ⟨rfl, hks⟩
      rw [h.length] at hks
      exact ⟨K, .list hkeys hks, h⟩

/-- What happens to a server happens to its stock. -/
theorem Stocks.step {event : HostEvent} {res : Option Response} (h : Stocks s K) (hs : Hosting s event res s') :
    ∃ K', StockService K event res K' ∧ Stocks s' K' := by
  cases hs with
  | request hreq hserves =>
    obtain ⟨os, fuel, steps, hrun⟩ := hserves
    exact (h.request_runs hreq os fuel steps).of_ok hrun
  | restart hn hnew => exact ⟨_, .restart hn, stocks_new h.closed hn hnew⟩

theorem Stocks.run {tr : List (HostEvent × Option Response)} (h : Stocks s K) (hrun : Run Hosting s tr s') :
    ∃ K', Run StockService K tr K' ∧ Stocks s' K' := hrun.simulates (fun _ _ _ _ _ h hs => h.step hs) h

end Files

/-! ### What the files store -/

section Stock

variable {D E : Dict Bytes Bytes} {K K' : Stock} {tr : List (HostEvent × Option Response)}
  {F : ℕ → Dict Bytes Bytes} {c : ShardedCall} {n n' m i : ℕ} {ks : List Bytes} {k : Bytes}

/-- A call looks at its key only. -/
theorem insertOnce_congr (h : D c.key = E c.key) : (insertOnce D c).1 = (insertOnce E c).1 ∧
    (insertOnce D c).2 c.key = (insertOnce E c).2 c.key := by
  cases c with
  | get key => exact ⟨congrArg ShardedAnswer.lookup h, h⟩
  | set key value =>
    dsimp only [ShardedCall.key] at h ⊢
    cases hD : D key with
    | some v =>
      rw [insertOnce_present hD, insertOnce_present (h.symm.trans hD)]
      exact ⟨rfl, h⟩
    | none =>
      rw [insertOnce_absent hD, insertOnce_absent (h.symm.trans hD)]
      exact ⟨rfl, (Dict.insert_self ..).trans (Dict.insert_self ..).symm⟩
  | remove key =>
    refine ⟨congrArg (fun o : Option Bytes => ShardedAnswer.done o.isSome) h, ?_⟩
    exact (Dict.erase_self ..).trans (Dict.erase_self ..).symm

/-- A call changes its key only. -/
theorem insertOnce_of_ne (h : k ≠ c.key) : (insertOnce D c).2 k = D k := by
  cases c with
  | get key => rfl
  | set key value =>
    cases hD : D key with
    | some v => rw [insertOnce_present hD]
    | none =>
      rw [insertOnce_absent hD]
      exact Dict.insert_of_ne _ h _
  | remove key => exact Dict.erase_of_ne _ h

/-- What is found of a stock: each key in its own file. -/
def Stock.visible (K : Stock) : Dict Bytes Bytes := fun k => K.files (ShardedHashMap.home K.numShards k) k

/-- Calls see and change what is visible. -/
theorem call_visible (K : Stock) (c : ShardedCall) :
    (K.call c).1 = (insertOnce K.visible c).1 ∧ (K.call c).2.visible = (insertOnce K.visible c).2 := by
  obtain ⟨hanswer, hkey⟩ := insertOnce_congr (c := c) (D := K.files (ShardedHashMap.home K.numShards c.key))
    (E := K.visible) rfl
  refine ⟨hanswer, funext fun k => ?_⟩
  unfold Stock.visible Stock.call at *
  dsimp only
  by_cases hk : k = c.key
  · rw [hk, Function.update_self]
    exact hkey
  · refine Eq.trans ?_ (insertOnce_of_ne hk).symm
    by_cases hhome : ShardedHashMap.home K.numShards k = ShardedHashMap.home K.numShards c.key
    · rw [hhome, Function.update_self]
      exact insertOnce_of_ne hk
    · rw [Function.update_of_ne hhome]

/-- A call for a key leaves the files of other shards alone. -/
theorem call_files (h : i ≠ ShardedHashMap.home K.numShards k) : (K.call c).2.files i k = K.files i k := by
  unfold Stock.call
  dsimp only
  by_cases hi : i = ShardedHashMap.home K.numShards c.key
  · have hk : k ≠ c.key := by
      rintro rfl
      exact h hi
    rw [← hi, Function.update_self, insertOnce_of_ne hk]
  · rw [Function.update_of_ne hi]

/-- A request that makes no call. -/
theorem asks_eq_none {req : Request} (h : ListsKeys req) : asks req = none := by
  cases hasks : asks req with
  | none => rfl
  | some c => exact absurd h (asks_route hasks)

/-- A file is the outcome of the calls that were made while their keys belonged to it. -/
theorem files_routed (h : Run StockService K tr K') (i : ℕ) :
    K'.files i = (replay insertOnce (K.files i) (routed i K.numShards (tr.map Prod.fst))).2 := by
  induction h with
  | nil => rfl
  | @cons K₀ K₁ K₂ event res tr hs hrest ih =>
    rw [ih]
    cases hs with
    | @call req c hasks =>
      simp only [List.map_cons, routed, hasks, Stock.call]
      by_cases hi : ShardedHashMap.home K₀.numShards c.key = i
      · subst hi
        simp [Option.filter, replay]
      · simp [Option.filter, hi, Function.update_of_ne (Ne.symm hi)]
    | list hkeys hks => simp [routed, asks_eq_none hkeys]
    | fixed hasks hno => simp [routed, hasks]
    | restart hn => rfl

/-! ### Starts with the same number of shards -/

/-- It is no start with another number of shards. -/
def HostEvent.Same (n : ℕ) : HostEvent → Prop
  | .request _ => True
  | .restart _ numShards => numShards = n

/-- The calls of the requests. -/
def callsMade (events : List HostEvent) : List ShardedCall :=
  events.filterMap fun event => match event with
    | .request req => asks req
    | .restart _ _ => none

/-- The requests with their responses. -/
def answered (tr : List (HostEvent × Option Response)) : List (Request × Response) :=
  tr.filterMap fun e => match e with
    | (.request req, some res) => some (req, res)
    | _ => none

/-- As long as the number of shards stays the same, what is visible is changed by the calls alone, and nothing else
changes. -/
theorem visible_run (h : Run StockService K tr K') (hsame : ∀ e ∈ tr, e.1.Same K.numShards) :
    K'.numShards = K.numShards ∧
    K'.visible = (replay insertOnce K.visible (callsMade (tr.map Prod.fst))).2 ∧
    ∀ i k, i ≠ ShardedHashMap.home K.numShards k → K'.files i k = K.files i k := by
  induction h with
  | nil => exact ⟨rfl, rfl, fun _ _ _ => rfl⟩
  | @cons K₀ K₁ K₂ event res tr hs hrest ih =>
    obtain ⟨hhead, htail⟩ := List.forall_mem_cons.mp hsame
    cases hs with
    | @call req c hasks =>
      obtain ⟨hnum, hvisible, hfiles⟩ := ih htail
      refine ⟨hnum, ?_, fun i k hi => (hfiles i k hi).trans (call_files hi)⟩
      rw [hvisible, (call_visible K₀ c).2]
      simp [callsMade, hasks, replay]
    | list hkeys hks => simpa [callsMade, asks_eq_none hkeys] using ih htail
    | fixed hasks hno => simpa [callsMade, hasks] using ih htail
    | restart hn =>
      obtain rfl : _ = K₀.numShards := hhead
      exact ih htail

/-- The files of a server that always had `n` shards. -/
def shelves (n : ℕ) (D : Dict Bytes Bytes) (i : ℕ) : Dict Bytes Bytes := fun k =>
  if ShardedHashMap.home n k = i then D k else none

theorem shelves_home : shelves n D (ShardedHashMap.home n k) k = D k := if_pos rfl

/-- The keys whose shard of `n` is the one of `n'` have the values of `V`, the others those of `D`. -/
def merged (n n' : ℕ) (V D : Dict Bytes Bytes) : Dict Bytes Bytes := fun k =>
  if ShardedHashMap.home n k = ShardedHashMap.home n' k then V k else D k

/-- Two numbers of shards, one for the files and one to look for the keys. -/
theorem shelves_visible : (⟨n', shelves n D⟩ : Stock).visible = merged n n' D Dict.empty := rfl

/-- What is visible with `n` shards after calls were made with `n'`. -/
theorem visible_merged (hfiles : ∀ i k, i ≠ ShardedHashMap.home n' k → F i k = shelves n D i k) :
    (⟨n, F⟩ : Stock).visible = merged n n' (⟨n', F⟩ : Stock).visible D := by
  funext k
  show F (ShardedHashMap.home n k) k = if _ then F (ShardedHashMap.home n' k) k else D k
  by_cases hk : ShardedHashMap.home n k = ShardedHashMap.home n' k
  · rw [if_pos hk, hk]
  · rw [if_neg hk, hfiles _ _ hk, shelves_home]

theorem shelves_call : (⟨n, shelves n D⟩ : Stock).call c =
    ((insertOnce D c).1, ⟨n, shelves n (insertOnce D c).2⟩) := by
  obtain ⟨hanswer, hkey⟩ := insertOnce_congr (c := c) (D := shelves n D (ShardedHashMap.home n c.key)) (E := D)
    shelves_home
  have hfiles : Function.update (shelves n D) (ShardedHashMap.home n c.key)
      (insertOnce (shelves n D (ShardedHashMap.home n c.key)) c).2 = shelves n (insertOnce D c).2 := by
    funext i k
    by_cases hk : k = c.key
    · subst hk
      by_cases hi : i = ShardedHashMap.home n c.key
      · rw [hi, Function.update_self, shelves_home]
        exact hkey
      · rw [Function.update_of_ne hi, shelves, shelves, if_neg (Ne.symm hi), if_neg (Ne.symm hi)]
    · have hkept : shelves n (insertOnce D c).2 i k = shelves n D i k := by
        rw [shelves, shelves, insertOnce_of_ne hk]
      rw [hkept]
      by_cases hi : i = ShardedHashMap.home n c.key
      · rw [hi, Function.update_self, insertOnce_of_ne hk]
      · rw [Function.update_of_ne hi]
  exact Prod.ext hanswer (congrArg (Stock.mk n) hfiles)

theorem Inventory.mem_iff (h : Inventory F m i ks) : k ∈ ks ↔ ∃ j, i ≤ j ∧ j < i + m ∧ (F j k).isSome := by
  induction h with
  | nil i =>
    refine ⟨fun hk => absurd hk List.not_mem_nil, ?_⟩
    rintro ⟨j, hle, hlt, -⟩
    omega
  | @cons m i ks rest hnodup hmem hrest ih =>
    rw [List.mem_append, hmem, ih]
    constructor
    · rintro (hk | ⟨j, hle, hlt, hk⟩)
      · exact ⟨i, le_rfl, by omega, hk⟩
      · exact ⟨j, by omega, by omega, hk⟩
    · rintro ⟨j, hle, hlt, hk⟩
      by_cases hj : j = i
      · exact .inl (hj ▸ hk)
      · exact .inr ⟨j, by omega, by omega, hk⟩

/-- Keys of different files differ. -/
theorem Inventory.nodup (h : Inventory F m i ks) (hone : ∀ j j' k, (F j k).isSome → (F j' k).isSome → j = j') :
    ks.Nodup := by
  induction h with
  | nil i => exact List.nodup_nil
  | @cons m i ks rest hnodup hmem hrest ih =>
    refine List.nodup_append.mpr ⟨hnodup, ih, ?_⟩
    rintro k hk _ hk' rfl
    obtain ⟨j, hle, -, hj⟩ := hrest.mem_iff.mp hk'
    have := hone _ _ _ ((hmem k).mp hk) hj
    omega

/-- Some of the files of a server that always had `n` shards. -/
theorem Inventory.shelved (h : Inventory (shelves n D) n' 0 ks) :
    ks.Nodup ∧ ∀ k, k ∈ ks ↔ ShardedHashMap.home n k < n' ∧ (D k).isSome := by
  have hplace : ∀ {j k}, (shelves n D j k).isSome → ShardedHashMap.home n k = j ∧ (D k).isSome := by
    intro j k hk
    unfold shelves at hk
    by_cases hj : ShardedHashMap.home n k = j
    · rw [if_pos hj] at hk
      exact ⟨hj, hk⟩
    · rw [if_neg hj] at hk
      cases hk
  refine ⟨h.nodup fun j j' k hj hj' => (hplace hj).1.symm.trans (hplace hj').1, fun k => h.mem_iff.trans ?_⟩
  constructor
  · rintro ⟨j, -, hlt, hk⟩
    obtain ⟨rfl, hsome⟩ := hplace hk
    exact ⟨by omega, hsome⟩
  · rintro ⟨hlt, hk⟩
    exact ⟨ShardedHashMap.home n k, Nat.zero_le _, by omega, by rwa [shelves_home]⟩

/-- With the same number of shards it is the service of one dictionary. -/
theorem shelves_step {event : HostEvent} {res : Option Response} (hn : 1 ≤ n)
    (h : StockService ⟨n, shelves n D⟩ event res K') (hsame : event.Same n) :
    ∃ D', Run Service D (answered [(event, res)]) D' ∧ K' = ⟨n, shelves n D'⟩ := by
  cases h with
  | @call req c hasks =>
    rw [shelves_call]
    exact ⟨_, .single (.call hasks), rfl⟩
  | @list req ks hkeys hks =>
    obtain ⟨hnodup, hmem⟩ := hks.shelved
    refine ⟨D, .single (.list hkeys hnodup fun k => (hmem k).trans (and_iff_right ?_)), rfl⟩
    exact Nat.mod_lt _ hn
  | fixed hasks hno => exact ⟨D, .single (.fixed hasks hno), rfl⟩
  | restart _ =>
    obtain rfl := hsame
    exact ⟨D, .nil D, rfl⟩

theorem shelves_run (hn : 1 ≤ n) (h : Run StockService ⟨n, shelves n D⟩ tr K') (hsame : ∀ e ∈ tr, e.1.Same n) :
    ∃ D', Run Service D (answered tr) D' ∧ K' = ⟨n, shelves n D'⟩ := by
  generalize hK : (⟨n, shelves n D⟩ : Stock) = K at h
  induction h generalizing D with
  | nil => exact ⟨D, .nil D, hK.symm⟩
  | @cons K₀ K₁ K₂ event res tr hs hrest ih =>
    subst hK
    obtain ⟨hhead, htail⟩ := List.forall_mem_cons.mp hsame
    obtain ⟨D₁, hD₁, rfl⟩ := shelves_step hn hs hhead
    obtain ⟨D₂, hD₂, rfl⟩ := ih htail rfl
    refine ⟨D₂, ?_, rfl⟩
    have hanswered : answered ((event, res) :: tr) = answered [(event, res)] ++ answered tr :=
      List.filterMap_append (l := [(event, res)])
    rw [hanswered]
    exact hD₁.append hD₂

end Stock

/-! ### Runs of one request -/

section Single

open DiskHashClient

variable {key value : Bytes} {m m₀ : HashMap defaultBucketSize} {fuel : ℕ}

/-- `get` looks for the key first. -/
theorem find_of_get {os : Os} {hash : Hash} {v : View} {m' : HashMap defaultBucketSize}
    (h : HashMap.get os fuel hash key value m = .ok v m') : ∃ o r, HashMap.find fuel hash key m = .ok o r := by
  obtain ⟨id, r₁, hid, h⟩ := Prog.bind_eq_ok.mp h
  obtain ⟨o, r₂, ho, -⟩ := Prog.bind_eq_ok.mp h
  exact ⟨o, r₂, Prog.bind_eq_ok.mpr ⟨id, r₁, hid, ho⟩⟩

theorem serves_get (db : ShardedHashMap) (hkey : key ≠ []) (hm : db.shards[db.shardIndex key]? = some m)
    {o : Option View} (hfind : HashMap.find fuel (fnv1a key) key m = .ok o m) :
    Serves db (getRequest 11 key) (reply (.get key) (.lookup (o.map m.container.view))) db := by
  have hsection : (do
      let result ← HashMap.find fuel (ShardedHashMap.hashKey key) key
      let map ← Prog.get
      return result.map map.container.view : Prog Fault (HashMap defaultBucketSize) _) m =
        .ok (o.map m.container.view) m := Prog.bind_eq_ok.mpr ⟨o, m, hfind, rfl⟩
  have hget : ShardedHashMap.get fuel key db = .ok (o.map m.container.view) db := by
    have hshard := ShardedHashMap.onShard_ok hm hsection
    rw [ShardedHashMap.set_same hm] at hshard
    exact Prog.bind_eq_ok.mpr ⟨db, db, rfl, hshard⟩
  have hrun : (ShardedCall.get key).run Os.willing fuel db = .ok (.lookup (o.map m.container.view)) db :=
    Prog.bind_ok hget _
  refine ⟨Os.willing, fuel, 0, ?_⟩
  rw [handleRequest_eq, asks_get, if_neg hkey]
  exact Prog.bind_ok hrun _

theorem serves_set (db : ShardedHashMap) (hkey : key ≠ []) (hm : db.shards[db.shardIndex key]? = some m₀) {v : View}
    (hfind : HashMap.find fuel (fnv1a key) key m₀ = .ok none m₀)
    (hget : HashMap.get Os.willing fuel (fnv1a key) key value m₀ = .ok v m) :
    Serves db (setRequest 11 key value) (text .ok 11 (ascii "OK"))
      { db with shards := db.shards.set (db.shardIndex key) m } := by
  have hset : ShardedHashMap.set Os.willing fuel key value db =
      .ok true { db with shards := db.shards.set (db.shardIndex key) m } :=
    Prog.bind_eq_ok.mpr ⟨db, db, rfl, ShardedHashMap.onShard_ok hm (Prog.bind_eq_ok.mpr ⟨none, m₀, hfind,
      Prog.bind_eq_ok.mpr ⟨v, m, hget, rfl⟩⟩)⟩
  have hrun : (ShardedCall.set key value).run Os.willing fuel db =
      .ok (.done true) { db with shards := db.shards.set (db.shardIndex key) m } := Prog.bind_ok hset _
  refine ⟨Os.willing, fuel, 0, ?_⟩
  rw [handleRequest_eq, asks_set, if_neg hkey]
  exact Prog.bind_ok hrun _

/-- A new server with one shard stores a value under a hash of the first entry. -/
theorem exists_put (key value : Bytes) (hkey : key ≠ []) (htop : topBits 1 (fnv1a key) = 0)
    (hfit : Container.bytesRequired key value ≤ defaultBucketSize) : ∃ (m₀ m : HashMap defaultBucketSize) (S : Shape),
      HashMap.new Os.willing false (Files.empty defaultBucketSize) = .ok m₀ ∧ m.Inv S ∧
      (∀ m', HashMap.Reopened m m' → HashMap.SameAnswer m m' (fnv1a key) key) ∧
      Hosting (.fresh ⟨[m₀], 1⟩) (.request (setRequest 11 key value)) (some (text .ok 11 (ascii "OK")))
        ⟨fun _ => Files.empty defaultBucketSize, ⟨[m], 1⟩⟩ := by
  obtain ⟨m₀, hnew⟩ := HashMap.new_returns (B := defaultBucketSize) Os.willing_grants false
  obtain ⟨answer, m, S, ⟨fuel, hstep⟩, h, hsame⟩ :=
    stored_first (r := ⟨fnv1a key, key, value⟩) defaultBucketSize_lt hnew htop hfit
  obtain ⟨v, m₁, hget, hstep⟩ := Prog.bind_eq_ok.mp hstep
  cases hstep
  obtain ⟨o, r, hfind⟩ := find_of_get hget
  obtain ⟨S₀, h₀, hD₀⟩ := HashMap.new_represents hnew
  obtain ⟨rfl, ho⟩ := (HashMap.find_step defaultBucketSize_lt h₀ hD₀ fuel (fnv1a key) key).of_ok hfind
  obtain rfl : o = none := Option.map_eq_none_iff.mp ho
  have hindex : (⟨[r], 1⟩ : ShardedHashMap).shardIndex key = 0 := Nat.mod_one _
  have hserves := serves_set ⟨[r], 1⟩ hkey (by rw [hindex]; rfl) hfind hget
  rw [hindex] at hserves
  refine ⟨r, m, S, hnew, h, hsame, .request ?_ hserves⟩
  rintro c hc
  rw [asks_set, if_neg hkey] at hc
  cases hc
  refine ⟨hfit, fun m' hm' => ?_⟩
  rw [List.mem_singleton.mp hm', HashMap.new_count hnew]
  decide

/-- Nothing is asked of the size of the shards to look for a key. -/
theorem admissible_get (db : ShardedHashMap) : Admissible db (getRequest 11 key) := by
  rintro c hc
  rw [asks_get] at hc
  split_ifs at hc
  cases hc
  trivial

/-- The value is stored with one shard, the server is started with two, and the shard in which it then looks for the
key is new. -/
theorem exists_moved : ∃ (db₀ : ShardedHashMap) (s s' u : Hosted) (res : Response),
    ShardedHashMap.new Os.willing (fun _ => Files.empty defaultBucketSize) 1 = .ok db₀ ∧
    Hosting (.fresh db₀) (.request (setRequest 11 [0] [2])) (some (text .ok 11 (ascii "OK"))) s ∧
    Hosting s (.restart Os.willing 2) none s' ∧ Hosting s' (.request (getRequest 11 [0])) (some res) u := by
  obtain ⟨m₀, m, S, hnew, h, -, hput⟩ := exists_put [0] [2] (by decide) (by decide) (by decide)
  obtain ⟨m', hnew'⟩ := h.reopen_returns Os.willing_grants false
  obtain ⟨S₀, h₀, hD₀⟩ := HashMap.new_represents hnew
  obtain ⟨o, r, hfind, rfl, -⟩ := (HashMap.find_step defaultBucketSize_lt h₀ hD₀
    (m₀.container.layout.bucketsCount + 1) (fnv1a [0]) [0]).returns fun _ _ he => absurd he.2 (by omega)
  have hserves := serves_get ⟨[m', r], 2⟩ (by decide)
    (show [m', r][ShardedHashMap.home 2 [0]]? = some r by rw [show ShardedHashMap.home 2 [0] = 1 by decide]; rfl) hfind
  refine ⟨⟨[r], 1⟩, _, ⟨_, ⟨[m', r], 2⟩⟩, _, _, ?_, hput, .restart (by decide) ?_, .request (admissible_get _) hserves⟩
  · exact Prog.except_bind_ok.mpr ⟨[r], Prog.except_bind_ok.mpr ⟨r, hnew, rfl⟩, rfl⟩
  · exact Prog.except_bind_ok.mpr ⟨[m', r], Prog.except_bind_ok.mpr ⟨m', hnew',
      Prog.except_bind_ok.mpr ⟨[r], Prog.except_bind_ok.mpr ⟨r, hnew, rfl⟩, rfl⟩⟩, rfl⟩

end Single

/-! ### Histories of a server -/

section Histories

variable {os os' os'' : Os} {n n' : ℕ} {db₀ : ShardedHashMap} {s s' t : Hosted}
  {tr mid : List (HostEvent × Option Response)}

theorem history_stock (hn : 1 ≤ n) (hnew : ShardedHashMap.new os (fun _ => Files.empty defaultBucketSize) n = .ok db₀)
    (hrun : Run Hosting (.fresh db₀) tr s) : ∃ K, Run StockService ⟨n, fun _ => Dict.empty⟩ tr K ∧ Stocks s K :=
  (stocks_new (fun _ => .inl ⟨rfl, rfl⟩) hn hnew).run hrun

theorem history_shelves (hn : 1 ≤ n)
    (hnew : ShardedHashMap.new os (fun _ => Files.empty defaultBucketSize) n = .ok db₀)
    (hrun : Run Hosting (.fresh db₀) tr s) (hsame : ∀ e ∈ tr, e.1.Same n) :
    ∃ D, Run Service Dict.empty (answered tr) D ∧ Stocks s ⟨n, shelves n D⟩ := by
  obtain ⟨K, hK, hs⟩ := history_stock hn hnew hrun
  have hempty : (fun _ => Dict.empty) = shelves n Dict.empty := by
    funext i k
    simp [shelves, Dict.empty]
  rw [hempty] at hK
  obtain ⟨D, hD, rfl⟩ := shelves_run hn hK hsame
  exact ⟨D, hD, hs⟩

/-- Shards that are mapped whole. -/
theorem Stocks.represents {D : Dict Bytes Bytes} (h : Stocks s ⟨n, shelves n D⟩) (hwhole : ∀ m ∈ s.db.shards, m.Whole) :
    s.db.Represents D := by
  have hnum : s.db.numShards = n := h.numShards
  refine ⟨hnum ▸ h.pos, h.length.trans h.numShards.symm, fun i m hm => ?_⟩
  obtain ⟨m', hsame, S, hS, hD⟩ := h.kept i m hm
  have hpart : WrappedHashMap.contents fnv1a (shelves n D i) = ShardedHashMap.part s.db.numShards i D := by
    rw [hnum]
    exact Dict.tagged_restrict D
  exact hpart ▸ ⟨S, hS.remapped hsame (hwhole m (List.mem_of_getElem? hm)), hD⟩

theorem Service.of_asks {D D' : Dict Bytes Bytes} {req : Request} {c : ShardedCall} {res : Response}
    (h : Service D req res D') (hasks : asks req = some c) :
    res = reply c (insertOnce D c).1 ∧ D' = (insertOnce D c).2 := by
  cases h with
  | @call c' hasks' =>
    obtain rfl : c' = c := Option.some.inj (hasks'.symm.trans hasks)
    exact ⟨rfl, rfl⟩
  | list hkeys _ _ => exact absurd hkeys (asks_route hasks)
  | fixed hnone _ =>
    rw [hasks] at hnone
    cases hnone

/-- The response to a request that makes a call. -/
theorem Stocks.response {K : Stock} {req : Request} {c : ShardedCall} {res : Response} (h : Stocks s K)
    (hs : Hosting s (.request req) (some res) s') (hasks : asks req = some c) :
    res = reply c (insertOnce K.visible c).1 := by
  obtain ⟨K', hK', -⟩ := h.step hs
  cases hK' with
  | @call _ c' hasks' =>
    obtain rfl : c' = c := Option.some.inj (hasks'.symm.trans hasks)
    rw [(call_visible K c').1]
  | list hkeys _ => exact absurd hkeys (asks_route hasks)
  | fixed hnone _ =>
    rw [hasks] at hnone
    cases hnone

/-- Any history of a server, with any numbers of shards: the responses are those of the files as dictionaries, and a
file stores the outcome of the calls that were made while their keys belonged to it.  A request after it is answered
so too, or it is lost, and the server can be started again. -/
theorem restarts_route (hn : 1 ≤ n)
    (hnew : ShardedHashMap.new os (fun _ => Files.empty defaultBucketSize) n = .ok db₀)
    (hrun : Run Hosting (.fresh db₀) tr s) :
    ∃ K, Run StockService ⟨n, fun _ => Dict.empty⟩ tr K ∧
      (∀ i, K.files i = (replay insertOnce Dict.empty (routed i n (tr.map Prod.fst))).2) ∧
      (∀ os fuel steps req, Admissible s.db req → Prog.Runs (handleRequest os fuel steps req) s.db
        (fun res _ => ∃ K', StockService K (.request req) (some res) K') (fun e _ => Lost e)) ∧
      ∀ os' n', os'.Grants → 1 ≤ n' → ∃ s', Hosting s (.restart os' n') none s' := by
  obtain ⟨K, hK, hs⟩ := history_stock hn hnew hrun
  refine ⟨K, hK, files_routed hK, fun os fuel steps req hreq => ?_, fun os' n' hos hn' => hs.restarts hos hn'⟩
  refine (hs.request_runs hreq os fuel steps).mono ?_ fun _ _ he => he
  rintro res db' ⟨K', hK', -⟩
  exact ⟨K', hK'⟩

/-- The value stays in the file of the first shard, where the server with two shards does not look for it. -/
theorem restarts_route_moved : ∃ (db₀ : ShardedHashMap) (u : Hosted) (res : Response) (K : Stock),
    ShardedHashMap.new Os.willing (fun _ => Files.empty defaultBucketSize) 1 = .ok db₀ ∧
    Run Hosting (.fresh db₀) [(.request (DiskHashClient.setRequest 11 [0] [2]), some (text .ok 11 (ascii "OK"))),
      (.restart Os.willing 2, none), (.request (DiskHashClient.getRequest 11 [0]), some res)] u ∧
    K.files 0 [0] = some [2] ∧ K.files 1 [0] = none := by
  obtain ⟨db₀, s, s', u, res, hnew, hput, hstart, hget⟩ := exists_moved
  have hrun := Run.cons hput (.cons hstart (.single hget))
  obtain ⟨K, -, hfiles, -⟩ := restarts_route (by decide) hnew hrun
  have hset : asks (DiskHashClient.setRequest 11 [0] [2]) = some (.set [0] [2]) :=
    (asks_set 11 [0] [2]).trans (if_neg (by decide))
  have hasks : asks (DiskHashClient.getRequest 11 [0]) = some (.get [0]) := (asks_get 11 [0]).trans (if_neg (by decide))
  have hfirst : ShardedHashMap.home 1 [0] = 0 := Nat.mod_one _
  have hsecond : ShardedHashMap.home 2 [0] = 1 := by decide
  refine ⟨db₀, u, res, K, hnew, hrun, ?_, ?_⟩
  · rw [hfiles]
    simp [routed, hset, hasks, Option.filter, ShardedCall.key, hfirst, hsecond, replay,
      insertOnce_absent (show Dict.empty [0] = none from rfl)]
  · rw [hfiles]
    simp [routed, hset, hasks, Option.filter, ShardedCall.key, hfirst, hsecond, replay, insertOnce, Dict.empty]

/-- A server that is always started with the same number of shards forgets nothing: its history without the starts
is one of the service.  A request after it is answered so too, or it is lost; it is not lost, but for the system and
the turns, once the mappings of all shards have grown over their files. -/
theorem same_shards (hn : 1 ≤ n) (hnew : ShardedHashMap.new os (fun _ => Files.empty defaultBucketSize) n = .ok db₀)
    (hrun : Run Hosting (.fresh db₀) tr s) (hsame : ∀ e ∈ tr, e.1.Same n) :
    ∃ D, Run Service Dict.empty (answered tr) D ∧
      (∀ os fuel steps req, Admissible s.db req → Prog.Runs (handleRequest os fuel steps req) s.db
        (fun res _ => ∃ D', Service D req res D') (fun e _ => Lost e)) ∧
      ((∀ m ∈ s.db.shards, m.Whole) → ∀ os req, os.Grants → Admissible s.db req →
        ∃ f, ∀ fuel steps, f ≤ fuel → f ≤ steps → ∃ res db', handleRequest os fuel steps req s.db = .ok res db') := by
  obtain ⟨D, hD, hs⟩ := history_shelves hn hnew hrun hsame
  refine ⟨D, hD, fun os fuel steps req hreq => ?_, fun hwhole os req hos hreq => ?_⟩
  · refine (hs.request_runs hreq os fuel steps).mono ?_ fun _ _ he => he
    rintro res db' ⟨K', hK', -⟩
    obtain ⟨D', hD', -⟩ := shelves_step hn hK' trivial
    cases hD' with
    | cons hservice _ => exact ⟨_, hservice⟩
  · exact handleRequest_returns (hs.represents hwhole) hos hreq

/-- A value that is stored, and found by the next server. -/
theorem same_shards_found : ∃ (db₀ : ShardedHashMap) (u : Hosted) (res : Response),
    ShardedHashMap.new Os.willing (fun _ => Files.empty defaultBucketSize) 1 = .ok db₀ ∧
    Run Hosting (.fresh db₀) [(.request (DiskHashClient.setRequest 11 [0] [2]), some (text .ok 11 (ascii "OK"))),
      (.restart Os.willing 1, none), (.request (DiskHashClient.getRequest 11 [0]), some res)] u ∧
    res = ⟨.ok, 11, ascii "application/octet-stream", [2]⟩ := by
  obtain ⟨m₀, m, S, hnew, h, hsame, hput⟩ := exists_put [0] [2] (by decide) (by decide) (by decide)
  obtain ⟨m', hnew'⟩ := h.reopen_returns Os.willing_grants false
  obtain ⟨fuel, o, -, hfind⟩ := hsame m' (h.reopened hnew')
  have hserves := serves_get ⟨[m'], 1⟩ (by decide)
    (show [m'][ShardedHashMap.home 1 [0]]? = some m' by rw [show ShardedHashMap.home 1 [0] = 0 by decide]; rfl) hfind
  have hnew₀ : ShardedHashMap.new Os.willing (fun _ => Files.empty defaultBucketSize) 1 = .ok ⟨[m₀], 1⟩ :=
    Prog.except_bind_ok.mpr ⟨[m₀], Prog.except_bind_ok.mpr ⟨m₀, hnew, rfl⟩, rfl⟩
  have hstart : Hosting ⟨fun _ => Files.empty defaultBucketSize, ⟨[m], 1⟩⟩ (.restart Os.willing 1) none
      ⟨_, ⟨[m'], 1⟩⟩ :=
    .restart (by decide) (Prog.except_bind_ok.mpr ⟨[m'], Prog.except_bind_ok.mpr ⟨m', hnew', rfl⟩, rfl⟩)
  have hrun := Run.cons hput (.cons hstart (.single (.request (admissible_get _) hserves)))
  obtain ⟨D, hD, -⟩ := same_shards (by decide) hnew₀ hrun (by simp [HostEvent.Same])
  refine ⟨_, _, _, hnew₀, hrun, ?_⟩
  cases hD with
  | cons h₁ hrest =>
    cases hrest with
    | cons h₂ _ =>
      obtain ⟨-, rfl⟩ := h₁.of_asks ((asks_set 11 [0] [2]).trans (if_neg (by decide)))
      obtain ⟨hres, -⟩ := h₂.of_asks ((asks_get 11 [0]).trans (if_neg (by decide)))
      rw [hres, insertOnce_absent (show Dict.empty [0] = none from rfl)]
      show reply (.get [0]) (.lookup ((Dict.empty.insert [0] [2]) [0])) = _
      rw [Dict.insert_self]
      rfl

end Histories

end HttpServer

end DiskHash
