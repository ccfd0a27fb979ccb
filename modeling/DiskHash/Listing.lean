import DiskHash.Lib.Lines
import DiskHash.Requests

/-!
# DiskHash.Listing — the list of keys the client makes of `/keys`

`handle_keys` writes one line for each key, and `DiskHashClient.keys` reads the lines that are not empty.  The
line of the empty key is empty, so the list lacks this key alone; only a `/set` whose text of a key is not
empty but decodes to nothing stores it.
-/

namespace DiskHash

open HttpServer DiskHashClient

/-! ## The text of the list -/

theorem mapM_decodeKey (ks : List Bytes) :
    ((ks.map unpadded).filter (· ≠ [])).mapM decodeKey = some (ks.filter (· ≠ [])) := by
  induction ks with
  | nil => rfl
  | cons key ks ih =>
    have hdecode : decodeKey (unpadded key) = some key := by rw [← base64urlEncode_eq, decodeKey_encode]
    by_cases hk : key = []
    · subst hk
      exact ih
    · rw [List.map_cons, List.filter_cons_of_pos (by simpa [unpadded_eq_nil] using hk),
        List.filter_cons_of_pos (by simpa using hk), List.mapM_cons, hdecode, ih]
      rfl

/-- The client reads back the keys but for the empty one. -/
theorem keys_body (ks : List Bytes) :
    DiskHashClient.keys (ks.flatMap fun key => base64urlEncode key ++ ascii "\n") = some (ks.filter (· ≠ [])) := by
  have hdigit : ∀ l ∈ ks.map unpadded, ∀ c ∈ l, IsDigit c := by
    intro l hl c hc
    obtain ⟨key, -, rfl⟩ := List.mem_map.mp hl
    exact mem_unpadded hc
  have hbody : (ks.flatMap fun key => base64urlEncode key ++ ascii "\n") =
      (ks.map unpadded).flatMap (· ++ [10]) := by
    simp only [base64urlEncode_eq, List.flatMap_map]
    rfl
  have hspace : ∀ c ∈ (ks.map unpadded).flatMap (· ++ [10]), isWhitespace c = true → c = 10 := by
    intro c hc hs
    obtain ⟨l, hl, hc⟩ := List.mem_flatMap.mp hc
    rcases List.mem_append.mp hc with hc | hc
    · rw [(hdigit l hl c hc).plain.2.2.2.2] at hs
      cases hs
    · exact List.mem_singleton.mp hc
  show (lines 10 (trim isWhitespace _)).mapM decodeKey = _
  rw [hbody, lines_trim hspace, lines_flatMap fun l hl h => (hdigit l hl 10 h).plain.2.2.2.1 rfl]
  exact mapM_decodeKey ks

/-! ## The list and the store -/

/-- The store has a value for the key. -/
def HasKey (s : ShardedHashMap) (key : Bytes) : Prop :=
  ∃ fuel v s', ShardedHashMap.get fuel key s = .ok (some v) s'

/-- `handle_keys` returns, and the client makes of its body the list of the keys stored, each once. -/
structure KeysAgree (s : ShardedHashMap) : Prop where
  returns : ∃ n, ∀ fuel steps, n ≤ fuel → n ≤ steps → ∃ res, handleKeys fuel steps s = .ok res s
  keys : ∀ fuel steps res s', handleKeys fuel steps s = .ok res s' →
    ∃ ks, DiskHashClient.keys res.body = some ks ∧ ks.Nodup ∧ ∀ key, key ∈ ks ↔ HasKey s key
  len : ∀ fuel steps res s', handleKeys fuel steps s = .ok res s' →
    ∀ stored : List Bytes, stored.Nodup → (∀ key, key ∈ stored ↔ HasKey s key) →
      DiskHashClient.len res.body = some stored.length

section Represented

variable {s : ShardedHashMap} {D : Dict Bytes Bytes}

theorem hasKey_iff (h : s.Represents D) (key : Bytes) : HasKey s key ↔ (D key).isSome := by
  obtain ⟨n, hget⟩ := ShardedHashMap.get_runs h key
  constructor
  · rintro ⟨fuel, v, s', hrun⟩
    rw [← ((hget fuel).of_ok hrun).2]
    rfl
  · intro hsome
    obtain ⟨v, hv⟩ := Option.isSome_iff_exists.mp hsome
    obtain ⟨o, s', hrun, -, rfl⟩ := (hget (n + 1)).returns fun _ _ he => absurd he.2 (Nat.not_succ_le_self n)
    exact ⟨n + 1, v, s', hv ▸ hrun⟩

theorem handleKeys_returns (h : s.Represents D) :
    ∃ n, ∀ fuel steps, n ≤ fuel → n ≤ steps → ∃ res, handleKeys fuel steps s = .ok res s := by
  obtain ⟨n, hkeys⟩ := ShardedHashMap.keys_returns h
  refine ⟨n, fun fuel steps hf hs => ?_⟩
  obtain ⟨ks, hrun⟩ := hkeys fuel steps hf hs
  exact ⟨_, Prog.bind_ok hrun _⟩

/-- The client makes of the body of `handle_keys` the list of the stored keys but for the empty one. -/
theorem handleKeys_body (h : s.Represents D) {fuel steps : ℕ} {res : Response} {s' : ShardedHashMap}
    (hrun : handleKeys fuel steps s = .ok res s') : ∃ ks : List Bytes, ks.Nodup ∧
      (∀ key, key ∈ ks ↔ HasKey s key) ∧ DiskHashClient.keys res.body = some (ks.filter (· ≠ [])) := by
  obtain ⟨ks, s₁, hkeys, hrun⟩ := Prog.bind_eq_ok.mp hrun
  cases hrun
  obtain ⟨-, hnodup, hmem⟩ := ShardedHashMap.keys_lists h hkeys
  exact ⟨ks, hnodup, fun key => (hmem key).trans (hasKey_iff h key).symm, keys_body ks⟩

/-- The list agrees with the store exactly if the empty key is not stored. -/
theorem keysAgree_iff (h : s.Represents D) : KeysAgree s ↔ ¬ HasKey s [] := by
  constructor
  · intro hagree hempty
    obtain ⟨n, hreturns⟩ := hagree.returns
    obtain ⟨res, hrun⟩ := hreturns n n le_rfl le_rfl
    obtain ⟨ks, hks, -, hmem⟩ := hagree.keys n n res s hrun
    obtain ⟨l, -, -, hl⟩ := handleKeys_body h hrun
    rw [hks, Option.some.injEq] at hl
    have := (hmem []).mpr hempty
    rw [hl] at this
    simp at this
  · intro hempty
    have hfilter : ∀ {ks : List Bytes}, (∀ key, key ∈ ks ↔ HasKey s key) → ks.filter (· ≠ []) = ks := by
      intro ks hmem
      refine List.filter_eq_self.mpr fun key hkey => ?_
      have hne : key ≠ [] := by
        rintro rfl
        exact hempty ((hmem []).mp hkey)
      simpa using hne
    refine ⟨handleKeys_returns h, fun fuel steps res s' hrun => ?_,
      fun fuel steps res s' hrun stored hnodup hstored => ?_⟩
    · obtain ⟨ks, hnodup, hmem, hkeys⟩ := handleKeys_body h hrun
      rw [hfilter hmem] at hkeys
      exact ⟨ks, hkeys, hnodup, hmem⟩
    · obtain ⟨ks, hnodup', hmem, hkeys⟩ := handleKeys_body h hrun
      have hperm : ks.Perm stored := (List.perm_ext_iff_of_nodup hnodup' hnodup).mpr fun key =>
        (hmem key).trans (hstored key).symm
      unfold DiskHashClient.len
      rw [hkeys, hfilter hmem, Option.map_some, hperm.length_eq]

end Represented

/-! ## Sessions of the server -/

/-- The server answered the request. -/
def Serves (s : ShardedHashMap) (req : Request) (res : Response) (s' : ShardedHashMap) : Prop :=
  ∃ os fuel steps, handleRequest os fuel steps req s = .ok res s'

/-- The call a request makes of the map, if it makes one. -/
def asks (req : Request) : Option ShardedCall :=
  let key := extractQueryParam req.target (ascii "key")
  if path req.target = ascii "/get" ∧ req.method = .get then
    if key = [] then none else some (.get (base64urlDecode (urlDecode key)))
  else if path req.target = ascii "/set" ∧ (req.method = .put ∨ req.method = .post) then
    if key = [] then none else some (.set (base64urlDecode (urlDecode key)) req.body)
  else if path req.target = ascii "/delete" ∧ req.method = .delete then
    if key = [] then none else some (.remove (base64urlDecode (urlDecode key)))
  else none

/-- The request stores the empty key, if it is absent: the text of its key is not empty, but decodes to nothing. -/
def StoresEmptyKey (req : Request) : Prop := ∃ value, asks req = some (.set [] value)

theorem handleGet_step {s s' : ShardedHashMap} {fuel : ℕ} {key : Bytes} {res : Response}
    (h : handleGet fuel key s = .ok res s') : ∃ answer, ShardedHashMap.Step s (.get key) answer s' := by
  obtain ⟨o, s₁, hget, h⟩ := Prog.bind_eq_ok.mp h
  have heq : s₁ = s' := by cases o <;> cases h <;> rfl
  exact ⟨.lookup o, Os.willing, fuel, heq ▸ Prog.bind_ok hget _⟩

theorem handleSet_step {s s' : ShardedHashMap} {os : Os} {fuel : ℕ} {key value : Bytes} {res : Response}
    (h : handleSet os fuel key value s = .ok res s') :
    ∃ answer, ShardedHashMap.Step s (.set key value) answer s' := by
  obtain ⟨b, s₁, hset, h⟩ := Prog.bind_eq_ok.mp h
  have heq : s₁ = s' := by cases b <;> cases h <;> rfl
  exact ⟨.done b, os, fuel, heq ▸ Prog.bind_ok hset _⟩

theorem handleDelete_step {s s' : ShardedHashMap} {fuel : ℕ} {key : Bytes} {res : Response}
    (h : handleDelete fuel key s = .ok res s') : ∃ answer, ShardedHashMap.Step s (.remove key) answer s' := by
  obtain ⟨b, s₁, hremove, h⟩ := Prog.bind_eq_ok.mp h
  have heq : s₁ = s' := by cases b <;> cases h <;> rfl
  exact ⟨.done b, Os.willing, fuel, heq ▸ Prog.bind_ok hremove _⟩

/-- What a request did to the map that makes the call `o`. -/
def Called (s : ShardedHashMap) (o : Option ShardedCall) (s' : ShardedHashMap) : Prop :=
  (o = none → s' = s) ∧ ∀ call, o = some call → ∃ answer, ShardedHashMap.Step s call answer s'

/-- A handler behind the presence check. -/
theorem Called.of_checked {s s' : ShardedHashMap} {text : Bytes} {version : ℕ} {call : ShardedCall}
    {handler : Prog Fault ShardedHashMap Response} {res : Response}
    (h : (if text = [] then pure (missingKey version) else handler) s = .ok res s')
    (hstep : handler s = .ok res s' → ∃ answer, ShardedHashMap.Step s call answer s') :
    Called s (if text = [] then none else some call) s' := by
  by_cases htext : text = []
  · rw [if_pos htext] at h ⊢
    cases h
    exact ⟨fun _ => rfl, fun _ hc => by cases hc⟩
  · rw [if_neg htext] at h ⊢
    refine ⟨fun hc => (by cases hc), ?_⟩
    rintro call' ⟨rfl⟩
    exact hstep h

/-- A request makes its call, and else changes nothing. -/
theorem Serves.called {s s' : ShardedHashMap} {D : Dict Bytes Bytes} {req : Request} {res : Response}
    (h : s.Represents D) (hs : Serves s req res s') : Called s (asks req) s' := by
  obtain ⟨os, fuel, steps, hrun⟩ := hs
  unfold handleRequest at hrun
  unfold asks
  dsimp only at hrun ⊢
  -- the paths of requests that make a call are not those of the others
  have hother : ∀ {p : Bytes}, p ∈ [ascii "/get", ascii "/set", ascii "/delete"] → path req.target = p →
      path req.target ≠ ascii "/health" ∧ ¬ (path req.target = ascii "/keys" ∧ req.method = .get) := by
    rintro p hp rfl
    have hall : ∀ p ∈ [ascii "/get", ascii "/set", ascii "/delete"], p ≠ ascii "/health" ∧ p ≠ ascii "/keys" := by
      decide
    exact ⟨(hall _ hp).1, fun hk => (hall _ hp).2 hk.1⟩
  by_cases hget : path req.target = ascii "/get" ∧ req.method = .get
  · obtain ⟨hhealth, hkeys⟩ := hother (by simp) hget.1
    rw [if_neg hhealth, if_neg hkeys, if_pos hget] at hrun
    rw [if_pos hget]
    exact .of_checked hrun handleGet_step
  by_cases hset : path req.target = ascii "/set" ∧ (req.method = .put ∨ req.method = .post)
  · obtain ⟨hhealth, hkeys⟩ := hother (by simp) hset.1
    rw [if_neg hhealth, if_neg hkeys, if_neg hget, if_pos hset] at hrun
    rw [if_neg hget, if_pos hset]
    exact .of_checked hrun handleSet_step
  by_cases hdelete : path req.target = ascii "/delete" ∧ req.method = .delete
  · obtain ⟨hhealth, hkeys⟩ := hother (by simp) hdelete.1
    rw [if_neg hhealth, if_neg hkeys, if_neg hget, if_neg hset, if_pos hdelete] at hrun
    rw [if_neg hget, if_neg hset, if_pos hdelete]
    exact .of_checked hrun handleDelete_step
  rw [if_neg hget, if_neg hset, if_neg hdelete] at hrun ⊢
  refine ⟨fun _ => ?_, fun _ hc => by cases hc⟩
  split_ifs at hrun
  · cases hrun
    rfl
  · obtain ⟨ks, s₁, hks, hrun⟩ := Prog.bind_eq_ok.mp hrun
    cases hrun
    exact (ShardedHashMap.keys_lists h hks).1
  · cases hrun
    rfl

/-- What is stored after a request. -/
theorem Serves.represents {s s' : ShardedHashMap} {D : Dict Bytes Bytes} {req : Request} {res : Response}
    (h : s.Represents D) (hs : Serves s req res s') : ∃ D', s'.Represents D' ∧
      (D [] = none → (D' [] = none ↔ ¬ StoresEmptyKey req)) := by
  obtain ⟨hquiet, hcall⟩ := hs.called h
  cases hasks : asks req with
  | none =>
    rw [hquiet hasks]
    refine ⟨D, h, fun hD => ⟨?_, fun _ => hD⟩⟩
    rintro - ⟨value, hv⟩
    rw [hasks] at hv
    cases hv
  | some call =>
    obtain ⟨answer, hstep⟩ := hcall call hasks
    refine ⟨_, (ShardedHashMap.step_refines h hstep).2, fun hD => ⟨?_, fun hno => ?_⟩⟩
    · rintro hD' ⟨value, hv⟩
      rw [hasks, Option.some.injEq] at hv
      rw [hv, insertOnce_absent hD] at hD'
      exact absurd hD' (by simp)
    · refine (insertOnce_lacks hD fun hsets => hno ?_).1
      cases call with
      | set key value =>
        cases hsets
        exact ⟨value, hasks⟩
      | get key => exact hsets.elim
      | remove key => exact hsets.elim

/-- The states of a session stand for dictionaries; one without a request that stores the empty key has none. -/
theorem session_represents {s₀ s : ShardedHashMap} {tr : List (Request × Response)} {D : Dict Bytes Bytes}
    (h : s₀.Represents D) (hrun : Run Serves s₀ tr s) : ∃ D', s.Represents D' ∧
      (D [] = none → (∀ e ∈ tr, ¬ StoresEmptyKey e.1) → D' [] = none) := by
  induction hrun generalizing D with
  | nil => exact ⟨D, h, fun hD _ => hD⟩
  | cons hs _ ih =>
    obtain ⟨D₁, h₁, hnone⟩ := hs.represents h
    obtain ⟨D₂, h₂, hrest⟩ := ih h₁
    refine ⟨D₂, h₂, fun hD hall => ?_⟩
    obtain ⟨hhead, htail⟩ := List.forall_mem_cons.mp hall
    exact hrest ((hnone hD).mpr hhead) htail

/-- In all states of a session the list agrees with the store. -/
def AlwaysAgrees (s₀ : ShardedHashMap) (tr : List (Request × Response)) (s : ShardedHashMap) : Prop :=
  ∀ pre post t, tr = pre ++ post → Run Serves s₀ pre t → Run Serves t post s → KeysAgree t

theorem no_empty_key {s₀ s : ShardedHashMap} {tr : List (Request × Response)} {D : Dict Bytes Bytes}
    (h : s₀.Represents D) (hD : D [] = none) (hrun : Run Serves s₀ tr s) (hall : AlwaysAgrees s₀ tr s) :
    ∀ e ∈ tr, ¬ StoresEmptyKey e.1 := by
  induction hrun generalizing D with
  | nil => simp
  | @cons s₀ s₁ s req res tr hs hrest ih =>
    obtain ⟨D₁, h₁, hnone⟩ := hs.represents h
    have hagree := hall [(req, res)] tr s₁ rfl (.single hs) hrest
    have hD₁ : D₁ [] = none := by
      rw [← Option.not_isSome_iff_eq_none, ← hasKey_iff h₁]
      exact (keysAgree_iff h₁).mp hagree
    refine List.forall_mem_cons.mpr ⟨(hnone hD).mp hD₁, ih h₁ hD₁ fun pre post t htr hpre hpost => ?_⟩
    exact hall ((req, res) :: pre) post t (by rw [htr, List.cons_append]) (.cons hs hpre) hpost

/-- In every session the list agrees with the store exactly as long as the empty key is not stored, and in all
its states exactly if no request stores the empty key. -/
theorem list_agrees_iff {os : Os} {n : ℕ} (hn : 1 ≤ n) {s₀ s : ShardedHashMap} {tr : List (Request × Response)}
    (hnew : ShardedHashMap.new os (fun _ => Files.empty defaultBucketSize) n = .ok s₀)
    (hrun : Run Serves s₀ tr s) :
    (KeysAgree s ↔ ¬ HasKey s []) ∧ (AlwaysAgrees s₀ tr s ↔ ∀ e ∈ tr, ¬ StoresEmptyKey e.1) := by
  have h := ShardedHashMap.new_represents hn hnew
  obtain ⟨D, hD, -⟩ := session_represents h hrun
  refine ⟨keysAgree_iff hD, no_empty_key h rfl hrun, ?_⟩
  rintro hall pre post t rfl hpre -
  obtain ⟨D', hD', hnone⟩ := session_represents h hpre
  rw [keysAgree_iff hD', hasKey_iff hD', hnone rfl fun e he => hall e (List.mem_append_left _ he)]
  simp

/-- A session of one request that stores a value. -/
theorem exists_stored (req : Request) {key value : Bytes} (hfit : Container.bytesRequired key value ≤ defaultBucketSize)
    (hreq : ∀ fuel steps, handleRequest Os.willing fuel steps req = handleSet Os.willing fuel key value) :
    ∃ s₀ s : ShardedHashMap,
      ShardedHashMap.new Os.willing (fun _ => Files.empty defaultBucketSize) 1 = .ok s₀ ∧
      Run Serves s₀ [(req, text .ok 11 (ascii "OK"))] s ∧ HasKey s key := by
  obtain ⟨s₀, hnew⟩ := ShardedHashMap.new_returns Os.willing_grants 1
  have hrep := ShardedHashMap.new_represents (by decide) hnew
  have hall := (ShardedHashMap.new_empty hnew).2.2
  obtain ⟨n, hset⟩ := ShardedHashMap.set_runs hrep Os.willing key value
  obtain ⟨b, s, hrun, hb, hs⟩ := (hset (n + 1)).returns fun e _ he => by
    have := (he Os.willing_grants ⟨hfit, fun m hm => (HashMap.new_count (hall m hm)).le.trans (by decide)⟩).2
    omega
  rw [insertOnce_absent (show Dict.empty key = none from rfl)] at hb hs
  cases hb
  replace hs : s.Represents (Dict.empty.insert key value) := hs
  refine ⟨s₀, s, hnew, .single ⟨Os.willing, n + 1, 0, ?_⟩, (hasKey_iff hs key).mpr ?_⟩
  · rw [hreq]
    exact Prog.bind_ok hrun _
  · rw [Dict.insert_self]
    rfl

/-- A session in which the client stores a key. -/
theorem list_agrees_iff_session : ∃ s₀ s : ShardedHashMap,
    ShardedHashMap.new Os.willing (fun _ => Files.empty defaultBucketSize) 1 = .ok s₀ ∧
    Run Serves s₀ [(setRequest 11 [1] [2], text .ok 11 (ascii "OK"))] s ∧ HasKey s [1] ∧ KeysAgree s := by
  obtain ⟨s₀, s, hnew, hrun, hkey⟩ := exists_stored (setRequest 11 [1] [2])
    (show Container.bytesRequired [1] [2] ≤ defaultBucketSize by decide) fun _ _ => handleRequest_set ..
  have hasks : asks (setRequest 11 [1] [2]) = some (.set [1] [2]) := by
    obtain ⟨hpath, hkey, hdecode⟩ := parse_target (p := ascii "/set") (by decide) [1]
    simp only [asks, setRequest, hpath, hkey, hdecode, unpadded_eq_nil]
    rw [if_neg (by decide), if_pos (by decide), if_neg (by decide)]
  refine ⟨s₀, s, hnew, hrun, hkey, (list_agrees_iff (by decide) hnew hrun).2.mpr ?_ _ [] s (List.append_nil _).symm
    hrun (.nil s)⟩
  rintro e he ⟨value, hv⟩
  rw [List.mem_singleton.mp he, hasks] at hv
  cases hv

/-- The request `PUT /set?key==` stores the empty key, and the list lacks it. -/
theorem empty_key_unlisted : ∃ s₀ s : ShardedHashMap,
    ShardedHashMap.new Os.willing (fun _ => Files.empty defaultBucketSize) 1 = .ok s₀ ∧
    Run Serves s₀ [(⟨.put, ascii "/set?key==", 11, [1]⟩, text .ok 11 (ascii "OK"))] s ∧
    HasKey s [] ∧ ¬ KeysAgree s := by
  have hpath : path (ascii "/set?key==") = ascii "/set" := path_target (p := ascii "/set") (by decide) (ascii "key==")
  have hkey : extractQueryParam (ascii "/set?key==") (ascii "key") = ascii "=" :=
    extractQueryParam_target (p := ascii "/set") (by decide) (by decide)
  have hdecode : base64urlDecode (urlDecode (ascii "=")) = [] := by decide
  obtain ⟨s₀, s, hnew, hrun, hempty⟩ := exists_stored ⟨.put, ascii "/set?key==", 11, [1]⟩
    (show Container.bytesRequired [] [1] ≤ defaultBucketSize by decide) fun fuel steps => by
      simp only [handleRequest, hpath, hkey, hdecode]
      rw [if_neg (by decide), if_neg (by decide), if_neg (by decide), if_pos (by decide), if_neg (by decide)]
  obtain ⟨D, hD, -⟩ := session_represents (ShardedHashMap.new_represents (by decide) hnew) hrun
  exact ⟨s₀, s, hnew, hrun, hempty, fun hagree => (keysAgree_iff hD).mp hagree hempty⟩

end DiskHash
