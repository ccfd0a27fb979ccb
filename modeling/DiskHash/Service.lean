import DiskHash.Listing

/-!
# DiskHash.Service — the service the HTTP server gives

Of a dictionary the server makes a service: a request is answered from the dictionary alone, and it is the only
thing that changes.  The sessions of the server are those of this service, and a request that is sent again
changes nothing more.
-/

namespace DiskHash

namespace HttpServer

/-- The request asks for the list of keys. -/
def ListsKeys (req : Request) : Prop := path req.target = ascii "/keys" ∧ req.method = .get

instance (req : Request) : Decidable (ListsKeys req) := by
  unfold ListsKeys
  infer_instance

/-- The request goes to a handler that needs a key. -/
def NeedsKey (req : Request) : Prop :=
  path req.target = ascii "/get" ∧ req.method = .get ∨
  path req.target = ascii "/set" ∧ (req.method = .put ∨ req.method = .post) ∨
  path req.target = ascii "/delete" ∧ req.method = .delete

instance (req : Request) : Decidable (NeedsKey req) := by
  unfold NeedsKey
  infer_instance

/-! ### The service -/

/-- The response that lists the keys. -/
def listing (ks : List Bytes) : Response := text .ok 11 (ks.flatMap fun key => base64urlEncode key ++ ascii "\n")

/-- The response to a call. -/
def reply : ShardedCall → ShardedAnswer → Response
  | .get _, .lookup (some value) => ⟨.ok, 11, ascii "application/octet-stream", value⟩
  | .get _, _ => text .notFound 11 (ascii "Key not found")
  | .set _ _, .done true => text .ok 11 (ascii "OK")
  | .set _ _, _ => text .conflict 11 (ascii "Key already exists")
  | .remove _, .done true => text .ok 11 (ascii "OK")
  | .remove _, _ => text .notFound 11 (ascii "Key not found")

/-- The response to a request that has nothing to do with what is stored. -/
def fixedReply (req : Request) : Response :=
  if path req.target = ascii "/health" then handleHealth
  else if NeedsKey req then missingKey req.version
  else text .notFound req.version (ascii "Not Found")

/-- The service: what a request is answered from a dictionary, and the dictionary after it. -/
inductive Service : Dict Bytes Bytes → Request → Response → Dict Bytes Bytes → Prop
  | call {D : Dict Bytes Bytes} {req : Request} {c : ShardedCall} : asks req = some c →
      Service D req (reply c (insertOnce D c).1) (insertOnce D c).2
  | list {D : Dict Bytes Bytes} {req : Request} {ks : List Bytes} : ListsKeys req → ks.Nodup →
      (∀ k, k ∈ ks ↔ (D k).isSome) → Service D req (listing ks) D
  | fixed {D : Dict Bytes Bytes} {req : Request} : asks req = none → ¬ ListsKeys req →
      Service D req (fixedReply req) D

/-! ### The handlers -/

section Handlers

variable (os : Os) (fuel steps : ℕ) (key value : Bytes)

theorem handleGet_eq : handleGet fuel key =
    (ShardedCall.get key).run os fuel >>= fun a => pure (reply (.get key) a) := by
  unfold handleGet ShardedCall.run
  rw [Prog.bind_assoc]
  congr 1
  funext o
  cases o <;> rfl

theorem handleSet_eq : handleSet os fuel key value =
    (ShardedCall.set key value).run os fuel >>= fun a => pure (reply (.set key value) a) := by
  unfold handleSet ShardedCall.run
  rw [Prog.bind_assoc]
  congr 1
  funext b
  cases b <;> rfl

theorem handleDelete_eq : handleDelete fuel key =
    (ShardedCall.remove key).run os fuel >>= fun a => pure (reply (.remove key) a) := by
  unfold handleDelete ShardedCall.run
  rw [Prog.bind_assoc]
  congr 1
  funext b
  cases b <;> rfl

/-- The requests that need a key are not for the other handlers. -/
theorem NeedsKey.route {req : Request} (h : NeedsKey req) : path req.target ≠ ascii "/health" ∧ ¬ ListsKeys req := by
  have hall : ∀ p ∈ [ascii "/get", ascii "/set", ascii "/delete"], p ≠ ascii "/health" ∧ p ≠ ascii "/keys" := by
    decide
  have hmem : path req.target ∈ [ascii "/get", ascii "/set", ascii "/delete"] := by
    rcases h with h | h | h <;> simp [h.1]
  exact ⟨(hall _ hmem).1, fun hkeys => (hall _ hmem).2 hkeys.1⟩

/-- A handler behind the check of the key. -/
theorem NeedsKey.checked {req : Request} (h : NeedsKey req) {text : Bytes} {c : ShardedCall}
    {handler : Prog Fault ShardedHashMap Response}
    (hhandler : handler = c.run os fuel >>= fun a => pure (reply c a)) :
    (if text = [] then return missingKey req.version else handler) =
      match (if text = [] then none else some c) with
      | some c => c.run os fuel >>= fun a => pure (reply c a)
      | none => if ListsKeys req then handleKeys fuel steps else pure (fixedReply req) := by
  by_cases htext : text = []
  · rw [if_pos htext, if_pos htext]
    dsimp only
    rw [if_neg h.route.2, fixedReply, if_neg h.route.1, if_pos h]
  · rw [if_neg htext, if_neg htext]
    exact hhandler

/-- What `handle_request` does, by what the request asks for. -/
theorem handleRequest_eq (req : Request) : handleRequest os fuel steps req =
    match asks req with
    | some c => c.run os fuel >>= fun a => pure (reply c a)
    | none => if ListsKeys req then handleKeys fuel steps else pure (fixedReply req) := by
  unfold handleRequest asks
  dsimp only
  by_cases hget : path req.target = ascii "/get" ∧ req.method = .get
  · have h : NeedsKey req := .inl hget
    rw [if_neg h.route.1, if_neg (show ¬ (_ ∧ _) from h.route.2), if_pos hget, if_pos hget]
    exact h.checked os fuel steps (handleGet_eq os fuel _)
  by_cases hset : path req.target = ascii "/set" ∧ (req.method = .put ∨ req.method = .post)
  · have h : NeedsKey req := .inr (.inl hset)
    rw [if_neg h.route.1, if_neg (show ¬ (_ ∧ _) from h.route.2), if_neg hget, if_pos hset, if_neg hget, if_pos hset]
    exact h.checked os fuel steps (handleSet_eq os fuel _ _)
  by_cases hdelete : path req.target = ascii "/delete" ∧ req.method = .delete
  · have h : NeedsKey req := .inr (.inr hdelete)
    rw [if_neg h.route.1, if_neg (show ¬ (_ ∧ _) from h.route.2), if_neg hget, if_neg hset, if_pos hdelete,
      if_neg hget, if_neg hset, if_pos hdelete]
    exact h.checked os fuel steps (handleDelete_eq os fuel _)
  rw [if_neg hget, if_neg hset, if_neg hdelete, if_neg hget, if_neg hset, if_neg hdelete]
  have hneeds : ¬ NeedsKey req := by
    rintro (h | h | h)
    · exact hget h
    · exact hset h
    · exact hdelete h
  dsimp only
  rw [fixedReply, if_neg hneeds]
  by_cases hhealth : path req.target = ascii "/health"
  · have hkeys : ¬ ListsKeys req := by
      rintro ⟨hkeys, -⟩
      rw [hhealth] at hkeys
      exact absurd hkeys (by decide)
    rw [if_pos hhealth, if_pos hhealth, if_neg hkeys]
  · rw [if_neg hhealth, if_neg hhealth]
    rfl

end Handlers

/-! ### The sessions of the server -/

section Sessions

variable {s s' : ShardedHashMap} {D : Dict Bytes Bytes} {req : Request} {res : Response}

/-- The server answers a request as the service does. -/
theorem serves_service (h : s.Represents D) (hs : Serves s req res s') :
    ∃ D', Service D req res D' ∧ s'.Represents D' := by
  obtain ⟨os, fuel, steps, hrun⟩ := hs
  rw [handleRequest_eq] at hrun
  cases hasks : asks req with
  | some c =>
    rw [hasks] at hrun
    obtain ⟨a, s₁, hc, hrun⟩ := Prog.bind_eq_ok.mp hrun
    cases hrun
    obtain ⟨rfl, hrep⟩ := ShardedHashMap.step_refines h ⟨os, fuel, hc⟩
    exact ⟨_, .call hasks, hrep⟩
  | none =>
    rw [hasks] at hrun
    dsimp only at hrun
    by_cases hkeys : ListsKeys req
    · rw [if_pos hkeys] at hrun
      obtain ⟨ks, s₁, hks, hrun⟩ := Prog.bind_eq_ok.mp hrun
      cases hrun
      obtain ⟨rfl, hnodup, hmem⟩ := ShardedHashMap.keys_lists h hks
      exact ⟨D, .list hkeys hnodup hmem, h⟩
    · rw [if_neg hkeys] at hrun
      cases hrun
      exact ⟨D, .fixed hasks hkeys, h⟩

theorem session_service {tr : List (Request × Response)} (h : s.Represents D) (hrun : Run Serves s tr s') :
    ∃ D', Run Service D tr D' ∧ s'.Represents D' := by
  refine hrun.simulates (R := ShardedHashMap.Represents) ?_ h
  rintro s req res s' D h hs
  exact serves_service h hs

/-- The request stores a record that fits a bucket, and no shard has more buckets than there are hashes. -/
def Admissible (s : ShardedHashMap) (req : Request) : Prop := ∀ c, asks req = some c → c.Admissible s

/-- Every admissible request is answered, given enough fuel. -/
theorem handleRequest_returns (h : s.Represents D) {os : Os} (hos : os.Grants) (hreq : Admissible s req) :
    ∃ n, ∀ fuel steps, n ≤ fuel → n ≤ steps → ∃ res s', handleRequest os fuel steps req s = .ok res s' := by
  cases hasks : asks req with
  | some c =>
    obtain ⟨n, hn⟩ := ShardedHashMap.call_returns h hos c (hreq c hasks)
    refine ⟨n, fun fuel steps hf _ => ?_⟩
    obtain ⟨a, s', hrun⟩ := hn fuel hf
    rw [handleRequest_eq, hasks]
    exact ⟨_, s', Prog.bind_ok hrun _⟩
  | none =>
    obtain ⟨n, hn⟩ := handleKeys_returns h
    refine ⟨n, fun fuel steps hf hs => ?_⟩
    rw [handleRequest_eq, hasks]
    dsimp only
    by_cases hkeys : ListsKeys req
    · rw [if_pos hkeys]
      obtain ⟨res, hrun⟩ := hn fuel steps hf hs
      exact ⟨res, s, hrun⟩
    · rw [if_neg hkeys]
      exact ⟨_, s, rfl⟩

end Sessions

/-! ### What the requests of the client ask for -/

section Asks

open DiskHashClient

variable (version : ℕ) (key value : Bytes)

theorem asks_get : asks (getRequest version key) = if key = [] then none else some (.get key) := by
  obtain ⟨hpath, hkey, hdecode⟩ := parse_target (p := ascii "/get") (by decide) key
  simp only [asks, getRequest, hpath, hkey, hdecode, unpadded_eq_nil]
  rw [if_pos (by decide)]

theorem asks_set : asks (setRequest version key value) = if key = [] then none else some (.set key value) := by
  obtain ⟨hpath, hkey, hdecode⟩ := parse_target (p := ascii "/set") (by decide) key
  simp only [asks, setRequest, hpath, hkey, hdecode, unpadded_eq_nil]
  rw [if_neg (by decide), if_pos (by decide)]

theorem asks_delete : asks (deleteRequest version key) = if key = [] then none else some (.remove key) := by
  obtain ⟨hpath, hkey, hdecode⟩ := parse_target (p := ascii "/delete") (by decide) key
  simp only [asks, deleteRequest, hpath, hkey, hdecode, unpadded_eq_nil]
  rw [if_neg (by decide), if_neg (by decide), if_pos (by decide)]

end Asks

/-! ### Requests that are sent again -/

section Again

variable {D D₁ D₂ : Dict Bytes Bytes} {req : Request} {res₁ res₂ : Response} {c : ShardedCall}

/-- A call made again does not change a dictionary any more. -/
theorem insertOnce_again : (insertOnce (insertOnce D c).2 c).2 = (insertOnce D c).2 := by
  cases c with
  | get key => rfl
  | set key value =>
    cases h : D key with
    | some v => rw [insertOnce_present h, insertOnce_present h]
    | none => rw [insertOnce_absent h, insertOnce_present (Dict.insert_self ..)]
  | remove key => exact Function.update_idem ..

/-- What the calls answer when they are made again. -/
theorem insertOnce_answer_again : (insertOnce (insertOnce D c).2 c).1 =
    match c with
    | .get key => .lookup (D key)
    | .set _ _ => .done false
    | .remove _ => .done false := by
  cases c with
  | get key => rfl
  | set key value =>
    cases h : D key with
    | some v => rw [insertOnce_present h, insertOnce_present h]
    | none => rw [insertOnce_absent h, insertOnce_present (Dict.insert_self ..)]
  | remove key =>
    show ShardedAnswer.done (D.erase key key).isSome = _
    rw [Dict.erase_self]
    rfl

/-- A request that makes a call does not ask for the list. -/
theorem asks_route (h : asks req = some c) : ¬ ListsKeys req := by
  refine (NeedsKey.route (?_ : NeedsKey req)).2
  unfold asks at h
  dsimp only at h
  split_ifs at h with hget _ hset _ hdelete
  · exact .inl hget
  · exact .inr (.inl hset)
  · exact .inr (.inr hdelete)

/-- The response to a request that is sent again. -/
structure AnsweredAgain (req : Request) (res₁ res₂ : Response) : Prop where
  set : ∀ key value, asks req = some (.set key value) → res₂ = text .conflict 11 (ascii "Key already exists")
  remove : ∀ key, asks req = some (.remove key) → res₂ = text .notFound 11 (ascii "Key not found")
  get : ∀ key, asks req = some (.get key) → res₂ = res₁
  list : ListsKeys req → ∃ ks₁ ks₂, ks₁.Perm ks₂ ∧ res₁ = listing ks₁ ∧ res₂ = listing ks₂
  fixed : asks req = none → ¬ ListsKeys req → res₂ = res₁

theorem Service.again (h₁ : Service D req res₁ D₁) (h₂ : Service D₁ req res₂ D₂) :
    D₂ = D₁ ∧ AnsweredAgain req res₁ res₂ := by
  cases h₁ with
  | @call c hasks =>
    cases h₂ with
    | @call c' hasks' =>
      obtain rfl : c' = c := Option.some.inj (hasks'.symm.trans hasks)
      refine ⟨insertOnce_again, fun key value h => ?_, fun key h => ?_, fun key h => ?_,
        fun h => absurd h (asks_route hasks), fun h => ?_⟩
      · obtain rfl := Option.some.inj (hasks.symm.trans h)
        rw [insertOnce_answer_again]
        rfl
      · obtain rfl := Option.some.inj (hasks.symm.trans h)
        rw [insertOnce_answer_again]
        rfl
      · obtain rfl := Option.some.inj (hasks.symm.trans h)
        rfl
      · rw [hasks] at h
        cases h
    | list hkeys => exact absurd hkeys (asks_route hasks)
    | fixed hnone =>
      rw [hasks] at hnone
      cases hnone
  | @list ks₁ hkeys hnodup hmem =>
    have hnone : ∀ c, asks req ≠ some c := fun c h => asks_route h hkeys
    cases h₂ with
    | call hasks => exact absurd hasks (hnone _)
    | @list ks₂ _ hnodup' hmem' =>
      refine ⟨rfl, fun _ _ h => absurd h (hnone _), fun _ h => absurd h (hnone _), fun _ h => absurd h (hnone _),
        fun _ => ⟨ks₁, ks₂, ?_, rfl, rfl⟩, fun _ h => absurd hkeys h⟩
      exact (List.perm_ext_iff_of_nodup hnodup hnodup').mpr fun k => (hmem k).trans (hmem' k).symm
    | fixed _ hno => exact absurd hkeys hno
  | fixed hasks hno =>
    have hnone : ∀ c, asks req ≠ some c := fun c h => by
      rw [hasks] at h
      cases h
    cases h₂ with
    | call hasks' => exact absurd hasks' (hnone _)
    | list hkeys => exact absurd hkeys hno
    | fixed _ _ =>
      exact ⟨rfl, fun _ _ h => absurd h (hnone _), fun _ h => absurd h (hnone _), fun _ h => absurd h (hnone _),
        fun h => absurd h hno, fun _ _ => rfl⟩

end Again

/-- The sessions of a new server are sessions of the service, and after each every admissible request is answered. -/
theorem server_refines_service {os : Os} {n : ℕ} (hn : 1 ≤ n) {s₀ s : ShardedHashMap}
    {tr : List (Request × Response)}
    (hnew : ShardedHashMap.new os (fun _ => Files.empty defaultBucketSize) n = .ok s₀) (hrun : Run Serves s₀ tr s) :
    (∃ D, Run Service Dict.empty tr D) ∧
    ∀ os req, os.Grants → Admissible s req →
      ∃ m, ∀ fuel steps, m ≤ fuel → m ≤ steps → ∃ res s', handleRequest os fuel steps req s = .ok res s' := by
  obtain ⟨D, hD, hs⟩ := session_service (ShardedHashMap.new_represents hn hnew) hrun
  exact ⟨⟨D, hD⟩, fun _ _ hos hreq => handleRequest_returns hs hos hreq⟩

/-- A session in which the client stores a value. -/
theorem server_refines_service_session : ∃ s₀ s : ShardedHashMap,
    ShardedHashMap.new Os.willing (fun _ => Files.empty defaultBucketSize) 1 = .ok s₀ ∧
    Run Serves s₀ [(DiskHashClient.setRequest 11 [1] [2], text .ok 11 (ascii "OK"))] s ∧
    ∃ D, Run Service Dict.empty [(DiskHashClient.setRequest 11 [1] [2], text .ok 11 (ascii "OK"))] D := by
  obtain ⟨s₀, s, hnew, hrun, -⟩ := exists_stored (DiskHashClient.setRequest 11 [1] [2])
    (show Container.bytesRequired [1] [2] ≤ defaultBucketSize by decide) fun _ _ => handleRequest_set ..
  exact ⟨s₀, s, hnew, hrun, (server_refines_service (by decide) hnew hrun).1⟩

end HttpServer

end DiskHash
