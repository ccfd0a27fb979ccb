import DiskHash.Locking
import DiskHash.Service

/-!
# DiskHash.Connections — the HTTP server with many connections

Every connection has a thread that reads a request, handles it and writes the response, while other threads do the
same under the locks of the sharded map.  A request is answered as by the service at a moment between its reading
and its response; only the list of keys is not of one moment.
-/

namespace DiskHash

namespace HttpServer

/-- The response to a section of a call. -/
def replyTo (c : ShardedCall) : SectionAnswer → Response
  | .answer a => reply c a
  | .keys ks => listing ks

/-- `http_server::handle_request`, section by section. -/
def plan (n : ℕ) (req : Request) : Operation ShardSection SectionAnswer Response :=
  match asks req with
  | some c => .call (.call c) fun o => .done (replyTo c o)
  | none => if ListsKeys req then keysPlan listing n 0 [] else .done (fixedReply req)

/-! ### One connection alone -/

section Alone

variable (os : Os) (fuel steps : ℕ)

/-- A section as a program of the map. -/
def sectionProg : ShardSection → Prog Fault ShardedHashMap SectionAnswer
  | .call c => c.run os fuel >>= fun a => pure (.answer a)
  | .scan idx => ShardedHashMap.scanShard fuel steps idx >>= fun ks => pure (.keys ks)

theorem keysPlan_prog {α : Type} (f : List Bytes → α) (m idx : ℕ) (ks : List Bytes) :
    (keysPlan f m idx ks).prog (sectionProg os fuel steps) =
      ShardedHashMap.keysLoop fuel steps m idx >>= fun l => pure (f (ks ++ l)) := by
  induction m generalizing idx ks with
  | zero =>
    funext s
    show Prog.Outcome.ok (f ks) s = .ok (f (ks ++ [])) s
    rw [List.append_nil]
  | succ m ih =>
    unfold keysPlan Operation.prog sectionProg ShardedHashMap.keysLoop
    rw [Prog.bind_assoc, Prog.bind_assoc]
    congr 1
    funext l
    rw [Prog.bind_assoc]
    show (keysPlan f m (idx + 1) (ks ++ l)).prog (sectionProg os fuel steps) = _
    rw [ih]
    congr 1
    funext rest
    rw [List.append_assoc]
    rfl

/-- Without other connections the sections of a request are what `handle_request` does. -/
theorem plan_prog {n : ℕ} (req : Request) {s : ShardedHashMap} (hs : s.shards.length = n) :
    (plan n req).prog (sectionProg os fuel steps) s = handleRequest os fuel steps req s := by
  rw [handleRequest_eq]
  unfold plan
  cases hasks : asks req with
  | some c =>
    show ((c.run os fuel >>= fun a => pure (.answer a)) >>= fun o => pure (replyTo c o)) s = _
    rw [Prog.bind_assoc]
    rfl
  | none =>
    dsimp only
    by_cases hkeys : ListsKeys req
    · rw [if_pos hkeys, if_pos hkeys, keysPlan_prog, ← hs]
      rfl
    · rw [if_neg hkeys, if_neg hkeys]
      rfl

end Alone

/-! ### Many connections -/

section Connections

variable {κ : Type} [DecidableEq κ] {n : ℕ}
  {pre mid post : List (κ × Operation.Action Request ShardSection SectionAnswer Response)}
  {s' : Dict Bytes Bytes × (κ → Option (Operation ShardSection SectionAnswer Response))} {c : κ} {req : Request}
  {res : Response} {call : ShardedCall}

/-- The response to a request that makes a call is that of the service when its section acts. -/
theorem served_call (hrun : Run (Serving (plan n) (DictSection n)) (Dict.empty, fun _ => none)
      (pre ++ (c, .invoke req) :: mid ++ (c, .respond res) :: post) s')
    (hno : Unanswered c mid) (hasks : asks req = some call) :
    ∃ m₁ m₂ answer, mid = m₁ ++ (c, .act (.call call) (.answer answer)) :: m₂ ∧
      answer = (insertOnce (stored (pre ++ (c, .invoke req) :: m₁)) call).1 ∧ res = reply call answer := by
  have hplan : plan n req = .call (.call call) fun o => .done (replyTo call o) := by
    unfold plan
    rw [hasks]
  exact call_window hrun hno hplan

theorem served_list [NeZero n] (hrun : Run (Serving (plan n) (DictSection n)) (Dict.empty, fun _ => none)
      (pre ++ (c, .invoke req) :: mid ++ (c, .respond res) :: post) s')
    (hno : Unanswered c mid) (hkeys : ListsKeys req) :
    ∃ ks, res = listing ks ∧ ListsDuring (pre ++ [(c, .invoke req)]) mid ks := by
  have hplan : plan n req = keysPlan listing n 0 [] := by
    unfold plan
    cases hasks : asks req with
    | some c => exact absurd hkeys (asks_route hasks)
    | none => exact if_pos hkeys
  exact keys_window hrun hno hplan

theorem served_fixed (hrun : Run (Serving (plan n) (DictSection n)) (Dict.empty, fun _ => none)
      (pre ++ (c, .invoke req) :: mid ++ (c, .respond res) :: post) s')
    (hno : Unanswered c mid) (hasks : asks req = none) (hkeys : ¬ ListsKeys req) : res = fixedReply req := by
  have hplan : plan n req = .done (fixedReply req) := by
    unfold plan
    rw [hasks]
    exact if_neg hkeys
  have hdone := hrun.completed hno
  rw [hplan] at hdone
  cases (Operation.run_done hdone).2
  rfl

omit [DecidableEq κ] in
/-- A value stays stored until its key is removed. -/
theorem stored_keeps {k v : Bytes} (h : stored pre k = some v)
    (hno : ∀ c a, (c, .act (.call (.remove k)) a) ∉ mid) : stored (pre ++ mid) k = some v := by
  induction mid generalizing pre with
  | nil => rwa [List.append_nil]
  | cons e mid ih =>
    rw [← List.singleton_append, ← List.append_assoc]
    refine ih ?_ fun c a ha => hno c a (.tail _ ha)
    obtain ⟨c, a⟩ := e
    cases a with
    | invoke req => rwa [stored_invoke]
    | respond res => rwa [stored_respond]
    | act i o =>
      cases i with
      | scan idx => rwa [stored_scan]
      | call call =>
        rw [stored_call]
        refine (insertOnce_keeps h fun hrem => hno c o ?_).1
        cases call with
        | remove key =>
          obtain rfl : key = k := hrem
          exact .head _
        | get key => exact hrem.elim
        | set key value => exact hrem.elim

/-- A value that was reported stored is stored as long as its key is not removed. -/
theorem stored_since {put : Request} {k v : Bytes}
    {after : List (κ × Operation.Action Request ShardSection SectionAnswer Response)}
    (hrun : Run (Serving (plan n) (DictSection n)) (Dict.empty, fun _ => none)
      (pre ++ (c, .invoke put) :: mid ++ (c, .respond (text .ok 11 (ascii "OK"))) :: post) s')
    (hno : Unanswered c mid) (hput : asks put = some (.set k v))
    (hkept : ∀ c a, (c, .act (.call (.remove k)) a) ∉ mid ++ after) :
    stored (pre ++ (c, .invoke put) :: mid ++ (c, .respond (text .ok 11 (ascii "OK"))) :: after) k = some v := by
  obtain ⟨m₁, m₂, answer, rfl, hanswer, hres⟩ := served_call hrun hno hput
  -- the key was absent when the section of the request acted
  have hnone : stored (pre ++ (c, .invoke put) :: m₁) k = none := by
    cases hD : stored (pre ++ (c, .invoke put) :: m₁) k with
    | none => rfl
    | some w =>
      rw [hanswer, insertOnce_present hD] at hres
      cases hres
  have hsome : stored (pre ++ (c, .invoke put) :: m₁ ++ [(c, .act (.call (.set k v)) (.answer answer))]) k =
      some v := by
    rw [stored_call, insertOnce_absent hnone]
    exact Dict.insert_self ..
  have hlist : pre ++ (c, .invoke put) :: (m₁ ++ (c, .act (.call (.set k v)) (.answer answer)) :: m₂) ++
        (c, .respond (text .ok 11 (ascii "OK"))) :: after =
      pre ++ (c, .invoke put) :: m₁ ++ [(c, .act (.call (.set k v)) (.answer answer))] ++
        (m₂ ++ (c, .respond (text .ok 11 (ascii "OK"))) :: after) := by
    simp
  rw [hlist]
  refine stored_keeps hsome fun c₀ a ha => hkept c₀ a ?_
  rcases List.mem_append.mp ha with ha | ha
  · exact List.mem_append_left _ (List.mem_append_right _ (.tail _ ha))
  · cases ha with
    | tail _ ha => exact List.mem_append_right _ ha

end Connections

/-- Two connections: on one a value is stored, then on the other it is asked for. -/
theorem exists_conversation : ∃ shards₀ shards : Fin 1 → HashMap defaultBucketSize,
    ∃ threads : Bool → Thread Fault (HashMap defaultBucketSize) ShardSection SectionAnswer Response,
    ∃ tr, ShardedHashMap.new Os.willing (fun _ => Files.empty defaultBucketSize) 1 =
      .ok (ShardedHashMap.ofShards shards₀) ∧
    Run ((shardMonitor 1).Locked (plan 1)) (shards₀, fun _ => .idle) tr (shards, threads) ∧
    seen tr = [(true, .invoke (DiskHashClient.setRequest 11 [1] [2])),
      (true, .act (.call (.set [1] [2])) (.answer (.done true))), (true, .respond (text .ok 11 (ascii "OK"))),
      (false, .invoke (DiskHashClient.getRequest 11 [1])),
      (false, .act (.call (.get [1])) (.answer (.lookup (some [2])))),
      (false, .respond ⟨.ok, 11, ascii "application/octet-stream", [2]⟩)] := by
  obtain ⟨s₀, hnew⟩ := ShardedHashMap.new_returns Os.willing_grants 1
  have hall := (ShardedHashMap.new_empty hnew).2.2
  obtain ⟨shards₀, rfl⟩ := ShardedHashMap.new_ofShards hnew
  have h₀ := ShardedHashMap.new_represents (by decide) hnew
  obtain ⟨o₁, shards₁, hset⟩ := atomic_returns h₀ Os.willing_grants (.set [1] [2])
    ⟨by decide, fun m hm => (HashMap.new_count (hall m hm)).le.trans (by decide)⟩
  obtain ⟨D₁, hD₁, h₁⟩ := atomic_refines h₀ hset
  cases hD₁
  obtain ⟨o₂, shards₂, hget⟩ := atomic_returns h₁ Os.willing_grants (.get [1]) trivial
  obtain ⟨D₂, hD₂, -⟩ := atomic_refines h₁ hget
  cases hD₂
  have hplan₁ : plan 1 (DiskHashClient.setRequest 11 [1] [2]) =
      .call (.call (.set [1] [2])) fun o => .done (replyTo (.set [1] [2]) o) := by
    unfold plan
    rw [asks_set, if_neg (by decide)]
  have hplan₂ : plan 1 (DiskHashClient.getRequest 11 [1]) =
      .call (.call (.get [1])) fun o => .done (replyTo (.get [1]) o) := by
    unfold plan
    rw [asks_get, if_neg (by decide)]
  have hrun : Run (Serving (plan 1) (shardMonitor 1).Atomic) (shards₀, fun _ : Bool => none) _ (shards₂, _) :=
    .cons (.invoke true (DiskHashClient.setRequest 11 [1] [2]) rfl) <|
    .cons (.act true (congrArg some hplan₁) hset) <| .cons (.respond true rfl) <|
    .cons (.invoke false (DiskHashClient.getRequest 11 [1]) rfl) <|
    .cons (.act false (congrArg some hplan₂) hget) <| .single (.respond false rfl)
  obtain ⟨tr, hseen, hlocked⟩ := Monitor.run_locked hrun
  exact ⟨shards₀, shards₂, _, tr, hnew, hlocked, hseen⟩

/-- What a client has been told is stored is there for all clients: after a response that a value was stored, a
request for its key is answered with the value, as long as no connection removes the key. -/
theorem stored_value_is_served {κ : Type} [DecidableEq κ] {os : Os} {n : ℕ} [NeZero n]
    {shards₀ shards : Fin n → HashMap defaultBucketSize}
    {threads : κ → Thread Fault (HashMap defaultBucketSize) ShardSection SectionAnswer Response}
    {tr : List (κ × LockAction Request ShardSection SectionAnswer Response)}
    {pre mid between mid' post : List (κ × Operation.Action Request ShardSection SectionAnswer Response)} {c c' : κ}
    {put get : Request} {res : Response} {k v : Bytes}
    (hnew : ShardedHashMap.new os (fun _ => Files.empty defaultBucketSize) n = .ok (ShardedHashMap.ofShards shards₀))
    (hrun : Run ((shardMonitor n).Locked (plan n)) (shards₀, fun _ => .idle) tr (shards, threads))
    (hseen : seen tr = pre ++ (c, .invoke put) :: mid ++ (c, .respond (text .ok 11 (ascii "OK"))) :: between ++
      (c', .invoke get) :: mid' ++ (c', .respond res) :: post)
    (hno : Unanswered c mid) (hno' : Unanswered c' mid') (hput : asks put = some (.set k v))
    (hget : asks get = some (.get k)) (hkept : ∀ c a, (c, .act (.call (.remove k)) a) ∉ seen tr) :
    res = ⟨.ok, 11, ascii "application/octet-stream", v⟩ := by
  obtain ⟨D, shards', hrun', -⟩ := locked_seen hnew hrun
  rw [hseen] at hrun'
  obtain ⟨m₁', m₂', answer', hmid', hanswer', rfl⟩ := served_call hrun' hno' hget
  rw [List.append_assoc, List.append_assoc, List.cons_append] at hrun'
  have hstored : stored (pre ++ (c, .invoke put) :: mid ++ (c, .respond (text .ok 11 (ascii "OK"))) ::
      (between ++ (c', .invoke get) :: m₁')) k = some v := by
    refine stored_since hrun' hno hput fun c₀ a ha => hkept c₀ a ?_
    rw [hseen, hmid']
    simp only [List.mem_append, List.mem_cons] at ha ⊢
    tauto
  rw [← List.cons_append, ← List.append_assoc] at hstored
  rw [hanswer', insertOnce, hstored]
  rfl

/-- In a conversation of two connections the second one gets the value the first one has stored. -/
theorem stored_value_is_served_session : ∃ shards₀ shards : Fin 1 → HashMap defaultBucketSize,
    ∃ threads : Bool → Thread Fault (HashMap defaultBucketSize) ShardSection SectionAnswer Response,
    ∃ (tr : List (Bool × LockAction Request ShardSection SectionAnswer Response)) (res : Response),
    ShardedHashMap.new Os.willing (fun _ => Files.empty defaultBucketSize) 1 =
      .ok (ShardedHashMap.ofShards shards₀) ∧
    Run ((shardMonitor 1).Locked (plan 1)) (shards₀, fun _ => .idle) tr (shards, threads) ∧
    (false, .respond res) ∈ seen tr ∧ res = ⟨.ok, 11, ascii "application/octet-stream", [2]⟩ := by
  obtain ⟨shards₀, shards, threads, tr, hnew, hrun, hseen⟩ := exists_conversation
  have hmem : (false, .respond ⟨.ok, 11, ascii "application/octet-stream", [2]⟩) ∈ seen tr := by
    rw [hseen]
    simp
  have hwindow : seen tr = [] ++ (true, .invoke (DiskHashClient.setRequest 11 [1] [2])) ::
      [(true, .act (.call (.set [1] [2])) (.answer (.done true)))] ++
    (true, .respond (text .ok 11 (ascii "OK"))) :: [] ++
    (false, .invoke (DiskHashClient.getRequest 11 [1])) ::
      [(false, .act (.call (.get [1])) (.answer (.lookup (some [2]))))] ++
    (false, .respond ⟨.ok, 11, ascii "application/octet-stream", [2]⟩) :: [] := hseen
  refine ⟨shards₀, shards, threads, tr, _, hnew, hrun, hmem, ?_⟩
  refine stored_value_is_served hnew hrun hwindow (by simp [Unanswered]) (by simp [Unanswered])
    ((asks_set 11 [1] [2]).trans (if_neg (by decide))) ((asks_get 11 [1]).trans (if_neg (by decide))) ?_
  simp [hseen]

end HttpServer

end DiskHash
