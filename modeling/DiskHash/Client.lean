import DiskHash.Connections

/-!
# DiskHash.Client — the client of the server (`client.py`)

A call of the client is one request, and its result is read off the response.  So the calls mean for the client
what the service does: a mapping in which a key is set once, has at least one byte, and is listed in any order.
-/

namespace DiskHash

/-- The number of a status. -/
def Status.code : Status → ℕ
  | ok => 200
  | badRequest => 400
  | notFound => 404
  | conflict => 409

namespace DiskHashClient

open HttpServer

/-- The exceptions of the client: `requests.HTTPError`, `KeyError`, `ValueError` and `binascii.Error`. -/
inductive Error
  | httpError (status : ℕ)
  | keyError (key : Bytes)
  | valueError (message : Bytes)
  | binasciiError
  deriving DecidableEq

/-! ## The responses -/

/-- `Response.raise_for_status`. -/
def raiseForStatus (res : Response) : Except Error Unit :=
  if 400 ≤ res.status.code then throw (.httpError res.status.code) else return ()

/-- `DiskHashClient.get`, on the response. -/
def getResult (res : Response) : Except Error (Option Bytes) :=
  if res.status.code = 200 then return some res.body
  else if res.status.code = 404 then return none
  else do
    raiseForStatus res
    return none

/-- The result of a change, which is `False` at the status `refused`. -/
def changeResult (refused : ℕ) (res : Response) : Except Error Bool :=
  if res.status.code = 200 then return true
  else if res.status.code = refused then return false
  else do
    raiseForStatus res
    return false

/-- `DiskHashClient.set`, on the response. -/
def setResult : Response → Except Error Bool := changeResult 409

/-- `DiskHashClient.delete`, on the response. -/
def deleteResult : Response → Except Error Bool := changeResult 404

/-- `DiskHashClient.keys`, on the response. -/
def keysResult (res : Response) : Except Error (List Bytes) := do
  raiseForStatus res
  match keys res.body with
  | some result => return result
  | none => throw .binasciiError

/-- `DiskHashClient.health`, on the response. -/
def healthResult (res : Response) : Bool := res.status.code = 200

/-- A digit of an escape in `repr`. -/
def reprDigit (d : ℕ) : UInt8 := UInt8.ofNat (if d < 10 then 48 + d else 87 + d)

/-- A byte between the quotes of `repr`. -/
def reprByte (quote c : UInt8) : Bytes :=
  if c = quote ∨ c = 92 then [92, c]
  else if c = 9 then [92, 116]
  else if c = 10 then [92, 110]
  else if c = 13 then [92, 114]
  else if c < 32 ∨ 127 ≤ c then [92, 120, reprDigit (c.toNat / 16), reprDigit (c.toNat % 16)]
  else [c]

/-- `repr` of a key. -/
def reprKey (key : Bytes) : Bytes :=
  let quote := if 39 ∈ key ∧ 34 ∉ key then 34 else 39
  98 :: quote :: key.flatMap (reprByte quote) ++ [quote]

/-- `DiskHashClient.__getitem__`, on the response. -/
def getitem (key : Bytes) (res : Response) : Except Error Bytes := do
  match ← getResult res with
  | none => throw (.keyError key)
  | some result => return result

/-- `DiskHashClient.__setitem__`, on the response. -/
def setitem (key : Bytes) (res : Response) : Except Error Unit := do
  if !(← setResult res) then throw (.valueError (ascii "Key already exists: " ++ reprKey key))

/-- `DiskHashClient.__delitem__`, on the response. -/
def delitem (key : Bytes) (res : Response) : Except Error Unit := do
  if !(← deleteResult res) then throw (.keyError key)

/-- `DiskHashClient.__contains__`, on the response. -/
def contains (res : Response) : Except Error Bool := do
  return (← getResult res).isSome

/-! ## The calls -/

/-- The request of `DiskHashClient.keys`. -/
def keysRequest : Request := ⟨.get, ascii "/keys", 11, []⟩

/-- The request of `DiskHashClient.health`. -/
def healthRequest : Request := ⟨.get, ascii "/health", 11, []⟩

inductive Call
  | get (key : Bytes)
  | set (key value : Bytes)
  | delete (key : Bytes)
  | keys
  | health
  | getitem (key : Bytes)
  | setitem (key value : Bytes)
  | delitem (key : Bytes)
  | contains (key : Bytes)
  | iter
  | len

inductive Answer
  | value (v : Option Bytes)
  | item (v : Bytes)
  | flag (b : Bool)
  | keys (ks : List Bytes)
  | length (n : ℕ)
  | done
  deriving DecidableEq

namespace Call

/-- The request a call sends, in HTTP/1.1. -/
def request : Call → Request
  | get key | getitem key | contains key => getRequest 11 key
  | set key value | setitem key value => setRequest 11 key value
  | delete key | delitem key => deleteRequest 11 key
  | keys | iter | len => keysRequest
  | health => healthRequest

/-- The result of a call, on the response to its request. -/
def result : Call → Response → Except Error Answer
  | get _, res => .value <$> getResult res
  | set _ _, res => .flag <$> setResult res
  | delete _, res => .flag <$> deleteResult res
  | keys, res | iter, res => .keys <$> keysResult res
  | len, res => (fun ks => .length ks.length) <$> keysResult res
  | health, res => .ok (.flag (healthResult res))
  | getitem key, res => .item <$> DiskHashClient.getitem key res
  | setitem key _, res => (fun _ => .done) <$> DiskHashClient.setitem key res
  | delitem key, res => (fun _ => .done) <$> DiskHashClient.delitem key res
  | contains _, res => .flag <$> DiskHashClient.contains res

/-- What a call asks of the sharded map. -/
def asked : Call → Option ShardedCall
  | get key | getitem key | contains key => some (.get key)
  | set key value | setitem key value => some (.set key value)
  | delete key | delitem key => some (.remove key)
  | keys | iter | len | health => none

end Call

/-- A list of the keys of a map, but for the empty one. -/
structure KeyList (D : Dict Bytes Bytes) (ks : List Bytes) : Prop where
  nodup : ks.Nodup
  mem : ∀ k, k ∈ ks ↔ k ≠ [] ∧ (D k).isSome

/-- What a call means for a map: its result, and the map after it. -/
inductive Means : Dict Bytes Bytes → Call → Except Error Answer → Dict Bytes Bytes → Prop
  | noKey {D call c} : Call.asked call = some c → c.key = [] → Means D call (.error (.httpError 400)) D
  | get {D key} : key ≠ [] → Means D (.get key) (.ok (.value (D key))) D
  | contains {D key} : key ≠ [] → Means D (.contains key) (.ok (.flag (D key).isSome)) D
  | getitem {D key v} : key ≠ [] → D key = some v → Means D (.getitem key) (.ok (.item v)) D
  | getitemMissing {D key} : key ≠ [] → D key = none → Means D (.getitem key) (.error (.keyError key)) D
  | set {D key value} : key ≠ [] → D key = none → Means D (.set key value) (.ok (.flag true)) (D.insert key value)
  | setPresent {D key value v} : key ≠ [] → D key = some v → Means D (.set key value) (.ok (.flag false)) D
  | setitem {D key value} : key ≠ [] → D key = none →
      Means D (.setitem key value) (.ok .done) (D.insert key value)
  | setitemPresent {D key value v} : key ≠ [] → D key = some v →
      Means D (.setitem key value) (.error (.valueError (ascii "Key already exists: " ++ reprKey key))) D
  | delete {D key} : key ≠ [] → Means D (.delete key) (.ok (.flag (D key).isSome)) (D.erase key)
  | delitem {D key v} : key ≠ [] → D key = some v → Means D (.delitem key) (.ok .done) (D.erase key)
  | delitemMissing {D key} : key ≠ [] → D key = none → Means D (.delitem key) (.error (.keyError key)) (D.erase key)
  | keys {D ks} : KeyList D ks → Means D .keys (.ok (.keys ks)) D
  | iter {D ks} : KeyList D ks → Means D .iter (.ok (.keys ks)) D
  | len {D ks} : KeyList D ks → Means D .len (.ok (.length ks.length)) D
  | health {D} : Means D .health (.ok (.flag true)) D

/-! ### The results on the responses of the service -/

section Results

variable (key value : Bytes)

theorem result_missingKey {call : Call} {c : ShardedCall} (h : call.asked = some c) :
    call.result (missingKey 11) = .error (.httpError 400) := by
  cases call with
  | get | set | delete | getitem | setitem | delitem | contains => rfl
  | keys | iter | len | health => cases h

theorem getResult_reply (o : Option Bytes) : getResult (reply (.get key) (.lookup o)) = .ok o := by
  cases o <;> rfl

theorem deleteResult_reply (b : Bool) : deleteResult (reply (.remove key) (.done b)) = .ok b := by
  cases b <;> rfl

theorem keysResult_listing (ks : List Bytes) : keysResult (listing ks) = .ok (ks.filter (· ≠ [])) := by
  unfold keysResult listing text
  rw [keys_body]
  rfl

end Results

section Meaning

variable {D D' : Dict Bytes Bytes} {res : Response} {call : Call} {c : ShardedCall}

theorem path_client {p : Bytes} (hp : 63 ∉ p) (key : Bytes) : path (target p key) = p := (parse_target hp key).1

theorem Call.needsKey (hc : call.asked = some c) : NeedsKey call.request := by
  cases call with
  | get key | getitem key | contains key => exact .inl ⟨path_client (by decide) key, rfl⟩
  | set key | setitem key => exact .inr (.inl ⟨path_client (by decide) key, .inl rfl⟩)
  | delete key | delitem key => exact .inr (.inr ⟨path_client (by decide) key, rfl⟩)
  | keys | iter | len | health => cases hc

theorem Call.asks_request (hc : call.asked = some c) : asks call.request = if c.key = [] then none else some c := by
  cases call with
  | get key | getitem key | contains key =>
    cases hc
    exact asks_get 11 key
  | set key value | setitem key value =>
    cases hc
    exact asks_set 11 key value
  | delete key | delitem key =>
    cases hc
    exact asks_delete 11 key
  | keys | iter | len | health => cases hc

theorem Call.request_version (hc : call.asked = some c) : call.request.version = 11 := by
  cases call with
  | get | getitem | contains | set | setitem | delete | delitem => rfl
  | keys | iter | len | health => cases hc

/-- The reply to the call of the map is what the call of the client means. -/
theorem Means.of_reply (hc : call.asked = some c) (hne : c.key ≠ []) :
    Means D call (call.result (reply c (insertOnce D c).1)) (insertOnce D c).2 := by
  cases call with
  | get key =>
    cases hc
    show Means D _ (.value <$> getResult (reply _ (.lookup (D key)))) D
    rw [getResult_reply]
    exact .get hne
  | contains key =>
    cases hc
    show Means D _ (.flag <$> (getResult (reply _ (.lookup (D key))) >>= _)) D
    rw [getResult_reply]
    exact .contains hne
  | getitem key =>
    cases hc
    show Means D _ (.item <$> (getResult (reply _ (.lookup (D key))) >>= _)) D
    rw [getResult_reply]
    cases hD : D key with
    | some v => exact .getitem hne hD
    | none => exact .getitemMissing hne hD
  | set key value =>
    cases hc
    cases hD : D key with
    | some v =>
      rw [insertOnce_present hD]
      exact .setPresent hne hD
    | none =>
      rw [insertOnce_absent hD]
      exact .set hne hD
  | setitem key value =>
    cases hc
    cases hD : D key with
    | some v =>
      rw [insertOnce_present hD]
      exact .setitemPresent hne hD
    | none =>
      rw [insertOnce_absent hD]
      exact .setitem hne hD
  | delete key =>
    cases hc
    show Means D _ (.flag <$> deleteResult (reply _ (.done (D key).isSome))) _
    rw [deleteResult_reply]
    exact .delete hne
  | delitem key =>
    cases hc
    show Means D _ ((fun _ => .done) <$> (deleteResult (reply _ (.done (D key).isSome)) >>= _)) _
    rw [deleteResult_reply]
    cases hD : D key with
    | some v => exact .delitem hne hD
    | none => exact .delitemMissing hne hD
  | keys | iter | len | health => cases hc

/-- What the client makes of the list of all keys. -/
theorem KeyList.of_nodup {ks : List Bytes} (hnodup : ks.Nodup) (hmem : ∀ k, k ∈ ks ↔ (D k).isSome) :
    KeyList D (ks.filter (· ≠ [])) := by
  refine ⟨hnodup.filter _, fun k => ?_⟩
  rw [List.mem_filter, hmem, decide_eq_true_iff, and_comm]

theorem service_keys (h : Service D keysRequest res D') :
    D' = D ∧ ∃ ks, KeyList D ks ∧ keysResult res = .ok ks := by
  cases h with
  | call hcall => cases hcall
  | list _ hnodup hmem => exact ⟨rfl, _, .of_nodup hnodup hmem, keysResult_listing _⟩
  | fixed _ hno => exact absurd (show ListsKeys keysRequest by decide) hno

theorem service_health (h : Service D healthRequest res D') : D' = D ∧ healthResult res = true := by
  cases h with
  | call hcall => cases hcall
  | list hkeys => exact absurd hkeys (by decide)
  | fixed => exact ⟨rfl, by decide⟩

/-- A call answered by the service means what it should. -/
theorem Means.of_service (h : Service D call.request res D') : Means D call (call.result res) D' := by
  cases hc : call.asked with
  | some c =>
    have hasks := Call.asks_request hc
    have hneeds := Call.needsKey hc
    cases h with
    | @call c' hcall =>
      rw [hasks] at hcall
      split_ifs at hcall with hne
      cases hcall
      exact .of_reply hc hne
    | list hkeys => exact absurd hkeys hneeds.route.2
    | fixed hnone =>
      have hkey : c.key = [] := by
        by_contra hne
        rw [hasks, if_neg hne] at hnone
        cases hnone
      rw [fixedReply, if_neg hneeds.route.1, if_pos hneeds, Call.request_version hc, result_missingKey hc]
      exact .noKey hc hkey
  | none =>
    cases call with
    | keys =>
      obtain ⟨rfl, ks, hks, hres⟩ := service_keys h
      show Means _ _ (.keys <$> keysResult res) _
      rw [hres]
      exact .keys hks
    | iter =>
      obtain ⟨rfl, ks, hks, hres⟩ := service_keys h
      show Means _ _ (.keys <$> keysResult res) _
      rw [hres]
      exact .iter hks
    | len =>
      obtain ⟨rfl, ks, hks, hres⟩ := service_keys h
      show Means _ _ ((fun ks => .length ks.length) <$> keysResult res) _
      rw [hres]
      exact .len hks
    | health =>
      obtain ⟨rfl, hres⟩ := service_health h
      show Means _ _ (.ok (.flag (healthResult res))) _
      rw [hres]
      exact .health
    | get | set | delete | getitem | setitem | delitem | contains => cases hc

end Meaning

/-! ## Sessions -/

/-- A turn at the server: a call of a client, or a request of another program. -/
inductive Turn
  | client (call : Call)
  | other (req : Request)

inductive Outcome
  | result (r : Except Error Answer)
  | response (res : Response)

/-- A turn, on the server. -/
def Turn.run (os : Os) (fuel steps : ℕ) : Turn → Prog Fault ShardedHashMap Outcome
  | .client call => do
    let res ← handleRequest os fuel steps call.request
    return .result (call.result res)
  | .other req => do
    let res ← handleRequest os fuel steps req
    return .response res

/-- The server took the turn. -/
def Takes (s : ShardedHashMap) (turn : Turn) (o : Outcome) (s' : ShardedHashMap) : Prop :=
  ∃ os fuel steps, turn.run os fuel steps s = .ok o s'

/-- What a turn means for a map. -/
inductive TurnMeans : Dict Bytes Bytes → Turn → Outcome → Dict Bytes Bytes → Prop
  | client {D call r D'} : Means D call r D' → TurnMeans D (.client call) (.result r) D'
  | other {D req res D'} : Service D req res D' → TurnMeans D (.other req) (.response res) D'

/-- The request of a turn. -/
def Turn.sent : Turn → Request
  | .client call => call.request
  | .other req => req

theorem takes_means {s s' : ShardedHashMap} {D : Dict Bytes Bytes} {turn : Turn} {o : Outcome} (h : s.Represents D)
    (hs : Takes s turn o s') : ∃ D', TurnMeans D turn o D' ∧ s'.Represents D' := by
  obtain ⟨os, fuel, steps, hrun⟩ := hs
  cases turn with
  | client call =>
    obtain ⟨res, s₁, hreq, hrun⟩ := Prog.bind_eq_ok.mp hrun
    cases hrun
    obtain ⟨D', hD', hs'⟩ := serves_service h ⟨os, fuel, steps, hreq⟩
    exact ⟨D', .client (.of_service hD'), hs'⟩
  | other req =>
    obtain ⟨res, s₁, hreq, hrun⟩ := Prog.bind_eq_ok.mp hrun
    cases hrun
    obtain ⟨D', hD', hs'⟩ := serves_service h ⟨os, fuel, steps, hreq⟩
    exact ⟨D', .other hD', hs'⟩

theorem turn_returns {s : ShardedHashMap} {D : Dict Bytes Bytes} {os : Os} {turn : Turn} (h : s.Represents D)
    (hos : os.Grants) (hturn : Admissible s turn.sent) :
    ∃ m, ∀ fuel steps, m ≤ fuel → m ≤ steps → ∃ o s', turn.run os fuel steps s = .ok o s' := by
  obtain ⟨m, hm⟩ := handleRequest_returns h hos hturn
  refine ⟨m, fun fuel steps hf hs => ?_⟩
  obtain ⟨res, s', hrun⟩ := hm fuel steps hf hs
  cases turn with
  | client call => exact ⟨_, s', Prog.bind_ok hrun _⟩
  | other req => exact ⟨_, s', Prog.bind_ok hrun _⟩

/-- However the calls of clients and the requests of other programs follow one another at a new server, every call has
the result and every request the response that it has for one map; and every admissible turn comes to an end. -/
theorem client_sessions {os : Os} {n : ℕ} (hn : 1 ≤ n) {s₀ s : ShardedHashMap} {tr : List (Turn × Outcome)}
    (hnew : ShardedHashMap.new os (fun _ => Files.empty defaultBucketSize) n = .ok s₀) (hrun : Run Takes s₀ tr s) :
    (∃ D, Run TurnMeans Dict.empty tr D) ∧
    ∀ os (turn : Turn), os.Grants → Admissible s turn.sent →
      ∃ m, ∀ fuel steps, m ≤ fuel → m ≤ steps → ∃ o s', turn.run os fuel steps s = .ok o s' := by
  have hsim : ∃ D, Run TurnMeans Dict.empty tr D ∧ s.Represents D := by
    refine hrun.simulates ?_ (ShardedHashMap.new_represents hn hnew)
    rintro s turn o s' D h ht
    exact takes_means h ht
  obtain ⟨D, hD, hs⟩ := hsim
  exact ⟨⟨D, hD⟩, fun _ _ hos hturn => turn_returns hs hos hturn⟩

/-- A session in which a client sets a key by `client[key] = value`. -/
theorem client_sessions_setitem : ∃ s₀ s : ShardedHashMap,
    ShardedHashMap.new Os.willing (fun _ => Files.empty defaultBucketSize) 1 = .ok s₀ ∧
    Run Takes s₀ [(.client (.setitem [1] [2]), .result (.ok .done))] s ∧
    ∃ D, Run TurnMeans Dict.empty [(.client (.setitem [1] [2]), .result (.ok .done))] D := by
  obtain ⟨s₀, s, hnew, hrun, -⟩ := exists_stored (setRequest 11 [1] [2])
    (show Container.bytesRequired [1] [2] ≤ defaultBucketSize by decide) fun _ _ => handleRequest_set ..
  have htake : Run Takes s₀ [(.client (.setitem [1] [2]), .result (.ok .done))] s := by
    cases hrun with
    | cons hs hrest =>
      cases hrest
      obtain ⟨os, fuel, steps, hreq⟩ := hs
      exact .single ⟨os, fuel, steps, Prog.bind_ok hreq _⟩
  exact ⟨s₀, s, hnew, htake, (client_sessions (by decide) hnew htake).1⟩

/-! ## Clients with connections of their own -/

/-- The call set the key to the value. -/
def Stores (k v : Bytes) (put : Call) (r : Except Error Answer) : Prop :=
  put = .set k v ∧ r = .ok (.flag true) ∨ put = .setitem k v ∧ r = .ok .done

/-- The results of the calls about a key that is set. -/
structure Sees (k v : Bytes) (call : Call) (r : Except Error Answer) : Prop where
  get : call = .get k → r = .ok (.value (some v))
  getitem : call = .getitem k → r = .ok (.item v)
  contains : call = .contains k → r = .ok (.flag true)
  set : ∀ w, call = .set k w → r = .ok (.flag false)
  setitem : ∀ w, call = .setitem k w → r = .error (.valueError (ascii "Key already exists: " ++ reprKey k))
  list : call = .keys ∨ call = .iter → ∃ ks, r = .ok (.keys ks) ∧ k ∈ ks
  len : call = .len → ∃ m, r = .ok (.length m) ∧ 1 ≤ m

section Connections

variable {κ : Type} [DecidableEq κ] {n : ℕ}
  {pre mid post : List (κ × Operation.Action Request ShardSection SectionAnswer Response)}
  {s' : Dict Bytes Bytes × (κ → Option (Operation ShardSection SectionAnswer Response))} {t : κ} {put call : Call}
  {c : ShardedCall} {res : Response} {k v : Bytes}

/-- A call with a key: the key is empty and the request rejected, or the reply is that of one moment. -/
theorem served_asked (hrun : Run (Serving (plan n) (DictSection n)) (Dict.empty, fun _ => none)
      (pre ++ (t, .invoke call.request) :: mid ++ (t, .respond res) :: post) s')
    (hno : Unanswered t mid) (hc : call.asked = some c) :
    c.key = [] ∧ res = missingKey 11 ∨ c.key ≠ [] ∧ ∃ m₁ m₂, mid = m₁ ++ m₂ ∧
      res = reply c (insertOnce (stored (pre ++ (t, .invoke call.request) :: m₁)) c).1 := by
  have hasks := Call.asks_request hc
  have hneeds := Call.needsKey hc
  by_cases hkey : c.key = []
  · rw [if_pos hkey] at hasks
    rw [served_fixed hrun hno hasks hneeds.route.2, fixedReply, if_neg hneeds.route.1, if_pos hneeds,
      Call.request_version hc]
    exact .inl ⟨hkey, rfl⟩
  · rw [if_neg hkey] at hasks
    obtain ⟨m₁, m₂, answer, rfl, rfl, rfl⟩ := served_call hrun hno hasks
    exact .inr ⟨hkey, m₁, _, rfl, rfl⟩

/-- A call that set the key was answered `OK`. -/
theorem Stores.response (h : Stores k v put (put.result res))
    (hrun : Run (Serving (plan n) (DictSection n)) (Dict.empty, fun _ => none)
      (pre ++ (t, .invoke put.request) :: mid ++ (t, .respond res) :: post) s') (hno : Unanswered t mid) :
    k ≠ [] ∧ asks put.request = some (.set k v) ∧ res = text .ok 11 (ascii "OK") := by
  have hasked : put.asked = some (.set k v) := by
    rcases h with ⟨rfl, -⟩ | ⟨rfl, -⟩ <;> rfl
  rcases served_asked hrun hno hasked with ⟨-, hres⟩ | ⟨hkey, m₁, m₂, -, hres⟩
  · rw [hres, result_missingKey hasked] at h
    rcases h with ⟨-, h⟩ | ⟨-, h⟩ <;> cases h
  · refine ⟨hkey, (Call.asks_request hasked).trans (if_neg hkey), ?_⟩
    cases hD : stored (pre ++ (t, .invoke put.request) :: m₁) k with
    | none =>
      rw [hres, insertOnce_absent hD]
      rfl
    | some w =>
      rw [hres, insertOnce_present hD] at h
      rcases h with ⟨rfl, h⟩ | ⟨rfl, h⟩ <;> cases h

/-- What a call sees while the key is set. -/
theorem sees_of_stored [NeZero n] (hrun : Run (Serving (plan n) (DictSection n)) (Dict.empty, fun _ => none)
      (pre ++ (t, .invoke call.request) :: mid ++ (t, .respond res) :: post) s')
    (hno : Unanswered t mid) (hk : k ≠ [])
    (hstored : ∀ m₁ m₂, mid = m₁ ++ m₂ → stored (pre ++ (t, .invoke call.request) :: m₁) k = some v) :
    Sees k v call (call.result res) := by
  have hreply : ∀ {c}, call.asked = some c → c.key = k → ∃ D : Dict Bytes Bytes, D k = some v ∧
      res = reply c (insertOnce D c).1 := by
    intro c hc hkey
    rcases served_asked hrun hno hc with ⟨hnil, -⟩ | ⟨-, m₁, m₂, hmid, hres⟩
    · exact absurd (hkey.symm.trans hnil) hk
    · exact ⟨_, hstored m₁ m₂ hmid, hres⟩
  have hlist : ListsKeys call.request → ∃ ks, keysResult res = .ok ks ∧ k ∈ ks := by
    intro hkeys
    obtain ⟨ks, rfl, hks⟩ := served_list hrun hno hkeys
    refine ⟨_, keysResult_listing ks, List.mem_filter.mpr ⟨hks.always k fun m₁ m₂ hmid => ?_, by simpa using hk⟩⟩
    rw [List.append_assoc]
    exact Option.isSome_of_eq_some (hstored m₁ m₂ hmid)
  refine ⟨?_, ?_, ?_, ?_, ?_, ?_, ?_⟩
  · rintro rfl
    obtain ⟨D, hD, rfl⟩ := hreply rfl rfl
    show Answer.value <$> getResult (reply _ (.lookup (D k))) = _
    rw [hD]
    rfl
  · rintro rfl
    obtain ⟨D, hD, rfl⟩ := hreply rfl rfl
    show Answer.item <$> (getResult (reply _ (.lookup (D k))) >>= _) = _
    rw [hD]
    rfl
  · rintro rfl
    obtain ⟨D, hD, rfl⟩ := hreply rfl rfl
    show Answer.flag <$> (getResult (reply _ (.lookup (D k))) >>= _) = _
    rw [hD]
    rfl
  · rintro w rfl
    obtain ⟨D, hD, rfl⟩ := hreply rfl rfl
    rw [insertOnce_present hD]
    rfl
  · rintro w rfl
    obtain ⟨D, hD, rfl⟩ := hreply rfl rfl
    rw [insertOnce_present hD]
    rfl
  · rintro (rfl | rfl)
    all_goals
      obtain ⟨ks, hres, hmem⟩ := hlist (by decide)
      refine ⟨ks, ?_, hmem⟩
      show Answer.keys <$> keysResult res = _
      rw [hres]
      rfl
  · rintro rfl
    obtain ⟨ks, hres, hmem⟩ := hlist (by decide)
    refine ⟨ks.length, ?_, List.length_pos_of_mem hmem⟩
    show (fun ks : List Bytes => Answer.length ks.length) <$> keysResult res = _
    rw [hres]
    rfl

end Connections

/-- A key that a call has set is set for the clients of all connections: in every interleaving of the connections under
the locks, a call that begins after the one that set the key finds its value, cannot set it again, and lists it, as
long as no connection removes the key. -/
theorem clients_see_set {κ : Type} [DecidableEq κ] {os : Os} {n : ℕ} [NeZero n]
    {shards₀ shards : Fin n → HashMap defaultBucketSize}
    {threads : κ → Thread Fault (HashMap defaultBucketSize) ShardSection SectionAnswer Response}
    {tr : List (κ × LockAction Request ShardSection SectionAnswer Response)}
    {pre mid between mid' post : List (κ × Operation.Action Request ShardSection SectionAnswer Response)} {t t' : κ}
    {put call : Call} {res res' : Response} {k v : Bytes}
    (hnew : ShardedHashMap.new os (fun _ => Files.empty defaultBucketSize) n = .ok (ShardedHashMap.ofShards shards₀))
    (hrun : Run ((shardMonitor n).Locked (plan n)) (shards₀, fun _ => .idle) tr (shards, threads))
    (hseen : seen tr = pre ++ (t, .invoke put.request) :: mid ++ (t, .respond res) :: between ++
      (t', .invoke call.request) :: mid' ++ (t', .respond res') :: post)
    (hno : Unanswered t mid) (hno' : Unanswered t' mid') (hput : Stores k v put (put.result res))
    (hkept : ∀ t a, (t, .act (.call (.remove k)) a) ∉ mid ++ between ++ mid') :
    Sees k v call (call.result res') := by
  obtain ⟨D, shards', hrun', -⟩ := locked_seen hnew hrun
  rw [hseen] at hrun'
  have hput' := hrun'
  rw [List.append_assoc, List.append_assoc, List.cons_append] at hput'
  obtain ⟨hk, hasks, rfl⟩ := hput.response hput' hno
  refine sees_of_stored hrun' hno' hk fun m₁ m₂ hmid => ?_
  have hstored : stored (pre ++ (t, .invoke put.request) :: mid ++ (t, .respond (text .ok 11 (ascii "OK"))) ::
      (between ++ (t', .invoke call.request) :: m₁)) k = some v := by
    refine stored_since hput' hno hasks fun t₀ a ha => hkept t₀ a ?_
    subst hmid
    simp only [List.mem_append, List.mem_cons, Prod.mk.injEq, reduceCtorEq, and_false, false_or] at ha ⊢
    tauto
  rwa [← List.cons_append, ← List.append_assoc] at hstored

/-- Two clients: `client[key] = value` on one connection, then `client[key]` on the other. -/
theorem clients_see_set_session : ∃ shards₀ shards : Fin 1 → HashMap defaultBucketSize,
    ∃ threads : Bool → Thread Fault (HashMap defaultBucketSize) ShardSection SectionAnswer Response,
    ∃ (tr : List (Bool × LockAction Request ShardSection SectionAnswer Response)) (res : Response),
    ShardedHashMap.new Os.willing (fun _ => Files.empty defaultBucketSize) 1 =
      .ok (ShardedHashMap.ofShards shards₀) ∧
    Run ((shardMonitor 1).Locked (plan 1)) (shards₀, fun _ => .idle) tr (shards, threads) ∧
    (false, .respond res) ∈ seen tr ∧ (Call.getitem [1]).result res = .ok (.item [2]) := by
  obtain ⟨shards₀, shards, threads, tr, hnew, hrun, hseen⟩ := exists_conversation
  have hmem : (false, .respond ⟨.ok, 11, ascii "application/octet-stream", [2]⟩) ∈ seen tr := by
    rw [hseen]
    simp
  have hwindow : seen tr = [] ++ (true, .invoke (Call.setitem [1] [2]).request) ::
      [(true, .act (.call (.set [1] [2])) (.answer (.done true)))] ++
    (true, .respond (text .ok 11 (ascii "OK"))) :: [] ++
    (false, .invoke (Call.getitem [1]).request) ::
      [(false, .act (.call (.get [1])) (.answer (.lookup (some [2]))))] ++
    (false, .respond ⟨.ok, 11, ascii "application/octet-stream", [2]⟩) :: [] := hseen
  refine ⟨shards₀, shards, threads, tr, _, hnew, hrun, hmem, ?_⟩
  exact (clients_see_set hnew hrun hwindow (by simp [Unanswered]) (by simp [Unanswered])
    (.inr ⟨rfl, rfl⟩) (by simp)).getitem rfl

end DiskHashClient

end DiskHash
