import DiskHash.Base64
import DiskHash.Sharded

/-!
# DiskHash.Server — the HTTP server and its client (`http_server.cpp`, `client.py`)

Beast parses the messages, so a request is its method, target, version and body.  The client reaches the server
through the library `requests`, which appends `?key=<value>` to the path and leaves the characters of a
base64url text as they are.
-/

namespace DiskHash

/-- The methods `handle_request` asks for, and any other one. -/
inductive Verb
  | get
  | put
  | post
  | delete
  | other
  deriving DecidableEq

structure Request where
  method : Verb
  target : Bytes
  version : ℕ
  body : Bytes

inductive Status
  | ok
  | badRequest
  | notFound
  | conflict
  deriving DecidableEq

structure Response where
  status : Status
  version : ℕ
  contentType : Bytes
  body : Bytes
  deriving DecidableEq

namespace HttpServer

/-! ## The target of a request -/

/-- White space in the classic locale. -/
def isSpace (c : UInt8) : Bool := c = 32 || (9 ≤ c && c ≤ 13)

/-- The value of a hexadecimal digit. -/
def hexDigit (c : UInt8) : Option ℕ :=
  if 48 ≤ c ∧ c ≤ 57 then some (c.toNat - 48)
  else if 97 ≤ c ∧ c ≤ 102 then some (c.toNat - 87)
  else if 65 ≤ c ∧ c ≤ 70 then some (c.toNat - 55)
  else none

/-- The value of the hexadecimal digits a text begins with; without one the extraction fails. -/
def hexDigits (str : Bytes) : Option ℕ :=
  match (str.map hexDigit).takeWhile Option.isSome with
  | [] => none
  | ds => some (ds.foldl (fun n d => 16 * n + d.getD 0) 0)

/-- An unsigned number, which may begin with `0x`. -/
def hexNumber : Bytes → Option ℕ
  | 48 :: x :: rest => if x = 120 ∨ x = 88 then hexDigits rest else hexDigits (48 :: x :: rest)
  | str => hexDigits str

/-- `iss >> std::hex >> value`: white space is passed, a sign is allowed. -/
def readHex (str : Bytes) : Option ℤ :=
  match str.dropWhile isSpace with
  | 43 :: rest => (hexNumber rest).map Int.ofNat
  | 45 :: rest => (hexNumber rest).map fun n => -(n : ℤ)
  | rest => (hexNumber rest).map Int.ofNat

/-- `http_server::url_decode`. -/
def urlDecode : Bytes → Bytes
  | c :: a :: b :: rest =>
    if c = 37 then
      match readHex [a, b] with
      | some value => UInt8.ofNat (value % 256).toNat :: urlDecode rest
      | none => c :: urlDecode (a :: b :: rest)
    else (if c = 43 then 32 else c) :: urlDecode (a :: b :: rest)
  | c :: rest => (if c = 43 then 32 else c) :: urlDecode rest
  | [] => []

/-- The loop of `extract_query_param`, on the rest of the query. -/
def paramLoop (search query : Bytes) : Bytes :=
  if query = [] then []
  else match query.idxOf? 38 with
    | some amp =>
      let pair := query.take amp
      if pair.take search.length = search then pair.drop search.length
      else paramLoop search (query.drop (amp + 1))
    | none => if query.take search.length = search then query.drop search.length else []
termination_by query.length
decreasing_by
  have := List.length_pos_of_ne_nil ‹query ≠ []›
  rw [List.length_drop]
  omega

/-- `http_server::extract_query_param`. -/
def extractQueryParam (target param : Bytes) : Bytes :=
  match target.idxOf? 63 with
  | none => []
  | some queryPos => paramLoop (param ++ ascii "=") (target.drop (queryPos + 1))

/-- The path of a target. -/
def path (target : Bytes) : Bytes :=
  match target.idxOf? 63 with
  | none => target
  | some queryPos => target.take queryPos

/-! ## The handlers -/

/-- The response of a handler. -/
def text (status : Status) (version : ℕ) (body : Bytes) : Response := ⟨status, version, ascii "text/plain", body⟩

/-- `http_server::handle_get`. -/
def handleGet (fuel : ℕ) (key : Bytes) : Prog Fault ShardedHashMap Response := do
  let result ← ShardedHashMap.get fuel key
  match result with
  | some value => return ⟨.ok, 11, ascii "application/octet-stream", value⟩
  | none => return text .notFound 11 (ascii "Key not found")

/-- `http_server::handle_set`. -/
def handleSet (os : Os) (fuel : ℕ) (key value : Bytes) : Prog Fault ShardedHashMap Response := do
  if ← ShardedHashMap.set os fuel key value then return text .ok 11 (ascii "OK")
  else return text .conflict 11 (ascii "Key already exists")

/-- `http_server::handle_delete`. -/
def handleDelete (fuel : ℕ) (key : Bytes) : Prog Fault ShardedHashMap Response := do
  if ← ShardedHashMap.remove fuel key then return text .ok 11 (ascii "OK")
  else return text .notFound 11 (ascii "Key not found")

/-- `http_server::handle_keys`. -/
def handleKeys (fuel steps : ℕ) : Prog Fault ShardedHashMap Response := do
  let allKeys ← ShardedHashMap.keys fuel steps
  return text .ok 11 (allKeys.flatMap fun key => base64urlEncode key ++ ascii "\n")

/-- `http_server::handle_health`. -/
def handleHealth : Response := text .ok 11 (ascii "OK")

/-- The response to a request without a key. -/
def missingKey (version : ℕ) : Response := text .badRequest version (ascii "Missing 'key' parameter")

/-- `http_server::handle_request`. -/
def handleRequest (os : Os) (fuel steps : ℕ) (req : Request) : Prog Fault ShardedHashMap Response :=
  let path := path req.target
  let key := extractQueryParam req.target (ascii "key")
  if path = ascii "/health" then return handleHealth
  else if path = ascii "/keys" ∧ req.method = .get then handleKeys fuel steps
  else if path = ascii "/get" ∧ req.method = .get then
    if key = [] then return missingKey req.version
    else handleGet fuel (base64urlDecode (urlDecode key))
  else if path = ascii "/set" ∧ (req.method = .put ∨ req.method = .post) then
    if key = [] then return missingKey req.version
    else handleSet os fuel (base64urlDecode (urlDecode key)) req.body
  else if path = ascii "/delete" ∧ req.method = .delete then
    if key = [] then return missingKey req.version
    else handleDelete fuel (base64urlDecode (urlDecode key))
  else return text .notFound req.version (ascii "Not Found")

end HttpServer

namespace DiskHashClient

/-- The target of a request with a key, as `requests` builds it. -/
def target (path key : Bytes) : Bytes := path ++ ascii "?key=" ++ encodeKey key

/-- The request of `DiskHashClient.get`. -/
def getRequest (version : ℕ) (key : Bytes) : Request := ⟨.get, target (ascii "/get") key, version, []⟩

/-- The request of `DiskHashClient.set`. -/
def setRequest (version : ℕ) (key value : Bytes) : Request := ⟨.put, target (ascii "/set") key, version, value⟩

/-- The request of `DiskHashClient.delete`. -/
def deleteRequest (version : ℕ) (key : Bytes) : Request := ⟨.delete, target (ascii "/delete") key, version, []⟩

/-- White space of `str.strip`, among the characters of one byte. -/
def isWhitespace (c : UInt8) : Bool :=
  (9 ≤ c && c ≤ 13) || (28 ≤ c && c ≤ 32) || c = 133 || c = 160

/-- `str.strip`. -/
def strip (t : Bytes) : Bytes := (t.dropWhile isWhitespace).rdropWhile isWhitespace

/-- `DiskHashClient.keys`, on the body of the response; `none` is an exception of a line that is not base64. -/
def keys (body : Bytes) : Option (List Bytes) :=
  (((strip body).splitOn 10).filter (· ≠ [])).mapM decodeKey

/-- `DiskHashClient.__len__`. -/
def len (body : Bytes) : Option ℕ := (keys body).map List.length

end DiskHashClient

end DiskHash
