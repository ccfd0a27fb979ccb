import DiskHash.Keys
import DiskHash.Target

/-!
# DiskHash.Requests — what the requests of the client do

The text of a key has no character that `extract_query_param` or `url_decode` treats, so a request with a key
arrives with this key; only the presence check, which is made on the text, takes the empty key for a missing
one.
-/

namespace DiskHash

/-- A character that stands for a digit. -/
def IsDigit (c : UInt8) : Prop := ∃ d < 64, c = urlsafeChar d

theorem IsDigit.plain {c : UInt8} (h : IsDigit c) :
    c ≠ 37 ∧ c ≠ 38 ∧ c ≠ 43 ∧ c ≠ 10 ∧ DiskHashClient.isWhitespace c = false := by
  obtain ⟨d, hd, rfl⟩ := h
  have hall : ∀ d < 64, urlsafeChar d ≠ 37 ∧ urlsafeChar d ≠ 38 ∧ urlsafeChar d ≠ 43 ∧ urlsafeChar d ≠ 10 ∧
      DiskHashClient.isWhitespace (urlsafeChar d) = false := by decide
  exact hall d hd

theorem unpadded_eq_nil {key : Bytes} : unpadded key = [] ↔ key = [] := by
  constructor
  · intro h
    match key, h with
    | [], _ => rfl
    | [_], h => cases h
    | [_, _], h => cases h
    | _ :: _ :: _ :: _, h => cases h
  · rintro rfl
    rfl

namespace HttpServer

/-! ## The key in a target -/

/-- A text without `%` and `+` stands for itself. -/
theorem encodes_plain : ∀ {t : Bytes}, (∀ c ∈ t, c ≠ 37 ∧ c ≠ 43) → Encodes t t
  | [], _ => .nil
  | _ :: _, h => .plain (List.forall_mem_cons.mp h).1 (encodes_plain (List.forall_mem_cons.mp h).2)

section Target

variable {p v : Bytes}

/-- The path and the key of a target with one parameter. -/
theorem path_target (hp : 63 ∉ p) (rest : Bytes) : path (p ++ 63 :: rest) = p := by
  unfold path
  rw [idxOf?_append hp]
  exact List.take_left

theorem extractQueryParam_target (hp : 63 ∉ p) (hv : 38 ∉ v) :
    extractQueryParam (p ++ ascii "?key=" ++ v) (ascii "key") = v := by
  have htarget : p ++ ascii "?key=" ++ v = p ++ 63 :: (ascii "key=" ++ v) := by
    rw [List.append_assoc]
    rfl
  have hsep : 38 ∉ ascii "key=" ++ v := by
    rw [List.mem_append, not_or]
    exact ⟨by decide, hv⟩
  rw [htarget, extractQueryParam_eq hp, List.splitOn_eq_singleton hsep]
  exact firstValue_first (show ∀ seg ∈ ([] : List Bytes), ¬ ascii "key" ++ ascii "=" <+: seg by simp) v

end Target

/-- What `handle_request` makes of a target of the client: the path, the text of the key, and the key. -/
theorem parse_target {p : Bytes} (hp : 63 ∉ p) (key : Bytes) : path (DiskHashClient.target p key) = p ∧
    extractQueryParam (DiskHashClient.target p key) (ascii "key") = unpadded key ∧
      base64urlDecode (urlDecode (unpadded key)) = key := by
  have hdigit : ∀ c ∈ unpadded key, IsDigit c := fun c hc => mem_unpadded hc
  unfold DiskHashClient.target
  rw [DiskHashClient.encodeKey_eq]
  refine ⟨?_, extractQueryParam_target hp fun h => (hdigit 38 h).plain.2.1 rfl, ?_⟩
  · rw [List.append_assoc]
    exact path_target hp _
  · rw [(encodes_plain fun c hc => ⟨(hdigit c hc).plain.1, (hdigit c hc).plain.2.2.1⟩).decode,
      ← base64urlEncode_eq, ← List.append_nil (base64urlEncode key)]
    exact base64urlDecode_encode key (.inl rfl)

end HttpServer

/-! ## The requests of the client -/

open HttpServer DiskHashClient

/-- The requests of the client with the key reach the handlers with this key. -/
structure Arrives (key : Bytes) : Prop where
  get : ∀ os fuel steps version,
    handleRequest os fuel steps (getRequest version key) = handleGet fuel key
  set : ∀ os fuel steps version value,
    handleRequest os fuel steps (setRequest version key value) = handleSet os fuel key value
  delete : ∀ os fuel steps version,
    handleRequest os fuel steps (deleteRequest version key) = handleDelete fuel key
  decoded : ∀ path ∈ [ascii "/get", ascii "/set", ascii "/delete"],
    base64urlDecode (urlDecode (extractQueryParam (target path key) (ascii "key"))) = key

section Handled

variable (os : Os) (fuel steps version : ℕ) (key value : Bytes)

theorem handleRequest_get : handleRequest os fuel steps (getRequest version key) =
    if key = [] then pure (missingKey version) else handleGet fuel key := by
  obtain ⟨hpath, hkey, hdecode⟩ := parse_target (p := ascii "/get") (by decide) key
  simp only [handleRequest, getRequest, hpath, hkey, hdecode, unpadded_eq_nil]
  rw [if_neg (by decide), if_neg (by decide), if_pos (by decide)]

theorem handleRequest_set : handleRequest os fuel steps (setRequest version key value) =
    if key = [] then pure (missingKey version) else handleSet os fuel key value := by
  obtain ⟨hpath, hkey, hdecode⟩ := parse_target (p := ascii "/set") (by decide) key
  simp only [handleRequest, setRequest, hpath, hkey, hdecode, unpadded_eq_nil]
  rw [if_neg (by decide), if_neg (by decide), if_neg (by decide), if_pos (by decide)]

theorem handleRequest_delete : handleRequest os fuel steps (deleteRequest version key) =
    if key = [] then pure (missingKey version) else handleDelete fuel key := by
  obtain ⟨hpath, hkey, hdecode⟩ := parse_target (p := ascii "/delete") (by decide) key
  simp only [handleRequest, deleteRequest, hpath, hkey, hdecode, unpadded_eq_nil]
  rw [if_neg (by decide), if_neg (by decide), if_neg (by decide), if_neg (by decide), if_pos (by decide)]

end Handled

/-- `handle_get` answers that there is a value or that there is none. -/
theorem handleGet_status {fuel : ℕ} {key : Bytes} {s s' : ShardedHashMap} {res : Response}
    (h : handleGet fuel key s = .ok res s') : res.status ≠ .badRequest := by
  obtain ⟨o, s₁, -, h⟩ := Prog.bind_eq_ok.mp h
  cases o with
  | none =>
    cases h
    decide
  | some v =>
    cases h
    exact Status.noConfusion

/-- A request without a key is not handled. -/
theorem empty_not_arrives : ¬ Arrives [] := by
  intro h
  have hget := h.get Os.willing 0 0 11
  rw [handleRequest_get, if_pos rfl] at hget
  have hok : handleGet 0 [] ⟨[], 0⟩ = .ok (missingKey 11) ⟨[], 0⟩ := by
    rw [← hget]
    rfl
  exact handleGet_status hok rfl

/-- The requests of the client for the empty key are rejected. -/
theorem empty_key_rejected : ¬ Arrives [] ∧ ∀ os fuel steps version value,
    handleRequest os fuel steps (getRequest version []) = pure (missingKey version) ∧
    handleRequest os fuel steps (setRequest version [] value) = pure (missingKey version) ∧
    handleRequest os fuel steps (deleteRequest version []) = pure (missingKey version) :=
  ⟨empty_not_arrives, fun _ _ _ _ _ => ⟨handleRequest_get .., handleRequest_set .., handleRequest_delete ..⟩⟩

/-- The requests of the client arrive with their key exactly if it is not empty. -/
theorem arrives_iff (key : Bytes) : Arrives key ↔ key ≠ [] := by
  constructor
  · rintro h rfl
    exact empty_not_arrives h
  · intro hne
    refine ⟨fun _ _ _ _ => ?_, fun _ _ _ _ _ => ?_, fun _ _ _ _ => ?_, fun path hpath => ?_⟩
    · rw [handleRequest_get, if_neg hne]
    · rw [handleRequest_set, if_neg hne]
    · rw [handleRequest_delete, if_neg hne]
    · have hp : ∀ path ∈ [ascii "/get", ascii "/set", ascii "/delete"], 63 ∉ path := by decide
      obtain ⟨-, hkey, hdecode⟩ := parse_target (hp path hpath) key
      rw [hkey, hdecode]

end DiskHash
