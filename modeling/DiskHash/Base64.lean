import DiskHash.Lib.BitBuffer
import DiskHash.Settings
import Mathlib.Data.List.DropRight

/-!
# DiskHash.Base64 — keys as text (`http_server.cpp`, `client.py`)

The server has codecs of its own, which keep pending bits in an `int` that is never masked; the client uses
the module `base64`, which is defined here as RFC 4648 defines the encoding.  Strings are lists of bytes.
-/

namespace DiskHash

/-- The bytes of an ASCII literal. -/
def ascii (s : String) : Bytes := s.toList.map fun c => UInt8.ofNat c.toNat

/-- The padding character `=`. -/
def padChar : UInt8 := 61

/-! ## The codecs of the server -/

namespace HttpServer

/-- `base64url_chars`. -/
def base64urlChars : Bytes := ascii "ABCDEFGHIJKLMNOPQRSTUVWXYZabcdefghijklmnopqrstuvwxyz0123456789-_"

/-- `base64url_decode_table`, with `none` for -1. -/
def base64urlDecodeTable (c : UInt8) : Option (BitVec 32) := (base64urlChars.idxOf? c).map (BitVec.ofNat 32)

/-- `base64url_chars[x]`. -/
def digitChar (x : BitVec 32) : UInt8 := base64urlChars.getD x.toNat 0

/-- The inner loop of `base64url_encode`: the characters appended, and the bits that are left. -/
def emit (val : BitVec 32) (bits : ℕ) : Bytes × ℕ :=
  if 6 ≤ bits then
    let r := emit val (bits - 6)
    (digitChar ((val.sshiftRight (bits - 6)) &&& 0x3F#32) :: r.1, r.2)
  else ([], bits)

/-- The loop of `base64url_encode` and what follows it. -/
def encodeLoop : Bytes → BitVec 32 → ℕ → Bytes
  | [], val, bits => if 0 < bits then [digitChar ((val <<< (6 - bits)) &&& 0x3F#32)] else []
  | c :: cs, val, bits =>
    let val := val <<< 8 ||| BitVec.ofNat 32 c.toNat
    let r := emit val (bits + 8)
    r.1 ++ encodeLoop cs val r.2

/-- `http_server::base64url_encode`. -/
def base64urlEncode (str : Bytes) : Bytes := encodeLoop str 0 0

/-- The loop of `base64url_decode`. -/
def decodeLoop : Bytes → BitVec 32 → ℕ → Bytes
  | [], _, _ => []
  | c :: cs, val, bits =>
    if c = padChar then []
    else match base64urlDecodeTable c with
      | none => decodeLoop cs val bits
      | some d =>
        let val := val <<< 6 ||| d
        let bits := bits + 6
        if 8 ≤ bits then
          UInt8.ofNat ((val.sshiftRight (bits - 8)) &&& 0xFF#32).toNat :: decodeLoop cs val (bits - 8)
        else decodeLoop cs val bits

/-- `http_server::base64url_decode`. -/
def base64urlDecode (str : Bytes) : Bytes := decodeLoop str 0 0

end HttpServer

/-! ## The codecs of the client -/

/-- The character of a digit in the URL-safe alphabet. -/
def urlsafeChar (d : ℕ) : UInt8 :=
  if d < 26 then UInt8.ofNat (65 + d)
  else if d < 52 then UInt8.ofNat (97 + (d - 26))
  else if d < 62 then UInt8.ofNat (48 + (d - 52))
  else if d = 62 then 45
  else 95

/-- The digit of a character in the URL-safe alphabet. -/
def urlsafeDigit (c : UInt8) : Option ℕ := (List.range 64).find? fun d => urlsafeChar d = c

/-- `base64.urlsafe_b64encode`. -/
def urlsafeB64encode : Bytes → Bytes
  | a :: b :: c :: rest =>
    [urlsafeChar (a.toNat / 4), urlsafeChar (a.toNat % 4 * 16 + b.toNat / 16),
      urlsafeChar (b.toNat % 16 * 4 + c.toNat / 64), urlsafeChar (c.toNat % 64)] ++ urlsafeB64encode rest
  | [a, b] =>
    [urlsafeChar (a.toNat / 4), urlsafeChar (a.toNat % 4 * 16 + b.toNat / 16), urlsafeChar (b.toNat % 16 * 4), padChar]
  | [a] => [urlsafeChar (a.toNat / 4), urlsafeChar (a.toNat % 4 * 16), padChar, padChar]
  | [] => []

/-- `base64.urlsafe_b64decode`; `none` is the error of a text that is not base64. -/
def urlsafeB64decode : Bytes → Option Bytes
  | [] => some []
  | a :: b :: c :: d :: rest =>
    if d = padChar then
      if rest ≠ [] then none
      else if c = padChar then do
        let a ← urlsafeDigit a
        let b ← urlsafeDigit b
        return [UInt8.ofNat (a * 4 + b / 16)]
      else do
        let a ← urlsafeDigit a
        let b ← urlsafeDigit b
        let c ← urlsafeDigit c
        return [UInt8.ofNat (a * 4 + b / 16), UInt8.ofNat (b % 16 * 16 + c / 4)]
    else do
      let a ← urlsafeDigit a
      let b ← urlsafeDigit b
      let c ← urlsafeDigit c
      let d ← urlsafeDigit d
      let bytes ← urlsafeB64decode rest
      return [UInt8.ofNat (a * 4 + b / 16), UInt8.ofNat (b % 16 * 16 + c / 4), UInt8.ofNat (c % 4 * 64 + d)] ++ bytes
  | _ => none

namespace DiskHashClient

/-- `DiskHashClient._encode_key`. -/
def encodeKey (key : Bytes) : Bytes := (urlsafeB64encode key).rdropWhile (· == padChar)

/-- `DiskHashClient._decode_key`. -/
def decodeKey (encoded : Bytes) : Option Bytes :=
  let padding := 4 - encoded.length % 4
  if padding ≠ 4 then urlsafeB64decode (encoded ++ List.replicate padding padChar)
  else urlsafeB64decode encoded

end DiskHashClient

/-! ## Digits -/

theorem base64urlChars_getD : ∀ d < 64, HttpServer.base64urlChars.getD d 0 = urlsafeChar d := by decide

theorem urlsafeDigit_char : ∀ d < 64, urlsafeDigit (urlsafeChar d) = some d := by decide

theorem decodeTable_char : ∀ d < 64, HttpServer.base64urlDecodeTable (urlsafeChar d) = some (BitVec.ofNat 32 d) := by
  decide

theorem urlsafeChar_ne_pad (d : ℕ) : urlsafeChar d ≠ padChar := by
  have hsmall : ∀ d < 63, urlsafeChar d ≠ padChar := by decide
  rcases Nat.lt_or_ge d 63 with h | h
  · exact hsmall d h
  · unfold urlsafeChar
    rw [if_neg (by omega), if_neg (by omega), if_neg (by omega), if_neg (by omega)]
    decide

/-- The text of a key without padding. -/
def unpadded : Bytes → Bytes
  | a :: b :: c :: rest =>
    [urlsafeChar (a.toNat / 4), urlsafeChar (a.toNat % 4 * 16 + b.toNat / 16),
      urlsafeChar (b.toNat % 16 * 4 + c.toNat / 64), urlsafeChar (c.toNat % 64)] ++ unpadded rest
  | [a, b] => [urlsafeChar (a.toNat / 4), urlsafeChar (a.toNat % 4 * 16 + b.toNat / 16), urlsafeChar (b.toNat % 16 * 4)]
  | [a] => [urlsafeChar (a.toNat / 4), urlsafeChar (a.toNat % 4 * 16)]
  | [] => []

/-- Every character of the text stands for a digit. -/
theorem mem_unpadded {x : UInt8} : ∀ {key : Bytes}, x ∈ unpadded key → ∃ d < 64, x = urlsafeChar d
  | a :: b :: c :: rest, h => by
    have := a.toNat_lt
    have := b.toNat_lt
    have := c.toNat_lt
    simp only [unpadded, List.cons_append, List.nil_append, List.mem_cons] at h
    rcases h with rfl | rfl | rfl | rfl | h
    · exact ⟨_, by omega, rfl⟩
    · exact ⟨_, by omega, rfl⟩
    · exact ⟨_, by omega, rfl⟩
    · exact ⟨_, by omega, rfl⟩
    · exact mem_unpadded h
  | [a, b], h => by
    have := a.toNat_lt
    have := b.toNat_lt
    simp only [unpadded, List.mem_cons, List.not_mem_nil, or_false] at h
    rcases h with rfl | rfl | rfl
    · exact ⟨_, by omega, rfl⟩
    · exact ⟨_, by omega, rfl⟩
    · exact ⟨_, by omega, rfl⟩
  | [a], h => by
    have := a.toNat_lt
    simp only [unpadded, List.mem_cons, List.not_mem_nil, or_false] at h
    rcases h with rfl | rfl
    · exact ⟨_, by omega, rfl⟩
    · exact ⟨_, by omega, rfl⟩
  | [], h => by cases h

/-- How much padding a key needs. -/
def padding (key : Bytes) : ℕ := (3 - key.length % 3) % 3

theorem padding_cons (a b c : UInt8) (rest : Bytes) : padding (a :: b :: c :: rest) = padding rest := by
  unfold padding
  simp only [List.length_cons]
  omega

theorem urlsafeB64encode_eq : ∀ key : Bytes,
    urlsafeB64encode key = unpadded key ++ List.replicate (padding key) padChar
  | a :: b :: c :: rest => by
    rw [urlsafeB64encode, unpadded, padding_cons, urlsafeB64encode_eq rest, List.append_assoc]
  | [a, b] => rfl
  | [a] => rfl
  | [] => rfl

theorem length_unpadded : ∀ key : Bytes, (unpadded key).length % 4 + padding key = if padding key = 0 then 0 else 4
  | a :: b :: c :: rest => by
    have ih := length_unpadded rest
    rw [padding_cons]
    simp only [unpadded, List.length_append, List.length_cons, List.length_nil]
    rw [← ih]
    omega
  | [a, b] => rfl
  | [a] => rfl
  | [] => rfl

namespace DiskHashClient

/-- The client takes off just the padding. -/
theorem encodeKey_eq (key : Bytes) : encodeKey key = unpadded key := by
  unfold encodeKey
  have hpad : ∀ x ∈ List.replicate (padding key) padChar, (x == padChar) = true := by
    intro x hx
    rw [List.eq_of_mem_replicate hx]
    rfl
  rw [urlsafeB64encode_eq, List.rdropWhile, List.reverse_append, List.reverse_replicate,
    List.dropWhile_append_of_pos hpad]
  -- the last character of the text stands for a digit
  refine List.rdropWhile_eq_self_iff.mpr (fun hne hlast => ?_)
  obtain ⟨d, -, hd⟩ := mem_unpadded (List.getLast_mem hne)
  rw [hd] at hlast
  exact urlsafeChar_ne_pad d (eq_of_beq hlast)

/-- The client puts the padding back. -/
theorem decodeKey_unpadded (key : Bytes) : decodeKey (unpadded key) = urlsafeB64decode (urlsafeB64encode key) := by
  have hlen := length_unpadded key
  have hlt : padding key < 3 := Nat.mod_lt _ (by decide)
  have hmod : (unpadded key).length % 4 < 4 := Nat.mod_lt _ (by decide)
  rw [urlsafeB64encode_eq]
  unfold decodeKey
  by_cases hp : padding key = 0
  · rw [if_pos hp] at hlen
    dsimp only
    rw [if_neg (by omega), hp, List.replicate_zero, List.append_nil]
  · rw [if_neg hp] at hlen
    have hpad : 4 - (unpadded key).length % 4 = padding key := by omega
    dsimp only
    rw [if_pos (by omega), hpad]

end DiskHashClient

theorem ofNat_eq {n : ℕ} {a : UInt8} (h : n = a.toNat) : UInt8.ofNat n = a := by
  rw [h, UInt8.ofNat_toNat]

theorem urlsafeB64decode_encode : ∀ key : Bytes, urlsafeB64decode (urlsafeB64encode key) = some key
  | a :: b :: c :: rest => by
    have ha := a.toNat_lt
    have hb := b.toNat_lt
    have hc := c.toNat_lt
    rw [urlsafeB64encode, List.cons_append, List.cons_append, List.cons_append, List.cons_append, List.nil_append,
      urlsafeB64decode, if_neg (urlsafeChar_ne_pad _), urlsafeDigit_char _ (by omega), urlsafeDigit_char _ (by omega),
      urlsafeDigit_char _ (by omega), urlsafeDigit_char _ (by omega), urlsafeB64decode_encode rest]
    show some ([UInt8.ofNat _, UInt8.ofNat _, UInt8.ofNat _] ++ rest) = _
    rw [ofNat_eq (a := a) (by omega), ofNat_eq (a := b) (by omega), ofNat_eq (a := c) (by omega)]
    rfl
  | [a, b] => by
    have ha := a.toNat_lt
    have hb := b.toNat_lt
    rw [urlsafeB64encode, urlsafeB64decode, if_pos rfl, if_neg (by simp), if_neg (urlsafeChar_ne_pad _),
      urlsafeDigit_char _ (by omega), urlsafeDigit_char _ (by omega), urlsafeDigit_char _ (by omega)]
    show some [UInt8.ofNat _, UInt8.ofNat _] = _
    rw [ofNat_eq (a := a) (by omega), ofNat_eq (a := b) (by omega)]
  | [a] => by
    have ha := a.toNat_lt
    rw [urlsafeB64encode, urlsafeB64decode, if_pos rfl, if_neg (by simp), if_pos rfl,
      urlsafeDigit_char _ (by omega), urlsafeDigit_char _ (by omega)]
    show some [UInt8.ofNat _] = _
    rw [ofNat_eq (a := a) (by omega)]
  | [] => rfl

/-! ## The loops of the server -/

namespace HttpServer

/-- The low `n` bits are set. -/
theorem getLsbD_mask {n : ℕ} (hn : n ≤ 32) (i : ℕ) : (BitVec.ofNat 32 (2 ^ n - 1)).getLsbD i = decide (i < n) := by
  rw [BitVec.getLsbD_ofNat, Nat.testBit_two_pow_sub_one, ← Bool.decide_and]
  congr 1
  simp only [eq_iff_iff]
  omega

theorem mask6 (i : ℕ) : (0x3F#32).getLsbD i = decide (i < 6) := getLsbD_mask (n := 6) (by decide) i

theorem mask8 (i : ℕ) : (0xFF#32).getLsbD i = decide (i < 8) := getLsbD_mask (n := 8) (by decide) i

theorem digitChar_eq {x : BitVec 32} {d : ℕ} (hx : x.toNat = d) (hd : d < 64) : digitChar x = urlsafeChar d := by
  unfold digitChar
  rw [hx, base64urlChars_getD d hd]

section Encode

variable {val : BitVec 32} {bits v : ℕ} {c : UInt8}

/-- A byte is shifted in. -/
theorem low_byte (h : Low val bits v) (hb : bits ≤ 24) :
    Low (val <<< 8 ||| BitVec.ofNat 32 c.toNat) (bits + 8) (v * 256 + c.toNat) := by
  have hc := c.toNat_lt
  have hd : (BitVec.ofNat 32 c.toNat).toNat = c.toNat := by
    rw [BitVec.toNat_ofNat]
    omega
  have hpush := h.push (d := BitVec.ofNat 32 c.toNat) (k := 8) (by omega) (by omega)
  rwa [hd] at hpush

/-- A digit is taken out. -/
theorem emit_digit (h : Low val (bits + 6) v) (hb : bits + 6 ≤ 32) : emit val (bits + 6) =
    (urlsafeChar (v / 2 ^ bits) :: (emit val bits).1, (emit val bits).2) := by
  have hlt := h.lt
  rw [emit, if_pos (by omega), Nat.add_sub_cancel]
  refine Prod.ext (congrArg (· :: _) (digitChar_eq (h.field mask6 hb) ?_)) rfl
  rw [Nat.div_lt_iff_lt_mul (Nat.two_pow_pos _)]
  rw [pow_add] at hlt
  omega

theorem emit_done (hb : bits < 6) : emit val bits = ([], bits) := by
  rw [emit, if_neg (by omega)]

/-- A byte that makes up one digit with the pending bits. -/
theorem encodeLoop_one {r : ℕ} (h : Low val bits v) (hr : bits + 8 = r + 6) (hr6 : r < 6) (cs : Bytes) :
    ∃ val', Low val' r ((v * 256 + c.toNat) % 2 ^ r) ∧
      encodeLoop (c :: cs) val bits = urlsafeChar ((v * 256 + c.toNat) / 2 ^ r) :: encodeLoop cs val' r := by
  have hlow := low_byte (c := c) h (by omega)
  rw [hr] at hlow
  refine ⟨_, hlow.rest, ?_⟩
  rw [encodeLoop, hr, emit_digit hlow (by omega), emit_done hr6]
  rfl

/-- The first byte of three. -/
theorem encodeLoop_first (val : BitVec 32) (c : UInt8) (cs : Bytes) : ∃ val', Low val' 2 (c.toNat % 4) ∧
    encodeLoop (c :: cs) val 0 = urlsafeChar (c.toNat / 4) :: encodeLoop cs val' 2 := by
  obtain ⟨val', h, he⟩ := encodeLoop_one (c := c) (r := 2) (low_zero val) rfl (by decide) cs
  rw [Nat.zero_mul, Nat.zero_add] at h he
  exact ⟨val', h, he⟩

/-- The second byte of three. -/
theorem encodeLoop_second (h : Low val 2 v) (c : UInt8) (cs : Bytes) : ∃ val', Low val' 4 (c.toNat % 16) ∧
    encodeLoop (c :: cs) val 2 = urlsafeChar (v * 16 + c.toNat / 16) :: encodeLoop cs val' 4 := by
  have hdigit : (v * 256 + c.toNat) / 2 ^ 4 = v * 16 + c.toNat / 16 := by omega
  have hrest : (v * 256 + c.toNat) % 2 ^ 4 = c.toNat % 16 := by omega
  obtain ⟨val', h', he⟩ := encodeLoop_one (c := c) (r := 4) h rfl (by decide) cs
  rw [hdigit] at he
  rw [hrest] at h'
  exact ⟨val', h', he⟩

/-- The third byte of three makes up two digits, and then no bits are pending. -/
theorem encodeLoop_third (h : Low val 4 v) (c : UInt8) (cs : Bytes) : ∃ val', encodeLoop (c :: cs) val 4 =
    urlsafeChar (v * 4 + c.toNat / 64) :: urlsafeChar (c.toNat % 64) :: encodeLoop cs val' 0 := by
  have hdigit : (v * 256 + c.toNat) / 2 ^ 6 = v * 4 + c.toNat / 64 := by omega
  have hlast : (v * 256 + c.toNat) % 2 ^ 6 = c.toNat % 64 := by omega
  have hlow : Low (val <<< 8 ||| BitVec.ofNat 32 c.toNat) (6 + 6) (v * 256 + c.toNat) := low_byte h (by omega)
  have hrest : Low (val <<< 8 ||| BitVec.ofNat 32 c.toNat) (0 + 6) _ := Low.rest hlow
  rw [hlast] at hrest
  refine ⟨val <<< 8 ||| BitVec.ofNat 32 c.toNat, ?_⟩
  rw [encodeLoop, emit_digit hlow (by omega), emit_digit hrest (by omega), emit_done (by omega),
    pow_zero, Nat.div_one, hdigit]
  rfl

/-- The pending bits at the end are filled up with zeros. -/
theorem encodeLoop_nil (h : Low val bits v) (hpos : 0 < bits) (hlt : bits < 6) :
    encodeLoop [] val bits = [urlsafeChar (v * 2 ^ (6 - bits))] := by
  have hpad := h.pad (k := 6 - bits) (by omega)
  rw [Nat.add_sub_cancel' hlt.le] at hpad
  rw [encodeLoop, if_pos hpos, digitChar_eq (hpad.all mask6 (by omega)) hpad.lt]

/-- Whatever bits are left from before, three bytes are four digits, and then no bits are pending. -/
theorem encodeLoop_eq : ∀ (key : Bytes) (val : BitVec 32), encodeLoop key val 0 = unpadded key
  | a :: b :: c :: rest, val => by
    obtain ⟨val₁, h₁, he₁⟩ := encodeLoop_first val a (b :: c :: rest)
    obtain ⟨val₂, h₂, he₂⟩ := encodeLoop_second h₁ b (c :: rest)
    obtain ⟨val₃, he₃⟩ := encodeLoop_third h₂ c rest
    rw [he₁, he₂, he₃, encodeLoop_eq rest]
    rfl
  | [a, b], val => by
    obtain ⟨val₁, h₁, he₁⟩ := encodeLoop_first val a [b]
    obtain ⟨val₂, h₂, he₂⟩ := encodeLoop_second h₁ b []
    rw [he₁, he₂, encodeLoop_nil h₂ (by decide) (by decide)]
    rfl
  | [a], val => by
    obtain ⟨val₁, h₁, he₁⟩ := encodeLoop_first val a []
    rw [he₁, encodeLoop_nil h₁ (by decide) (by decide)]
    rfl
  | [], val => rfl

end Encode

section Decode

variable {val : BitVec 32} {bits v d : ℕ}

theorem low_digit (h : Low val bits v) (hd : d < 64) (hb : bits ≤ 26) :
    Low (val <<< 6 ||| BitVec.ofNat 32 d) (bits + 6) (v * 64 + d) := by
  have hdn : (BitVec.ofNat 32 d).toNat = d := by
    rw [BitVec.toNat_ofNat]
    omega
  have hpush := h.push (d := BitVec.ofNat 32 d) (k := 6) (by omega) (by omega)
  rwa [hdn] at hpush

/-- A digit with which there is no byte yet. -/
theorem decodeLoop_keep (val : BitVec 32) (hd : d < 64) (cs : Bytes) : ∃ val', Low val' 6 d ∧
    decodeLoop (urlsafeChar d :: cs) val 0 = decodeLoop cs val' 6 := by
  have hlow := low_digit (low_zero val) hd (by omega)
  rw [Nat.zero_mul, Nat.zero_add, Nat.zero_add] at hlow
  refine ⟨_, hlow, ?_⟩
  rw [decodeLoop, if_neg (urlsafeChar_ne_pad d), decodeTable_char d hd]
  rfl

/-- A digit that makes up a byte with the pending bits. -/
theorem decodeLoop_byte {r : ℕ} (h : Low val bits v) (hd : d < 64) (hr : bits + 6 = r + 8) (hb : bits ≤ 6)
    (cs : Bytes) :
    ∃ val', Low val' r ((v * 64 + d) % 2 ^ r) ∧
      decodeLoop (urlsafeChar d :: cs) val bits = UInt8.ofNat ((v * 64 + d) / 2 ^ r) :: decodeLoop cs val' r := by
  have hlow := low_digit h hd (by omega)
  rw [hr] at hlow
  refine ⟨_, hlow.rest, ?_⟩
  rw [decodeLoop, if_neg (urlsafeChar_ne_pad d), decodeTable_char d hd]
  dsimp only
  rw [hr, if_pos (by omega), Nat.add_sub_cancel, hlow.field mask8 (by omega)]

/-- Where the reader stops. -/
def Stops (t : Bytes) : Prop := t = [] ∨ ∃ rest, t = padChar :: rest

theorem decodeLoop_stops {t : Bytes} (ht : Stops t) : decodeLoop t val bits = [] := by
  rcases ht with rfl | ⟨rest, rfl⟩
  · rfl
  · rw [decodeLoop, if_pos rfl]

/-- The two digits that make up the first byte of three. -/
theorem decodeLoop_first (a : UInt8) (hd : d < 16) (cs : Bytes) : ∃ val', Low val' 4 d ∧
    decodeLoop (urlsafeChar (a.toNat / 4) :: urlsafeChar (a.toNat % 4 * 16 + d) :: cs) val 0 =
      a :: decodeLoop cs val' 4 := by
  have ha := a.toNat_lt
  have hbyte : (a.toNat / 4 * 64 + (a.toNat % 4 * 16 + d)) / 2 ^ 4 = a.toNat := by omega
  have hrest : (a.toNat / 4 * 64 + (a.toNat % 4 * 16 + d)) % 2 ^ 4 = d := by omega
  obtain ⟨val₁, h₁, he₁⟩ := decodeLoop_keep val (show a.toNat / 4 < 64 by omega)
    (urlsafeChar (a.toNat % 4 * 16 + d) :: cs)
  obtain ⟨val₂, h₂, he₂⟩ := decodeLoop_byte h₁ (show a.toNat % 4 * 16 + d < 64 by omega) (r := 4) rfl le_rfl cs
  rw [hrest] at h₂
  rw [hbyte, UInt8.ofNat_toNat] at he₂
  exact ⟨val₂, h₂, he₁.trans he₂⟩

/-- The digit that completes the second byte. -/
theorem decodeLoop_second (b : UInt8) (h : Low val 4 (b.toNat / 16)) (hd : d < 4) (cs : Bytes) :
    ∃ val', Low val' 2 d ∧
      decodeLoop (urlsafeChar (b.toNat % 16 * 4 + d) :: cs) val 4 = b :: decodeLoop cs val' 2 := by
  have hbyte : (b.toNat / 16 * 64 + (b.toNat % 16 * 4 + d)) / 2 ^ 2 = b.toNat := by omega
  have hrest : (b.toNat / 16 * 64 + (b.toNat % 16 * 4 + d)) % 2 ^ 2 = d := by omega
  obtain ⟨val', h', he⟩ := decodeLoop_byte h (show b.toNat % 16 * 4 + d < 64 by omega) (r := 2) rfl (by decide) cs
  rw [hrest] at h'
  rw [hbyte, UInt8.ofNat_toNat] at he
  exact ⟨val', h', he⟩

/-- The digit that completes the third byte. -/
theorem decodeLoop_third (c : UInt8) (h : Low val 2 (c.toNat / 64)) (cs : Bytes) :
    ∃ val', decodeLoop (urlsafeChar (c.toNat % 64) :: cs) val 2 = c :: decodeLoop cs val' 0 := by
  have hbyte : (c.toNat / 64 * 64 + c.toNat % 64) / 2 ^ 0 = c.toNat := by omega
  obtain ⟨val', -, he⟩ := decodeLoop_byte h (show c.toNat % 64 < 64 by omega) (r := 0) rfl (by decide) cs
  rw [hbyte, UInt8.ofNat_toNat] at he
  exact ⟨val', he⟩

theorem decodeLoop_unpadded : ∀ (key t : Bytes) (val : BitVec 32), Stops t → decodeLoop (unpadded key ++ t) val 0 = key
  | a :: b :: c :: rest, t, val, ht => by
    have hb := b.toNat_lt
    have hc := c.toNat_lt
    obtain ⟨val₁, h₁, he₁⟩ := decodeLoop_first a (show b.toNat / 16 < 16 by omega)
      (urlsafeChar (b.toNat % 16 * 4 + c.toNat / 64) :: urlsafeChar (c.toNat % 64) :: (unpadded rest ++ t))
    obtain ⟨val₂, h₂, he₂⟩ := decodeLoop_second b h₁ (show c.toNat / 64 < 4 by omega)
      (urlsafeChar (c.toNat % 64) :: (unpadded rest ++ t))
    obtain ⟨val₃, he₃⟩ := decodeLoop_third c h₂ (unpadded rest ++ t)
    show decodeLoop (urlsafeChar (a.toNat / 4) :: urlsafeChar (a.toNat % 4 * 16 + b.toNat / 16) ::
      urlsafeChar (b.toNat % 16 * 4 + c.toNat / 64) :: urlsafeChar (c.toNat % 64) :: (unpadded rest ++ t)) val 0 = _
    rw [he₁, he₂, he₃, decodeLoop_unpadded rest t val₃ ht]
  | [a, b], t, val, ht => by
    have hb := b.toNat_lt
    obtain ⟨val₁, h₁, he₁⟩ := decodeLoop_first a (show b.toNat / 16 < 16 by omega)
      (urlsafeChar (b.toNat % 16 * 4) :: t)
    obtain ⟨val₂, -, he₂⟩ := decodeLoop_second b h₁ (show 0 < 4 by decide) t
    show decodeLoop (urlsafeChar (a.toNat / 4) :: urlsafeChar (a.toNat % 4 * 16 + b.toNat / 16) ::
      urlsafeChar (b.toNat % 16 * 4) :: t) val 0 = _
    rw [he₁, ← Nat.add_zero (b.toNat % 16 * 4), he₂, decodeLoop_stops ht]
  | [a], t, val, ht => by
    obtain ⟨val₁, -, he₁⟩ := decodeLoop_first a (show 0 < 16 by decide) t
    show decodeLoop (urlsafeChar (a.toNat / 4) :: urlsafeChar (a.toNat % 4 * 16) :: t) val 0 = _
    rw [← Nat.add_zero (a.toNat % 4 * 16), he₁, decodeLoop_stops ht]
  | [], t, val, ht => decodeLoop_stops ht

end Decode

/-- The characters that `base64url_decode` looks at. -/
def significant (t : Bytes) : Bytes := (t.takeWhile (· != padChar)).filter (· ∈ base64urlChars)

theorem decodeLoop_significant : ∀ (t : Bytes) (val : BitVec 32) (bits : ℕ),
    decodeLoop t val bits = decodeLoop (significant t) val bits
  | [], _, _ => rfl
  | c :: cs, val, bits => by
    by_cases hc : c = padChar
    · subst hc
      rfl
    · have hsig : significant (c :: cs) = if c ∈ base64urlChars then c :: significant cs else significant cs := by
        unfold significant
        rw [List.takeWhile_cons_of_pos (by simpa using hc), List.filter_cons]
        simp only [decide_eq_true_eq]
      by_cases hmem : c ∈ base64urlChars
      · rw [hsig, if_pos hmem, decodeLoop, decodeLoop, if_neg hc, if_neg hc]
        cases base64urlDecodeTable c with
        | none => exact decodeLoop_significant cs val bits
        | some d =>
          dsimp only
          by_cases hb : 8 ≤ bits + 6
          · rw [if_pos hb, if_pos hb, decodeLoop_significant cs]
          · rw [if_neg hb, if_neg hb, decodeLoop_significant cs]
      · have hnone : base64urlDecodeTable c = none := by
          unfold base64urlDecodeTable
          rw [List.idxOf?_eq_none_iff.mpr hmem]
          rfl
        rw [hsig, if_neg hmem, decodeLoop, if_neg hc, hnone]
        exact decodeLoop_significant cs val bits

theorem base64urlEncode_eq (key : Bytes) : base64urlEncode key = unpadded key := encodeLoop_eq key 0

theorem base64urlDecode_encode (key : Bytes) {t : Bytes} (ht : Stops t) :
    base64urlDecode (base64urlEncode key ++ t) = key := by
  rw [base64urlEncode_eq]
  exact decodeLoop_unpadded key t 0 ht

end HttpServer

theorem DiskHashClient.decodeKey_encode (key : Bytes) : decodeKey (HttpServer.base64urlEncode key) = some key := by
  rw [HttpServer.base64urlEncode_eq, decodeKey_unpadded, urlsafeB64decode_encode]

/-- The codecs of the server and the client agree, and the reader of the server looks only at characters of the
alphabet before the first `=`. -/
theorem codecs_agree :
    (∀ key : Bytes, HttpServer.base64urlEncode key = DiskHashClient.encodeKey key ∧
      HttpServer.base64urlDecode (HttpServer.base64urlEncode key) = key ∧
      (∀ rest, HttpServer.base64urlDecode (HttpServer.base64urlEncode key ++ padChar :: rest) = key) ∧
      DiskHashClient.decodeKey (HttpServer.base64urlEncode key) = some key) ∧
    ∀ t : Bytes, HttpServer.base64urlDecode t = HttpServer.base64urlDecode (HttpServer.significant t) := by
  refine ⟨fun key => ⟨?_, ?_, fun rest => ?_, DiskHashClient.decodeKey_encode key⟩, fun t => ?_⟩
  · rw [HttpServer.base64urlEncode_eq, DiskHashClient.encodeKey_eq]
  · have h := HttpServer.base64urlDecode_encode key (t := []) (.inl rfl)
    rwa [List.append_nil] at h
  · exact HttpServer.base64urlDecode_encode key (.inr ⟨rest, rfl⟩)
  · exact HttpServer.decodeLoop_significant t 0 0

end DiskHash
