import DiskHash.Server

/-!
# DiskHash.Target — `extract_query_param` and `url_decode` on every text

The scanner of the parameters agrees with a search among the segments between `&`.  The decoder of the escapes
agrees with percent-decoding as long as no `%` stands before two characters that are not two digits and yet give
a number: the extraction of the number takes a sign, white space or a single digit, and the loop passes two
characters in any case.
-/

namespace DiskHash.HttpServer

/-! ## Parameters -/

/-- The text after `search` of the first segment that begins with it. -/
def firstValue (search : Bytes) (segs : List Bytes) : Bytes :=
  match segs.find? (search.isPrefixOf ·) with
  | some seg => seg.drop search.length
  | none => []

section Find

variable {c : UInt8}

theorem idxOf?_append : ∀ {p : Bytes}, c ∉ p → ∀ rest, (p ++ c :: rest).idxOf? c = some p.length
  | [], _, rest => by
    rw [List.nil_append, List.idxOf?_cons, if_pos (beq_self_eq_true c)]
    rfl
  | x :: p, h, rest => by
    obtain ⟨hx, hp⟩ := not_or.mp (mt List.mem_cons.mpr h)
    rw [List.cons_append, List.idxOf?_cons, if_neg (by simpa using Ne.symm hx), idxOf?_append hp]
    rfl

/-- A character is found behind a text without it. -/
theorem eq_of_idxOf? {t : Bytes} {i : ℕ} (h : t.idxOf? c = some i) :
    t = t.take i ++ c :: t.drop (i + 1) ∧ c ∉ t.take i := by
  obtain ⟨hi, hc, hbefore⟩ := List.idxOf?_eq_some_iff.mp h
  refine ⟨?_, fun hmem => ?_⟩
  · rw [← hc, List.getElem_cons_drop, List.take_append_drop]
  · obtain ⟨j, hj, hjc⟩ := List.mem_iff_getElem.mp hmem
    rw [List.getElem_take] at hjc
    rw [List.length_take] at hj
    exact hbefore j (by omega) hjc

end Find

section Segments

variable {search : Bytes}

theorem firstValue_cons (seg : Bytes) (segs : List Bytes) : firstValue search (seg :: segs) =
    if seg.take search.length = search then seg.drop search.length else firstValue search segs := by
  unfold firstValue
  by_cases h : search <+: seg
  · rw [List.find?_cons_of_pos (List.isPrefixOf_iff_prefix.mpr h), if_pos (List.prefix_iff_eq_take.mp h).symm]
  · rw [List.find?_cons_of_neg (mt List.isPrefixOf_iff_prefix.mp h),
      if_neg fun he => h (List.prefix_iff_eq_take.mpr he.symm)]

/-- The scanner looks at the segments between `&` one after the other. -/
theorem paramLoop_eq (hs : search ≠ []) (query : Bytes) :
    paramLoop search query = firstValue search (query.splitOn 38) := by
  fun_induction paramLoop search query with
  | case1 =>
    rw [List.splitOn_nil, firstValue_cons, List.take_nil, if_neg hs.symm]
    rfl
  | case2 query _ amp hamp pair hp =>
    obtain ⟨hq, hpair⟩ := eq_of_idxOf? hamp
    rw [hq, List.splitOn_append_cons_self_of_not_mem hpair, firstValue_cons, if_pos hp]
  | case3 query _ amp hamp pair hp ih =>
    obtain ⟨hq, hpair⟩ := eq_of_idxOf? hamp
    rw [ih, hq, List.splitOn_append_cons_self_of_not_mem hpair, firstValue_cons, if_neg hp, ← hq]
  | case4 query _ hamp hp =>
    rw [List.splitOn_eq_singleton (List.idxOf?_eq_none_iff.mp hamp), firstValue_cons, if_pos hp]
  | case5 query _ hamp hp =>
    rw [List.splitOn_eq_singleton (List.idxOf?_eq_none_iff.mp hamp), firstValue_cons, if_neg hp]
    rfl

theorem firstValue_first {before after : List Bytes} (h : ∀ seg ∈ before, ¬ search <+: seg) (v : Bytes) :
    firstValue search (before ++ (search ++ v) :: after) = v := by
  induction before with
  | nil => rw [List.nil_append, firstValue_cons, List.take_left, if_pos rfl, List.drop_left]
  | cons seg before ih =>
    obtain ⟨hseg, hbefore⟩ := List.forall_mem_cons.mp h
    rw [List.cons_append, firstValue_cons, if_neg fun he => hseg (List.prefix_iff_eq_take.mpr he.symm), ih hbefore]

theorem firstValue_none {segs : List Bytes} (h : ∀ seg ∈ segs, ¬ search <+: seg) : firstValue search segs = [] := by
  unfold firstValue
  rw [List.find?_eq_none.mpr fun seg hseg => mt List.isPrefixOf_iff_prefix.mp (h seg hseg)]

/-- Splitting undoes joining, up to the empty segment of an empty query. -/
theorem firstValue_join (hs : search ≠ []) {segs : List Bytes} (h : ∀ seg ∈ segs, 38 ∉ seg) :
    firstValue search (([38].intercalate segs).splitOn 38) = firstValue search segs := by
  by_cases hnil : segs = []
  · rw [hnil]
    show firstValue search ([].splitOn 38) = _
    rw [List.splitOn_nil, firstValue_cons, List.take_nil, if_neg hs.symm]
  · rw [List.splitOn_intercalate 38 h hnil]

end Segments

section Target

variable {p : Bytes}

theorem search_ne_nil (param : Bytes) : param ++ ascii "=" ≠ [] :=
  List.append_ne_nil_of_right_ne_nil param (by decide)

theorem extractQueryParam_eq (hp : 63 ∉ p) (query param : Bytes) : extractQueryParam (p ++ 63 :: query) param =
    firstValue (param ++ ascii "=") (query.splitOn 38) := by
  unfold extractQueryParam
  rw [idxOf?_append hp]
  dsimp only
  rw [List.drop_append, List.drop_eq_nil_of_le (Nat.le_succ _), Nat.add_sub_cancel_left]
  exact paramLoop_eq (search_ne_nil param) query

/-- `extract_query_param` returns what follows `param=` in the first segment that begins with it, whatever the
segments behind it are, and the empty string without such a segment or without a query. -/
theorem extractQueryParam_segments (hp : 63 ∉ p) {segs : List Bytes} (hsegs : ∀ seg ∈ segs, 38 ∉ seg)
    (param : Bytes) :
    extractQueryParam (p ++ 63 :: [38].intercalate segs) param = firstValue (param ++ ascii "=") segs ∧
    (∀ before v after, segs = before ++ (param ++ ascii "=" ++ v) :: after →
      (∀ seg ∈ before, ¬ param ++ ascii "=" <+: seg) →
      extractQueryParam (p ++ 63 :: [38].intercalate segs) param = v) ∧
    ((∀ seg ∈ segs, ¬ param ++ ascii "=" <+: seg) →
      extractQueryParam (p ++ 63 :: [38].intercalate segs) param = []) ∧
    extractQueryParam p param = [] := by
  have hjoin : extractQueryParam (p ++ 63 :: [38].intercalate segs) param =
      firstValue (param ++ ascii "=") segs := by
    rw [extractQueryParam_eq hp, firstValue_join (search_ne_nil param) hsegs]
  refine ⟨hjoin, ?_, ?_, ?_⟩
  · intro before v after heq hbefore
    rw [hjoin, heq]
    exact firstValue_first hbefore v
  · intro hnone
    rw [hjoin]
    exact firstValue_none hnone
  · unfold extractQueryParam
    rw [List.idxOf?_eq_none_iff.mpr hp]

/-- Neither a longer name nor a value is taken for the parameter. -/
theorem extractQueryParam_segments_key :
    extractQueryParam (ascii "/get?&monkey=1&x=key=2&key=a?b=c&key=3&") (ascii "key") = ascii "a?b=c" :=
  (extractQueryParam_segments (p := ascii "/get") (by decide)
    (show ∀ seg ∈ [[], ascii "monkey=1", ascii "x=key=2", ascii "key=a?b=c", ascii "key=3", []], 38 ∉ seg by decide)
    (ascii "key")).2.1 [[], ascii "monkey=1", ascii "x=key=2"] (ascii "a?b=c") [ascii "key=3", []]
    rfl (by decide)

end Target

/-! ## Escapes -/

/-- The byte two hexadecimal digits stand for. -/
def escaped (a b : UInt8) : Option UInt8 :=
  match hexDigit a, hexDigit b with
  | some x, some y => some (UInt8.ofNat (16 * x + y))
  | _, _ => none

/-- Percent-decoding: `%` and two digits are a byte, `+` is a space, every other character is itself. -/
def percentDecode : Bytes → Bytes
  | c :: a :: b :: rest =>
    if c = 37 then
      match escaped a b with
      | some value => value :: percentDecode rest
      | none => c :: percentDecode (a :: b :: rest)
    else (if c = 43 then 32 else c) :: percentDecode (a :: b :: rest)
  | c :: rest => (if c = 43 then 32 else c) :: percentDecode rest
  | [] => []

/-- A text that stands for the bytes: each of them is itself, an escape, or `+` for a space. -/
inductive Encodes : Bytes → Bytes → Prop
  | nil : Encodes [] []
  | plain {c t bytes} (hc : c ≠ 37 ∧ c ≠ 43) : Encodes t bytes → Encodes (c :: t) (c :: bytes)
  | space {t bytes} : Encodes t bytes → Encodes (43 :: t) (32 :: bytes)
  | escape {a b value t bytes} (h : escaped a b = some value) : Encodes t bytes →
      Encodes (37 :: a :: b :: t) (value :: bytes)

/-- A hexadecimal digit as a character. -/
def hexChar (d : ℕ) : UInt8 := UInt8.ofNat (if d < 10 then 48 + d else 55 + d)

/-- A text that stands for the bytes: an escape for each of them. -/
def percentEncode (bytes : Bytes) : Bytes :=
  bytes.flatMap fun c => [37, hexChar (c.toNat / 16), hexChar (c.toNat % 16)]

/-- Two characters that are no escape although a number can be read off them: a digit before a character that is
none (and that does not make a prefix `0x`), or white space or a sign before a digit. -/
def Lenient (a b : UInt8) : Prop :=
  ((hexDigit a).isSome ∧ hexDigit b = none ∧ ¬ (a = 48 ∧ (b = 120 ∨ b = 88))) ∨
    ((isSpace a ∨ a = 43 ∨ a = 45) ∧ (hexDigit b).isSome)

section Digits

variable {a b c : UInt8} {x y : ℕ}

theorem hexDigit_range (h : hexDigit c = some x) : x < 16 ∧
    (48 ≤ c.toNat ∧ c.toNat ≤ 57 ∨ 97 ≤ c.toNat ∧ c.toNat ≤ 102 ∨ 65 ≤ c.toNat ∧ c.toNat ≤ 70) := by
  unfold hexDigit at h
  simp only [UInt8.le_iff_toNat_le] at h
  split_ifs at h with h1 h2 h3
  all_goals
    cases h
    simp only [UInt8.reduceToNat] at *
    omega

theorem hexDigit_ne {k : UInt8} (h : hexDigit c = some x) (hk : hexDigit k = none) : c ≠ k := by
  rintro rfl
  rw [hk] at h
  cases h

theorem hexDigit_not_space (h : hexDigit c = some x) : isSpace c = false := by
  have hr := (hexDigit_range h).2
  by_contra hs
  simp only [isSpace, Bool.or_eq_true, Bool.and_eq_true, decide_eq_true_eq, Bool.not_eq_false,
    UInt8.le_iff_toNat_le] at hs
  rcases hs with rfl | ⟨h9, h13⟩
  · simp at hr
  · simp only [UInt8.reduceToNat] at *
    omega

theorem hexDigits_pair (ha : hexDigit a = some x) : hexDigits [a, b] = some (match hexDigit b with
    | some y => 16 * x + y
    | none => x) := by
  cases hb : hexDigit b <;> simp [hexDigits, ha, hb]

theorem hexDigits_none (ha : hexDigit a = none) (t : Bytes) : hexDigits (a :: t) = none := by
  simp [hexDigits, ha]

theorem hexDigits_single : hexDigits [a] = hexDigit a := by
  cases ha : hexDigit a <;> simp [hexDigits, ha]

/-! ### What is extracted from two characters -/

theorem hexNumber_single : hexNumber [b] = hexDigit b := by
  unfold hexNumber
  split
  · rename_i heq
    cases heq
  · exact hexDigits_single

theorem hexNumber_pair : hexNumber [a, b] = if a = 48 ∧ (b = 120 ∨ b = 88) then none else hexDigits [a, b] := by
  unfold hexNumber
  split
  · rename_i u rest heq
    cases heq
    by_cases hb : b = 120 ∨ b = 88
    · rw [if_pos hb, if_pos ⟨rfl, hb⟩]
      rfl
    · rw [if_neg hb, if_neg fun h => hb h.2]
  · rename_i hne
    rw [if_neg fun h => hne b [] (by rw [h.1])]

/-- Without white space and sign. -/
theorem readHex_plain {t : Bytes} (hs : isSpace a = false) (h43 : a ≠ 43) (h45 : a ≠ 45) :
    readHex (a :: t) = (hexNumber (a :: t)).map Int.ofNat := by
  unfold readHex
  rw [List.dropWhile_cons_of_neg (by rw [hs]; exact Bool.false_ne_true)]
  split
  · rename_i heq
    cases heq
    exact absurd rfl h43
  · rename_i heq
    cases heq
    exact absurd rfl h45
  · rfl

theorem readHex_digits (ha : hexDigit a = some x) (hb : hexDigit b = some y) :
    readHex [a, b] = some ((16 * x + y : ℕ) : ℤ) := by
  rw [readHex_plain (hexDigit_not_space ha) (hexDigit_ne ha (by decide)) (hexDigit_ne ha (by decide)), hexNumber_pair,
    if_neg, hexDigits_pair ha, hb]
  · rfl
  · rintro ⟨-, h | h⟩
    · exact hexDigit_ne hb (by decide) h
    · exact hexDigit_ne hb (by decide) h

theorem readHex_digit (ha : hexDigit a = some x) (hb : hexDigit b = none) :
    readHex [a, b] = if a = 48 ∧ (b = 120 ∨ b = 88) then none else some (x : ℤ) := by
  rw [readHex_plain (hexDigit_not_space ha) (hexDigit_ne ha (by decide)) (hexDigit_ne ha (by decide)), hexNumber_pair,
    hexDigits_pair ha, hb]
  split <;> rfl

/-- White space is passed, also when nothing is behind it. -/
theorem readHex_space (ha : isSpace a = true) : readHex [a, b] = (hexDigit b).map Int.ofNat := by
  unfold readHex
  rw [List.dropWhile_cons_of_pos ha]
  cases hb : hexDigit b with
  | some y =>
    have hplain := readHex_plain (t := []) (hexDigit_not_space hb) (hexDigit_ne hb (by decide))
      (hexDigit_ne hb (by decide))
    rw [hexNumber_single, hb] at hplain
    exact hplain
  | none =>
    by_cases hs : isSpace b = true
    · rw [List.dropWhile_cons_of_pos hs]
      rfl
    · rw [List.dropWhile_cons_of_neg hs]
      split
      · rename_i heq
        cases heq
        rfl
      · rename_i heq
        cases heq
        rfl
      · rw [hexNumber_single, hb]

theorem readHex_plus : readHex [43, b] = (hexDigit b).map Int.ofNat := by
  show (hexNumber [b]).map Int.ofNat = _
  rw [hexNumber_single]

theorem readHex_minus : readHex [45, b] = (hexDigit b).map fun n : ℕ => -(n : ℤ) := by
  cases hb : hexDigit b with
  | some y =>
    show (do let n ← hexNumber [b]; pure (n : ℤ)).map (fun n : ℤ => -n) = _
    rw [hexNumber_single, hb]
    rfl
  | none =>
    show (do let n ← hexNumber [b]; pure (n : ℤ)).map (fun n : ℤ => -n) = _
    rw [hexNumber_single, hb]
    rfl

theorem escaped_eq_some {value : UInt8} (h : escaped a b = some value) :
    ∃ x y, hexDigit a = some x ∧ hexDigit b = some y ∧ value = UInt8.ofNat (16 * x + y) := by
  unfold escaped at h
  split at h
  · rename_i x y ha hb
    exact ⟨x, y, ha, hb, (Option.some.inj h).symm⟩
  · cases h

theorem readHex_escaped {value : UInt8} (h : escaped a b = some value) :
    ∃ z, readHex [a, b] = some z ∧ UInt8.ofNat (z % 256).toNat = value := by
  obtain ⟨x, y, ha, hb, rfl⟩ := escaped_eq_some h
  have hx := (hexDigit_range ha).1
  have hy := (hexDigit_range hb).1
  refine ⟨_, readHex_digits ha hb, ?_⟩
  congr 1
  omega

theorem escaped_ne {value : UInt8} (h : escaped a b = some value) : a ≠ 37 ∧ b ≠ 37 := by
  obtain ⟨x, y, ha, hb, -⟩ := escaped_eq_some h
  exact ⟨hexDigit_ne ha (by decide), hexDigit_ne hb (by decide)⟩

theorem escaped_not_lenient {value : UInt8} (h : escaped a b = some value) : ¬ Lenient a b := by
  obtain ⟨x, y, ha, hb, -⟩ := escaped_eq_some h
  rintro (⟨-, hnone, -⟩ | ⟨hspace | rfl | rfl, -⟩)
  · rw [hb] at hnone
    cases hnone
  · rw [hexDigit_not_space ha] at hspace
    cases hspace
  · exact hexDigit_ne ha (by decide) rfl
  · exact hexDigit_ne ha (by decide) rfl

/-- Either the two characters are lenient and a small number is read off them, or nothing is. -/
def Decided (a b : UInt8) : Prop :=
  ¬ Lenient a b ∧ readHex [a, b] = none ∨ Lenient a b ∧ ∃ z, readHex [a, b] = some z ∧ -16 < z ∧ z < 16

/-- A digit before a character that is none. -/
theorem decided_of_digit (ha : hexDigit a = some x) (hb : hexDigit b = none) : Decided a b := by
  have hx := (hexDigit_range ha).1
  unfold Decided
  rw [readHex_digit ha hb]
  by_cases h0 : a = 48 ∧ (b = 120 ∨ b = 88)
  · refine .inl ⟨?_, if_pos h0⟩
    rintro (⟨-, -, hn⟩ | ⟨-, hsome⟩)
    · exact hn h0
    · rw [hb] at hsome
      cases hsome
  · exact .inr ⟨.inl ⟨by rw [ha]; rfl, hb, h0⟩, x, if_neg h0, by omega, by omega⟩

/-- White space or a sign before the second character. -/
theorem decided_of_lead (ha : hexDigit a = none) (hs : isSpace a ∨ a = 43 ∨ a = 45) : Decided a b := by
  have hread : readHex [a, b] = (hexDigit b).map Int.ofNat ∨
      readHex [a, b] = (hexDigit b).map fun n : ℕ => -(n : ℤ) := by
    rcases hs with hs | rfl | rfl
    · exact .inl (readHex_space hs)
    · exact .inl readHex_plus
    · exact .inr readHex_minus
  cases hb : hexDigit b with
  | none =>
    rw [hb] at hread
    refine .inl ⟨?_, hread.elim id id⟩
    rintro (⟨hsome, -⟩ | ⟨-, hsome⟩)
    · rw [ha] at hsome
      cases hsome
    · rw [hb] at hsome
      cases hsome
  | some y =>
    have hy := (hexDigit_range hb).1
    rw [hb] at hread
    refine .inr ⟨.inr ⟨hs, by rw [hb]; rfl⟩, ?_⟩
    rcases hread with hread | hread
    · exact ⟨y, hread, by omega, by omega⟩
    · exact ⟨-y, hread, by omega, by omega⟩

/-- Two characters that are no escape. -/
theorem decided_of_unescaped (h : escaped a b = none) : Decided a b := by
  cases ha : hexDigit a with
  | some x =>
    have hb : hexDigit b = none := by
      cases hb : hexDigit b with
      | none => rfl
      | some y => simp [escaped, ha, hb] at h
    exact decided_of_digit ha hb
  | none =>
    by_cases hs : isSpace a ∨ a = 43 ∨ a = 45
    · exact decided_of_lead ha hs
    · obtain ⟨hspace, h43, h45⟩ : ¬ isSpace a ∧ a ≠ 43 ∧ a ≠ 45 := by
        simpa only [not_or] using hs
      refine .inl ⟨?_, ?_⟩
      · rintro (⟨hsome, -⟩ | ⟨hlead, -⟩)
        · rw [ha] at hsome
          cases hsome
        · exact hs hlead
      · rw [readHex_plain (Bool.eq_false_iff.mpr hspace) h43 h45, hexNumber_pair, hexDigits_none ha, ite_self]
        rfl

end Digits

/-! ### The decoder -/

section Decoder

variable {a b c : UInt8} {t rest : Bytes}

/-- No `%` stands before two characters that are lenient. -/
def Strict (str : Bytes) : Prop := ∀ a b, [37, a, b] <:+: str → ¬ Lenient a b

theorem strict_cons_of_ne (hc : c ≠ 37) : Strict (c :: t) ↔ Strict t := by
  unfold Strict
  refine forall₂_congr fun a b => ?_
  rw [List.infix_cons_iff, List.cons_prefix_cons]
  simp [Ne.symm hc]

theorem strict_percent : Strict (37 :: a :: b :: rest) ↔ ¬ Lenient a b ∧ Strict (a :: b :: rest) := by
  unfold Strict
  constructor
  · intro h
    exact ⟨h a b (List.infix_cons_iff.mpr (.inl ⟨rest, rfl⟩)),
      fun a' b' h' => h a' b' (List.infix_cons_iff.mpr (.inr h'))⟩
  · rintro ⟨hl, h⟩ a' b' h'
    rcases List.infix_cons_iff.mp h' with hp | hi
    · simp only [List.cons_prefix_cons, List.nil_prefix, and_true, true_and] at hp
      rw [hp.1, hp.2]
      exact hl
    · exact h a' b' hi

theorem strict_short (h : t.length < 3) : Strict t := by
  intro a b hi
  have := hi.length_le
  simp only [List.length_cons, List.length_nil] at this
  omega

/-- The decoder is percent-decoding exactly on the strict texts. -/
theorem urlDecode_eq_iff : ∀ str : Bytes, urlDecode str = percentDecode str ↔ Strict str
  | c :: a :: b :: rest => by
    by_cases hc : c = 37
    · subst hc
      rw [urlDecode, percentDecode, if_pos rfl, if_pos rfl, strict_percent]
      cases he : escaped a b with
      | some value =>
        obtain ⟨z, hz, hv⟩ := readHex_escaped he
        obtain ⟨ha, hb⟩ := escaped_ne he
        rw [hz, strict_cons_of_ne ha, strict_cons_of_ne hb, ← urlDecode_eq_iff rest]
        simp only [hv, List.cons.injEq, true_and, escaped_not_lenient he, not_false_eq_true]
      | none =>
        rcases decided_of_unescaped he with ⟨hl, hz⟩ | ⟨hl, z, hz, hlow, hhigh⟩
        · rw [hz, ← urlDecode_eq_iff (a :: b :: rest)]
          simp only [List.cons.injEq, true_and, hl, not_false_eq_true]
        · have hne : UInt8.ofNat (z % 256).toNat ≠ 37 := by
            intro h
            have := congrArg UInt8.toNat h
            rw [UInt8.toNat_ofNat'] at this
            simp only [UInt8.reduceToNat] at this
            omega
          rw [hz]
          simp only [List.cons.injEq, hne, false_and, hl, not_true_eq_false]
    · rw [urlDecode, percentDecode, if_neg hc, if_neg hc, strict_cons_of_ne hc, ← urlDecode_eq_iff (a :: b :: rest),
        List.cons.injEq, and_iff_right rfl]
  | [c, a] => by simp [urlDecode, percentDecode, strict_short]
  | [c] => by simp [urlDecode, percentDecode, strict_short]
  | [] => by simp [urlDecode, percentDecode, strict_short]

theorem urlDecode_cons_ne (hc : c ≠ 37) (t : Bytes) :
    urlDecode (c :: t) = (if c = 43 then 32 else c) :: urlDecode t := by
  match t with
  | [] => rfl
  | [_] => rfl
  | _ :: _ :: _ => rw [urlDecode, if_neg hc]

theorem urlDecode_escape {value : UInt8} (h : escaped a b = some value) (t : Bytes) :
    urlDecode (37 :: a :: b :: t) = value :: urlDecode t := by
  obtain ⟨z, hz, hv⟩ := readHex_escaped h
  rw [urlDecode, if_pos rfl, hz]
  exact congrArg (· :: urlDecode t) hv

/-- What stands for bytes is decoded to them. -/
theorem Encodes.decode {bytes : Bytes} (h : Encodes t bytes) : urlDecode t = bytes := by
  induction h with
  | nil => rfl
  | plain hc _ ih => rw [urlDecode_cons_ne hc.1, if_neg hc.2, ih]
  | space _ ih => rw [urlDecode_cons_ne (by decide), if_pos rfl, ih]
  | escape h _ ih => rw [urlDecode_escape h, ih]

theorem escaped_hexChar (c : UInt8) : escaped (hexChar (c.toNat / 16)) (hexChar (c.toNat % 16)) = some c := by
  have hall : ∀ i : Fin 256, escaped (hexChar (i.val / 16)) (hexChar (i.val % 16)) = some (UInt8.ofNat i.val) := by
    decide +kernel
  have h := hall ⟨c.toNat, c.toNat_lt⟩
  rwa [UInt8.ofNat_toNat] at h

theorem encodes_percentEncode : ∀ bytes : Bytes, Encodes (percentEncode bytes) bytes
  | [] => .nil
  | c :: bytes => .escape (escaped_hexChar c) (encodes_percentEncode bytes)

/-- `url_decode` is percent-decoding exactly on the texts in which no `%` stands before two lenient characters;
all encodings of a byte string are among them and give it back. -/
theorem urlDecode_exact (str : Bytes) : (urlDecode str = percentDecode str ↔ Strict str) ∧
    ∀ bytes, Encodes (percentEncode bytes) bytes ∧ (Encodes str bytes → urlDecode str = bytes) :=
  ⟨urlDecode_eq_iff str, fun bytes => ⟨encodes_percentEncode bytes, Encodes.decode⟩⟩

/-- A digit and a letter that is none: the letter is dropped. -/
theorem urlDecode_drops : ¬ ∀ str, urlDecode str = percentDecode str := by
  intro h
  have hd : urlDecode (ascii "%4g") = [4] ∧ percentDecode (ascii "%4g") = ascii "%4g" := by decide
  have := h (ascii "%4g")
  rw [hd.1, hd.2] at this
  exact absurd this (by decide)

end Decoder

end DiskHash.HttpServer
