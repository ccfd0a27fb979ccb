import Mathlib.Data.List.Perm.Basic
import Mathlib.Data.List.Nodup
import Mathlib.Logic.Function.Basic

/-!
# DiskHash.Lib.Dictionary — finite dictionaries and lists of their entries

A dictionary is a partial function from keys to values.  `Lists key val es D`: the entries `es` are the
entries of `D`, each key once, in any order.  A component that stores entries is connected to a dictionary
by this relation; adding and removing one entry of the list is `insert` and `erase` on the dictionary.
-/

/-- A dictionary. -/
def Dict (κ ν : Type) : Type := κ → Option ν

namespace Dict

variable {α κ ν : Type}

def empty : Dict κ ν := fun _ => none

section Update

variable [DecidableEq κ]

def insert (D : Dict κ ν) (k : κ) (v : ν) : Dict κ ν := Function.update D k (some v)

def erase (D : Dict κ ν) (k : κ) : Dict κ ν := Function.update D k none

/-- The value of a key, which gets the value `v` if it has none. -/
def getOrInsert (D : Dict κ ν) (k : κ) (v : ν) : ν × Dict κ ν :=
  match D k with
  | some v' => (v', D)
  | none => (v, D.insert k v)

theorem getOrInsert_some {D : Dict κ ν} {k : κ} {v' : ν} (h : D k = some v') (v : ν) :
    D.getOrInsert k v = (v', D) := by
  unfold getOrInsert
  rw [h]

theorem getOrInsert_none {D : Dict κ ν} {k : κ} (h : D k = none) (v : ν) :
    D.getOrInsert k v = (v, D.insert k v) := by
  unfold getOrInsert
  rw [h]

/-- Afterwards the key has this value. -/
theorem getOrInsert_self (D : Dict κ ν) (k : κ) (v : ν) : (D.getOrInsert k v).2 k = some (D.getOrInsert k v).1 := by
  cases h : D k with
  | some v' => rwa [getOrInsert_some h]
  | none =>
    rw [getOrInsert_none h]
    exact Function.update_self ..

@[simp] theorem insert_self (D : Dict κ ν) (k : κ) (v : ν) : D.insert k v k = some v :=
  Function.update_self ..

theorem insert_of_ne (D : Dict κ ν) {k k' : κ} (h : k' ≠ k) (v : ν) : D.insert k v k' = D k' :=
  Function.update_of_ne h ..

@[simp] theorem erase_self (D : Dict κ ν) (k : κ) : D.erase k k = none := Function.update_self ..

theorem erase_of_ne (D : Dict κ ν) {k k' : κ} (h : k' ≠ k) : D.erase k k' = D k' :=
  Function.update_of_ne h ..

end Update

/-! ### Dictionaries keyed by tags and keys -/

section Tagged

variable {τ : Type} [DecidableEq τ] {tag : κ → τ} {P : κ → Prop} [DecidablePred P] {D D' : Dict κ ν} {k : κ}

/-- The entries whose keys satisfy `P`, each under the tag of its key and the key. -/
def tagged (tag : κ → τ) (P : κ → Prop) [DecidablePred P] (D : Dict κ ν) : Dict (τ × κ) ν := fun p =>
  if p.1 = tag p.2 ∧ P p.2 then D p.2 else none

theorem tagged_tag (h : P k) : D.tagged tag P (tag k, k) = D k := if_pos ⟨rfl, h⟩

@[simp] theorem tagged_empty : (empty : Dict κ ν).tagged tag P = empty := by
  funext p
  exact ite_self none

theorem tagged_congr (h : ∀ k, P k → D k = D' k) : D.tagged tag P = D'.tagged tag P := by
  funext p
  unfold tagged
  by_cases hp : p.1 = tag p.2 ∧ P p.2
  · rw [if_pos hp, if_pos hp, h _ hp.2]
  · rw [if_neg hp, if_neg hp]

/-- The entries whose keys satisfy `P`, taken before they are tagged. -/
theorem tagged_restrict (D : Dict κ ν) :
    tagged tag (fun _ => True) (fun k => if P k then D k else none) = D.tagged tag P := by
  funext p
  unfold tagged
  by_cases hp : p.1 = tag p.2
  · simp [hp]
  · rw [if_neg fun h => hp h.1, if_neg fun h => hp h.1]

/-- A change at a key is a change at the key with its tag. -/
theorem eq_tagged {C : Dict (τ × κ) ν} (h : P k) (hself : C (tag k, k) = D' k)
    (hother : ∀ p ≠ (tag k, k), C p = D.tagged tag P p) (hD : ∀ k' ≠ k, D k' = D' k') :
    C = D'.tagged tag P := by
  funext p
  by_cases hp : p = (tag k, k)
  · rw [hp, hself, tagged_tag h]
  · rw [hother p hp]
    unfold tagged
    by_cases hk : p.2 = k
    · have hne : ¬ (p.1 = tag p.2 ∧ P p.2) := by
        rintro ⟨htag, -⟩
        exact hp (Prod.ext (hk ▸ htag) hk)
      rw [if_neg hne, if_neg hne]
    · rw [hD p.2 hk]

variable [DecidableEq κ]

theorem tagged_insert (h : P k) (v : ν) : (D.tagged tag P).insert (tag k, k) v = (D.insert k v).tagged tag P :=
  eq_tagged h (by rw [insert_self, insert_self]) (fun _ hp => insert_of_ne _ hp _)
    (fun _ hk => (insert_of_ne _ hk _).symm)

theorem tagged_erase (h : P k) : (D.tagged tag P).erase (tag k, k) = (D.erase k).tagged tag P :=
  eq_tagged h (by rw [erase_self, erase_self]) (fun _ hp => erase_of_ne _ hp)
    (fun _ hk => (erase_of_ne _ hk).symm)

theorem tagged_getOrInsert (h : P k) (v : ν) : (D.tagged tag P).getOrInsert (tag k, k) v =
    ((D.getOrInsert k v).1, (D.getOrInsert k v).2.tagged tag P) := by
  cases hk : D k with
  | some v' => rw [getOrInsert_some hk, getOrInsert_some ((tagged_tag h).trans hk)]
  | none => rw [getOrInsert_none hk, getOrInsert_none ((tagged_tag h).trans hk), tagged_insert h]

end Tagged

/-! ### Lists of entries -/

/-- `es` are the entries of the dictionary, each key once. -/
structure Lists (key : α → κ) (val : α → ν) (es : List α) (D : Dict κ ν) : Prop where
  nodup : (es.map key).Nodup
  some_iff : ∀ k v, D k = some v ↔ ∃ e ∈ es, key e = k ∧ val e = v

namespace Lists

variable {key : α → κ} {val : α → ν} {es es' : List α} {D : Dict κ ν} {e : α} {k : κ}

theorem nil : Lists key val [] (empty : Dict κ ν) := ⟨List.nodup_nil, fun _ _ => by simp [empty]⟩

/-- The order of the entries does not matter. -/
theorem perm (h : Lists key val es D) (hp : es.Perm es') : Lists key val es' D :=
  ⟨(hp.map key).nodup_iff.mp h.nodup, fun k v => by simp only [h.some_iff, hp.mem_iff]⟩

theorem some_of_mem (h : Lists key val es D) (he : e ∈ es) : D (key e) = some (val e) :=
  (h.some_iff _ _).mpr ⟨e, he, rfl, rfl⟩

theorem none_iff (h : Lists key val es D) : D k = none ↔ ∀ e ∈ es, key e ≠ k := by
  constructor
  · rintro hk e he rfl
    rw [h.some_of_mem he] at hk
    cases hk
  · intro hk
    cases hD : D k with
    | none => rfl
    | some v =>
      obtain ⟨e, he, hek, -⟩ := (h.some_iff k v).mp hD
      exact absurd hek (hk e he)

/-- A list of entries with distinct keys lists a dictionary. -/
theorem exists_of_nodup (hn : (es.map key).Nodup) : ∃ D : Dict κ ν, Lists key val es D := by
  classical
  refine ⟨fun k => if h : ∃ e ∈ es, key e = k then some (val h.choose) else none, hn, fun k v => ?_⟩
  by_cases h : ∃ e ∈ es, key e = k
  · rw [dif_pos h]
    have hc := h.choose_spec
    constructor
    · intro hv
      exact ⟨h.choose, hc.1, hc.2, Option.some.inj hv⟩
    · rintro ⟨e, he, hek, rfl⟩
      rw [List.inj_on_of_nodup_map hn hc.1 he (hc.2.trans hek.symm)]
  · rw [dif_neg h]
    constructor
    · intro hv
      cases hv
    · rintro ⟨e, he, hek, -⟩
      exact absurd ⟨e, he, hek⟩ h

/-- A list of the entries of a dictionary keyed by tags and keys, without the tags. -/
theorem of_tagged {τ : Type} [DecidableEq τ] {tag : κ → τ} {tagOf : α → τ}
    (h : Lists (fun e => (tagOf e, key e)) val es (D.tagged tag fun _ => True)) :
    Lists Prod.fst Prod.snd (es.map fun e => (key e, val e)) D := by
  have htag : ∀ e ∈ es, tagOf e = tag (key e) := by
    intro e he
    have hsome := h.some_of_mem he
    unfold tagged at hsome
    by_contra hne
    rw [if_neg fun hc => hne hc.1] at hsome
    cases hsome
  refine ⟨?_, fun k v => ?_⟩
  · rw [List.map_map]
    have hnodup := h.nodup
    rw [List.map_congr_left (g := fun e => (tag (key e), key e)) fun e he => by rw [htag e he]] at hnodup
    refine List.Nodup.of_map (fun k => (tag k, k)) ?_
    rwa [List.map_map]
  · have hk : D.tagged tag (fun _ => True) (tag k, k) = D k := tagged_tag trivial
    rw [← hk, h.some_iff]
    constructor
    · rintro ⟨e, he, hek, rfl⟩
      exact ⟨(key e, val e), List.mem_map_of_mem he, (Prod.mk.inj hek).2, rfl⟩
    · rintro ⟨_, hmem, rfl, rfl⟩
      obtain ⟨e, he, rfl⟩ := List.mem_map.mp hmem
      exact ⟨e, he, by rw [htag e he], rfl⟩

section Update

variable [DecidableEq κ]

/-- An entry with a new key. -/
theorem cons (h : Lists key val es D) (hk : D (key e) = none) :
    Lists key val (e :: es) (D.insert (key e) (val e)) := by
  have hne := h.none_iff.mp hk
  refine ⟨List.nodup_cons.mpr ⟨fun hm => ?_, h.nodup⟩, fun k v => ?_⟩
  · obtain ⟨e', he', hek⟩ := List.mem_map.mp hm
    exact hne e' he' hek
  · by_cases hke : k = key e
    · subst hke
      rw [insert_self]
      constructor
      · intro hv
        exact ⟨e, by simp, rfl, Option.some.inj hv⟩
      · rintro ⟨e', he', hek, rfl⟩
        rcases List.mem_cons.mp he' with rfl | he'
        · rfl
        · exact absurd hek (hne e' he')
    · rw [insert_of_ne _ hke, h.some_iff]
      constructor
      · rintro ⟨e', he', h'⟩
        exact ⟨e', by simp [he'], h'⟩
      · rintro ⟨e', he', hek, hv⟩
        rcases List.mem_cons.mp he' with rfl | he'
        · exact absurd hek.symm hke
        · exact ⟨e', he', hek, hv⟩

/-- An entry is taken out. -/
theorem erase (h : Lists key val (e :: es) D) : Lists key val es (D.erase (key e)) := by
  have hn := List.nodup_cons.mp h.nodup
  refine ⟨hn.2, fun k v => ?_⟩
  by_cases hke : k = key e
  · subst hke
    rw [erase_self]
    constructor
    · intro hv
      cases hv
    · rintro ⟨e', he', hek, -⟩
      exact absurd (hek ▸ List.mem_map_of_mem he') hn.1
  · rw [erase_of_ne _ hke, h.some_iff]
    constructor
    · rintro ⟨e', he', hek, hv⟩
      rcases List.mem_cons.mp he' with rfl | he'
      · exact absurd hek.symm hke
      · exact ⟨e', he', hek, hv⟩
    · rintro ⟨e', he', h'⟩
      exact ⟨e', by simp [he'], h'⟩

/-- The value of one entry changes. -/
theorem set {e' : α} (h : Lists key val (e :: es) D) (hk : key e' = key e) :
    Lists key val (e' :: es) (D.insert (key e') (val e')) := by
  have h' := h.erase
  have := h'.cons (e := e') (by rw [hk, erase_self])
  have heq : (D.erase (key e)).insert (key e') (val e') = D.insert (key e') (val e') := by
    rw [hk]
    exact Function.update_idem ..
  rwa [heq] at this

end Update

end Lists

end Dict
