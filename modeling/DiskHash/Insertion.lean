import DiskHash.Extendible

/-!
# DiskHash.Insertion — when the loop of `create_record` ends

The loop looks along a chain for a bucket with room and takes a new bucket behind the last one.  Each turn
visits one bucket and takes at most one, so a loop that ends within one turn more than the chain has buckets
took one bucket at most.  A record longer than a bucket keeps it going until the system refuses a bucket.
-/

namespace DiskHash.HashMap

variable {B : ℕ} {m m₁ : HashMap B} {S : Shape} {hash : Hash} {key value : Bytes} {b : ℕ} {os : Os}

/-- `get` reaches `create_record` in the map `m₁`, with the head `b` of a chain. -/
structure Inserts (os : Os) (m : HashMap B) (hash : Hash) (key : Bytes) (b : ℕ) (m₁ : HashMap B) : Prop where
  absent : ∃ fuel, find fuel hash key m = .ok none m
  room : ∃ fuel, makeRoom os fuel hash (m.catalogue.lookup hash) m = .ok b m₁

/-- The call returned with the chain as it was, or with one new bucket behind it. -/
def EndsOn (os : Os) (b : ℕ) (L : List ℕ) (hash : Hash) (key value : Bytes) (fuel : ℕ) (m₁ : HashMap B) : Prop :=
  ∃ v c, Container.createRecord os.dat fuel b hash key value m₁.container = .ok v c ∧
    (Seg c.next (some b) L none ∨ ∃ id, id ∉ L ∧ Seg c.next (some b) (L ++ [id]) none)

/-- The state in which `get` calls `create_record`. -/
theorem Inserts.inv (hB : B < 2 ^ 31) (h : m.Inv S) (hi : Inserts os m hash key b m₁) :
    ∃ S' L rest, m₁.Inv S' ∧ S'.chains = L :: rest ∧ L.head? = some b := by
  obtain ⟨L, rest, p, q, -, h', hf⟩ := h.front hash
  obtain ⟨fuel, hroom⟩ := hi.room
  obtain ⟨S', L', rest', hm⟩ := (makeRoom_runs hB os h' hf.chains hf.holds hf.bits fuel).of_ok hroom
  obtain ⟨p', q', hc', -⟩ := hm.chain
  exact ⟨S', L', rest', hm.inv, hm.chains, hc'.head⟩

theorem endsOn_of_fits (h : m₁.Inv S) {L : List ℕ} {rest : List (List ℕ)} (hS : S.chains = L :: rest)
    (hb : L.head? = some b) (hos : os.Grants) (hfit : Container.bytesRequired key value ≤ B) {fuel : ℕ}
    (hf : L.length < fuel) : EndsOn os b L hash key value fuel m₁ := by
  have hL : L ∈ S.chains := by rw [hS]; simp
  obtain ⟨v, c, hrun, hi⟩ := (Container.createRecord_runs (r := ⟨hash, key, value⟩) h.rep os.dat hfit hS hb
    fuel).returns (by
      rintro e c (⟨-, hlt⟩ | he)
      · omega
      · exact he.denied hos.dat)
  refine ⟨v, c, hrun, ?_⟩
  cases hi with
  | old L₁ i L₂ bu hL' hfull hroom hv hc hn hp hrep =>
    left
    rw [← hb]
    exact hrep.owned.linked L hL
  | new c₁ id bu hfull hv hext hc hrep =>
    refine Or.inr ⟨id, hext.notMem, ?_⟩
    have hlink := hrep.owned.linked (L ++ [id]) (by simp [Shape.extend])
    rwa [List.head?_append, hb] at hlink

/-- In every reachable map and for a key that it does not hold: the loop ends within one turn more than the
chain has buckets, and took one new bucket at most, just when the record is not longer than a bucket. -/
theorem insertion_ends_iff {m : HashMap defaultBucketSize} (hm : Reachable m) {os : Os} (hos : os.Grants)
    {hash : Hash} {key value : Bytes} {b : ℕ} {m₁ : HashMap defaultBucketSize}
    (hi : Inserts os m hash key b m₁) {L : List ℕ} (hL : m₁.Chain b L) :
    ((∀ fuel, L.length < fuel → EndsOn os b L hash key value fuel m₁) ↔
      Container.bytesRequired key value ≤ defaultBucketSize) ∧
    (defaultBucketSize < Container.bytesRequired key value → ∀ fuel, ∃ c,
      Container.createRecord os.dat fuel b hash key value m₁.container = .error .outOfFuel c) := by
  obtain ⟨S, h⟩ := hm.inv defaultBucketSize_lt
  obtain ⟨S', L', rest, h', hS', hhead⟩ := hi.inv defaultBucketSize_lt h
  have hL' : L' ∈ S'.chains := by rw [hS']; simp
  obtain rfl : L = L' := hL.unique (h'.chain hL' hhead).1
  -- a record that does not fit never ends the loop
  have hloops : defaultBucketSize < Container.bytesRequired key value → ∀ fuel, ∃ c,
      Container.createRecord os.dat fuel b hash key value m₁.container = .error .outOfFuel c := by
    intro hlong fuel
    have hruns := Container.createRecord_loops h'.rep os.dat hash hlong hS' hhead fuel
    cases hrun : Container.createRecord os.dat fuel b hash key value m₁.container with
    | ok v c => exact (hruns.of_ok hrun).elim
    | error e c =>
      rcases hruns.of_error hrun with rfl | ⟨-, hg⟩
      · exact ⟨c, rfl⟩
      · exact absurd hos.dat hg
  refine ⟨⟨fun hends => ?_, fun hfit fuel hf => endsOn_of_fits h' hS' hhead hos hfit hf⟩, hloops⟩
  by_contra hlong
  obtain ⟨v, c, hrun, -⟩ := hends (L.length + 1) (Nat.lt_succ_self _)
  obtain ⟨c', hrun'⟩ := hloops (Nat.lt_of_not_le hlong) (L.length + 1)
  rw [hrun] at hrun'
  cases hrun'

/-- `get` of a key that the map does not hold reaches `create_record`, when the system grants what it asks. -/
theorem Inv.exists_inserts (hB : B < 2 ^ 31) (h : m.Inv S) (hash : Hash) (key : Bytes) (hos : os.Grants)
    (hcount : m.container.layout.bucketsCount ≤ 2 ^ 32) (habs : ∀ r ∈ S.records, ¬ r.Is hash key) :
    ∃ m₁ b L, Inserts os m hash key b m₁ ∧ m₁.Chain b L := by
  obtain ⟨L, rest, p, q, -, h', hf⟩ := h.front hash
  have hfind : ∃ fuel, find fuel hash key m = .ok none m := by
    obtain ⟨o, m', hfind, rfl, L', hL', hhead, ho⟩ :=
      (find_runs hB h (m.container.layout.bucketsCount + 1) hash key).returns (fun e _ he => by
        have := he.2.2
        omega)
    cases o with
    | none => exact ⟨_, hfind⟩
    | some v =>
      obtain ⟨i, pre, r, post, ⟨T, hT, hi⟩, hrec, his, -⟩ := h.found hL' ho
      exact absurd his (habs r (Shape.mem_records.mpr ⟨T, hT, i, hi, by simp [hrec]⟩))
  obtain ⟨b, m₁, hroom, S', L', rest', hm⟩ := (makeRoom_runs hB os h' hf.chains hf.holds hf.bits
    (m.container.layout.bucketsCount + (Shape.records { S with chains := L :: rest }).length + 2)).returns (by
      rintro e m' he
      cases he with
      | starved hs =>
        have := hs.2
        omega
      | refused _ hn => exact hn hos
      | overgrown _ hlt => omega)
  have hin : Inserts os m hash key b m₁ := ⟨hfind, _, hroom⟩
  obtain ⟨p', q', hc', -⟩ := hm.chain
  exact ⟨m₁, b, L', hin, (hm.inv.chain (L := L') (by rw [hm.chains]; simp) hc'.head).1⟩

theorem insertion_ends_iff_session : ∃ m m₁ : HashMap defaultBucketSize, ∃ b L,
    Reachable m ∧ m₁.Chain b L ∧ ∀ fuel, L.length < fuel → EndsOn Os.willing b L 7 [1] [2] fuel m₁ := by
  obtain ⟨m, hnew⟩ := new_returns (B := defaultBucketSize) Os.willing_grants false
  have hm : Reachable m := ⟨Os.willing, m, [], hnew, .nil _⟩
  obtain ⟨m₁, b, L, hi, hL⟩ := (new_inv hnew).exists_inserts defaultBucketSize_lt 7 [1]
    Os.willing_grants ((new_count hnew).le.trans (by decide)) (by simp [newShape, Shape.records])
  have hends : (∀ fuel, L.length < fuel → EndsOn Os.willing b L 7 [1] [2] fuel m₁) ↔ _ :=
    (insertion_ends_iff hm Os.willing_grants hi hL).1
  exact ⟨m, m₁, b, L, hm, hL, hends.mpr (by decide)⟩

/-- `get` does not return on a key that is not there and a record that is too long. -/
theorem get_loops (hB : B < 2 ^ 31) (h : m.Inv S) (hos : os.Grants)
    (hcount : m.container.layout.bucketsCount ≤ 2 ^ 32) (habs : ∀ r ∈ S.records, ¬ r.Is hash key)
    (hlong : B < Container.bytesRequired key value) (fuel : ℕ) :
    ∃ m', get os fuel hash key value m = .error .outOfFuel m' := by
  obtain ⟨L, rest, p, q, hperm, h', hf⟩ := h.front hash
  have hruns := get_runs hB os h' hf fuel key value
  cases hrun : get os fuel hash key value m with
  | ok v m' =>
    cases hruns.of_ok hrun with
    | found hfind hm =>
      obtain ⟨i, pre, r, post, ⟨T, hT, hi⟩, hrec, his, -⟩ :=
        h.found (L := L) (hperm.mem_iff.mpr (by simp)) hfind
      exact absurd his (habs r (Shape.mem_records.mpr ⟨T, hT, i, hi, by simp [hrec]⟩))
    | stored b' m₁ S₁ L₁ rest₁ habs' hm hi hcat =>
      obtain ⟨hw, -⟩ := hm.stored habs' hi hcat
      obtain ⟨T, hT, hiT⟩ := S₁.target_mem_write B m₁.container.layout.bucketsCount L₁ rest₁
        (⟨hash, key, value⟩ : Record)
      have hsize := (hw.inv.rep.holds_of_mem hT hiT).size_le (r := ⟨hash, key, value⟩)
        (by rw [S₁.write_recs, Function.update_self]; simp)
      exact absurd hsize (Nat.not_le_of_lt hlong)
  | error e m' =>
    rcases hruns.of_error hrun with hfails | ⟨-, rfl⟩
    · cases hfails with
      | starved hs => exact ⟨m', by rw [hs.1]⟩
      | refused _ hn => exact absurd hos hn
      | overgrown _ hlt => omega
    · exact ⟨m', rfl⟩

/-- A value of as many bytes as a bucket has is never stored: `get` does not return. -/
theorem long_value_never_stored : ∃ m : HashMap defaultBucketSize, Reachable m ∧
    ∀ fuel, ∃ m', get Os.willing fuel 7 [1] (List.replicate defaultBucketSize 0) m = .error .outOfFuel m' := by
  obtain ⟨m, hnew⟩ := new_returns (B := defaultBucketSize) Os.willing_grants false
  refine ⟨m, ⟨Os.willing, m, [], hnew, .nil _⟩, get_loops defaultBucketSize_lt (new_inv hnew)
    Os.willing_grants ((new_count hnew).le.trans (by decide)) (by simp [newShape, Shape.records]) ?_⟩
  simp only [Container.bytesRequired, List.length_replicate]
  omega

end DiskHash.HashMap
