import DiskHash.Mutation

/-!
# DiskHash.Interleaving — increments between calls that change the map

`Moves` interleaves the increments of one iterator with calls of the map.  A careful run makes no call that
disturbs the iterator; in all its states the iterator is placed, so that whatever `operator++` reads is a
record of the map.
-/

namespace DiskHash

open Packing

variable {B : ℕ} {m m' : HashMap B} {S : Shape} {D : Contents} {it it' : ConstIterator} {b o n : ℕ}

namespace ConstIterator

/-- `find_next_record` of the iterator calls `read_record` for the bucket `b` and the offset `o`. -/
inductive Reads (m : HashMap B) : ConstIterator → ℕ → ℕ → Prop
  | here (it : ConstIterator) : Reads m it it.bucketId it.byteOffset
  | link {it : ConstIterator} {b' b o : ℕ} :
      Container.readRecord it.bucketId it.byteOffset m.container = .ok none m.container →
      m.container.next it.bucketId = some b' →
      Reads m { it with bucketId := b', byteOffset := 0 } b o → Reads m it b o
  | entry {it : ConstIterator} {b o : ℕ} :
      Container.readRecord it.bucketId it.byteOffset m.container = .ok none m.container →
      m.container.next it.bucketId = none →
      m.nextEntry it.catalogueIndex < m.catalogue.layout.bufferSize →
      Reads m ⟨it.map, m.nextEntry it.catalogueIndex, m.entry (m.nextEntry it.catalogueIndex), 0⟩ b o →
      Reads m it b o

/-- The iterator behind the record it is on. -/
def advance (m : HashMap B) (it : ConstIterator) : ConstIterator :=
  match Container.readRecord it.bucketId it.byteOffset m.container with
  | .ok (some (_, byteOffset)) _ => { it with byteOffset := byteOffset }
  | _ => it

/-- `operator++` calls `read_record` for the bucket `b` and the offset `o`. -/
inductive NextReads (m : HashMap B) (it : ConstIterator) : ℕ → ℕ → Prop
  | here : NextReads m it it.bucketId it.byteOffset
  | search {b o : ℕ} : Reads m (advance m it) b o → NextReads m it b o

end ConstIterator

namespace HashMap

/-- `read_record` finds nothing past the used bytes, or a record within them that is in the map. -/
def Genuine (m : HashMap B) (D : Contents) (b o : ℕ) : Prop :=
  ((m.container.layout.buckets b).bytesUsed ≤ o ∧ Container.readRecord b o m.container = .ok none m.container) ∨
  ∃ rv o', Container.readRecord b o m.container = .ok (some (rv, o')) m.container ∧ o < o' ∧
    o' ≤ (m.container.layout.buckets b).bytesUsed ∧
    D (rv.hash, m.container.view rv.key) = some (m.container.view rv.value)

/-- What is read at a settled offset. -/
theorem Inv.read (hB : B < 2 ^ 31) (h : m.Inv S) (hb : b < m.container.layout.bucketsCount)
    (hx : Settled Record.size (S.recs b) o) :
    (total Record.size (S.recs b) ≤ o ∧ Container.readRecord b o m.container = .ok none m.container) ∨
    ∃ pre r post, S.recs b = pre ++ r :: post ∧ o = total Record.size pre ∧
      Container.readRecord b o m.container = .ok (some (⟨r.hash, Bucket.keyView b pre r,
        Bucket.valueView b pre r⟩, total Record.size (pre ++ [r]))) m.container := by
  have hmap := h.rep.owned.mapped hb
  have hholds := h.rep.holds b hb
  rcases Nat.lt_or_ge o (total Record.size (S.recs b)) with hlt | hge
  · right
    have hbound : Boundary Record.size (S.recs b) o := hx.resolve_right (Nat.not_le.mpr hlt)
    obtain ⟨pre, r, post, hrec, rfl⟩ := hbound.start hlt
    exact ⟨pre, r, post, hrec, rfl,
      ((Container.runs_readRecord hB hmap hholds hrec).mpr ⟨rfl, rfl⟩).eq_ok⟩
  · left
    exact ⟨hge, ((Container.runs_readRecord_past hmap (by rw [hholds.used]; exact hge)).mpr ⟨rfl, rfl⟩).eq_ok⟩

/-- A record of a bucket is an entry of the dictionary. -/
theorem Inv.entry_of_record (h : m.Inv S) (hD : Lists S D) (hb : b < m.container.layout.bucketsCount)
    {r : Record} (hr : r ∈ S.recs b) : D (r.hash, r.key) = some r.value := by
  obtain ⟨L, hL, hbL⟩ := List.mem_flatten.mp (h.mem_flatten hb hr)
  exact hD.some_of_mem (Shape.mem_records.mpr ⟨L, hL, b, hbL, hr⟩) ⟨rfl, rfl⟩

theorem Inv.genuine (hB : B < 2 ^ 31) (h : m.Inv S) (hD : Lists S D) (hb : b < m.container.layout.bucketsCount)
    (hx : Settled Record.size (S.recs b) o) : m.Genuine D b o := by
  have hholds := h.rep.holds b hb
  rcases h.read hB hb hx with ⟨hge, hread⟩ | ⟨pre, r, post, hrec, rfl, hread⟩
  · exact Or.inl ⟨by rw [hholds.used]; exact hge, hread⟩
  · refine Or.inr ⟨_, _, hread, ?_, ?_, ?_⟩
    · have := r.size_pos
      simp
      omega
    · rw [hholds.used, hrec]
      simp
    · have hmem : r ∈ S.recs b := by simp [hrec]
      rw [hrec] at hholds
      rw [Container.view_key hholds, Container.view_value hholds]
      exact h.entry_of_record hD hb hmem

/-- Links lead to buckets. -/
theorem Inv.next_lt (h : m.Inv S) (hb : b < m.container.layout.bucketsCount) {b' : ℕ}
    (hn : m.container.next b = some b') : b' < m.container.layout.bucketsCount := by
  rcases h.rep.owned.mem_iff.mpr hb with hb | hb
  · obtain ⟨L, hL, hbL⟩ := List.mem_flatten.mp hb
    obtain ⟨L₂, hs, hsub⟩ := (h.rep.owned.linked L hL).behind hbL
    rw [hn] at hs
    exact h.lt_count hL (hsub b' hs.head_mem)
  · obtain ⟨L₂, hs, hsub⟩ := h.rep.owned.freeLinked.behind hb
    rw [hn] at hs
    exact h.rep.owned.lt_of_mem_free (hsub b' hs.head_mem)

theorem Inv.entry_lt (h : m.Inv S) {i : ℕ} (hi : i < m.catalogue.layout.bufferSize) :
    m.entry i < m.container.layout.bucketsCount := by
  obtain ⟨L, hL, hhead⟩ := h.chain_of_entry (h.cat.bufferSize ▸ hi)
  exact h.lt_count hL (List.mem_of_mem_head? hhead)

/-- The search reads at settled offsets only. -/
theorem Inv.reads (h : m.Inv S) (hr : ConstIterator.Reads m it b o) :
    it.bucketId < m.container.layout.bucketsCount → Settled Record.size (S.recs it.bucketId) it.byteOffset →
    b < m.container.layout.bucketsCount ∧ Settled Record.size (S.recs b) o := by
  induction hr with
  | here it => exact fun hb hx => ⟨hb, hx⟩
  | link _ hn _ ih => exact fun hb _ => ih (h.next_lt hb hn) (Or.inl (boundary_zero _))
  | entry _ _ hi _ ih => exact fun _ _ => ih (h.entry_lt hi) (Or.inl (boundary_zero _))

/-- `operator++` reads records of the map only. -/
theorem Inv.nextReads (hB : B < 2 ^ 31) (h : m.Inv S) (hD : Lists S D) (hmap : it.map = true)
    (hp : m.Placed it) (hr : ConstIterator.NextReads m it b o) : m.Genuine D b o := by
  obtain ⟨hi, hb, -⟩ := hp hmap
  have hx := (h.placed_iff hmap hi hb).mp hp
  cases hr with
  | here => exact h.genuine hB hD hb hx
  | search hr =>
    have hadv : (ConstIterator.advance m it).bucketId = it.bucketId ∧
        Settled Record.size (S.recs it.bucketId) (ConstIterator.advance m it).byteOffset := by
      unfold ConstIterator.advance
      rcases h.read hB hb hx with ⟨-, hread⟩ | ⟨pre, r, post, hrec, -, hread⟩
      · rw [hread]
        exact ⟨rfl, hx⟩
      · rw [hread]
        exact ⟨rfl, Or.inl ⟨pre ++ [r], post, by simp [hrec], rfl⟩⟩
    obtain ⟨hb', hx'⟩ := h.reads hr (hadv.1.symm ▸ hb) (hadv.1.symm ▸ hadv.2)
    exact h.genuine hB hD hb' hx'

/-- From where it is placed, `operator++` goes on along a route. -/
theorem Inv.next_runs (hB : B < 2 ^ 31) (h : m.Inv S) (hmap : it.map = true) (hp : m.Placed it) :
    ∃ n, ∀ fuel, Prog.Runs (ConstIterator.next fuel it) m
      (fun it' m' => m' = m ∧ ∃ R, ConstIterator.Visits m S n it' R)
      (fun e _ => Container.Starved fuel n e) := by
  obtain ⟨hi, hb, -⟩ := hp hmap
  have hx := (h.placed_iff hmap hi hb).mp hp
  obtain ⟨T, hroute, hlt⟩ := h.route_from hb it.catalogueIndex
  have hlt' : ∀ x ∈ it.bucketId :: T, x < m.container.layout.bucketsCount := by
    intro x hx
    rcases List.mem_cons.mp hx with rfl | hx
    · exact hb
    · exact hlt x hx
  refine ⟨T.length, fun fuel => ?_⟩
  -- the offset behind the record, if there is one, is where the search begins
  have hgo : ∀ o todo, ConstIterator.Stands S it.bucketId o todo →
      Prog.Runs (ConstIterator.findNextRecord fuel { it with byteOffset := o }) m
        (fun it' m' => m' = m ∧ ∃ R, ConstIterator.Visits m S T.length it' R)
        (fun e _ => Container.Starved fuel T.length e) := by
    intro o todo hs
    have := ConstIterator.findNextRecord_runs hB h hroute fuel o todo hi hlt' hs
    rw [← hmap] at this
    exact this.mono (fun it' m' hv => ⟨hv.1, _, hv.2⟩) (fun _ _ he => he)
  unfold ConstIterator.next
  rw [Prog.runs_bind, runs_onDat]
  rcases h.read hB hb hx with ⟨hge, hread⟩ | ⟨pre, r, post, hrec, -, hread⟩
  · unfold Prog.Runs
    rw [hread]
    exact hgo _ [] (.past hge)
  · unfold Prog.Runs
    rw [hread]
    exact hgo _ post (.boundary (pre ++ [r]) post (by simp [hrec]) rfl)

theorem Inv.placed_of_visits (h : m.Inv S) {R : List Record} (hv : ConstIterator.Visits m S n it R) :
    m.Placed it := by
  intro hmap
  cases hv with
  | finished hm =>
    rw [hmap] at hm
    cases hm
  | record pre r todo T _ hi hrec hoff _ _ hlt =>
    have hb := hlt it.bucketId (by simp)
    exact ⟨hi, hb, _, h.rep.holds _ hb, Or.inl ⟨pre, r :: todo, hrec, hoff⟩⟩

/-- `operator*` shows key and value of an entry. -/
def Shows (m : HashMap B) (D : Contents) (it : ConstIterator) : Prop :=
  ∃ kv, ConstIterator.deref it m = .ok kv m ∧
    ∃ hash, D (hash, m.container.view kv.1) = some (m.container.view kv.2)

theorem Inv.shows (hB : B < 2 ^ 31) (h : m.Inv S) (hD : Lists S D) {R : List Record}
    (hv : ConstIterator.Visits m S n it R) (hmap : it.map = true) : m.Shows D it := by
  cases hv with
  | finished hm =>
    rw [hmap] at hm
    cases hm
  | record pre r todo T hm hi hrec hoff hroute hlen hlt =>
    have hb := hlt it.bucketId (by simp)
    obtain ⟨kv, m', hderef, rfl, hkey, hvalue⟩ := (ConstIterator.deref_runs (E := fun _ _ => False) hB h
      (.record pre r todo T hm hi hrec hoff hroute hlen hlt : ConstIterator.Visits m S n it _)).returns
      (fun _ _ he => he)
    refine ⟨kv, hderef, r.hash, ?_⟩
    rw [hkey, hvalue]
    exact h.entry_of_record hD hb (by simp [hrec])

/-- What `operator++` of an iterator does: it reads records of the map, and it returns with the iterator
placed, and at the end or on an entry. -/
structure Steps (m : HashMap B) (D : Contents) (it : ConstIterator) : Prop where
  reads : ∀ b o, ConstIterator.NextReads m it b o → m.Genuine D b o
  returns : ∃ n, ∀ fuel, n ≤ fuel → ∃ it', ConstIterator.next fuel it m = .ok it' m ∧ m.Placed it' ∧
    (it'.map = true → m.Shows D it')

theorem Inv.steps (hB : B < 2 ^ 31) (h : m.Inv S) (hD : Lists S D) (hmap : it.map = true)
    (hp : m.Placed it) : m.Steps D it := by
  refine ⟨fun b o hr => h.nextReads hB hD hmap hp hr, ?_⟩
  obtain ⟨n, hruns⟩ := h.next_runs hB hmap hp
  refine ⟨n + 1, fun fuel hf => ?_⟩
  obtain ⟨it', m', hnext, rfl, R, hv⟩ := (hruns fuel).returns (fun e _ he => by
    have := he.2
    omega)
  exact ⟨it', hnext, h.placed_of_visits hv, h.shows hB hD hv⟩

end HashMap

/-! ### Runs -/

/-- What happens to a map and an iterator over it. -/
inductive Event
  | next
  | call (c : Call)

/-- The iterator is incremented, which asks that it is not at the end, or a call returns. -/
def Moves (s : HashMap B × ConstIterator) (ev : Event) (_ : Unit) (s' : HashMap B × ConstIterator) : Prop :=
  match ev with
  | .next => s.2.map = true ∧ ∃ fuel, ConstIterator.next fuel s.2 s.1 = .ok s'.2 s'.1
  | .call c => (∃ answer, Step s.1 c answer s'.1) ∧ s'.2 = s.2

def Event.Undisturbed (m : HashMap B) (it : ConstIterator) : Event → Prop
  | .next => True
  | .call c => m.Undisturbed it c

/-- A move that does not disturb the iterator. -/
def Careful (s : HashMap B × ConstIterator) (ev : Event) (o : Unit) (s' : HashMap B × ConstIterator) : Prop :=
  Moves s ev o s' ∧ ev.Undisturbed s.1 s.2

/-- A move leaves a placed iterator placed just when it does not disturb it. -/
theorem moves_placed (hB : B < 2 ^ 31) {D : Contents} (hm : m.Represents D) (hp : m.Placed it) {ev : Event} {u : Unit}
    {s' : HashMap B × ConstIterator} (hs : Moves (m, it) ev u s') :
    (∃ D', s'.1.Represents D') ∧ (s'.1.Placed s'.2 ↔ ev.Undisturbed m it) := by
  obtain ⟨m', it'⟩ := s'
  cases ev with
  | next =>
    obtain ⟨S, h, hD⟩ := hm
    obtain ⟨hmap, fuel, hnext⟩ := hs
    obtain ⟨n, hruns⟩ := h.next_runs hB hmap hp
    obtain ⟨hm', R, hv⟩ := (hruns fuel).of_ok hnext
    dsimp only at hm' hv
    subst hm'
    exact ⟨⟨D, S, h, hD⟩, fun _ => trivial, fun _ => h.placed_of_visits hv⟩
  | call call =>
    obtain ⟨⟨answer, hstep⟩, hit⟩ := hs
    dsimp only at hstep hit
    subst hit
    obtain ⟨S, h, -⟩ := id hm
    exact ⟨⟨_, (HashMap.step_refines hB hm hstep).2⟩, HashMap.step_placed hB h hp hstep⟩

namespace Misled

/-- A record with an empty key. -/
def r₁ : Record := ⟨0, [], []⟩

/-- A record whose key looks like two records with an empty key. -/
def r₂ : Record := ⟨0, List.replicate 12 0, []⟩

theorem size_r₁ : r₁.size = 6 := by decide

theorem size_r₂ : r₂.size = 18 := by decide

/-- The shape with the two records in the first bucket. -/
def shape : Shape := ⟨[[0], [1]], [], Function.update (fun _ => []) 0 [r₁, r₂]⟩

end Misled

/-- A session after which the first bucket holds the two records. -/
theorem exists_misled : ∃ m : HashMap defaultBucketSize, Reachable m ∧ m.Inv Misled.shape := by
  obtain ⟨m₀, hnew⟩ := HashMap.new_returns (B := defaultBucketSize) Os.willing_grants false
  have h₀ := (HashMap.new_inv hnew).perm_chains (List.Perm.swap [0] [1] [])
  obtain ⟨p₀, q₀, hf₀⟩ := h₀.front_of_head 0 rfl (by rw [h₀.origin]; rfl)
  obtain ⟨a₁, v₁, m₁, hs₁, hw₁⟩ := HashMap.stored_uncrowded (r := Misled.r₁) defaultBucketSize_lt h₀ hf₀ rfl
    (by simp [HashMap.newShape, Shape.records]) (by decide) ((HashMap.new_count hnew).le.trans (by decide))
  have h₁ := hw₁.inv
  rw [Shape.write_first (by decide)] at h₁
  obtain ⟨p₁, q₁, hf₁⟩ := h₁.front_of_head 0 rfl (by rw [h₁.origin]; rfl)
  obtain ⟨a₂, v₂, m₂, hs₂, hw₂⟩ := HashMap.stored_uncrowded (r := Misled.r₂) defaultBucketSize_lt h₁ hf₁ rfl
    (by simp [HashMap.newShape, Shape.records, Record.Is, Misled.r₁, Misled.r₂]) (by decide)
    (by rw [h₁.count_eq]; decide)
  have h₂ := hw₂.inv
  rw [Shape.write_first (by decide)] at h₂
  have hshape : (⟨[[0], [1]], HashMap.newShape.free, Function.update (Function.update HashMap.newShape.recs 0
      (HashMap.newShape.recs 0 ++ [Misled.r₁])) 0 (Function.update HashMap.newShape.recs 0
      (HashMap.newShape.recs 0 ++ [Misled.r₁]) 0 ++ [Misled.r₂])⟩ : Shape) = Misled.shape := by
    simp [HashMap.newShape, Misled.shape]
  exact ⟨m₂, ⟨Os.willing, m₀, _, hnew, .cons hs₁ (.single hs₂)⟩, hshape ▸ h₂⟩

namespace Misled

/-- The iterator on the second record. -/
theorem position (hv : ConstIterator.Visits m shape n it [r₂]) : it = ⟨true, it.catalogueIndex, 0, 6⟩ := by
  obtain ⟨hmap, pre, todo, hrec, hoff⟩ := hv.stands
  obtain ⟨map, i, b, o⟩ := it
  have hb : b = 0 := by
    by_contra hne
    have hnil : Function.update (fun _ => []) 0 [r₁, r₂] b = pre ++ r₂ :: todo := hrec
    rw [Function.update_of_ne hne] at hnil
    simp at hnil
  subst hb
  have hpre : pre = [r₁] := by
    have hrec' : [r₁, r₂] = pre ++ r₂ :: todo := hrec
    cases pre with
    | nil => exact absurd (List.cons.inj hrec').1 (by decide)
    | cons x pre =>
      obtain ⟨rfl, hrec'⟩ := List.cons.inj hrec'
      cases pre with
      | nil => rfl
      | cons y pre =>
        have := congrArg List.length hrec'
        simp at this
  dsimp only at hmap hoff
  rw [hmap, hoff, hpre]
  rfl

/-- The first record is removed, and the second moves to its place. -/
theorem removed (hB : B < 2 ^ 31) (h : m.Inv shape) : ∃ m' S', Step m (.remove 0 []) (.removed true) m' ∧
    m'.Inv S' ∧ S'.recs 0 = [r₂] ∧ S'.records = [r₂] ∧ 0 < m'.container.layout.bucketsCount := by
  obtain ⟨b, m', hremove, hr⟩ := (HashMap.remove_runs hB h
    (m.container.layout.bucketsCount + 1) 0 []).returns (fun e _ he => by
      have := he.2.2
      omega)
  have hfirst : FirstAt (shape.recs 0) 0 [] [] r₁ [r₂] := ⟨rfl, ⟨rfl, rfl⟩, by simp⟩
  cases b with
  | false => exact absurd ⟨rfl, rfl⟩ (hr.2 r₁ (by simp [shape, Shape.records]))
  | true =>
    obtain ⟨i, pre, r, post, S', hrem, h', -⟩ := hr
    obtain ⟨L, hL, hiL⟩ := hrem.mem
    obtain ⟨rfl, rfl, rfl, rfl⟩ := h.firstAt_unique (h.lt_count hL hiL) (h.lt_count (L := [0]) (by simp [shape])
      (by simp)) hrem.first hfirst
    have hshape : S' = ⟨[[0], [1]], [], Function.update (fun _ => []) 0 [r₂]⟩ := by
      rw [hrem.shape]
      simp [shape]
    subst hshape
    exact ⟨m', _, ⟨_, Prog.bind_ok hremove _⟩, h', rfl, rfl, h'.lt_count (L := [0]) (by simp) (by simp)⟩

/-- The bytes of the second record are those of two records behind six more bytes. -/
theorem encode_r₂ : r₂.encode = [0, 0, 0, 0, 12, 0] ++ r₁.encode ++ r₁.encode := by
  have h0 : Vbe.write 0 = [0] := Vbe.write_small (by decide)
  have h12 : Vbe.write 12 = [12] := Vbe.write_small (by decide)
  simp only [Record.encode, r₁, r₂, List.length_nil, List.length_replicate, h0, h12]
  rfl

/-- From the position in the key the iterator goes on within the key. -/
theorem next_runs (h : m.Inv S) (hrec : S.recs 0 = [r₂]) (hb : 0 < m.container.layout.bucketsCount) (i : ℕ) :
    ConstIterator.next 1 ⟨true, i, 0, 6⟩ m = .ok ⟨true, i, 0, 12⟩ m ∧
    ∃ kv, ConstIterator.deref ⟨true, i, 0, 12⟩ m = .ok kv m ∧ m.container.view kv.1 = [] := by
  have hmap := h.rep.owned.mapped hb
  have hholds := h.rep.holds 0 hb
  rw [hrec] at hholds
  have hused : (m.container.layout.buckets 0).bytesUsed = 18 := by
    rw [hholds.used]
    decide
  obtain ⟨rest, hd⟩ := (show Bucket.Holds _ ([] ++ r₂ :: []) from hholds).data_eq
  rw [packed_nil, List.nil_append, List.nil_append, encode_r₂] at hd
  -- the two records that the key looks like
  have hat6 : (m.container.layout.buckets 0).data = [0, 0, 0, 0, 12, 0] ++ r₁.encode ++ (r₁.encode ++ rest) := by
    rw [hd]
    simp
  have hlen : ([0, 0, 0, 0, 12, 0] ++ r₁.encode).length = 12 := by
    rw [List.length_append, r₁.length_encode, size_r₁]
    rfl
  have hread6 := ((Container.runs_readRecord_at hmap hat6 (by decide) (by rw [hused]; decide)).mpr
    ⟨rfl, rfl⟩).eq_ok
  have hread12 := ((Container.runs_readRecord_at hmap hd (by decide) (by rw [hused, hlen]; decide)).mpr
    ⟨rfl, rfl⟩).eq_ok
  rw [hlen] at hread12
  have hnext : ConstIterator.findNextRecord 1 ⟨true, i, 0, 12⟩ m = .ok ⟨true, i, 0, 12⟩ m :=
    Prog.bind_ok (Prog.zoom_ok hread12) _
  exact ⟨(Prog.bind_ok (Prog.zoom_ok hread6) _).trans hnext, _, Prog.bind_ok (Prog.zoom_ok hread12) _, rfl⟩

end Misled

end DiskHash
