import DiskHash.Iteration
import Mathlib.Data.List.Pairwise

/-!
# DiskHash.Mutation — iterators over a map that changes

An iterator keeps a byte offset while calls move the bytes under it.  `Placed` is what it needs: the offset
is the start of a record or past the used bytes of its bucket.  `Undisturbed` says of a call and the state
before it when the call keeps the iterator placed; the sizes of the records that move decide it.
-/

namespace DiskHash

open Packing

/-! ### What a split leaves, computed from the shape before it -/

section Halves

variable (S : Shape) (B count : ℕ) (newBit : Hash) (L : List ℕ)

/-- The buckets of the new chain. -/
def Shape.newChain : List ℕ :=
  (List.range ((half1 B newBit (L.flatMap S.recs)).closed.length + 1)).map (S.supply count)

/-- The shape after the first chain `L` is split. -/
def Shape.halves (rest : List (List ℕ)) : Shape :=
  S.split B newBit L rest (S.newChain B count newBit L) (S.free.drop (S.newChain B count newBit L).length)

end Halves

theorem Container.Splits.newChain {B d b1 : ℕ} {c c' : Container B} {S : Shape} {L L₁ F : List ℕ}
    {rest : List (List ℕ)} {newBit : Hash} (h : Splits c S L rest d newBit L₁ F b1 c') :
    L₁ = S.newChain B c.layout.bucketsCount newBit L ∧ F = S.free.drop L₁.length := by
  refine ⟨h.supplied.trans ?_, h.free⟩
  rw [h.length1]
  rfl

namespace HashMap

variable {B : ℕ} {m m' : HashMap B} {S S' : Shape} {L : List ℕ} {rest : List (List ℕ)} {p q b x : ℕ}
  {r : Record} {hash : Hash} {key : Bytes}

instance (m : HashMap B) (S : Shape) (L : List ℕ) (p : ℕ) : Decidable (Divides m S L p) := by
  unfold Divides
  infer_instance

/-- Writing the record `r` to the chain `L` leaves the offset `x` of the bucket `b` alone: the record goes
elsewhere, or behind the offset, or ends before it. -/
def WriteKeeps (B : ℕ) (S : Shape) (count : ℕ) (L : List ℕ) (r : Record) (b x : ℕ) : Prop :=
  b = S.target B count r.size L →
    x ≤ total Record.size (S.held B r.size L) ∨ total Record.size (S.held B r.size L) + r.size ≤ x

/-- Storing the record `r` leaves the offset alone.  When the chain of the record is split first, the offset
must suit the records that the bucket has then. -/
def StoreKeeps (m : HashMap B) (S : Shape) (L : List ℕ) (rest : List (List ℕ)) (p : ℕ) (r : Record)
    (b x : ℕ) : Prop :=
  let count := m.container.layout.bucketsCount
  if Divides m S L p then
    let S₁ := S.halves B count (Inv.newBit p) L rest
    let new := S.newChain B count (Inv.newBit p) L
    let half := if r.hash &&& Inv.newBit p ≠ 0 then new else L.take (S.keep B (Inv.newBit p) L)
    Settled Record.size (S₁.recs b) x ∧ WriteKeeps B S₁ (count + (new.length - S.free.length)) half r b x
  else WriteKeeps B S count L r b x

/-- Removing the record of the hash and the key leaves the offset alone: the record is elsewhere or behind the
offset, or a record starts as many bytes behind the offset as are removed. -/
def RemoveKeeps (S : Shape) (hash : Hash) (key : Bytes) (b x : ℕ) : Prop :=
  ∀ pre r post, FirstAt (S.recs b) hash key pre r post → total Record.size pre < x →
    Settled Record.size (S.recs b) (x + r.size)

/-! ### What the calls do to the records of one bucket -/

/-- A bucket with a record is on a chain. -/
theorem Inv.mem_flatten (h : m.Inv S) (hb : b < m.container.layout.bucketsCount) (hr : r ∈ S.recs b) :
    b ∈ S.chains.flatten := by
  rcases h.rep.owned.mem_iff.mpr hb with hb | hb
  · exact hb
  · rw [h.rep.freeEmpty b hb] at hr
    cases hr

/-- A hash and a key are in one bucket only, in one place. -/
theorem Inv.firstAt_unique (h : m.Inv S) {i : ℕ} {pre pre' post post' : List Record} {r r' : Record}
    (hi : i < m.container.layout.bucketsCount) (hb : b < m.container.layout.bucketsCount)
    (hf : FirstAt (S.recs i) hash key pre r post) (hf' : FirstAt (S.recs b) hash key pre' r' post') :
    b = i ∧ pre' = pre ∧ r' = r ∧ post' = post := by
  have hr : r ∈ S.recs i := by simp [hf.split]
  have hr' : r' ∈ S.recs b := by simp [hf'.split]
  have hbi : b = i := by
    by_contra hne
    have hkeys := h.keys
    rw [Shape.records, List.map_flatMap, List.nodup_flatMap] at hkeys
    have : Std.Symm (Function.onFun List.Disjoint fun a => (S.recs a).map fun r => (r.hash, r.key)) :=
      ⟨fun _ _ hd _ hx hy => hd hy hx⟩
    have hdis := hkeys.2.forall (h.mem_flatten hb hr') (h.mem_flatten hi hr) hne
    refine hdis (a := (hash, key)) ?_ ?_
    · rw [← is_iff.mp hf'.is]
      exact List.mem_map_of_mem hr'
    · rw [← is_iff.mp hf.is]
      exact List.mem_map_of_mem hr
  subst hbi
  exact ⟨rfl, hf.unique hf'⟩

theorem removes_settled (h : m.Inv S) (hb : b < m.container.layout.bucketsCount)
    (hx : Settled Record.size (S.recs b) x) {i : ℕ} {pre post : List Record}
    (hrem : Removed S hash key i pre r post S') :
    Settled Record.size (S'.recs b) x ↔ RemoveKeeps S hash key b x := by
  obtain ⟨⟨L, hL, hiL⟩, hfirst, rfl⟩ := hrem
  have hi := h.lt_count hL hiL
  have hone := fun {pre' r' post'} (hf' : FirstAt (S.recs b) hash key pre' r' post') =>
    h.firstAt_unique hi hb hfirst hf'
  by_cases hbi : b = i
  · subst hbi
    rw [hfirst.split] at hx
    show Settled Record.size (Function.update S.recs b (pre ++ post) b) x ↔ _
    rw [Function.update_self, settled_erase hx, ← hfirst.split]
    refine ⟨fun hkeep pre' r' post' hf' hlt => ?_, fun hkeep => hkeep pre r post hfirst⟩
    obtain ⟨-, rfl, rfl, rfl⟩ := hone hf'
    exact hkeep hlt
  · show Settled Record.size (Function.update S.recs i (pre ++ post) b) x ↔ _
    rw [Function.update_of_ne hbi]
    exact ⟨fun _ pre' r' post' hf' _ => absurd (hone hf').1 hbi, fun _ => hx⟩

/-- Where the record is written. -/
theorem Wrote.settled {v : View} (hw : Wrote m S L rest r v m') (hb : b < m.container.layout.bucketsCount) :
    Settled Record.size ((S.write B m.container.layout.bucketsCount L rest r).recs b) x ↔
      Settled Record.size (S.recs b) x ∧ WriteKeeps B S m.container.layout.bucketsCount L r b x := by
  rw [S.write_recs]
  by_cases hbt : b = S.target B m.container.layout.bucketsCount r.size L
  · have hold := hw.old (hbt ▸ hb)
    unfold WriteKeeps
    rw [← hbt] at hold ⊢
    rw [Function.update_self, hold, settled_concat]
    simp
  · rw [Function.update_of_ne hbt]
    exact ⟨fun h => ⟨h, fun hc => absurd hc hbt⟩, fun h => h.1⟩

/-- What storing a record does to the records of one bucket. -/
theorem stored_settled {b' : ℕ} {m₁ : HashMap B} {S₁ : Shape} {L₁ : List ℕ} {rest₁ : List (List ℕ)} {v : View}
    (hx : Settled Record.size (S.recs b) x) (hb : b < m.container.layout.bucketsCount)
    (hm : MadeRoom m S L rest p r.hash (Divides m S L p) b' m₁ S₁ L₁ rest₁)
    (hw : Wrote m₁ S₁ L₁ rest₁ r v m') :
    Settled Record.size ((S₁.write B m₁.container.layout.bucketsCount L₁ rest₁ r).recs b) x ↔
      StoreKeeps m S L rest p r b x := by
  rw [hw.settled (hb.trans_le hm.count)]
  unfold StoreKeeps
  cases hm.divided with
  | keep hn hm₁ =>
    rw [if_neg hn, hm₁]
    exact ⟨fun h => h.2, fun h => ⟨hx, h⟩⟩
  | lower b1 L₁' F hd hbit hs =>
    obtain ⟨hL, hF⟩ := hs.newChain
    rw [if_pos hd, hs.count]
    simp only [if_neg hbit]
    subst hF
    subst hL
    exact Iff.rfl
  | upper b1 _ F hd hbit hs =>
    obtain ⟨hL, hF⟩ := hs.newChain
    rw [if_pos hd, hs.count]
    simp only [if_pos hbit]
    subst hF
    subst hL
    exact Iff.rfl

/-! ### Placed iterators -/

/-- The iterator is at the end, or where a record of its bucket starts, or past the records of its bucket. -/
def Placed (m : HashMap B) (it : ConstIterator) : Prop :=
  it.map = true → it.catalogueIndex < m.catalogue.layout.bufferSize ∧
    it.bucketId < m.container.layout.bucketsCount ∧
    ∃ rs, (m.container.layout.buckets it.bucketId).Holds rs ∧ Settled Record.size rs it.byteOffset

/-- The call leaves an iterator placed. -/
def Undisturbed (m : HashMap B) (it : ConstIterator) : Call → Prop
  | .get _ hash key default => it.map = true → ∀ S L rest p q, m.Inv S → Front m S hash L rest p q →
      (∀ r ∈ S.records, ¬ r.Is hash key) →
      StoreKeeps m S L rest p ⟨hash, key, default⟩ it.bucketId it.byteOffset
  | .find _ _ => True
  | .remove hash key => it.map = true → ∀ S, m.Inv S → RemoveKeeps S hash key it.bucketId it.byteOffset

section Placed

variable {it : ConstIterator} {call : Call} {answer : Answer} {default : Bytes} {v : View} {os : Os} {fuel : ℕ}

theorem Inv.placed_iff (h : m.Inv S) (hmap : it.map = true)
    (hi : it.catalogueIndex < m.catalogue.layout.bufferSize)
    (hb : it.bucketId < m.container.layout.bucketsCount) :
    m.Placed it ↔ Settled Record.size (S.recs it.bucketId) it.byteOffset := by
  have hholds := h.rep.holds _ hb
  constructor
  · intro hp
    obtain ⟨-, -, rs, hrs, hx⟩ := hp hmap
    rwa [hholds.unique hrs]
  · exact fun hx _ => ⟨hi, hb, _, hholds, hx⟩

theorem removed_placed (h : m.Inv S) (hmap : it.map = true) (hp : m.Placed it) {removed : Bool}
    (hr : Removes m S hash key m' removed) :
    m'.Placed it ↔ RemoveKeeps S hash key it.bucketId it.byteOffset := by
  obtain ⟨hi, hb, -⟩ := hp hmap
  cases removed with
  | false =>
    obtain ⟨rfl, habs⟩ := hr
    refine ⟨fun _ pre r post hf _ => ?_, fun _ => hp⟩
    have hr : r ∈ S.recs it.bucketId := by simp [hf.split]
    obtain ⟨L, hL, hbL⟩ := List.mem_flatten.mp (h.mem_flatten hb hr)
    exact absurd hf.is (habs r (Shape.mem_records.mpr ⟨L, hL, _, hbL, hr⟩))
  | true =>
    obtain ⟨i, pre, r, post, S', hrem, h', -, hcat, -, hcount⟩ := hr
    rw [h'.placed_iff hmap (hcat ▸ hi) (hcount.symm ▸ hb)]
    exact removes_settled h hb ((h.placed_iff hmap hi hb).mp hp) hrem

theorem got_placed (h : m.Inv S) {L : List ℕ} {rest : List (List ℕ)} (hL : L ∈ S.chains) (hmap : it.map = true)
    (hp : m.Placed it) (hg : Got m S L rest p hash key default v m') :
    m'.Placed it ↔ ((∀ r ∈ S.records, ¬ r.Is hash key) →
      StoreKeeps m S L rest p ⟨hash, key, default⟩ it.bucketId it.byteOffset) := by
  obtain ⟨hi, hb, -⟩ := hp hmap
  cases hg with
  | found hfind hm =>
    subst hm
    obtain ⟨i, pre, r, post, ⟨T, hT, hiT⟩, hrec, his, -⟩ := h.found hL hfind
    have hmem := Shape.mem_records.mpr ⟨T, hT, i, hiT, show r ∈ S.recs i by simp [hrec]⟩
    exact ⟨fun _ habs => absurd his (habs r hmem), fun _ => hp⟩
  | stored b' m₁ S₁ L₁ rest₁ habs hm hins hcat =>
    obtain ⟨hw, -⟩ := hm.stored habs hins hcat
    have hsize : m.catalogue.layout.bufferSize ≤ m'.catalogue.layout.bufferSize := by
      rw [hcat, h.cat.bufferSize, hm.inv.cat.bufferSize]
      exact Nat.pow_le_pow_right (by omega) hm.prefixBits
    rw [hw.inv.placed_iff hmap (hi.trans_le hsize) (hb.trans_le (hm.count.trans hw.count)),
      stored_settled ((h.placed_iff hmap hi hb).mp hp) hb hm hw]
    exact ⟨fun hk _ => hk, fun hk => hk habs⟩

/-- The call of `get` inside a call of the session. -/
theorem get_of_run (hrun : (Call.get os hash key default).run fuel m = .ok answer m') :
    ∃ v, get os fuel hash key default m = .ok v m' := by
  cases hget : get os fuel hash key default m with
  | ok v m₁ =>
    rw [Call.run, Prog.bind_ok hget] at hrun
    cases hrun
    exact ⟨v, rfl⟩
  | error e m₁ =>
    rw [Call.run, Prog.bind_error hget] at hrun
    cases hrun

/-- A call leaves a placed iterator placed just when it is undisturbed. -/
theorem step_placed (hB : B < 2 ^ 31) (h : m.Inv S) (hp : m.Placed it) (hs : Step m call answer m') :
    m'.Placed it ↔ m.Undisturbed it call := by
  obtain ⟨fuel, hrun⟩ := hs
  by_cases hmap : it.map = true
  · cases call with
    | get os hash key default =>
      obtain ⟨v, hget⟩ := get_of_run hrun
      have hgot := fun S L rest p q (h : m.Inv S) (hf : Front m S hash L rest p q) =>
        got_placed h (by rw [hf.chains]; simp) hmap hp ((get_runs hB os h hf fuel key default).of_ok hget)
      constructor
      · intro hp' _ S L rest p q hS hf
        exact (hgot S L rest p q hS hf).mp hp'
      · intro hund
        obtain ⟨L, rest, p, q, -, hS, hf⟩ := h.front hash
        exact (hgot _ L rest p q hS hf).mpr (hund hmap _ L rest p q hS hf)
    | find hash key =>
      have hruns : Prog.Runs ((Call.find hash key).run fuel) m (fun _ m' => m' = m) (fun _ _ => True) := by
        rw [Call.run, Prog.runs_bind]
        exact (find_runs hB h fuel hash key).mono (fun _ _ hr => hr.1) (fun _ _ _ => trivial)
      rw [hruns.of_ok hrun]
      exact ⟨fun _ => trivial, fun _ => hp⟩
    | remove hash key =>
      have hruns := fun S (h : m.Inv S) => show
          Prog.Runs ((Call.remove hash key).run fuel) m (fun _ m' => ∃ b, Removes m S hash key m' b)
            (fun _ _ => True) by
        rw [Call.run, Prog.runs_bind]
        exact (remove_runs hB h fuel hash key).mono (fun b _ hr => ⟨b, hr⟩) (fun _ _ _ => trivial)
      constructor
      · intro hp' _ S hS
        obtain ⟨b, hr⟩ := (hruns S hS).of_ok hrun
        exact (removed_placed hS hmap hp hr).mp hp'
      · intro hund
        obtain ⟨b, hr⟩ := (hruns S h).of_ok hrun
        exact (removed_placed h hmap hp hr).mpr (hund hmap S h)
  · refine ⟨fun _ => ?_, fun _ hc => absurd hc hmap⟩
    cases call with
    | get => exact fun hc => absurd hc hmap
    | find => trivial
    | remove => exact fun hc => absurd hc hmap

end Placed

end HashMap

end DiskHash
