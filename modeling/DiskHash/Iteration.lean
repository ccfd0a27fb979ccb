import DiskHash.Extendible
import DiskHash.Iterator
import DiskHash.Lib.Blocks

/-!
# DiskHash.Iteration — an iterator visits every record once

`Route m i b T`: from the bucket `b`, reached through the entry `i`, an iterator goes on to the buckets `T`.
The route from the first entry visits the buckets of all chains, each once, because the entries of a chain
are a block; along a route the records are read one by one.
-/

namespace DiskHash

namespace HashMap

variable {B : ℕ} {m : HashMap B} {S : Shape} {L : List ℕ} {b i j : ℕ}

/-- The next entry that differs from the one before it. -/
def nextEntry (m : HashMap B) (i : ℕ) : ℕ :=
  blockEnd m.entry (m.catalogue.layout.bufferSize - (i + 1)) (i + 1)

/-- The buckets that follow the bucket `b` when the catalogue index is `i`. -/
inductive Route (m : HashMap B) : ℕ → ℕ → List ℕ → Prop
  | link {i b b' : ℕ} {T : List ℕ} : m.container.next b = some b' → Route m i b' T → Route m i b (b' :: T)
  | entry {i b : ℕ} {T : List ℕ} : m.container.next b = none →
      m.nextEntry i < m.catalogue.layout.bufferSize → Route m (m.nextEntry i) (m.entry (m.nextEntry i)) T →
      Route m i b (m.entry (m.nextEntry i) :: T)
  | last {i b : ℕ} : m.container.next b = none → m.catalogue.layout.bufferSize ≤ m.nextEntry i → Route m i b []

/-- Along the rest of a chain. -/
theorem Route.along {T : List ℕ} (hend : ∀ x, m.container.next x = none → Route m i x T) :
    ∀ (L : List ℕ) (b : ℕ), Seg m.container.next (m.container.next b) L none → Route m i b (L ++ T)
  | [], _, hs => hend _ hs
  | k :: L, _, hs => .link hs.1 (along hend L k hs.2)

/-- The chains of a list of heads. -/
def ChainsOf (S : Shape) : List ℕ → List (List ℕ) → Prop :=
  List.Forall₂ fun b L => L ∈ S.chains ∧ L.head? = some b

theorem ChainsOf.heads {vs : List ℕ} {cs : List (List ℕ)} (h : ChainsOf S vs cs) :
    cs.map List.head? = vs.map some := by
  induction h with
  | nil => rfl
  | cons h _ ih => rw [List.map_cons, List.map_cons, h.2, ih]

theorem ChainsOf.subset {vs : List ℕ} {cs : List (List ℕ)} (h : ChainsOf S vs cs) : ∀ L ∈ cs, L ∈ S.chains := by
  induction h with
  | nil => simp
  | cons h _ ih =>
    intro L hL
    rcases List.mem_cons.mp hL with rfl | hL
    · exact h.1
    · exact ih L hL

/-- The entries of a chain are in one place. -/
theorem Inv.blockwise (h : m.Inv S) : Blockwise m.entry m.catalogue.layout.bufferSize := by
  intro i j k hij hjk hk heq
  rw [h.cat.bufferSize] at hk
  obtain ⟨L, hL, hhead⟩ := h.chain_of_entry (i := i) (by omega)
  obtain ⟨b, p, q, hc⟩ := h.cells L hL
  obtain rfl : m.entry i = b := Option.some.inj (hhead.symm.trans hc.head)
  have hi := (h.entry_iff hc (i := i) (by omega)).mp rfl
  have hk' := (h.entry_iff hc hk).mp heq.symm
  refine (h.entry_iff hc (by omega)).mpr (le_antisymm ?_ ?_)
  · rw [← hk']
    exact Nat.div_le_div_right hjk
  · rw [← hi]
    exact Nat.div_le_div_right hij

/-- The route behind the last bucket of a chain. -/
theorem Inv.exists_route (h : m.Inv S) {vs : List ℕ} (hv : Heads m.entry m.catalogue.layout.bufferSize j vs) :
    ∃ cs, ChainsOf S vs cs ∧
      ∀ i, m.nextEntry i = j → ∀ x, m.container.next x = none → Route m i x cs.flatten := by
  induction hv with
  | nil hj => exact ⟨[], .nil, fun i hi x hx => .last hx (hi ▸ hj)⟩
  | @cons j vs hj hvs ih =>
    obtain ⟨cs, hcs, hroute⟩ := ih
    obtain ⟨L, hL, hhead⟩ := h.chain_of_entry (h.cat.bufferSize ▸ hj)
    obtain ⟨L₂, rfl⟩ : ∃ L₂, L = m.entry j :: L₂ := by
      cases L with
      | nil => simp at hhead
      | cons k L₂ => exact ⟨L₂, by rw [Option.some.inj hhead]⟩
    have hlink := (h.rep.owned.linked _ hL).2
    refine ⟨_ :: cs, .cons ⟨hL, hhead⟩ hcs, ?_⟩
    rintro i rfl x hx
    exact .entry hx hj (Route.along (hroute (m.nextEntry i) rfl) L₂ _ hlink)

theorem Inv.entry_zero (h : m.Inv S) : m.entry 0 = 0 := by
  have := h.origin
  unfold Catalogue.lookup at this
  simpa [topBits, entry] using this

/-- The route from the first entry visits the buckets of all chains. -/
theorem Inv.route (h : m.Inv S) :
    ∃ T, Route m 0 (m.entry 0) T ∧ (m.entry 0 :: T).Perm S.chains.flatten := by
  have hpos : 0 < m.catalogue.layout.bufferSize := by
    rw [h.cat.bufferSize]
    exact Nat.two_pow_pos _
  obtain ⟨vs, hvs⟩ := exists_heads m.entry m.catalogue.layout.bufferSize 0
  have hmem := fun v => hvs.mem_iff (v := v)
  have hnodup := hvs.nodup h.blockwise
  cases hvs with
  | nil hle => omega
  | @cons _ vs _ hvs =>
    obtain ⟨cs, hcs, hroute⟩ := h.exists_route hvs
    obtain ⟨L, hL, hhead⟩ := h.chain_of_entry (i := 0) (Nat.two_pow_pos _)
    obtain ⟨L₂, rfl⟩ : ∃ L₂, L = m.entry 0 :: L₂ := by
      cases L with
      | nil => simp at hhead
      | cons k L₂ => exact ⟨L₂, by rw [Option.some.inj hhead]⟩
    have hchains : ChainsOf S (m.entry 0 :: vs) ((m.entry 0 :: L₂) :: cs) := .cons ⟨hL, hhead⟩ hcs
    refine ⟨L₂ ++ cs.flatten, Route.along (hroute 0 rfl) L₂ _ (h.rep.owned.linked _ hL).2, ?_⟩
    have hperm : ((m.entry 0 :: L₂) :: cs).Perm S.chains := by
      refine (List.perm_ext_iff_of_nodup ?_ h.chains_nodup).mpr (fun T => ⟨hchains.subset T, fun hT => ?_⟩)
      · refine List.Nodup.of_map List.head? ?_
        rw [hchains.heads]
        exact hnodup.map (Option.some_injective _)
      · obtain ⟨b, p, q, hc⟩ := h.cells T hT
        obtain ⟨k, hk, hkb⟩ := h.entry_of_chain hc
        have hb := (hmem b).mpr ⟨k, Nat.zero_le k, h.cat.bufferSize ▸ hk, hkb⟩
        have hsome : some b ∈ ((m.entry 0 :: L₂) :: cs).map List.head? := by
          rw [hchains.heads]
          exact List.mem_map_of_mem hb
        obtain ⟨T', hT', hhead'⟩ := List.mem_map.mp hsome
        rwa [h.head_unique hT (hchains.subset T' hT') hc.head hhead']
    have := hperm.flatten
    simpa using this

/-- Every bucket, also one that is free, is on a route. -/
theorem Inv.route_from (h : m.Inv S) (hb : b < m.container.layout.bucketsCount) (i : ℕ) :
    ∃ T, Route m i b T ∧ ∀ x ∈ T, x < m.container.layout.bucketsCount := by
  obtain ⟨vs, hvs⟩ := exists_heads m.entry m.catalogue.layout.bufferSize (m.nextEntry i)
  obtain ⟨cs, hcs, hroute⟩ := h.exists_route hvs
  have hbehind : ∃ L₂, Seg m.container.next (m.container.next b) L₂ none ∧
      ∀ x ∈ L₂, x < m.container.layout.bucketsCount := by
    rcases h.rep.owned.mem_iff.mpr hb with hb | hb
    · obtain ⟨L, hL, hbL⟩ := List.mem_flatten.mp hb
      obtain ⟨L₂, hs, hsub⟩ := (h.rep.owned.linked L hL).behind hbL
      exact ⟨L₂, hs, fun x hx => h.lt_count hL (hsub x hx)⟩
    · obtain ⟨L₂, hs, hsub⟩ := h.rep.owned.freeLinked.behind hb
      exact ⟨L₂, hs, fun x hx => h.rep.owned.lt_of_mem_free (hsub x hx)⟩
  obtain ⟨L₂, hs, hlt⟩ := hbehind
  refine ⟨L₂ ++ cs.flatten, Route.along (hroute i rfl) L₂ b hs, fun x hx => ?_⟩
  rcases List.mem_append.mp hx with hx | hx
  · exact hlt x hx
  · obtain ⟨L, hL, hxL⟩ := List.mem_flatten.mp hx
    exact h.lt_count (hcs.subset L hL) hxL

theorem Inv.route_length (h : m.Inv S) {T : List ℕ} (hperm : (b :: T).Perm S.chains.flatten) :
    T.length < m.container.layout.bucketsCount := by
  have hlen := hperm.length_eq
  have hcount := h.count_eq
  rw [List.length_cons] at hlen
  omega

end HashMap

namespace ConstIterator

open Packing HashMap

variable {B : ℕ} {m : HashMap B} {S : Shape} {it : ConstIterator} {r : Record} {R : List Record} {n : ℕ}
  {E : Fault → HashMap B → Prop}

/-- The iterator stands at the first of the records `R`, which it will visit, or at the end. -/
inductive Visits (m : HashMap B) (S : Shape) (n : ℕ) (it : ConstIterator) : List Record → Prop
  | finished : it.map = false → Visits m S n it []
  | record (pre : List Record) (r : Record) (todo : List Record) (T : List ℕ) : it.map = true →
      it.catalogueIndex < m.catalogue.layout.bufferSize → S.recs it.bucketId = pre ++ r :: todo →
      it.byteOffset = total Record.size pre → Route m it.catalogueIndex it.bucketId T → T.length ≤ n →
      (∀ b ∈ it.bucketId :: T, b < m.container.layout.bucketsCount) →
      Visits m S n it (r :: (todo ++ T.flatMap S.recs))

/-- The offset is where the records `todo` of the bucket begin, or past all records. -/
inductive Stands (S : Shape) (b offset : ℕ) : List Record → Prop
  | boundary (pre todo : List Record) : S.recs b = pre ++ todo → offset = total Record.size pre →
      Stands S b offset todo
  | past : total Record.size (S.recs b) ≤ offset → Stands S b offset []

theorem Visits.mono {n' : ℕ} (h : Visits m S n it R) (hn : n ≤ n') : Visits m S n' it R := by
  cases h with
  | finished hm => exact .finished hm
  | record pre r todo T hm hi hrec hoff hroute hlen hlt =>
    exact .record pre r todo T hm hi hrec hoff hroute (hlen.trans hn) hlt

/-- Where an iterator is that is about to visit a record. -/
theorem Visits.stands (h : Visits m S n it (r :: R)) : it.map = true ∧
    ∃ pre todo, S.recs it.bucketId = pre ++ r :: todo ∧ it.byteOffset = total Record.size pre := by
  cases h with
  | record pre r todo T hm hi hrec hoff => exact ⟨hm, pre, todo, hrec, hoff⟩

/-- Entries that equal the one before are passed. -/
theorem skipEntries_runs (h : m.Inv S) : ∀ (n i : ℕ), i + n ≤ m.catalogue.layout.bufferSize →
    Prog.Runs (skipEntries n i) m (fun j m' => m' = m ∧ j = blockEnd m.entry n i) E
  | 0, _, _ => ⟨rfl, rfl⟩
  | n + 1, i, hn => by
    rw [h.cat.bufferSize] at hn
    rw [skipEntries, Prog.runs_bind, runs_onCat, Catalogue.runs_entry (h.cat.mapped (by omega)), Prog.runs_bind,
      runs_onCat, Catalogue.runs_entry (h.cat.mapped (by omega)), blockEnd]
    refine Prog.runs_ite (fun heq => ?_) (fun hne => ⟨rfl, (if_neg hne).symm⟩)
    refine (skipEntries_runs h n (i + 1) (by rw [h.cat.bufferSize]; omega)).mono ?_ (fun _ _ he => he)
    rintro j m' ⟨rfl, rfl⟩
    exact ⟨rfl, (if_pos heq).symm⟩

/-- A bucket without a record at the offset is left for the next one of the chain, or for that of the next
entry. -/
theorem findNextRecord_leaves (h : m.Inv S) {i b offset fuel : ℕ} (hi : i < m.catalogue.layout.bufferSize)
    (hb : b < m.container.layout.bucketsCount) (hoff : total Record.size (S.recs b) ≤ offset)
    {Q : ConstIterator → HashMap B → Prop}
    (hgo : ∀ b', m.container.next b = some b' → Prog.Runs (findNextRecord fuel ⟨true, i, b', 0⟩) m Q E)
    (hend : m.container.next b = none → m.catalogue.layout.bufferSize ≤ m.nextEntry i →
      Q ⟨false, m.nextEntry i, b, offset⟩ m)
    (hentry : m.container.next b = none → m.nextEntry i < m.catalogue.layout.bufferSize →
      Prog.Runs (findNextRecord fuel ⟨true, m.nextEntry i, m.entry (m.nextEntry i), 0⟩) m Q E) :
    Prog.Runs (findNextRecord (fuel + 1) ⟨true, i, b, offset⟩) m Q E := by
  have hm := h.rep.owned.mapped hb
  rw [findNextRecord, Prog.runs_bind, runs_onDat,
    Container.runs_readRecord_past hm (by rw [(h.rep.holds b hb).used]; exact hoff), Prog.runs_bind, runs_onDat,
    Container.runs_bucketAt hm]
  cases hn : (m.container.layout.buckets b).nextBucketId with
  | some b' => exact hgo b' hn
  | none =>
    simp only [Prog.runs_bind, Prog.runs_get]
    refine (skipEntries_runs h _ (i + 1) (by omega)).mono ?_ (fun _ _ he => he)
    rintro j m' ⟨rfl, rfl⟩
    refine Prog.runs_ite (fun hle => hend hn hle) (fun hlt => ?_)
    have hlt' := Nat.lt_of_not_le hlt
    rw [Prog.runs_bind, runs_onCat, Catalogue.runs_entry (h.cat.mapped (h.cat.bufferSize ▸ hlt'))]
    exact hentry hn hlt'

/-- An iterator at the end of the records of its bucket is past them. -/
theorem Stands.total_le {b offset : ℕ} (hs : Stands S b offset []) : total Record.size (S.recs b) ≤ offset := by
  cases hs with
  | boundary pre _ hrec hoff => rw [hrec, List.append_nil, hoff]
  | past hle => exact hle

/-- A record at the offset is the one to visit. -/
theorem findNextRecord_stays (hB : B < 2 ^ 31) (h : m.Inv S) {i b offset : ℕ} {T : List ℕ} {r : Record}
    {todo : List Record} {E : Fault → HashMap B → Prop} (hroute : Route m i b T)
    (hi : i < m.catalogue.layout.bufferSize) (hlt : ∀ b' ∈ b :: T, b' < m.container.layout.bucketsCount)
    (hs : Stands S b offset (r :: todo)) (fuel : ℕ) :
    Prog.Runs (findNextRecord (fuel + 1) ⟨true, i, b, offset⟩) m
      (fun it m' => m' = m ∧ Visits m S T.length it (r :: todo ++ T.flatMap S.recs)) E := by
  cases hs with
  | boundary pre _ hrec hoff =>
    subst hoff
    have hb := hlt b (by simp)
    rw [findNextRecord, Prog.runs_bind, runs_onDat,
      Container.runs_readRecord hB (h.rep.owned.mapped hb) (h.rep.holds b hb) hrec]
    exact ⟨rfl, .record pre r todo T rfl hi hrec rfl hroute le_rfl hlt⟩

/-- From a place on a route the iterator goes on to the first record there is. -/
theorem findNextRecord_runs (hB : B < 2 ^ 31) (h : m.Inv S) {i b : ℕ} {T : List ℕ} (hroute : Route m i b T) :
    ∀ (fuel offset : ℕ) (todo : List Record), i < m.catalogue.layout.bufferSize →
      (∀ b' ∈ b :: T, b' < m.container.layout.bucketsCount) → Stands S b offset todo →
      Prog.Runs (findNextRecord fuel ⟨true, i, b, offset⟩) m
        (fun it m' => m' = m ∧ Visits m S T.length it (todo ++ T.flatMap S.recs))
        (fun e _ => Container.Starved fuel T.length e) := by
  induction hroute with
  | @link i b b' T hn hr ih =>
    intro fuel offset todo hi hlt hs
    cases fuel with
    | zero => exact ⟨rfl, Nat.zero_le _⟩
    | succ fuel =>
      cases todo with
      | cons r todo => exact findNextRecord_stays hB h (.link hn hr) hi hlt hs fuel
      | nil =>
        refine findNextRecord_leaves h hi (hlt b (by simp)) hs.total_le (fun b₂ hb₂ => ?_)
          (fun hc => ?_) (fun hc => ?_)
        · obtain rfl : b' = b₂ := Option.some.inj (hn.symm.trans hb₂)
          refine (ih fuel 0 (S.recs b') hi (fun x hx => hlt x (List.mem_cons_of_mem _ hx))
            (.boundary [] _ rfl rfl)).mono ?_ (fun e _ he => ⟨he.1, Nat.succ_le_succ he.2⟩)
          rintro it m' ⟨rfl, hv⟩
          exact ⟨rfl, hv.mono (Nat.le_succ _)⟩
        · rw [hn] at hc
          cases hc
        · rw [hn] at hc
          cases hc
  | @entry i b T hn hj hr ih =>
    intro fuel offset todo hi hlt hs
    cases fuel with
    | zero => exact ⟨rfl, Nat.zero_le _⟩
    | succ fuel =>
      cases todo with
      | cons r todo => exact findNextRecord_stays hB h (.entry hn hj hr) hi hlt hs fuel
      | nil =>
        refine findNextRecord_leaves h hi (hlt b (by simp)) hs.total_le (fun b₂ hb₂ => ?_)
          (fun _ hle => absurd hj (Nat.not_lt.mpr hle)) (fun _ _ => ?_)
        · rw [hn] at hb₂
          cases hb₂
        · refine (ih fuel 0 (S.recs (m.entry (m.nextEntry i))) hj (fun x hx => hlt x (List.mem_cons_of_mem _ hx))
            (.boundary [] _ rfl rfl)).mono ?_ (fun e _ he => ⟨he.1, Nat.succ_le_succ he.2⟩)
          rintro it m' ⟨rfl, hv⟩
          exact ⟨rfl, hv.mono (Nat.le_succ _)⟩
  | @last i b hn hj =>
    intro fuel offset todo hi hlt hs
    cases fuel with
    | zero => exact ⟨rfl, Nat.zero_le _⟩
    | succ fuel =>
      cases todo with
      | cons r todo => exact findNextRecord_stays hB h (.last hn hj) hi hlt hs fuel
      | nil =>
        refine findNextRecord_leaves h hi (hlt b (by simp)) hs.total_le (fun b₂ hb₂ => ?_)
          (fun _ _ => ⟨rfl, .finished rfl⟩) (fun _ hlt' => absurd hlt' (Nat.not_lt.mpr hj))
        rw [hn] at hb₂
        cases hb₂

/-- `operator++` goes on to the next record. -/
theorem next_runs (hB : B < 2 ^ 31) (h : m.Inv S) (hv : Visits m S n it (r :: R)) (fuel : ℕ) :
    Prog.Runs (next fuel it) m (fun it' m' => m' = m ∧ Visits m S n it' R)
      (fun e _ => Container.Starved fuel n e) := by
  cases hv with
  | record pre r todo T hm hi hrec hoff hroute hlen hlt =>
    obtain ⟨map, i, b, offset⟩ := it
    dsimp only at hm hi hrec hoff hroute hlt
    subst hm hoff
    have hb := hlt b (by simp)
    unfold next
    rw [Prog.runs_bind, runs_onDat,
      Container.runs_readRecord hB (h.rep.owned.mapped hb) (h.rep.holds b hb) hrec]
    refine (findNextRecord_runs hB h hroute fuel _ todo hi hlt
      (.boundary (pre ++ [r]) todo (by simp [hrec]) rfl)).mono ?_ (fun _ _ he => ⟨he.1, he.2.trans hlen⟩)
    rintro it' m' ⟨rfl, hv⟩
    exact ⟨rfl, hv.mono hlen⟩

/-- `operator*` shows key and value of the record. -/
theorem deref_runs (hB : B < 2 ^ 31) (h : m.Inv S) (hv : Visits m S n it (r :: R)) :
    Prog.Runs (deref it) m (fun v m' => m' = m ∧ m.container.view v.1 = r.key ∧
      m.container.view v.2 = r.value) E := by
  cases hv with
  | record pre r todo T hm hi hrec hoff hroute hlen hlt =>
    have hb := hlt it.bucketId (by simp)
    have hholds := h.rep.holds _ hb
    unfold deref
    rw [Prog.runs_bind, runs_onDat, hoff, Container.runs_readRecord hB (h.rep.owned.mapped hb) hholds hrec]
    rw [hrec] at hholds
    exact ⟨rfl, Container.view_key hholds, Container.view_value hholds⟩

/-- A new iterator is about to visit the records of all buckets on the route. -/
theorem atBegin_runs (hB : B < 2 ^ 31) (h : m.Inv S) {T : List ℕ} (hroute : Route m 0 (m.entry 0) T)
    (hperm : (m.entry 0 :: T).Perm S.chains.flatten) (fuel : ℕ) :
    Prog.Runs (atBegin fuel) m
      (fun it m' => m' = m ∧ Visits m S T.length it ((m.entry 0 :: T).flatMap S.recs))
      (fun e _ => Container.Starved fuel T.length e) := by
  have hpos : 0 < m.catalogue.layout.bufferSize := by
    rw [h.cat.bufferSize]
    exact Nat.two_pow_pos _
  have hlt : ∀ b ∈ m.entry 0 :: T, b < m.container.layout.bucketsCount := fun b hb =>
    h.rep.owned.mem_iff.mp (Or.inl (hperm.mem_iff.mp hb))
  unfold atBegin
  rw [Prog.runs_bind, Prog.runs_get]
  refine Prog.runs_ite (fun _ => ?_) (fun hn => absurd hpos hn)
  rw [Prog.runs_bind, runs_onCat, Catalogue.runs_entry (h.cat.mapped (Nat.two_pow_pos _))]
  exact findNextRecord_runs hB h hroute fuel 0 (S.recs (m.entry 0)) hpos hlt (.boundary [] _ rfl rfl)

/-- The loop copies the records the iterator visits, in as many turns as there are records. -/
theorem collect_runs (hB : B < 2 ^ 31) (h : m.Inv S) (fuel : ℕ) (hv : Visits m S n it R) (steps : ℕ) :
    Prog.Runs (collect fuel steps it) m
      (fun l m' => m' = m ∧ R.length ≤ steps ∧ l = R.map fun r => (r.key, r.value))
      (fun e _ => e = .outOfFuel ∧ (steps < R.length ∨ fuel ≤ n)) := by
  induction R generalizing it steps with
  | nil =>
    cases hv with
    | finished hm =>
      have heq : it.equal atEnd = true := by simp [equal, atEnd, hm]
      cases steps <;>
        · rw [collect, if_pos heq]
          exact ⟨rfl, Nat.zero_le _, rfl⟩
  | cons r R ih =>
    have hne : ¬ it.equal atEnd = true := by
      cases hv with
      | record pre r todo T hm => simp [equal, atEnd, hm]
    cases steps with
    | zero =>
      rw [collect, if_neg hne]
      exact ⟨rfl, Or.inl (Nat.zero_lt_succ _)⟩
    | succ steps =>
      rw [collect, if_neg hne, Prog.runs_bind]
      refine (deref_runs hB h hv).mono ?_ (fun _ _ he => False.elim he)
      rintro ⟨key, value⟩ m' ⟨rfl, hkey, hvalue⟩
      simp only [Prog.runs_bind, Prog.runs_get]
      refine (next_runs hB h hv fuel).mono ?_ (fun _ _ he => ⟨he.1, Or.inr he.2⟩)
      rintro it' m'' ⟨rfl, hv'⟩
      refine (ih hv' steps).mono ?_ (fun e _ he => ⟨he.1, by simpa using he.2⟩)
      rintro l m₃ ⟨rfl, hle, rfl⟩
      rw [Prog.runs_pure]
      exact ⟨rfl, by simpa using hle, by rw [List.map_cons, ← hkey, ← hvalue]⟩

/-- The loop of a new iterator copies all records, each once, in as many turns as there are records. -/
theorem loop_runs (hB : B < 2 ^ 31) (h : m.Inv S) : ∃ es : List Record, es.Perm S.records ∧
    ∀ fuel steps, Prog.Runs (atBegin fuel >>= collect fuel steps) m
      (fun l m' => m' = m ∧ es.length ≤ steps ∧ l = es.map fun r => (r.key, r.value))
      (fun e _ => e = .outOfFuel ∧ (steps < es.length ∨ fuel < m.container.layout.bucketsCount)) := by
  obtain ⟨T, hroute, hperm⟩ := h.route
  have hlen := h.route_length hperm
  refine ⟨(m.entry 0 :: T).flatMap S.recs, hperm.flatMap_right S.recs, fun fuel steps => ?_⟩
  rw [Prog.runs_bind]
  refine (atBegin_runs hB h hroute hperm fuel).mono ?_ (fun _ _ he => ⟨he.1, Or.inr (he.2.trans_lt hlen)⟩)
  rintro it m' ⟨rfl, hv⟩
  exact (collect_runs hB h fuel hv steps).mono (fun _ _ hc => hc)
    (fun _ _ he => ⟨he.1, he.2.imp_right fun hle => hle.trans_lt hlen⟩)

end ConstIterator

/-- After every session an iterator visits the entries of the dictionary, each once, and then is at the end:
the loop returns in as many turns as there are entries, and in no fewer. -/
theorem iteration_complete {os : Os} {m₀ m : HashMap defaultBucketSize} {tr : List (Call × Answer)}
    (hnew : HashMap.new os false (Files.empty defaultBucketSize) = .ok m₀) (hrun : Run Step m₀ tr m) :
    ∃ es : List Record,
      Dict.Lists (fun r : Record => (r.hash, r.key)) Record.value es
        (replay dictionary Dict.empty (tr.map Prod.fst)).2 ∧
      ∃ n, ∀ fuel, n ≤ fuel →
        (∀ steps, es.length ≤ steps → (ConstIterator.atBegin fuel >>= ConstIterator.collect fuel steps) m =
          .ok (es.map fun r => (r.key, r.value)) m) ∧
        ∀ steps, steps < es.length → ∀ l m',
          (ConstIterator.atBegin fuel >>= ConstIterator.collect fuel steps) m ≠ .ok l m' := by
  obtain ⟨-, S, h, hD⟩ := session_refines defaultBucketSize_lt hnew hrun
  obtain ⟨es, hperm, hloop⟩ := ConstIterator.loop_runs defaultBucketSize_lt h
  refine ⟨es, Dict.Lists.perm hD hperm.symm, m.container.layout.bucketsCount, fun fuel hf =>
    ⟨fun steps hle => ?_, fun steps hlt l m' hrun' => ?_⟩⟩
  · obtain ⟨l, m', hrun', rfl, -, rfl⟩ := (hloop fuel steps).returns (fun e _ he => by
      have := he.2
      omega)
    exact hrun'
  · have := ((hloop fuel steps).of_ok hrun').2.1
    omega

/-- An iterator over a map with one entry. -/
theorem iteration_complete_session : ∃ m : HashMap defaultBucketSize, ∃ es : List Record,
    Dict.Lists (fun r : Record => (r.hash, r.key)) Record.value es
      (replay dictionary Dict.empty [Call.get Os.willing 7 [1] [2]]).2 ∧
    ∃ fuel, (ConstIterator.atBegin fuel >>= ConstIterator.collect fuel es.length) m =
      .ok (es.map fun r => (r.key, r.value)) m := by
  obtain ⟨m₀, hnew⟩ := HashMap.new_returns (B := defaultBucketSize) Os.willing_grants false
  obtain ⟨n, h⟩ := HashMap.call_returns defaultBucketSize_lt (HashMap.new_represents hnew)
    (.get Os.willing 7 [1] [2]) ⟨by decide, Os.willing_grants, (HashMap.new_count hnew).le.trans (by decide)⟩
  obtain ⟨a, m, hrun⟩ := h n le_rfl
  obtain ⟨es, hes, fuel, hloop⟩ := iteration_complete hnew (.single (show Step m₀ _ a m from ⟨n, hrun⟩))
  exact ⟨m, es, hes, fuel, (hloop fuel le_rfl).1 es.length le_rfl⟩

end DiskHash
