import DiskHash.Invariant

/-!
# DiskHash.Map — the calls of the map keep its invariant

`find`, `remove` and `get` are specified against the shape of the map.  `get` first makes room: the
catalogue may be doubled and the chain of the hash may be split, which only reorders the records
(`MadeRoom`); then the record is written.
-/

namespace DiskHash.HashMap

open Packing

variable {B : ℕ} {m m' : HashMap B} {S S' : Shape} {hash : Hash} {key : Bytes} {α : Type}

@[simp] theorem runs_onCat {x : Prog Fault Catalogue α} {Q : α → HashMap B → Prop}
    {E : Fault → HashMap B → Prop} : Prog.Runs (onCat x) m Q E ↔
      Prog.Runs x m.catalogue (fun a c => Q a { m with catalogue := c })
        (fun e c => E e { m with catalogue := c }) := Prog.runs_zoom _ _ _

@[simp] theorem runs_onDat {x : Prog Fault (Container B) α} {Q : α → HashMap B → Prop}
    {E : Fault → HashMap B → Prop} : Prog.Runs (onDat x) m Q E ↔
      Prog.Runs x m.container (fun a c => Q a { m with container := c })
        (fun e c => E e { m with container := c }) := Prog.runs_zoom _ _ _

/-- The buckets of a chain, as the operations on records want them. -/
theorem Inv.chain (h : m.Inv S) {L : List ℕ} (hL : L ∈ S.chains) {b : ℕ} (hb : L.head? = some b) :
    Seg m.container.next (some b) L none ∧
      ∀ i ∈ L, m.container.Mapped i ∧ (m.container.layout.buckets i).Holds (S.recs i) :=
  ⟨hb ▸ h.rep.owned.linked L hL, fun _ hi => ⟨h.rep.mapped hL hi, h.rep.holds_of_mem hL hi⟩⟩

/-! ### find and remove -/

theorem find_runs (hB : B < 2 ^ 31) (h : m.Inv S) (fuel : ℕ) (hash : Hash) (key : Bytes) :
    Prog.Runs (find fuel hash key) m
      (fun o m' => m' = m ∧ ∃ L ∈ S.chains, L.head? = some (m.catalogue.lookup hash) ∧
        Container.Finds L S.recs hash key o)
      (fun e m' => m' = m ∧ Container.Starved fuel m.container.layout.bucketsCount e) := by
  obtain ⟨L, hL, hhead⟩ := h.entries hash
  obtain ⟨hseg, hbuckets⟩ := h.chain hL hhead
  unfold find
  rw [Prog.runs_bind, runs_onCat, h.cat.runs_find, runs_onDat]
  refine (Container.findRecord_runs hB L fuel _ hseg hbuckets).mono ?_ ?_
  · rintro o c ⟨rfl, ho⟩
    exact ⟨rfl, L, hL, hhead, ho⟩
  · rintro e c ⟨rfl, rfl, hf⟩
    exact ⟨rfl, rfl, hf.le.trans (h.length_le hL)⟩

/-- What `find` returns, seen from the list of all records. -/
theorem Inv.found (h : m.Inv S) {L : List ℕ} (hL : L ∈ S.chains) {v : View}
    (hf : Container.Finds L S.recs hash key (some v)) :
    ∃ i pre r post, (∃ L ∈ S.chains, i ∈ L) ∧ S.recs i = pre ++ r :: post ∧ r.Is hash key ∧
      v = Bucket.valueView i pre r ∧ m.container.view v = r.value := by
  obtain ⟨L₁, i, pre, r, post, hloc, rfl⟩ := hf
  refine ⟨i, pre, r, post, ⟨L, hL, hloc.mem⟩, hloc.first.split, hloc.first.is, rfl, ?_⟩
  have := h.rep.holds_of_mem hL hloc.mem
  rw [hloc.first.split] at this
  exact Container.view_value this

/-- The shape after the record `r` of the bucket `i` was removed. -/
structure Removed (S : Shape) (hash : Hash) (key : Bytes) (i : ℕ) (pre : List Record) (r : Record)
    (post : List Record) (S' : Shape) : Prop where
  mem : ∃ L ∈ S.chains, i ∈ L
  first : FirstAt (S.recs i) hash key pre r post
  shape : S' = { S with recs := Function.update S.recs i (pre ++ post) }

/-- What `remove` did. -/
def Removes (m : HashMap B) (S : Shape) (hash : Hash) (key : Bytes) (m' : HashMap B) : Bool → Prop
  | false => m' = m ∧ ∀ r ∈ S.records, ¬ r.Is hash key
  | true => ∃ i pre r post S', Removed S hash key i pre r post S' ∧ m'.Inv S' ∧
      S.records.Perm (r :: S'.records) ∧ m'.catalogue = m.catalogue ∧
      (∀ j, j ≠ i → m'.container.layout.buckets j = m.container.layout.buckets j) ∧
      m'.container.layout.bucketsCount = m.container.layout.bucketsCount

theorem remove_runs (hB : B < 2 ^ 31) (h : m.Inv S) (fuel : ℕ) (hash : Hash) (key : Bytes) :
    Prog.Runs (remove fuel hash key) m (fun b m' => Removes m S hash key m' b)
      (fun e m' => m' = m ∧ Container.Starved fuel m.container.layout.bucketsCount e) := by
  obtain ⟨L, hL, hhead⟩ := h.entries hash
  obtain ⟨hseg, hbuckets⟩ := h.chain hL hhead
  unfold remove
  rw [Prog.runs_bind, runs_onCat, h.cat.runs_find, runs_onDat]
  refine (Container.removeRecord_runs hB L fuel _ hseg hbuckets).mono (fun o c hr => ?_) ?_
  · cases o with
    | false => exact ⟨by rw [hr.2], (h.absent_iff hL hhead).mp hr.1⟩
    | true =>
      obtain ⟨L₁, i, pre, r, post, hloc, b, rfl, hb, hn, hp⟩ := hr
      have hi := hloc.mem
      have hnodup := (List.nodup_append.mp h.rep.owned.nodup).1
      have hrec := Shape.records_erase hnodup hL hi hloc.first.split
      have hkeys := (hrec.map fun r => (r.hash, r.key)).nodup_iff.mp h.keys
      refine ⟨i, pre, r, post, _, ⟨⟨L, hL, hi⟩, hloc.first, rfl⟩,
        h.setBucket hL hi hb hn hp (fun x hx => Or.inl ?_) (List.nodup_cons.mp hkeys).2, hrec, rfl,
        fun j hj => Container.setBucket_of_ne hj b, rfl⟩
      rw [hloc.first.split]
      simp only [List.mem_append, List.mem_cons] at hx ⊢
      tauto
  · rintro e c ⟨rfl, rfl, hf⟩
    exact ⟨rfl, rfl, hf.le.trans (h.length_le hL)⟩

/-! ### Making room -/

/-- How `get` ends without an answer. -/
inductive GetFails (os : Os) (m : HashMap B) (fuel bound : ℕ) (e : Fault) : Prop
  | starved : Container.Starved fuel bound e → GetFails os m fuel bound e
  | refused : e = .systemError → ¬ os.Grants → GetFails os m fuel bound e
  | overgrown : e = .badShift → 2 ^ 32 < m.container.layout.bucketsCount → GetFails os m fuel bound e

/-- A chain that `bucket_to_split` wants split: three buckets or more, or two that are well filled. -/
def crowded (B : ℕ) (recs : ℕ → List Record) : List ℕ → Bool
  | [i, j] => decide (3 * B / 2 < total Record.size (recs i) + total Record.size (recs j))
  | _ :: _ :: _ :: _ => true
  | _ => false

theorem crowded_pair (recs : ℕ → List Record) (i j : ℕ) : crowded B recs [i, j] =
    decide (3 * B / 2 < total Record.size (recs i) + total Record.size (recs j)) := rfl

theorem bucketToSplit_runs {c : Container B} (hrep : c.Rep S) {L : List ℕ} (hL : L ∈ S.chains) {b : ℕ}
    (hb : L.head? = some b) {E : Fault → Container B → Prop} :
    Prog.Runs (Container.bucketToSplit b) c (fun o c' => c' = c ∧ o = crowded B S.recs L) E := by
  have hlink := hrep.owned.linked L hL
  have hused := fun i (hi : i ∈ L) => (hrep.holds_of_mem hL hi).used
  have hm := fun i (hi : i ∈ L) => hrep.mapped hL hi
  unfold Container.bucketToSplit
  rw [Prog.runs_bind, Container.runs_bucketAt (hm b (List.mem_of_mem_head? hb))]
  match L, hb with
  | [i], rfl =>
    have hnext : (c.layout.buckets i).nextBucketId = none := hlink.2
    rw [hnext]
    exact ⟨rfl, rfl⟩
  | [i, j], rfl =>
    have hnext : (c.layout.buckets i).nextBucketId = some j := hlink.2.1
    have hnext' : (c.layout.buckets j).nextBucketId = none := hlink.2.2
    simp only [hnext, Prog.runs_bind]
    rw [Container.runs_bucketAt (hm j (by simp)), hnext', if_neg (by simp)]
    exact ⟨rfl, by rw [crowded, hused i (by simp), hused j (by simp)]⟩
  | i :: j :: k :: T, rfl =>
    have hnext : (c.layout.buckets i).nextBucketId = some j := hlink.2.1
    have hnext' : (c.layout.buckets j).nextBucketId = some k := hlink.2.2.1
    simp only [hnext, Prog.runs_bind]
    rw [Container.runs_bucketAt (hm j (by simp)), hnext', if_pos (by simp)]
    exact ⟨rfl, rfl⟩

/-- `get` splits the chain, whose depth is `p`: it is crowded, and less deep than the catalogue, which may
grow for it. -/
def Divides (m : HashMap B) (S : Shape) (L : List ℕ) (p : ℕ) : Prop :=
  crowded B S.recs L = true ∧ (p < m.catalogue.layout.prefixBits ∨
    2 ^ m.catalogue.layout.prefixBits < m.container.layout.bucketsCount)

/-- What `get` does to the chain `L` before it writes the record: nothing, or a split, after which the
record goes to one of the two halves. -/
inductive Divided (m : HashMap B) (S : Shape) (L : List ℕ) (rest : List (List ℕ)) (p : ℕ) (hash : Hash)
    (split : Prop) (m' : HashMap B) : Shape → List ℕ → List (List ℕ) → Prop
  | keep : ¬ split → m' = m → Divided m S L rest p hash split m' S L rest
  | lower (b1 : ℕ) (L₁ F : List ℕ) : split → ¬ hash &&& Inv.newBit p ≠ 0 →
      Container.Splits m.container S L rest (p + 1) (Inv.newBit p) L₁ F b1 m'.container →
      Divided m S L rest p hash split m' (S.split B (Inv.newBit p) L rest L₁ F)
        (L.take (S.keep B (Inv.newBit p) L)) (L₁ :: rest)
  | upper (b1 : ℕ) (L₁ F : List ℕ) : split → hash &&& Inv.newBit p ≠ 0 →
      Container.Splits m.container S L rest (p + 1) (Inv.newBit p) L₁ F b1 m'.container →
      Divided m S L rest p hash split m'
        { S.split B (Inv.newBit p) L rest L₁ F with
          chains := L₁ :: L.take (S.keep B (Inv.newBit p) L) :: rest }
        L₁ (L.take (S.keep B (Inv.newBit p) L) :: rest)

/-- The map is ready for a record with the hash: it goes to the chain `L'` with the head `b'`. -/
structure MadeRoom (m : HashMap B) (S : Shape) (L : List ℕ) (rest : List (List ℕ)) (p : ℕ) (hash : Hash)
    (split : Prop) (b' : ℕ) (m' : HashMap B) (S' : Shape) (L' : List ℕ) (rest' : List (List ℕ)) : Prop where
  divided : Divided m S L rest p hash split m' S' L' rest'
  inv : m'.Inv S'
  chains : S'.chains = L' :: rest'
  chain : ∃ p q, m'.Holds S' L' b' p q ∧ topBits p hash = q
  lookup : m'.catalogue.lookup hash = b'
  records : S'.records.Perm S.records
  count : m.container.layout.bucketsCount ≤ m'.container.layout.bucketsCount
  prefixBits : m.catalogue.layout.prefixBits ≤ m'.catalogue.layout.prefixBits
  length : L'.length ≤ m.container.layout.bucketsCount + S.records.length + 1

section MakeRoom

variable {L : List ℕ} {rest : List (List ℕ)} {b p q : ℕ}

theorem runs_bucketPrefixBits {E : Fault → HashMap B → Prop} {Q : ℕ → HashMap B → Prop} {i : ℕ}
    (hm : m.container.Mapped i) :
    Prog.Runs (bucketPrefixBits i) m Q E ↔ Q (m.container.layout.buckets i).prefixBits m := by
  unfold bucketPrefixBits
  rw [Prog.runs_bind, runs_onDat, Container.runs_bucketAt hm]
  rfl

/-- What `growCatalogue` leaves. -/
structure Grown (m : HashMap B) (S : Shape) (L : List ℕ) (b p q : ℕ) (m' : HashMap B) : Prop where
  container : m'.container = m.container
  inv : m'.Inv S
  holds : m'.Holds S L b p q
  lookup : ∀ k, m'.catalogue.lookup k = m.catalogue.lookup k
  prefixBits : m'.catalogue.layout.prefixBits =
    if p = m.catalogue.layout.prefixBits ∧ 2 ^ m.catalogue.layout.prefixBits < m.container.layout.bucketsCount
    then m.catalogue.layout.prefixBits + 1 else m.catalogue.layout.prefixBits
  same : ¬ 2 ^ m.catalogue.layout.prefixBits < m.container.layout.bucketsCount → m' = m

/-- The chain is less deep than the grown catalogue just when it was, or there are more buckets than entries. -/
theorem Grown.lt_iff {m' : HashMap B} (h : Grown m S L b p q m') (hp : p ≤ m.catalogue.layout.prefixBits) :
    p < m'.catalogue.layout.prefixBits ↔ p < m.catalogue.layout.prefixBits ∨
      2 ^ m.catalogue.layout.prefixBits < m.container.layout.bucketsCount := by
  rw [h.prefixBits]
  split_ifs with hgrow
  · simp only [hgrow.2, or_true, iff_true]
    omega
  · constructor
    · exact Or.inl
    · rintro (hlt | hcount)
      · exact hlt
      · exact lt_of_le_of_ne hp (fun hpg => hgrow ⟨hpg, hcount⟩)

theorem growCatalogue_runs (os : Os) (h : m.Inv S) (hL : L ∈ S.chains) (hc : m.Holds S L b p q)
    (fuel bound : ℕ) :
    Prog.Runs (growCatalogue os b) m (fun _ m' => Grown m S L b p q m')
      (fun e _ => GetFails os m fuel bound e) := by
  have hb := List.mem_of_mem_head? hc.head
  unfold growCatalogue
  rw [Prog.runs_bind, runs_bucketPrefixBits (h.rep.mapped hL hb), hc.depth b hb, Prog.runs_bind,
    Prog.runs_get]
  refine Prog.runs_ite (fun hgrow => ?_) (fun hstay => ?_)
  · rw [runs_onCat]
    refine (Catalogue.split_runs h.cat os.cat).mono ?_ (fun e _ he => ?_)
    · intro _ c hd
      refine ⟨rfl, h.doubled hd hgrow.2, ?_, hd.lookup, by rw [if_pos hgrow]; exact hd.prefixBits,
        fun hn => absurd hgrow.2 hn⟩
      refine ⟨hc.head, hc.cell.congr hd.lookup, hc.pos, ?_, hc.lt, hc.depth, hc.hashes⟩
      show p ≤ c.layout.prefixBits
      rw [hd.prefixBits]
      exact hc.le.trans (Nat.le_succ _)
    · rcases he with ⟨he, hg⟩ | ⟨he, h32⟩
      · exact .refused he (fun g => hg g.cat)
      · refine .overgrown he ?_
        have hlt := hgrow.2
        rw [h32] at hlt
        exact hlt
  · exact ⟨rfl, h, hc, fun _ => rfl, by rw [if_neg hstay], fun _ => rfl⟩

/-- The blocks of the new half are at most one more than the records of the chain. -/
theorem length_new {c : Container B} {L₁ F : List ℕ} {b1 : ℕ} (hS : S.chains = L :: rest)
    (hs : Container.Splits m.container S L rest (p + 1) (Inv.newBit p) L₁ F b1 c) :
    L₁.length ≤ S.records.length + 1 := by
  have hle : (half1 B (Inv.newBit p) (L.flatMap S.recs)).closed.length ≤ _ := fill_closed_le _
  have hfil := List.length_filter_le (fun r : Record => r.bit (Inv.newBit p)) (L.flatMap S.recs)
  have hrec := congrArg List.length (Shape.records_cons hS)
  rw [List.length_append] at hrec
  rw [hs.length1]
  omega

/-- After a split and the entry of its new chain the hash belongs to the half of its bit. -/
theorem Inv.madeRoom_split {b1 : ℕ} {L₁ F : List ℕ} {c : Container B} {f : ℕ → ℕ} (h : m.Inv S)
    (hS : S.chains = L :: rest) (hc : m.Holds S L b p q) (hq : topBits p hash = q)
    (hlt : p < m.catalogue.layout.prefixBits)
    (hs : Container.Splits m.container S L rest (p + 1) (Inv.newBit p) L₁ F b1 c)
    (hhalf : Halved m.catalogue.lookup (m.catalogue.setBuffer f).lookup b1 p q) :
    ∃ S' L' rest', MadeRoom m S L rest p hash (p < m.catalogue.layout.prefixBits)
      (if hash &&& Inv.newBit p ≠ 0 then b1 else b) ⟨m.catalogue.setBuffer f, c⟩ S' L' rest' := by
  have hL : L ∈ S.chains := by rw [hS]; simp
  have hinv := h.split hS hc hlt hs hhalf
  have hbit := Inv.hash_bit_iff hash (lt_of_lt_of_le hlt h.cat.le32)
  rw [hq] at hbit
  by_cases hup : hash &&& Inv.newBit p ≠ 0
  · have hupper := h.holds_upper hS hc hlt hs hhalf
    rw [if_pos hup]
    refine ⟨_, _, _, .upper b1 L₁ F hlt hup hs, hinv.perm_chains (List.Perm.swap _ _ _), rfl,
      ⟨p + 1, 2 * q + 1, ⟨hupper.head, hupper.cell, hupper.pos, hupper.le, hupper.lt, hupper.depth,
        hupper.hashes⟩, hbit.mp hup⟩, (hhalf hash).1 (hbit.mp hup), ?_, hs.count_le, le_rfl, ?_⟩
    · exact (List.Perm.flatMap_right _ (List.Perm.swap _ _ _).flatten).trans (h.records_split hS hs)
    · have := length_new hS hs
      omega
  · have hne : topBits (p + 1) hash ≠ 2 * q + 1 := fun ht => hup (hbit.mpr ht)
    have hfind : (m.catalogue.setBuffer f).lookup hash = b := ((hhalf hash).2 hne).trans ((hc.cell hash).mpr hq)
    have hlower := h.holds_lower hS hc hlt hs hhalf
    rw [if_neg hup]
    refine ⟨_, _, _, .lower b1 L₁ F hlt hup hs, hinv, rfl, ⟨p + 1, 2 * q, hlower, (hlower.cell hash).mp hfind⟩,
      hfind, h.records_split hS hs, hs.count_le, le_rfl, ?_⟩
    have := h.length_le hL
    rw [List.length_take]
    omega

theorem splitBucket_runs (hB : B < 2 ^ 31) (os : Os) (h : m.Inv S) (hS : S.chains = L :: rest)
    (hc : m.Holds S L b p q) (hq : topBits p hash = q) (fuel : ℕ) :
    Prog.Runs (splitBucket os fuel hash b) m
      (fun b' m' => ∃ S' L' rest',
        MadeRoom m S L rest p hash (p < m.catalogue.layout.prefixBits) b' m' S' L' rest')
      (fun e _ => Container.Starved fuel L.length e ∨ (e = .systemError ∧ ¬ os.Grants)) := by
  have hL : L ∈ S.chains := by rw [hS]; simp
  have hb := List.mem_of_mem_head? hc.head
  unfold splitBucket
  rw [Prog.runs_bind, runs_bucketPrefixBits (h.rep.mapped hL hb), hc.depth b hb, Prog.runs_bind,
    Prog.runs_get]
  refine Prog.runs_ite (fun hlt => ?_) (fun hge => ?_)
  · have hp32 : p < 32 := lt_of_lt_of_le hlt h.cat.le32
    rw [Prog.runs_bind, runs_onDat]
    refine (Container.split_runs hB h.rep os.dat hS hc.head (hc.depth b hb) hp32 fuel).mono ?_ ?_
    · rintro b1 c ⟨L₁, F, hs⟩
      replace hs : Container.Splits m.container S L rest (p + 1) (Inv.newBit p) L₁ F b1 c := hs
      have hbL : b ∈ L.take (S.keep B (Inv.newBit p) L) :=
        List.mem_of_mem_head? ((S.head?_take_keep ..).trans hc.head)
      have hb1 := List.mem_of_mem_head? hs.head1
      have hmap0 : c.Mapped b := hs.rep.mapped (L := L.take _) (by simp [Shape.split]) hbL
      have hmap1 : c.Mapped b1 := hs.rep.mapped (L := L₁) (by simp [Shape.split]) hb1
      rw [Prog.runs_bind, runs_bucketPrefixBits (m := { m with container := c }) hmap0, Prog.runs_bind,
        runs_bucketPrefixBits (m := { m with container := c }) hmap1, Prog.runs_bind, Prog.runs_check]
      have hd0 : (c.layout.buckets b).prefixBits = p + 1 := hs.depth b (Or.inl hbL)
      have hd1 : (c.layout.buckets b1).prefixBits = p + 1 := hs.depth b1 (Or.inr hb1)
      refine ⟨fun _ => ?_, fun hne => absurd (hd0.trans hd1.symm) hne⟩
      simp only [hd0]
      rw [if_pos (show p + 1 ≤ hashBits from hp32), oneShl,
        if_pos (show hashBits - (p + 1) < hashBits by unfold hashBits; omega), Prog.runs_bind,
        Prog.runs_lift_ok, Prog.runs_bind, runs_onCat]
      refine (Catalogue.set_runs h.cat (hash ||| Inv.newBit p) (p := p + 1) hlt b1).mono ?_
        (fun _ _ he => False.elim he)
      rintro _ c₂ ⟨f, rfl, hf⟩
      obtain ⟨S', L', rest', hm⟩ := h.madeRoom_split hS hc hq hlt hs (Inv.halved h.cat hlt hq hf)
      unfold enterBucket
      rw [Prog.runs_bind, runs_onCat, hm.inv.cat.runs_find, Prog.runs_bind, Prog.runs_check]
      exact ⟨fun _ => ⟨S', L', rest', hm⟩, fun hne => absurd hm.lookup hne⟩
    · rintro e c (he | he)
      · exact Or.inl he
      · exact Or.inr ⟨he.fault, fun g => he.denied g.dat⟩
  · exact ⟨S, L, rest, .keep hge rfl, h, hS, ⟨p, q, hc, hq⟩, (hc.cell hash).mpr hq, .refl _, le_rfl, le_rfl, by
      have := h.length_le hL
      omega⟩

/-- The growth of the catalogue before the split. -/
theorem MadeRoom.of_grown {m₁ : HashMap B} {b' : ℕ} {L' : List ℕ} {rest' : List (List ℕ)}
    (hg : Grown m S L b p q m₁) (hp : p ≤ m.catalogue.layout.prefixBits) (hcrowd : crowded B S.recs L = true)
    (h : MadeRoom m₁ S L rest p hash (p < m₁.catalogue.layout.prefixBits) b' m' S' L' rest') :
    MadeRoom m S L rest p hash (Divides m S L p) b' m' S' L' rest' := by
  have hiff : p < m₁.catalogue.layout.prefixBits ↔ Divides m S L p :=
    (hg.lt_iff hp).trans (by simp [Divides, hcrowd])
  refine ⟨?_, h.inv, h.chains, h.chain, h.lookup, h.records, hg.container ▸ h.count,
    le_trans ?_ h.prefixBits, hg.container ▸ h.length⟩
  · cases h.divided with
    | keep hn hk =>
      refine .keep (fun hd => hn (hiff.mpr hd)) (hk.trans (hg.same fun hcount => hn ?_))
      exact (hg.lt_iff hp).mpr (Or.inr hcount)
    | lower b1 L₁ F hd hbit hs => exact .lower b1 L₁ F (hiff.mp hd) hbit (hg.container ▸ hs)
    | upper b1 _ F hd hbit hs => exact .upper b1 _ F (hiff.mp hd) hbit (hg.container ▸ hs)
  · rw [hg.prefixBits]
    split_ifs <;> omega

theorem makeRoom_runs (hB : B < 2 ^ 31) (os : Os) (h : m.Inv S) (hS : S.chains = L :: rest)
    (hc : m.Holds S L b p q) (hq : topBits p hash = q) (fuel : ℕ) :
    Prog.Runs (makeRoom os fuel hash b) m
      (fun b' m' => ∃ S' L' rest', MadeRoom m S L rest p hash (Divides m S L p) b' m' S' L' rest')
      (fun e _ => GetFails os m fuel (m.container.layout.bucketsCount + S.records.length + 1) e) := by
  have hL : L ∈ S.chains := by rw [hS]; simp
  have hlen := h.length_le hL
  unfold makeRoom
  rw [Prog.runs_bind, runs_onDat]
  refine (bucketToSplit_runs h.rep hL hc.head).mono ?_ (fun _ _ he => False.elim he)
  rintro full c ⟨rfl, hfull⟩
  refine Prog.runs_ite (fun hcrowd => ?_) (fun hcrowd => ?_)
  · rw [Prog.runs_bind]
    refine (growCatalogue_runs os h hL hc fuel _).mono ?_ (fun _ _ he => he)
    intro _ m₁ hg
    refine (splitBucket_runs hB os hg.inv hS hg.holds hq fuel).mono ?_ ?_
    · rintro b' m' ⟨S', L', rest', hm⟩
      exact ⟨S', L', rest', hm.of_grown hg hc.le (hfull ▸ hcrowd)⟩
    · rintro e m' (he | he)
      · exact .starved ⟨he.1, he.2.trans (by omega)⟩
      · exact .refused he.1 he.2
  · exact ⟨S, L, rest, .keep (fun hd => hcrowd (hfull ▸ hd.1)) rfl, h, hS, ⟨p, q, hc, hq⟩,
      (hc.cell hash).mpr hq, .refl _, le_rfl, le_rfl, by omega⟩

end MakeRoom

/-! ### get -/

/-- The record `r` was written to the chain `L`. -/
structure Wrote (m : HashMap B) (S : Shape) (L : List ℕ) (rest : List (List ℕ)) (r : Record) (v : View)
    (m' : HashMap B) : Prop where
  inv : m'.Inv (S.write B m.container.layout.bucketsCount L rest r)
  old : S.target B m.container.layout.bucketsCount r.size L < m.container.layout.bucketsCount →
    S.recs (S.target B m.container.layout.bucketsCount r.size L) = S.held B r.size L
  view : v = Bucket.valueView (S.target B m.container.layout.bucketsCount r.size L) (S.held B r.size L) r
  records : (S.write B m.container.layout.bucketsCount L rest r).records.Perm (r :: S.records)
  catalogue : m'.catalogue = m.catalogue
  count : m.container.layout.bucketsCount ≤ m'.container.layout.bucketsCount
  length : m'.container.fileMap.length ≤ max m.container.fileMap.length
    ((headerBytes + (m.container.layout.bucketsCount + 1) * bucketBytes B) * 11 / 10)

/-- A record with a new key leaves the keys apart. -/
theorem Inv.keys_cons {r : Record} (h : m.Inv S) (habs : ∀ x ∈ S.records, ¬ x.Is r.hash r.key) {rs : List Record}
    (hp : rs.Perm (r :: S.records)) : (rs.map fun x => (x.hash, x.key)).Nodup := by
  rw [(hp.map _).nodup_iff, List.map_cons, List.nodup_cons]
  refine ⟨fun hm => ?_, h.keys⟩
  obtain ⟨x, hx, hxr⟩ := List.mem_map.mp hm
  exact habs x hx ⟨congrArg Prod.fst hxr, congrArg Prod.snd hxr⟩

/-- The record is written to a bucket of the chain. -/
theorem Inv.wrote_old {L : List ℕ} {rest : List (List ℕ)} {b p q i : ℕ} {r : Record} {bu : Bucket B}
    (h : m.Inv S) (hS : S.chains = L :: rest) (hc : m.Holds S L b p q) (hq : topBits p r.hash = q)
    (habs : ∀ x ∈ S.records, ¬ x.Is r.hash r.key) (hiL : i ∈ L) (hr : S.room B r.size L = some i)
    (hb : bu.Holds (S.recs i ++ [r])) (hn : bu.nextBucketId = (m.container.layout.buckets i).nextBucketId)
    (hp : bu.prefixBits = (m.container.layout.buckets i).prefixBits) :
    Wrote m S L rest r (Bucket.valueView i (S.recs i) r) { m with container := m.container.setBucket i bu } := by
  have hL : L ∈ S.chains := by rw [hS]; simp
  have hlook : L.head? = some (m.catalogue.lookup r.hash) := by
    rw [(hc.cell r.hash).mpr hq]
    exact hc.head
  have hrec := Shape.records_concat (List.nodup_append.mp h.rep.owned.nodup).1 hL hiL r
  have hinv := h.setBucket hL hiL hb hn hp (fun x hx => (List.mem_append.mp hx).imp_right fun hx => by
    rw [List.mem_singleton] at hx
    exact hx ▸ hlook) (h.keys_cons habs hrec)
  have hwrite : S.write B m.container.layout.bucketsCount L rest r =
      { S with recs := Function.update S.recs i (S.recs i ++ [r]) } := by
    rw [Shape.write_room _ hr, ← hS]
  have htarget : S.target B m.container.layout.bucketsCount r.size L = i := by simp [Shape.target, hr]
  have hheld : S.held B r.size L = S.recs i := by simp [Shape.held, hr]
  exact ⟨by rwa [hwrite], fun _ => by rw [htarget, hheld], by rw [htarget, hheld], by rwa [hwrite], rfl, le_rfl,
    le_max_left _ _⟩

/-- The record is written to a new bucket behind the chain. -/
theorem Inv.wrote_new {L : List ℕ} {rest : List (List ℕ)} {b p q id : ℕ} {r : Record} {bu : Bucket B}
    {c₁ : Container B} (h : m.Inv S) (hS : S.chains = L :: rest) (hc : m.Holds S L b p q)
    (hq : topBits p r.hash = q) (habs : ∀ x ∈ S.records, ¬ x.Is r.hash r.key) (hr : S.room B r.size L = none)
    (hext : c₁.Extends m.container S.free L id)
    (hrep : (c₁.setBucket id bu).Rep { S.extend L rest id with recs := Function.update S.recs id [r] }) :
    Wrote m S L rest r (Bucket.valueView id [] r) { m with container := c₁.setBucket id bu } := by
  have hrec := Shape.records_fresh hS (List.nodup_append.mp hrep.owned.nodup).1 r
  have hbits : ∀ j, j ≠ id → ((c₁.setBucket id bu).layout.buckets j).prefixBits
      = (m.container.layout.buckets j).prefixBits := by
    intro j hj
    rw [Container.setBucket_of_ne hj]
    exact (hext.same j hj).prefixBits
  have hb := List.mem_of_mem_head? hc.head
  have hbid : b ≠ id := by rintro rfl; exact hext.notMem hb
  have hdepth : ∀ j ∈ L ++ [id], ((c₁.setBucket id bu).layout.buckets j).prefixBits = p := by
    intro j hj
    rw [hrep.depth (L ++ [id]) (by simp [Shape.extend]) j hj b (by simp [hb]), hbits b hbid]
    exact hc.depth b hb
  have hrest : ∀ T ∈ rest, ∀ j ∈ T, j ≠ id := by
    rintro T hT j hj rfl
    exact h.rep.owned.taken_not_mem hext.source (by rw [hS]; simp [hT]) hj
  have hhead : (L ++ [id]).head? = L.head? := by
    rw [List.head?_append, hc.head]
    rfl
  have hinv := h.update hS hc hrep hhead hdepth (fun T hT j hj => ⟨hbits j (hrest T hT j hj),
    Function.update_of_ne (hrest T hT j hj) _ _⟩) (fun j hj x hx => by
      by_cases hj' : j = id
      · subst hj'
        rw [Function.update_self, List.mem_singleton] at hx
        exact hx ▸ hq
      · rw [Function.update_of_ne hj'] at hx
        exact hc.hashes j (by simpa [hj'] using hj) x hx) (h.keys_cons habs hrec) hext.count_le
  have hwrite : S.write B m.container.layout.bucketsCount L rest r =
      ⟨(L ++ [id]) :: rest, S.free.tail, Function.update S.recs id [r]⟩ := by
    rw [Shape.write_new _ hr, ← hext.id_eq]
  have htarget : S.target B m.container.layout.bucketsCount r.size L = id := by
    simp [Shape.target, hr, ← hext.id_eq]
  have hheld : S.held B r.size L = [] := by simp [Shape.held, hr]
  refine ⟨by rwa [hwrite], fun hlt => ?_, by rw [htarget, hheld], by rwa [hwrite], rfl, hext.count_le, hext.length⟩
  rw [htarget] at hlt ⊢
  rw [hheld]
  -- a bucket that existed was on the free list
  rcases hext.source with ⟨-, hid', -⟩ | ⟨-, hid', -⟩
  · omega
  · exact h.rep.freeEmpty id (List.mem_of_mem_head? hid')

/-- Writing the record of a key that is not in the map keeps the invariant. -/
theorem Inv.inserted {L : List ℕ} {rest : List (List ℕ)} {b p q : ℕ} {r : Record} {v : View}
    {c : Container B} (h : m.Inv S) (hS : S.chains = L :: rest) (hc : m.Holds S L b p q)
    (hq : topBits p r.hash = q) (habs : ∀ x ∈ S.records, ¬ x.Is r.hash r.key)
    (hi : Container.Inserted m.container S L rest r v c) :
    Wrote m S L rest r v { m with container := c } := by
  cases hi with
  | old L₁ i L₂ bu hL hfull hroom hv hc' hn hp hrep =>
    subst hc' hv
    have hiL : i ∈ L := by rw [hL]; simp
    have hb : bu.Holds (S.recs i ++ [r]) := by
      have := hrep.holds i (h.lt_count (by rw [hS]; simp) hiL)
      rw [Container.setBucket_self] at this
      simpa using this
    exact h.wrote_old hS hc hq habs hiL (Shape.room_of_split hL hfull hroom) hb hn hp
  | new c₁ id bu hfull hv hext hc' hrep =>
    subst hc' hv
    exact h.wrote_new hS hc hq habs (Shape.room_of_full hfull) hext hrep

/-- What `get` did. -/
inductive Got (m : HashMap B) (S : Shape) (L : List ℕ) (rest : List (List ℕ)) (p : ℕ) (hash : Hash)
    (key default : Bytes) (v : View) (m' : HashMap B) : Prop
  | found : Container.Finds L S.recs hash key (some v) → m' = m → Got m S L rest p hash key default v m'
  | stored (b' : ℕ) (m₁ : HashMap B) (S₁ : Shape) (L₁ : List ℕ) (rest₁ : List (List ℕ)) :
      (∀ x ∈ S.records, ¬ x.Is hash key) → MadeRoom m S L rest p hash (Divides m S L p) b' m₁ S₁ L₁ rest₁ →
      Container.Inserted m₁.container S₁ L₁ rest₁ ⟨hash, key, default⟩ v m'.container →
      m'.catalogue = m₁.catalogue → Got m S L rest p hash key default v m'

theorem get_runs (hB : B < 2 ^ 31) (os : Os) (h : m.Inv S) {L : List ℕ} {rest : List (List ℕ)} {p q : ℕ}
    (hf : Front m S hash L rest p q) (fuel : ℕ) (key default : Bytes) :
    Prog.Runs (get os fuel hash key default) m (fun v m' => Got m S L rest p hash key default v m')
      (fun e _ => GetFails os m fuel (m.container.layout.bucketsCount + S.records.length + 1) e ∨
        B < Container.bytesRequired key default ∧ e = .outOfFuel) := by
  have hL : L ∈ S.chains := by rw [hf.chains]; simp
  have hhead := hf.holds.head
  obtain ⟨hseg, hbuckets⟩ := h.chain hL hhead
  have hlen := h.length_le hL
  unfold get
  rw [Prog.runs_bind, runs_onCat, h.cat.runs_find, Prog.runs_bind, runs_onDat]
  refine (Container.findRecord_runs hB L fuel _ hseg hbuckets).mono ?_ ?_
  · rintro o c ⟨rfl, ho⟩
    cases o with
    | some v => exact .found ho rfl
    | none =>
      have habs := (h.absent_iff hL hhead).mp ho
      simp only [Prog.runs_bind]
      refine (makeRoom_runs hB os h hf.chains hf.holds hf.bits fuel).mono ?_ (fun e _ he => Or.inl he)
      rintro b' m₁ ⟨S₁, L₁, rest₁, hm⟩
      obtain ⟨p₁, q₁, hc₁, hq₁⟩ := hm.chain
      rw [runs_onDat]
      by_cases hfit : Container.bytesRequired key default ≤ B
      · refine (Container.createRecord_runs (r := ⟨hash, key, default⟩) hm.inv.rep os.dat hfit hm.chains
          hc₁.head fuel).mono (fun v c hi => ?_) (fun e c he => ?_)
        · exact .stored b' m₁ S₁ L₁ rest₁ habs hm hi rfl
        · rcases he with he | he
          · exact Or.inl (.starved ⟨he.1, he.2.trans hm.length⟩)
          · exact Or.inl (.refused he.fault (fun g => he.denied g.dat))
      · refine (Container.createRecord_loops hm.inv.rep os.dat hash (by omega) hm.chains hc₁.head fuel).mono
          (fun _ _ he => he.elim) (fun e _ he => ?_)
        rcases he with he | ⟨he, hg⟩
        · exact Or.inr ⟨by omega, he⟩
        · exact Or.inl (.refused he (fun g => hg g.dat))
  · rintro e c ⟨rfl, -, hf⟩
    exact Or.inl (.starved ⟨rfl, by omega⟩)

/-- Where the record that `get` stored is, and what else is in the map. -/
theorem MadeRoom.stored {default : Bytes} {v : View} {L L₁ : List ℕ} {rest rest₁ : List (List ℕ)}
    {p b' : ℕ} {split : Prop} {m₁ : HashMap B} {S₁ : Shape} (habs : ∀ x ∈ S.records, ¬ x.Is hash key)
    (hm : MadeRoom m S L rest p hash split b' m₁ S₁ L₁ rest₁)
    (hi : Container.Inserted m₁.container S₁ L₁ rest₁ ⟨hash, key, default⟩ v m'.container)
    (hcat : m'.catalogue = m₁.catalogue) :
    Wrote m₁ S₁ L₁ rest₁ ⟨hash, key, default⟩ v m' ∧
      (S₁.write B m₁.container.layout.bucketsCount L₁ rest₁ ⟨hash, key, default⟩).records.Perm
        (⟨hash, key, default⟩ :: S.records) := by
  obtain ⟨p, q, hc, hq⟩ := hm.chain
  have hw := hm.inv.inserted (r := ⟨hash, key, default⟩) hm.chains hc hq
    (fun x hx => habs x (hm.records.mem_iff.mp hx)) hi
  have hm' : ({ m₁ with container := m'.container } : HashMap B) = m' := by rw [← hcat]
  rw [hm'] at hw
  exact ⟨hw, hw.records.trans (hm.records.cons _)⟩

/-! ### The constructor -/

/-- The shape of a new map. -/
def newShape : Shape := ⟨[[1], [0]], [], fun _ => []⟩

theorem topBits_one (k : Hash) : topBits 1 k = 0 ∨ topBits 1 k = 1 := by
  have hlt := topBits_lt (p := 1) (h := k) (by decide)
  omega

/-- Two empty buckets, and a catalogue that sends each hash to the bucket of its first bit. -/
theorem newShape_inv (hcat : m.catalogue.WellFormed) (hg : m.catalogue.layout.prefixBits = 1)
    (hlook : ∀ k, m.catalogue.lookup k = topBits 1 k) (ho : m.container.Owned newShape.chains newShape.free)
    (hn : m.container.layout.bucketsCount = 2)
    (hbucket : ∀ i < 2, (m.container.layout.buckets i).prefixBits = 1 ∧ (m.container.layout.buckets i).bytesUsed = 0) :
    m.Inv newShape := by
  have hchains : ∀ L ∈ newShape.chains, L = [1] ∨ L = [0] := by simp [newShape]
  have hcell : ∀ b < 2, m.Holds newShape [b] b 1 b := by
    intro b hb
    refine ⟨rfl, fun k => by rw [hlook], le_rfl, hg.ge, hb, fun i hi => ?_, fun i _ r hr => ?_⟩
    · rw [List.mem_singleton] at hi
      exact hi ▸ (hbucket b hb).1
    · exact absurd hr (by simp [newShape])
  refine ⟨hcat, ⟨ho, fun i hi => ?_, fun i hi => rfl, fun L hL => ?_⟩, fun k => ?_, fun L hL => ?_, ?_, ?_, ?_⟩
  · exact Bucket.holds_nil (hbucket i (by rwa [hn] at hi)).2
  · rcases hchains L hL with rfl | rfl <;> simp
  · rw [hlook]
    rcases topBits_one k with hk | hk
    · exact ⟨[0], by simp [newShape], by rw [hk]; rfl⟩
    · exact ⟨[1], by simp [newShape], by rw [hk]; rfl⟩
  · rcases hchains L hL with rfl | rfl
    · exact ⟨1, 1, 1, hcell 1 (by omega)⟩
    · exact ⟨0, 1, 0, hcell 0 (by omega)⟩
  · simp [newShape, Shape.records]
  · rw [hg, hn]
    decide
  · rw [hlook]
    decide

theorem init_runs (os : Os) (hcat : m.catalogue.WellFormed) (hg : m.catalogue.layout.prefixBits = 1)
    (hn : m.container.layout.bucketsCount = 0) (hf : m.container.layout.firstFreeBucketId = none)
    (hl : m.container.fileMap.length = layoutBytes B)
    (hs : m.container.layout.signature = Container.signature) :
    Prog.Runs (init os) m (fun _ m' => m'.Inv newShape ∧ m'.container.layout.bucketsCount = 2 ∧
        m'.container.fileMap.length ≤ (headerBytes + 2 * bucketBytes B) * 11 / 10)
      (fun e _ => e = .systemError ∧ ¬ os.Grants) := by
  have hdenied : ∀ {c c' : Container B} {e : Fault}, Container.Refused os.dat c e c' →
      e = .systemError ∧ ¬ os.Grants := fun hr => ⟨hr.fault, fun g => hr.denied g.dat⟩
  unfold init
  rw [Prog.runs_bind, runs_onDat]
  refine (Container.createBucket_runs (Container.owned_nil hn hf hl hs) os.dat 1).mono ?_
    (fun e c hr => hdenied hr)
  rintro id₀ c₁ ⟨ho₁, hc₁⟩
  obtain ⟨rfl, hn₁⟩ : id₀ = 0 ∧ c₁.layout.bucketsCount = 1 := by
    have hbehind := hc₁.behind
    rwa [hn] at hbehind
  rw [Prog.runs_bind, runs_onCat, hcat.runs_assign, Prog.runs_bind, runs_onDat]
  refine (Container.createBucket_runs ho₁ os.dat 1).mono ?_ (fun e c hr => hdenied hr)
  rintro id₁ c₂ ⟨ho₂, hc₂⟩
  obtain ⟨rfl, hn₂⟩ : id₁ = 1 ∧ c₂.layout.bucketsCount = 2 := by
    have hbehind := hc₂.behind
    rwa [hn₁] at hbehind
  rw [runs_onCat, (hcat.setBuffer _).runs_assign]
  simp only [Catalogue.setBuffer_prefixBits, Catalogue.setBuffer_buffer, hg]
  have h0 : topBits 1 (0 : Hash) = 0 := by decide
  have h1 : topBits 1 (~~~0 : Hash) = 1 := by decide
  rw [h0, h1]
  refine ⟨newShape_inv ((hcat.setBuffer _).setBuffer _) hg (fun k => ?_) ho₂ hn₂ (fun i hi => ?_), hn₂, ?_⟩
  · show Function.update (Function.update m.catalogue.layout.buffer 0 0) 1 1
      (topBits m.catalogue.layout.prefixBits k) = _
    rw [hg]
    rcases topBits_one k with hk | hk
    · rw [hk]
      rfl
    · rw [hk]
      rfl
  · have hi' : i = 0 ∨ i = 1 := by omega
    rcases hi' with rfl | rfl
    · show (c₂.layout.buckets 0).prefixBits = 1 ∧ (c₂.layout.buckets 0).bytesUsed = 0
      rw [hc₂.others 0 (by omega)]
      exact hc₁.bucket
    · exact hc₂.bucket
  · have hl₁ := hc₁.length
    have hl₂ := hc₂.length
    rw [hn, hl] at hl₁
    rw [hn₁] at hl₂
    unfold layoutBytes at hl₁
    show c₂.fileMap.length ≤ _
    omega

/-- A new map satisfies the invariant. -/
theorem new_spec {os : Os} {readOnly : Bool} (h : new os readOnly (Files.empty B) = .ok m) :
    m.Inv newShape ∧ m.container.layout.bucketsCount = 2 ∧
      m.container.fileMap.length ≤ (headerBytes + 2 * bucketBytes B) * 11 / 10 := by
  obtain ⟨cat, hcat, h⟩ := Prog.except_bind_ok.mp h
  obtain ⟨dat, hdat, h⟩ := Prog.except_bind_ok.mp h
  obtain ⟨hwf, hg, -⟩ := Catalogue.new_ok le_rfl (by decide) hcat
  obtain ⟨hn, hf, hl, hs⟩ := Container.new_ok hdat
  have hrun := init_runs (m := ⟨cat, dat⟩) os hwf hg hn hf hl hs
  rw [if_pos hn] at h
  cases hinit : init os ⟨cat, dat⟩ with
  | error e m' =>
    rw [hinit] at h
    cases h
  | ok a m' =>
    rw [hinit] at h
    exact Except.ok.inj h ▸ hrun.of_ok hinit

theorem new_inv {os : Os} {readOnly : Bool} (h : new os readOnly (Files.empty B) = .ok m) : m.Inv newShape :=
  (new_spec h).1

theorem new_count {os : Os} {readOnly : Bool} (h : new os readOnly (Files.empty B) = .ok m) :
    m.container.layout.bucketsCount = 2 := (new_spec h).2.1

/-- A new file is little longer than its two buckets. -/
theorem new_length {os : Os} {readOnly : Bool} (h : new os readOnly (Files.empty B) = .ok m) :
    m.container.fileMap.length ≤ (headerBytes + 2 * bucketBytes B) * 11 / 10 := (new_spec h).2.2

/-- The constructor returns when the system grants its calls. -/
theorem new_returns {os : Os} (g : os.Grants) (readOnly : Bool) :
    ∃ m, new os readOnly (Files.empty B) = .ok m := by
  obtain ⟨cat, hcat⟩ := Catalogue.new_returns g.cat le_rfl (by decide) readOnly
  obtain ⟨dat, hdat⟩ := Container.new_returns (B := B) g.dat readOnly
  obtain ⟨hwf, hg, -⟩ := Catalogue.new_ok le_rfl (by decide) hcat
  obtain ⟨hn, hf, hl, hs⟩ := Container.new_ok hdat
  have hrun := init_runs (m := ⟨cat, dat⟩) os hwf hg hn hf hl hs
  obtain ⟨a, m, hm, -⟩ := hrun.returns (fun e _ he => he.2 g)
  refine ⟨m, Prog.except_bind_ok.mpr ⟨cat, hcat, Prog.except_bind_ok.mpr ⟨dat, hdat, ?_⟩⟩⟩
  rw [if_pos hn, hm]
  rfl

end DiskHash.HashMap
