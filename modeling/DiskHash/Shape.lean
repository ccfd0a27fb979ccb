import DiskHash.Lib.Chain
import DiskHash.Record
import Mathlib.Data.List.Perm.Basic
import Mathlib.Data.List.Nodup

/-!
# DiskHash.Shape — chains and the free list

`c.Owned chains free`: every bucket of the container is on exactly one of `chains` or on the free list,
the links of the file follow these lists, and the mapping covers all buckets.  The rules below say what
taking, linking, cutting off and freeing buckets does to the lists.  A chain may be empty here: what is
cut off a chain is a chain of its own until it is freed.
-/

namespace DiskHash.Container

variable {B : ℕ}

/-! ### Accesses -/

section Access

variable {c : Container B} {p : BucketPtr} {id : ℕ} {E : Fault → Container B → Prop}

@[simp] theorem runs_bucketPtr {Q : BucketPtr → Container B → Prop} :
    Prog.Runs (bucketPtr id) c Q E ↔ Q ⟨c.fileMap.start, id⟩ c := Iff.rfl

theorem runs_load {Q : Bucket B → Container B → Prop} (hp : p.base = c.fileMap.start)
    (hm : c.Mapped p.id) : Prog.Runs (load p) c Q E ↔ Q (c.layout.buckets p.id) c := by
  simp [load, hp, hm]

theorem runs_bucketAt {Q : Bucket B → Container B → Prop} (hm : c.Mapped id) :
    Prog.Runs (bucketAt id) c Q E ↔ Q (c.layout.buckets id) c := by
  unfold bucketAt
  rw [Prog.runs_bind, runs_bucketPtr, runs_load rfl hm]

theorem runs_store {b : Bucket B} {Q : Unit → Container B → Prop} (hp : p.base = c.fileMap.start)
    (hm : c.Mapped p.id) : Prog.Runs (store p b) c Q E ↔ Q () (c.setBucket p.id b) := by
  simp [store, hp, hm]

theorem runs_setNext {next : Option ℕ} {Q : Unit → Container B → Prop} (hm : c.Mapped id) :
    Prog.Runs (setNext id next) c Q E ↔
      Q () (c.setBucket id { c.layout.buckets id with nextBucketId := next }) := by
  unfold setNext
  rw [Prog.runs_bind, runs_bucketPtr, Prog.runs_bind, runs_load rfl hm, runs_store rfl hm]

@[simp] theorem setBucket_count (b : Bucket B) :
    (c.setBucket id b).layout.bucketsCount = c.layout.bucketsCount := rfl

@[simp] theorem setBucket_self (b : Bucket B) : (c.setBucket id b).layout.buckets id = b := by
  simp [setBucket]

theorem setBucket_of_ne {j : ℕ} (h : j ≠ id) (b : Bucket B) :
    (c.setBucket id b).layout.buckets j = c.layout.buckets j := by
  simp [setBucket, h]

end Access

/-! ### Ownership -/

/-- The links between buckets. -/
def next (c : Container B) (id : ℕ) : Option ℕ := (c.layout.buckets id).nextBucketId

/-- Every bucket is on one chain or on the free list, once. -/
structure Owned (c : Container B) (chains : List (List ℕ)) (free : List ℕ) : Prop where
  perm : (chains.flatten ++ free).Perm (List.range c.layout.bucketsCount)
  linked : ∀ L ∈ chains, Seg c.next L.head? L none
  freeLinked : Seg c.next c.layout.firstFreeBucketId free none
  covers : headerBytes + c.layout.bucketsCount * bucketBytes B ≤ c.fileMap.length
  signature : c.layout.signature = Container.signature

/-- A container without buckets. -/
theorem owned_nil {c : Container B} (hn : c.layout.bucketsCount = 0)
    (hf : c.layout.firstFreeBucketId = none) (hl : c.fileMap.length = layoutBytes B)
    (hs : c.layout.signature = signature) : c.Owned [] [] :=
  ⟨by simp [hn], by simp, hf, by rw [hn, hl]; unfold layoutBytes; omega, hs⟩

/-- A new file holds no buckets. -/
theorem new_ok {kernel : Kernel} {readOnly : Bool} {c : Container B}
    (h : new kernel readOnly (emptyFile B) = .ok c) :
    c.layout.bucketsCount = 0 ∧ c.layout.firstFreeBucketId = none ∧ c.fileMap.length = layoutBytes B ∧
      c.layout.signature = signature := by
  obtain ⟨fm, hfm, h⟩ := Prog.except_bind_ok.mp h
  have hlen := FileMap.new_length (by unfold layoutBytes headerBytes; omega) hfm
  rw [if_pos (show (emptyFile B).layout.signature = 0 from rfl)] at h
  exact Except.ok.inj h ▸ ⟨rfl, rfl, hlen, rfl⟩

theorem new_returns {kernel : Kernel} (g : kernel.Grants) (readOnly : Bool) :
    ∃ c, new kernel readOnly (emptyFile B) = .ok c := by
  obtain ⟨fm, hfm⟩ := FileMap.new_returns g readOnly (emptyFile B).size (layoutBytes B)
  refine ⟨⟨fm, { (emptyFile B).layout with signature := signature, firstFreeBucketId := none }⟩,
    Prog.except_bind_ok.mpr ⟨fm, hfm, ?_⟩⟩
  rw [if_pos (show (emptyFile B).layout.signature = 0 from rfl)]
  rfl

namespace Owned

variable {c c' : Container B} {chains chains' : List (List ℕ)} {free L : List ℕ} {i : ℕ}

theorem nodup (h : c.Owned chains free) : (chains.flatten ++ free).Nodup :=
  h.perm.nodup_iff.mpr List.nodup_range

theorem mem_iff (h : c.Owned chains free) :
    i ∈ chains.flatten ∨ i ∈ free ↔ i < c.layout.bucketsCount := by
  rw [← List.mem_append, h.perm.mem_iff, List.mem_range]

theorem lt_of_mem (h : c.Owned chains free) (hL : L ∈ chains) (hi : i ∈ L) :
    i < c.layout.bucketsCount := h.mem_iff.mp (Or.inl (List.mem_flatten_of_mem hL hi))

theorem lt_of_mem_free (h : c.Owned chains free) (hi : i ∈ free) : i < c.layout.bucketsCount :=
  h.mem_iff.mp (Or.inr hi)

theorem mapped (h : c.Owned chains free) (hi : i < c.layout.bucketsCount) : c.Mapped i := by
  have := Nat.mul_le_mul_right (bucketBytes B) (show i + 1 ≤ c.layout.bucketsCount by omega)
  have := h.covers
  unfold Mapped
  omega

theorem mapped_of_mem (h : c.Owned chains free) (hL : L ∈ chains) (hi : i ∈ L) : c.Mapped i :=
  h.mapped (h.lt_of_mem hL hi)

theorem perm_chains (h : c.Owned chains free) (hp : chains.Perm chains') : c.Owned chains' free where
  perm := ((hp.flatten.symm).append_right free).trans h.perm
  linked L hL := h.linked L (hp.mem_iff.mpr hL)
  freeLinked := h.freeLinked
  covers := h.covers
  signature := h.signature

/-- Only the links, the counters and the length matter. -/
theorem congr (h : c.Owned chains free) (hn : ∀ i, c'.next i = c.next i)
    (hc : c'.layout.bucketsCount = c.layout.bucketsCount)
    (hf : c'.layout.firstFreeBucketId = c.layout.firstFreeBucketId)
    (hl : c'.fileMap.length = c.fileMap.length) (hs : c'.layout.signature = c.layout.signature) :
    c'.Owned chains free where
  perm := hc ▸ h.perm
  linked L hL := (h.linked L hL).congr (fun i _ => hn i)
  freeLinked := hf ▸ h.freeLinked.congr (fun i _ => hn i)
  covers := by rw [hc, hl]; exact h.covers
  signature := hs.trans h.signature

/-- A bucket is rewritten without its link. -/
theorem setBucket (h : c.Owned chains free) {b : Bucket B} (hb : b.nextBucketId = c.next i) :
    (c.setBucket i b).Owned chains free := by
  refine h.congr (fun j => ?_) rfl rfl rfl rfl
  unfold next
  by_cases hj : j = i
  · subst hj; rw [setBucket_self]; exact hb
  · rw [setBucket_of_ne hj]

theorem nil_cons_iff : c.Owned ([] :: chains) free ↔ c.Owned chains free := by
  refine ⟨fun h => ⟨h.perm, fun L hL => h.linked L (List.mem_cons_of_mem _ hL), h.freeLinked, h.covers,
    h.signature⟩, fun h => ⟨h.perm, fun L hL => ?_, h.freeLinked, h.covers, h.signature⟩⟩
  rcases List.mem_cons.mp hL with rfl | hL
  · rfl
  · exact h.linked L hL

/-- What the buckets of one chain are not. -/
theorem not_mem (h : c.Owned (L :: chains) free) (hi : i ∈ L) : i ∉ chains.flatten ∧ i ∉ free := by
  have hn := h.nodup
  rw [List.flatten_cons, List.append_assoc] at hn
  have := List.disjoint_of_nodup_append hn hi
  exact ⟨fun hc => this (List.mem_append_left _ hc), fun hc => this (List.mem_append_right _ hc)⟩

theorem nodup_head (h : c.Owned (L :: chains) free) : L.Nodup := by
  have hn := h.nodup
  rw [List.flatten_cons, List.append_assoc] at hn
  exact (List.nodup_append.mp hn).1

theorem not_mem_chain (h : c.Owned (L :: chains) free) (hi : i ∈ L) {T : List ℕ} (hT : T ∈ chains) :
    i ∉ T := fun hc => (h.not_mem hi).1 (List.mem_flatten_of_mem hT hc)

/-- The last bucket of a chain is linked to a chain of its own. -/
theorem link {j : ℕ} (h : c.Owned ((L ++ [i]) :: [j] :: chains) free) {b : Bucket B}
    (hb : b.nextBucketId = some j) :
    (c.setBucket i b).Owned ((L ++ [i] ++ [j]) :: chains) free := by
  have hi : i ∈ L ++ [i] := by simp
  have hne := fun (k : ℕ) (hk : k ≠ i) =>
    show (c.setBucket i b).next k = c.next k by unfold next; rw [setBucket_of_ne hk]
  have hout := h.not_mem hi
  have hL := List.nodup_append.mp h.nodup_head
  refine ⟨by simpa using h.perm, fun L' hL' => ?_, h.freeLinked.congr (fun k hk => ?_), h.covers,
    h.signature⟩
  · rcases List.mem_cons.mp hL' with rfl | hL'
    · have h1 := (h.linked _ List.mem_cons_self).relink
        (fun k hk => hne k (fun hki => hL.2.2 k hk i (by simp) hki))
      have h2 := h.linked [j] (by simp)
      have hj : j ≠ i := fun hji => hout.1 (by simp [hji])
      have hnext : (c.setBucket i b).next i = some j := by unfold next; rw [setBucket_self]; exact hb
      rw [hnext] at h1
      have hhead : (L ++ [i] ++ [j]).head? = (L ++ [i]).head? := by cases L <;> rfl
      rw [hhead]
      refine h1.trans ⟨rfl, ?_⟩
      rw [hne j hj]
      exact h2.2
    · exact (h.linked L' (by simp [hL'])).congr (fun k hk => hne k (fun hki =>
        hout.1 (hki ▸ List.mem_flatten_of_mem (List.mem_cons_of_mem _ hL') hk)))
  · exact hne k (fun hki => hout.2 (hki ▸ hk))

/-- A chain is cut behind one of its buckets. -/
theorem cut {T : List ℕ} (h : c.Owned ((L ++ [i] ++ T) :: chains) free) {b : Bucket B}
    (hb : b.nextBucketId = none) :
    (c.setBucket i b).Owned ((L ++ [i]) :: T :: chains) free := by
  have hi : i ∈ L ++ [i] ++ T := by simp
  have hne := fun (k : ℕ) (hk : k ≠ i) =>
    show (c.setBucket i b).next k = c.next k by unfold next; rw [setBucket_of_ne hk]
  have hout := h.not_mem hi
  have hnd := List.nodup_append.mp h.nodup_head
  have hL := List.nodup_append.mp hnd.1
  have hhead : (L ++ [i] ++ T).head? = (L ++ [i]).head? := by cases L <;> rfl
  have hlink := h.linked _ List.mem_cons_self
  rw [hhead] at hlink
  obtain ⟨a, h1, h2⟩ := Seg.append_iff.mp hlink
  refine ⟨by simpa using h.perm, fun L' hL' => ?_, h.freeLinked.congr (fun k hk => ?_), h.covers,
    h.signature⟩
  · rcases List.mem_cons.mp hL' with rfl | hL'
    · have := h1.relink
        (fun k hk => hne k (fun hki => hL.2.2 k hk i (by simp) hki))
      have hnext : (c.setBucket i b).next i = none := by unfold next; rw [setBucket_self]; exact hb
      rwa [hnext] at this
    · rcases List.mem_cons.mp hL' with rfl | hL'
      · have ha : a = L'.head? := by
          cases L' with
          | nil => exact h2
          | cons k T => exact h2.1
        rw [← ha]
        exact h2.congr (fun k hk => hne k (fun hki => hnd.2.2 i (by simp) k hk hki.symm))
      · exact (h.linked L' (by simp [hL'])).congr (fun k hk => hne k (fun hki =>
          hout.1 (hki ▸ List.mem_flatten_of_mem hL' hk)))
  · exact hne k (fun hki => hout.2 (hki ▸ hk))

/-- The head of a chain goes to the free list. -/
theorem free_head {T : List ℕ} (h : c.Owned ((i :: T) :: chains) free) {b : Bucket B}
    (hb : b.nextBucketId = c.layout.firstFreeBucketId) :
    ((c.setBucket i b).setFirstFree (some i)).Owned (T :: chains) (i :: free) := by
  have hne := fun (k : ℕ) (hk : k ≠ i) =>
    show ((c.setBucket i b).setFirstFree (some i)).next k = c.next k by
      show (c.setBucket i b).next k = _
      unfold next; rw [setBucket_of_ne hk]
  have hout := h.not_mem (i := i) (by simp)
  have hT := (List.nodup_cons.mp h.nodup_head).1
  have h2 := (h.linked _ List.mem_cons_self).2
  refine ⟨?_, fun L' hL' => ?_, ⟨rfl, ?_⟩, h.covers, h.signature⟩
  · refine List.Perm.trans ?_ h.perm
    simp only [List.flatten_cons, List.append_assoc, List.cons_append]
    rw [← List.append_assoc, ← List.append_assoc]
    exact List.perm_middle
  · rcases List.mem_cons.mp hL' with rfl | hL'
    · have ha : c.next i = L'.head? := by
        cases L' with
        | nil => exact h2
        | cons k T => exact h2.1
      rw [← ha]
      exact h2.congr (fun k hk => hne k (fun hki => hT (hki ▸ hk)))
    · exact (h.linked L' (by simp [hL'])).congr (fun k hk => hne k (fun hki =>
        hout.1 (hki ▸ List.mem_flatten_of_mem hL' hk)))
  · have hnext : ((c.setBucket i b).setFirstFree (some i)).next i = c.layout.firstFreeBucketId := by
      show (c.setBucket i b).next i = _
      unfold next; rw [setBucket_self]; exact hb
    rw [hnext]
    exact h.freeLinked.congr (fun k hk => hne k (fun hki => hout.2 (hki ▸ hk)))

end Owned

/-! ### Taking a bucket -/

/-- What a call leaves of a container when the system refused to grow the file. -/
structure Refused (kernel : Kernel) (c : Container B) (e : Fault) (c' : Container B) : Prop where
  fault : e = .systemError
  layout : c'.layout = c.layout
  start : c'.fileMap.start = c.fileMap.start
  length : c'.fileMap.length = c.fileMap.length
  denied : ¬ kernel.Grants

/-- `create_bucket` returned `id`, which it took off `free` or from behind the last bucket. -/
structure Created (c : Container B) (prefixBits : ℕ) (free : List ℕ) (id : ℕ) (c' : Container B) :
    Prop where
  source : (free = [] ∧ id = c.layout.bucketsCount ∧
      c'.layout.bucketsCount = c.layout.bucketsCount + 1) ∨
    (free ≠ [] ∧ free.head? = some id ∧ c'.layout.bucketsCount = c.layout.bucketsCount)
  bucket : (c'.layout.buckets id).prefixBits = prefixBits ∧ (c'.layout.buckets id).bytesUsed = 0
  others : ∀ j, j ≠ id → c'.layout.buckets j = c.layout.buckets j
  length : c'.fileMap.length ≤
    max c.fileMap.length ((headerBytes + (c.layout.bucketsCount + 1) * bucketBytes B) * 11 / 10)

/-- Without a free list the new bucket is behind the others. -/
theorem Created.behind {c c' : Container B} {prefixBits id : ℕ} (h : Created c prefixBits [] id c') :
    id = c.layout.bucketsCount ∧ c'.layout.bucketsCount = c.layout.bucketsCount + 1 := by
  rcases h.source with ⟨-, hid, hcount⟩ | ⟨hne, -, -⟩
  · exact ⟨hid, hcount⟩
  · exact absurd rfl hne

/-- A bucket that exists after `create_bucket` is the new one or existed before. -/
theorem Created.lt_or_eq {c c' : Container B} {prefixBits id j : ℕ} {free : List ℕ}
    (h : Created c prefixBits free id c') (hj : j < c'.layout.bucketsCount) :
    j = id ∨ j < c.layout.bucketsCount := by
  rcases h.source with ⟨-, h1, h2⟩ | ⟨-, -, h2⟩ <;> omega

/-- A bucket that is taken was on the free list or did not exist. -/
theorem Owned.taken_not_mem {c : Container B} {chains : List (List ℕ)} {free : List ℕ} (ho : c.Owned chains free)
    {id : ℕ} {P Q : Prop} (h : (free = [] ∧ id = c.layout.bucketsCount ∧ P) ∨ (free ≠ [] ∧ free.head? = some id ∧ Q))
    {L : List ℕ} (hL : L ∈ chains) : id ∉ L := by
  intro hid
  rcases h with ⟨-, h1, -⟩ | ⟨-, h1, -⟩
  · have := ho.lt_of_mem hL hid
    omega
  · exact (List.nodup_append.mp ho.nodup).2.2 id (List.mem_flatten_of_mem hL hid) id
      (List.mem_of_mem_head? h1) rfl

theorem Created.not_mem {c c' : Container B} {prefixBits id : ℕ} {chains : List (List ℕ)}
    {free : List ℕ} (h : Created c prefixBits free id c') (ho : c.Owned chains free) {L : List ℕ}
    (hL : L ∈ chains) : id ∉ L := ho.taken_not_mem h.source hL

theorem reserve_runs (kernel : Kernel) (n : ℕ) (c : Container B) :
    Prog.Runs (reserve kernel n) c
      (fun _ c' => c'.layout = c.layout ∧
        c'.fileMap.length = if c.fileMap.length < n then n * 11 / 10 else c.fileMap.length)
      (Refused kernel c) := by
  unfold reserve
  simp only [Prog.runs_bind, Prog.runs_get]
  refine Prog.runs_ite (fun hlt => ?_) (fun hge => ⟨rfl, (if_neg hge).symm⟩)
  rw [Prog.runs_zoom]
  exact (FileMap.resize_runs kernel (n * 11 / 10) c.fileMap).mono
    (fun _ fm hfm => ⟨rfl, hfm.trans (if_pos hlt).symm⟩)
    (fun e fm h => ⟨h.1, rfl, h.2.1, h.2.2.1, h.2.2.2⟩)

/-- A bucket behind the others is a chain of its own. -/
theorem Owned.append {c c' : Container B} {chains : List (List ℕ)} (h : c.Owned chains [])
    (hcount : c'.layout.bucketsCount = c.layout.bucketsCount + 1)
    (hfirst : c'.layout.firstFreeBucketId = c.layout.firstFreeBucketId)
    (hsig : c'.layout.signature = c.layout.signature)
    (hothers : ∀ j, j ≠ c.layout.bucketsCount → c'.layout.buckets j = c.layout.buckets j)
    (hnext : c'.next c.layout.bucketsCount = none)
    (hcovers : headerBytes + c'.layout.bucketsCount * bucketBytes B ≤ c'.fileMap.length) :
    c'.Owned ([c.layout.bucketsCount] :: chains) [] := by
  have hnotin : c.layout.bucketsCount ∉ chains.flatten := fun hc =>
    absurd (h.mem_iff.mp (Or.inl hc)) (Nat.lt_irrefl _)
  refine ⟨?_, fun L hL => ?_, ?_, hcovers, hsig.trans h.signature⟩
  · have hperm := h.perm
    rw [hcount, List.range_succ]
    simp only [List.append_nil, List.flatten_cons] at hperm ⊢
    exact List.perm_append_comm.trans (hperm.append_right _)
  · rcases List.mem_cons.mp hL with rfl | hL
    · exact ⟨rfl, hnext⟩
    · refine (h.linked L hL).congr (fun k hk => ?_)
      unfold next
      rw [hothers k (fun hk' => hnotin (hk' ▸ List.mem_flatten_of_mem hL hk))]
  · show Seg _ c'.layout.firstFreeBucketId [] none
    rw [hfirst]
    exact h.freeLinked

/-- The first bucket of the free list becomes a chain of its own. -/
theorem Owned.takeFree {c : Container B} {chains : List (List ℕ)} {id : ℕ} {t : List ℕ}
    (h : c.Owned chains (id :: t)) {b : Bucket B} (hb : b.nextBucketId = none) :
    ((c.setFirstFree (c.layout.buckets id).nextBucketId).setBucket id b).Owned ([id] :: chains) t := by
  have hnotin : id ∉ chains.flatten ++ t := (List.nodup_cons.mp (List.nodup_middle.mp h.nodup)).1
  have hsame : ∀ k, k ≠ id →
      ((c.setFirstFree (c.layout.buckets id).nextBucketId).setBucket id b).next k = c.next k := by
    intro k hk
    unfold next
    rw [setBucket_of_ne hk]
    rfl
  refine ⟨List.perm_middle.symm.trans h.perm, fun L hL => ?_, ?_, h.covers, h.signature⟩
  · rcases List.mem_cons.mp hL with rfl | hL
    · refine ⟨rfl, ?_⟩
      show ((Container.setBucket _ id b).layout.buckets id).nextBucketId = none
      rw [setBucket_self, hb]
    · exact (h.linked L hL).congr fun k hk =>
        hsame k fun hk' => hnotin (List.mem_append_left _ (hk' ▸ List.mem_flatten_of_mem hL hk))
  · exact Seg.congr (show Seg c.next _ _ _ from h.freeLinked.2) fun k hk =>
      hsame k fun hk' => hnotin (List.mem_append_right _ (hk' ▸ hk))

/-- An empty free list has no head. -/
theorem Owned.free_eq_nil {c : Container B} {chains : List (List ℕ)} {free : List ℕ} (h : c.Owned chains free)
    (hfree : c.layout.firstFreeBucketId = none) : free = [] := by
  cases free with
  | nil => rfl
  | cons i t =>
    have hhead := h.freeLinked.1
    rw [hfree] at hhead
    cases hhead

theorem Owned.free_eq_cons {c : Container B} {chains : List (List ℕ)} {free : List ℕ} {id : ℕ}
    (h : c.Owned chains free) (hfree : c.layout.firstFreeBucketId = some id) : ∃ t, free = id :: t := by
  have hlinked := h.freeLinked
  rw [hfree] at hlinked
  cases free with
  | nil => cases hlinked
  | cons i t => exact ⟨t, by rw [hlinked.head]⟩

/-- Reserving for one bucket more makes room for it, and a tenth more where the file grows. -/
theorem reserveBucket_runs (kernel : Kernel) (c : Container B) :
    Prog.Runs (reserve kernel (c.layout.bucketsCount * bucketBytes B + layoutBytes B)) c
      (fun _ c' => c'.layout = c.layout ∧
        headerBytes + (c.layout.bucketsCount + 1) * bucketBytes B ≤ c'.fileMap.length ∧
        c'.fileMap.length ≤
          max c.fileMap.length ((headerBytes + (c.layout.bucketsCount + 1) * bucketBytes B) * 11 / 10))
      (Refused kernel c) := by
  have hsum : headerBytes + (c.layout.bucketsCount + 1) * bucketBytes B
      = c.layout.bucketsCount * bucketBytes B + layoutBytes B := by
    unfold layoutBytes
    rw [Nat.add_mul]
    omega
  refine (reserve_runs kernel _ c).mono ?_ (fun _ _ h => h)
  rintro _ c' ⟨hlay, hlength⟩
  rw [hsum]
  refine ⟨hlay, ?_, ?_⟩
  · split_ifs at hlength <;> omega
  · split_ifs at hlength <;> omega

/-- `create_bucket` took the id of a mapped bucket, which is a chain of its own once it is cleared. -/
structure Taken (c : Container B) (chains : List (List ℕ)) (free : List ℕ) (id : ℕ) (c' : Container B) : Prop where
  mapped : c'.Mapped id
  owned : ∀ b : Bucket B, b.nextBucketId = none → (c'.setBucket id b).Owned ([id] :: chains) free.tail
  source : (free = [] ∧ id = c.layout.bucketsCount ∧ c'.layout.bucketsCount = c.layout.bucketsCount + 1) ∨
    (free ≠ [] ∧ free.head? = some id ∧ c'.layout.bucketsCount = c.layout.bucketsCount)
  others : ∀ j, j ≠ id → c'.layout.buckets j = c.layout.buckets j
  length : c'.fileMap.length ≤
    max c.fileMap.length ((headerBytes + (c.layout.bucketsCount + 1) * bucketBytes B) * 11 / 10)

theorem takeBucketId_runs {c : Container B} {chains : List (List ℕ)} {free : List ℕ} (h : c.Owned chains free)
    (kernel : Kernel) :
    Prog.Runs (takeBucketId kernel) c (fun id c' => Taken c chains free id c') (Refused kernel c) := by
  unfold takeBucketId
  rw [Prog.runs_bind, Prog.runs_get]
  cases hfree : c.layout.firstFreeBucketId with
  | none =>
    obtain rfl := h.free_eq_nil hfree
    rw [Prog.runs_bind]
    refine (reserveBucket_runs kernel c).mono ?_ (fun _ _ h => h)
    rintro _ c' ⟨hlay, hlen, hmax⟩
    rw [Prog.runs_bind, Prog.runs_modify, Prog.runs_pure]
    have hcount : c'.layout.bucketsCount + 1 = c.layout.bucketsCount + 1 := by rw [hlay]
    have hbuckets : c'.layout.buckets = c.layout.buckets := by rw [hlay]
    refine ⟨hlen, fun b hb => ?_, Or.inl ⟨rfl, rfl, hcount⟩, fun j _ => congrFun hbuckets j, hmax⟩
    refine h.append hcount (by rw [← hlay]; rfl) (by rw [← hlay]; rfl) (fun j hj => ?_) ?_ ?_
    · rw [setBucket_of_ne hj]
      exact congrFun hbuckets j
    · unfold next
      rw [setBucket_self, hb]
    · show headerBytes + (c'.layout.bucketsCount + 1) * bucketBytes B ≤ c'.fileMap.length
      rw [hcount]
      exact hlen
  | some id =>
    obtain ⟨t, rfl⟩ := h.free_eq_cons hfree
    have hm : c.Mapped id := h.mapped (h.lt_of_mem_free (by simp))
    simp only [Prog.runs_bind, Prog.runs_pure, Prog.runs_modify]
    rw [runs_bucketAt hm]
    exact ⟨hm, fun b hb => h.takeFree hb, Or.inr ⟨by simp, rfl, rfl⟩, fun _ _ => rfl, le_max_left _ _⟩

/-- `create_bucket` adds a chain of one empty bucket. -/
theorem createBucket_runs {c : Container B} {chains : List (List ℕ)} {free : List ℕ}
    (h : c.Owned chains free) (kernel : Kernel) (prefixBits : ℕ) :
    Prog.Runs (createBucket kernel prefixBits) c
      (fun id c' => c'.Owned ([id] :: chains) free.tail ∧ Created c prefixBits free id c')
      (Refused kernel c) := by
  unfold createBucket
  rw [Prog.runs_bind]
  refine (takeBucketId_runs h kernel).mono (fun id c' ht => ?_) (fun _ _ h => h)
  simp only [Prog.runs_bind, Prog.runs_pure, runs_bucketPtr]
  rw [runs_load rfl ht.mapped, runs_store rfl ht.mapped]
  refine ⟨ht.owned _ rfl, ht.source, by simp, fun j hj => ?_, ht.length⟩
  rw [setBucket_of_ne hj]
  exact ht.others j hj

end DiskHash.Container
