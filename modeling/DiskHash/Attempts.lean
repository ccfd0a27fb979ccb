import DiskHash.Failure

/-!
# DiskHash.Attempts — sessions in which calls throw

The system may refuse memory to any `get`.  When `create_record` is refused it, the exception leaves the map with
what it held; a record longer than a bucket has chained empty buckets behind the others by then.  Only a refusal
while `get` makes room, which doubles the catalogue or splits a chain, is not taken back.
-/

namespace DiskHash

namespace Container

variable {B : ℕ} {c c' c'' : Container B} {S S' S'' : Shape} {L L' L'' : List ℕ} {rest : List (List ℕ)}

/-- `c'` is `c` with empty buckets chained behind the first chain, which is `L'` now. -/
structure Padded (c : Container B) (S : Shape) (L : List ℕ) (rest : List (List ℕ)) (c' : Container B) (S' : Shape)
    (L' : List ℕ) : Prop where
  rep : c'.Rep S'
  chains : S'.chains = L' :: rest
  padding : ∃ E, L' = L ++ E ∧ ∀ i ∈ E, S'.recs i = []
  same : ∀ i ∈ (L :: rest).flatten, S'.recs i = S.recs i ∧
    (c'.layout.buckets i).prefixBits = (c.layout.buckets i).prefixBits
  count : c.layout.bucketsCount ≤ c'.layout.bucketsCount

/-- A refusal leaves the buckets. -/
theorem Rep.refused {kernel : Kernel} {e : Fault} (h : c.Rep S) (hr : Refused kernel c e c') : c'.Rep S := by
  obtain ⟨fm, layout⟩ := c'
  obtain rfl : layout = c.layout := hr.layout
  have hlength : fm.length = c.fileMap.length := hr.length
  exact ⟨⟨h.owned.perm, h.owned.linked, h.owned.freeLinked, hlength ▸ h.owned.covers, h.owned.signature⟩,
    h.holds, h.freeEmpty, h.depth⟩

theorem Rep.padded_refused {kernel : Kernel} {e : Fault} (h : c.Rep S) (hS : S.chains = L :: rest)
    (hr : Refused kernel c e c') : Padded c S L rest c' S L where
  rep := h.refused hr
  chains := hS
  padding := ⟨[], by simp, by simp⟩
  same i _ := ⟨rfl, by rw [hr.layout]⟩
  count := by rw [hr.layout]

theorem Rep.padded_extend {id : ℕ} (h : c.Rep S) (hS : S.chains = L :: rest) (hext : c'.Extends c S.free L id)
    (hrep : c'.Rep (S.extend L rest id)) : Padded c S L rest c' (S.extend L rest id) (L ++ [id]) where
  rep := hrep
  chains := rfl
  padding := ⟨[id], rfl, fun i hi => by
    rw [List.mem_singleton.mp hi]
    simp [Shape.extend]⟩
  same i hi := by
    obtain ⟨T, hT, hiT⟩ := List.mem_flatten.mp hi
    have hne : i ≠ id := by
      rintro rfl
      exact h.owned.taken_not_mem hext.source (hS ▸ hT) hiT
    exact ⟨by simp [Shape.extend, hne], (hext.same i hne).prefixBits⟩
  count := hext.count_le

theorem Padded.trans (h : Padded c S L rest c' S' L') (h' : Padded c' S' L' rest c'' S'' L'') :
    Padded c S L rest c'' S'' L'' where
  rep := h'.rep
  chains := h'.chains
  padding := by
    obtain ⟨E, rfl, hE⟩ := h.padding
    obtain ⟨E', rfl, hE'⟩ := h'.padding
    refine ⟨E ++ E', List.append_assoc .., fun i hi => ?_⟩
    rcases List.mem_append.mp hi with hi | hi
    · exact (h'.same i (by simp [hi])).1.trans (hE i hi)
    · exact hE' i hi
  same i hi := by
    obtain ⟨E, rfl, -⟩ := h.padding
    have hi' : i ∈ ((L ++ E) :: rest).flatten := by
      simp only [List.flatten_cons, List.mem_append] at hi ⊢
      tauto
    exact ⟨(h'.same i hi').1.trans (h.same i hi).1, (h'.same i hi').2.trans (h.same i hi).2⟩
  count := h.count.trans h'.count

/-- When the search for room throws, it has added empty buckets at most. -/
theorem findRoom_pads (kernel : Kernel) (n : ℕ) :
    ∀ (fuel : ℕ) (c : Container B) (S : Shape) (L₁ : List ℕ) (i : ℕ) (L₂ : List ℕ) (rest : List (List ℕ)),
      c.Rep S → S.chains = (L₁ ++ i :: L₂) :: rest →
      Prog.Runs (findRoom kernel n fuel i ⟨c.fileMap.start, i⟩) c (fun _ _ => True)
        (fun e c' => e = .outOfFuel ∨ e = .systemError ∧ ∃ S' L', Padded c S (L₁ ++ i :: L₂) rest c' S' L')
  | 0, _, _, _, _, _, _, _, _ => Or.inl rfl
  | fuel + 1, c, S, L₁, i, L₂, rest, h, hS => by
    have hmem : L₁ ++ i :: L₂ ∈ S.chains := by rw [hS]; simp
    have hnext := h.next_of_split hmem
    rw [findRoom, Prog.runs_bind, runs_load rfl (h.mapped hmem (by simp))]
    refine Prog.runs_ite (fun _ => ?_) (fun _ => trivial)
    cases L₂ with
    | nil =>
      rw [hnext]
      refine h.runs_chain kernel hS (fun e c' hr => Or.inr ⟨hr.fault, S, _, h.padded_refused hS hr⟩)
        (fun id c' hext hrep => ?_)
      refine (findRoom_pads kernel n fuel c' _ (L₁ ++ [i]) id [] rest hrep rfl).mono (fun _ _ _ => trivial) ?_
      rintro e c'' (rfl | ⟨rfl, S', L', hp⟩)
      · exact Or.inl rfl
      · exact Or.inr ⟨rfl, S', L', (h.padded_extend hS hext hrep).trans hp⟩
    | cons k L₃ =>
      rw [hnext, List.head?_cons]
      simp only [Prog.runs_bind, runs_bucketPtr]
      have hrun := findRoom_pads kernel n fuel c S (L₁ ++ [i]) k L₃ rest h (by rw [hS]; simp)
      rwa [List.append_assoc] at hrun

/-- When `create_record` throws, it has added empty buckets at most. -/
theorem createRecord_pads (h : c.Rep S) (kernel : Kernel) (hash : Hash) (key value : Bytes)
    (hS : S.chains = L :: rest) {bucketId : ℕ} (hhead : L.head? = some bucketId) (fuel : ℕ) :
    Prog.Runs (createRecord kernel fuel bucketId hash key value) c (fun _ _ => True)
      (fun e c' => e = .outOfFuel ∨ e = .systemError ∧ ∃ S' L', Padded c S L rest c' S' L') := by
  by_cases hfit : bytesRequired key value ≤ B
  · refine (createRecord_runs (r := ⟨hash, key, value⟩) h kernel hfit hS hhead fuel).mono (fun _ _ _ => trivial) ?_
    rintro e c' (he | hr)
    · exact Or.inl he.1
    · exact Or.inr ⟨hr.fault, S, L, h.padded_refused hS hr⟩
  · obtain ⟨L₂, rfl⟩ := List.head?_eq_some_iff.mp hhead
    have hlong : B < bytesRequired key value := Nat.lt_of_not_le hfit
    unfold createRecord
    rw [Prog.runs_bind, runs_bucketPtr, Prog.runs_bind]
    have hpads := findRoom_pads kernel (bytesRequired key value) fuel c S [] bucketId L₂ rest h hS
    have hloops := findRoom_loops kernel hlong fuel c S [] bucketId L₂ rest h hS
    unfold Prog.Runs at hpads hloops ⊢
    cases hrun : findRoom kernel (bytesRequired key value) fuel bucketId ⟨c.fileMap.start, bucketId⟩ c with
    | ok p c' =>
      rw [hrun] at hloops
      exact hloops.elim
    | error e c' =>
      rw [hrun] at hpads
      exact hpads

end Container

namespace HashMap

variable {B : ℕ} {m m' : HashMap B} {S S' : Shape} {L L' : List ℕ} {rest : List (List ℕ)} {b p q : ℕ} {os : Os}
  {fuel : ℕ} {hash : Hash} {D : Contents}

/-- Empty buckets at the end of a chain keep the invariant and the records. -/
theorem Inv.padded {c : Container B} (h : m.Inv S) (hS : S.chains = L :: rest) (hc : m.Holds S L b p q)
    (hp : Container.Padded m.container S L rest c S' L') :
    ({ m with container := c } : HashMap B).Inv S' ∧ S'.records = S.records := by
  obtain ⟨chains, free, recs⟩ := S'
  obtain rfl : chains = L' :: rest := hp.chains
  obtain ⟨E, rfl, hE⟩ := hp.padding
  have hL : ∀ i ∈ L, recs i = S.recs i ∧
      (c.layout.buckets i).prefixBits = (m.container.layout.buckets i).prefixBits :=
    fun i hi => hp.same i (by simp [hi])
  have hrest : ∀ T ∈ rest, ∀ i ∈ T, recs i = S.recs i ∧
      (c.layout.buckets i).prefixBits = (m.container.layout.buckets i).prefixBits :=
    fun T hT i hi => hp.same i (List.mem_flatten.mpr ⟨T, by simp [hT], hi⟩)
  have hb := List.mem_of_mem_head? hc.head
  have hrecords : Shape.records ⟨(L ++ E) :: rest, free, recs⟩ = S.records := by
    have hnil : E.flatMap recs = [] := List.flatMap_eq_nil_iff.mpr hE
    rw [Shape.records_cons rfl, Shape.records_cons hS, List.flatMap_append, hnil, List.append_nil]
    congr 1
    · exact List.flatMap_congr fun i hi => (hL i hi).1
    · refine List.flatMap_congr fun i hi => ?_
      obtain ⟨T, hT, hiT⟩ := List.mem_flatten.mp hi
      exact (hrest T hT i hiT).1
  refine ⟨h.update hS hc hp.rep ?_ ?_ (fun T hT i hi => (hrest T hT i hi).symm) ?_ ?_ hp.count, hrecords⟩
  · rw [List.head?_append, hc.head]
    rfl
  · intro i hi
    rw [hp.rep.depth (L ++ E) (List.mem_cons_self ..) i hi b (List.mem_append_left _ hb), (hL b hb).2]
    exact hc.depth b hb
  · intro i hi r hr
    rcases List.mem_append.mp hi with hi | hi
    · rw [(hL i hi).1] at hr
      exact hc.hashes i hi r hr
    · rw [show recs i = [] from hE i hi] at hr
      cases hr
  · rw [hrecords]
    exact h.keys

/-- A `get` that throws behind the point where there is room keeps the records. -/
theorem get_pads (hB : B < 2 ^ 31) (h : m.Inv S) {b' : ℕ} {m₁ : HashMap B}
    (hroom : makeRoom os fuel hash (m.catalogue.lookup hash) m = .ok b' m₁) (key default : Bytes) :
    Prog.Runs (get os fuel hash key default) m (fun _ _ => True)
      (fun e m' => e = .outOfFuel ∨ e = .systemError ∧ ∃ S', m'.Inv S' ∧ S'.records.Perm S.records) := by
  obtain ⟨L, rest, p, q, hperm, h', hf⟩ := h.front hash
  have hL : L ∈ L :: rest := List.mem_cons_self ..
  obtain ⟨hseg, hbuckets⟩ := h'.chain hL hf.holds.head
  obtain ⟨S₁, L₁, rest₁, hm⟩ := (makeRoom_runs hB os h' rfl hf.holds hf.bits fuel).of_ok hroom
  obtain ⟨p₁, q₁, hc₁, -⟩ := hm.chain
  unfold get
  rw [Prog.runs_bind, runs_onCat, h.cat.runs_find, Prog.runs_bind, runs_onDat]
  refine (Container.findRecord_runs hB L fuel _ hseg hbuckets).mono ?_ ?_
  · rintro o c ⟨rfl, -⟩
    cases o with
    | some v => trivial
    | none =>
      dsimp only
      rw [Prog.runs_bind_of_ok hroom, runs_onDat]
      refine (Container.createRecord_pads hm.inv.rep os.dat hash key default hm.chains hc₁.head fuel).mono
        (fun _ _ _ => trivial) ?_
      rintro e c (rfl | ⟨rfl, S', L', hp⟩)
      · exact Or.inl rfl
      · obtain ⟨hinv, hrec⟩ := hm.inv.padded hm.chains hc₁ hp
        refine Or.inr ⟨rfl, S', hinv, ?_⟩
        rw [hrec]
        exact hm.records.trans (hperm.flatten.flatMap_right _).symm
  · rintro e c ⟨rfl, -, -⟩
    exact Or.inl rfl

end HashMap

/-! ## Sessions -/

/-- `get` is not refused memory while it makes room. -/
def Call.FindsRoom {B : ℕ} (fuel : ℕ) (m : HashMap B) : Call → Prop
  | .get os hash _ _ => ∃ b m₁, HashMap.makeRoom os fuel hash (m.catalogue.lookup hash) m = .ok b m₁
  | .find _ _ => True
  | .remove _ _ => True

/-- A call that returned, or that was refused memory when there was room for its record. -/
inductive Attempts {B : ℕ} (m : HashMap B) : Call → Option Answer → HashMap B → Prop
  | returned {call : Call} {answer : Answer} {m' : HashMap B} (fuel : ℕ) : call.run fuel m = .ok answer m' →
      Attempts m call (some answer) m'
  | threw {call : Call} {m' : HashMap B} (fuel : ℕ) : call.FindsRoom fuel m →
      call.run fuel m = .error .systemError m' → Attempts m call none m'

/-- The calls that returned, with their answers. -/
def returned (tr : List (Call × Option Answer)) : List (Call × Answer) :=
  tr.filterMap fun e => e.2.map (e.1, ·)

namespace HashMap

variable {B : ℕ} {m m' : HashMap B} {D : Contents} {call : Call}

/-- A call that threw left the records. -/
theorem threw_represents (hB : B < 2 ^ 31) (hm : m.Represents D) {fuel : ℕ} (hroom : call.FindsRoom fuel m)
    (hrun : call.run fuel m = .error .systemError m') : m'.Represents D := by
  obtain ⟨S, h, hD⟩ := hm
  cases call with
  | get os hash key default =>
    obtain ⟨b, m₁, hroom⟩ := hroom
    rcases Prog.bind_eq_error.mp hrun with hget | ⟨v, m₂, -, hrest⟩
    · rcases (get_pads hB h hroom key default).of_error hget with he | ⟨-, S', h', hrec⟩
      · cases he
      · exact ⟨S', h', Dict.Lists.perm hD hrec.symm⟩
    · cases hrest
  | find hash key =>
    have hstarved := (call_runs hB h hD fuel (.find hash key)).of_error hrun trivial
    cases hstarved.1
  | remove hash key =>
    have hstarved := (call_runs hB h hD fuel (.remove hash key)).of_error hrun trivial
    cases hstarved.1

/-- How a call ends without an answer: the system refused memory, or the fuel ran out, or there are more buckets
than hashes. -/
theorem call_faults (hB : B < 2 ^ 31) (hm : m.Represents D) {fuel : ℕ} {e : Fault}
    (hrun : call.run fuel m = .error e m') :
    e = .systemError ∨ e = .outOfFuel ∨ e = .badShift ∧ 2 ^ 32 < m.container.layout.bucketsCount := by
  obtain ⟨S, h, hD⟩ := hm
  cases call with
  | get os hash key default =>
    rcases Prog.bind_eq_error.mp hrun with hget | ⟨v, m₂, -, hrest⟩
    · rcases (get_step hB os h hD fuel hash key default).of_error hget with hfails | ⟨-, he⟩
      · cases hfails with
        | starved hs => exact .inr (.inl hs.1)
        | refused he _ => exact .inl he
        | overgrown he hlt => exact .inr (.inr ⟨he, hlt⟩)
      · exact .inr (.inl he)
    · cases hrest
  | find hash key =>
    exact .inr (.inl ((call_runs hB h hD fuel (.find hash key)).of_error hrun trivial).1)
  | remove hash key =>
    exact .inr (.inl ((call_runs hB h hD fuel (.remove hash key)).of_error hrun trivial).1)

/-- The answers of a session with failures are those of the dictionary to the calls that returned. -/
theorem attempts_refine (hB : B < 2 ^ 31) {tr : List (Call × Option Answer)} (hrun : Run Attempts m tr m')
    (hm : m.Represents D) :
    (returned tr).map Prod.snd = (replay dictionary D ((returned tr).map Prod.fst)).1 ∧
      m'.Represents (replay dictionary D ((returned tr).map Prod.fst)).2 := by
  induction hrun generalizing D with
  | nil => exact ⟨rfl, hm⟩
  | cons hs _ ih =>
    cases hs with
    | returned fuel hcall =>
      obtain ⟨rfl, hm'⟩ := step_refines hB hm ⟨fuel, hcall⟩
      obtain ⟨hanswers, hend⟩ := ih hm'
      exact ⟨congrArg (_ :: ·) hanswers, hend⟩
    | threw fuel hroom hcall => exact ih (threw_represents hB hm hroom hcall)

end HashMap

/-- A failed insertion leaves no trace: in a session whose calls may be refused memory where there is room for their
record, the answers are those of the dictionary to the calls that returned.  After it no call fails for another reason
than a refusal, and every admissible call returns. -/
theorem failed_insertion_leaves_no_trace {os : Os} {m₀ m : HashMap defaultBucketSize}
    {tr : List (Call × Option Answer)} (hnew : HashMap.new os false (Files.empty defaultBucketSize) = .ok m₀)
    (hrun : Run Attempts m₀ tr m) :
    (returned tr).map Prod.snd = (replay dictionary Dict.empty ((returned tr).map Prod.fst)).1 ∧
    m.Represents (replay dictionary Dict.empty ((returned tr).map Prod.fst)).2 ∧
    (∀ (call : Call) fuel e m', call.run fuel m = .error e m' →
      e = .systemError ∨ e = .outOfFuel ∨ e = .badShift ∧ 2 ^ 32 < m.container.layout.bucketsCount) ∧
    ∀ call : Call, call.Admissible m → ∃ n, ∀ fuel, n ≤ fuel → ∃ answer m', call.run fuel m = .ok answer m' := by
  obtain ⟨hanswers, hrep⟩ := HashMap.attempts_refine defaultBucketSize_lt hrun (HashMap.new_represents hnew)
  exact ⟨hanswers, hrep, fun _ _ _ _ => HashMap.call_faults defaultBucketSize_lt hrep,
    HashMap.call_returns defaultBucketSize_lt hrep⟩

/-- A system that has no memory left for the buckets. -/
def Os.stubborn : Os := ⟨Kernel.willing, Kernel.stubborn⟩

/-- In a new map a record that is longer than a bucket is refused the bucket behind the first one. -/
theorem HashMap.exists_refused : ∃ m₀ m : HashMap defaultBucketSize,
    HashMap.new Os.willing false (Files.empty defaultBucketSize) = .ok m₀ ∧
    Run Attempts m₀ [(.get Os.stubborn 7 [1] (List.replicate defaultBucketSize 0), none)] m := by
  obtain ⟨m₀, hnew⟩ := HashMap.new_returns (B := defaultBucketSize) Os.willing_grants false
  have h := HashMap.new_inv hnew
  have hlen := HashMap.new_length hnew
  have hcount := HashMap.new_count hnew
  obtain ⟨L, hL, hhead⟩ := h.entries 7
  obtain ⟨b, rfl⟩ : ∃ b, L = [b] := by
    have hchains : L = [1] ∨ L = [0] := by simpa [HashMap.newShape] using hL
    rcases hchains with rfl | rfl <;> exact ⟨_, rfl⟩
  rw [List.head?_cons, Option.some.injEq] at hhead
  have hfree : m₀.container.layout.firstFreeBucketId = none := h.rep.owned.freeLinked
  have hnext : (m₀.container.layout.buckets b).nextBucketId = none :=
    h.rep.next_of_split (show [] ++ b :: [] ∈ _ from hL)
  have hmapped := h.rep.mapped hL (List.mem_singleton_self b)
  -- the chain has one bucket, so nothing is split
  have hroom : HashMap.makeRoom Os.stubborn 1 7 b m₀ = .ok b m₀ := by
    refine Prog.Runs.eq_ok ?_
    unfold HashMap.makeRoom
    rw [Prog.runs_bind, HashMap.runs_onDat]
    refine (HashMap.bucketToSplit_runs h.rep hL rfl).mono ?_ (fun _ _ he => he)
    rintro o c ⟨rfl, rfl⟩
    exact ⟨rfl, rfl⟩
  have hlong : defaultBucketSize < Container.bytesRequired [1] (List.replicate defaultBucketSize 0) := by
    rw [Container.bytesRequired, List.length_replicate]
    omega
  have hget : Prog.Runs ((Call.get Os.stubborn 7 [1] (List.replicate defaultBucketSize 0)).run 1) m₀
      (fun _ _ => False) (fun e _ => e = .systemError) := by
    unfold Call.run HashMap.get
    dsimp only
    rw [Prog.runs_bind, Prog.runs_bind, HashMap.runs_onCat, h.cat.runs_find, Prog.runs_bind, HashMap.runs_onDat,
      ← hhead]
    obtain ⟨hseg, hbuckets⟩ := h.chain hL rfl
    refine (Container.findRecord_runs defaultBucketSize_lt [b] 1 _ hseg hbuckets).mono ?_ ?_
    · rintro o c ⟨rfl, ho⟩
      cases o with
      | some v =>
        obtain ⟨i, pre, r, post, -, hrec, -⟩ := h.found hL ho
        simp [HashMap.newShape] at hrec
      | none =>
        dsimp only
        rw [Prog.runs_bind_of_ok hroom, HashMap.runs_onDat]
        unfold Container.createRecord
        rw [Prog.runs_bind, Container.runs_bucketPtr, Prog.runs_bind, Container.findRoom, Prog.runs_bind,
          Container.runs_load rfl hmapped, if_pos (by omega), hnext]
        dsimp only
        rw [Prog.runs_bind]
        refine (HashMap.createBucket_refused hfree ?_ _).mono (fun _ _ he => he.elim) (fun _ _ he => he)
        rw [hcount]
        exact hlen.trans_lt (by decide)
    · rintro e c ⟨-, -, hlt⟩
      exact absurd hlt (lt_irrefl 1)
  obtain ⟨e, m, hrun, rfl⟩ := hget.throws (fun _ _ h => h)
  exact ⟨m₀, m, hnew, .single (.threw 1 ⟨b, m₀, hhead ▸ hroom⟩ hrun)⟩

/-- A session in which the system refuses memory to an insertion. -/
theorem failed_insertion_leaves_no_trace_refused : ∃ m₀ m : HashMap defaultBucketSize,
    HashMap.new Os.willing false (Files.empty defaultBucketSize) = .ok m₀ ∧
    Run Attempts m₀ [(.get Os.stubborn 7 [1] (List.replicate defaultBucketSize 0), none)] m ∧
    m.Represents Dict.empty := by
  obtain ⟨m₀, m, hnew, hrun⟩ := HashMap.exists_refused
  exact ⟨m₀, m, hnew, hrun, (failed_insertion_leaves_no_trace hnew hrun).2.1⟩

end DiskHash
