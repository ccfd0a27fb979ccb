import DiskHash.Reading
import DiskHash.Remapped
import DiskHash.Session

/-!
# DiskHash.Persistence — the files of a map over many sessions

Files are made, and then used and closed and opened again any number of times.  A map that was opened again sees
only the beginning of its files until it grows them, so its calls may leave the mapping.  They never answer wrongly:
the map is followed by one whose files are mapped whole, which does the same to the same bytes and is never closed.
-/

namespace DiskHash

/-- What happens to the files of a map. -/
inductive FileEvent
  | call (call : Call)
  | reopen (os : Os) (readOnly : Bool)

/-- A map and how its files were opened. -/
structure Opened (B : ℕ) where
  readOnly : Bool
  map : HashMap B

/-- The record the call may insert fits a bucket, and there are not more buckets than hashes. -/
def Call.Fits {B : ℕ} (m : HashMap B) : Call → Prop
  | .get _ _ key default => Container.bytesRequired key default ≤ B ∧ m.container.layout.bucketsCount ≤ 2 ^ 32
  | .find _ _ => True
  | .remove _ _ => True

/-- The call does not write: what may be asked of a map whose files were opened to be read. -/
def Call.Looks : Call → Prop
  | .find _ _ => True
  | _ => False

/-- A call that returned, or a `close` and a constructor call. -/
inductive Used {B : ℕ} : Opened B → FileEvent → Option Answer → Opened B → Prop
  | call {o : Opened B} {call : Call} {answer : Answer} {m' : HashMap B} :
      (o.readOnly = true → call.Looks) → call.Fits o.map → Step o.map call answer m' →
      Used o (.call call) (some answer) ⟨o.readOnly, m'⟩
  | reopen {o : Opened B} {os : Os} {readOnly : Bool} {m' : HashMap B} :
      HashMap.new os readOnly o.map.close = .ok m' → Used o (.reopen os readOnly) none ⟨readOnly, m'⟩

/-- What the events do to a dictionary: closing and opening does nothing. -/
def persistent (D : Contents) : FileEvent → Option Answer × Contents
  | .call call => (some (dictionary D call).1, (dictionary D call).2)
  | .reopen _ _ => (none, D)

namespace HashMap

variable {B : ℕ} {m m' : HashMap B} {S : Shape} {D : Contents}

/-- The same files show the same bytes. -/
theorem Same.view (h : m.Same m') : m.container.view = m'.container.view := by
  unfold Container.view
  rw [show m.container.layout = m'.container.layout from h.2]

/-- All entries and all buckets are in the mappings. -/
structure Whole (m : HashMap B) : Prop where
  catalogue : Catalogue.headerBytes + 2 ^ m.catalogue.layout.prefixBits * Catalogue.entryBytes ≤
    m.catalogue.fileMap.length
  container : headerBytes + m.container.layout.bucketsCount * bucketBytes B ≤ m.container.fileMap.length

/-- The invariant is one of the files, as long as all of them is mapped. -/
theorem Inv.remapped (h : m'.Inv S) (hs : m.Same m') (hw : m.Whole) : m.Inv S := by
  obtain ⟨⟨fm, layout⟩, ⟨fm', layout'⟩⟩ := m
  obtain ⟨hcat, hdat⟩ := hs
  obtain rfl : layout = m'.catalogue.layout := hcat
  obtain rfl : layout' = m'.container.layout := hdat
  have howned := h.rep.owned
  refine ⟨?_, ⟨⟨howned.perm, howned.linked, howned.freeLinked, hw.container, howned.signature⟩, h.rep.holds,
    h.rep.freeEmpty, h.rep.depth⟩, h.entries, fun L hL => ?_, h.keys, h.growth, h.origin⟩
  · exact ⟨h.cat.signature, h.cat.pos, h.cat.le, h.cat.shift, h.cat.mask, h.cat.bufferSize, hw.catalogue⟩
  · obtain ⟨b, p, q, hc⟩ := h.cells L hL
    exact ⟨b, p, q, hc.head, hc.cell, hc.pos, hc.le, hc.lt, hc.depth, hc.hashes⟩

/-- The bytes of the files are those of a map that stands for the dictionary. -/
def Keeps (m : HashMap B) (D : Contents) : Prop := ∃ m', m.Same m' ∧ m'.Represents D

theorem Represents.keeps (h : m.Represents D) : m.Keeps D := ⟨m, ⟨rfl, rfl⟩, h⟩

/-! ### Operations -/

variable {fuel : ℕ} {hash : Hash} {key : Bytes}

theorem keeps_find (hB : B < 2 ^ 31) (hm : m.Keeps D) : Prog.Runs (find fuel hash key) m
    (fun o m' => m' = m ∧ o.map m.container.view = D (hash, key)) (fun e _ => Lost e) := by
  obtain ⟨t, hs, S, h, hD⟩ := hm
  obtain ⟨o, t', hrun, rfl, ho⟩ := (find_step hB h hD (t.container.layout.bucketsCount + 1) hash key).returns
    (fun e _ he => by
      have := he.2
      omega)
  refine ((find_reads fuel hash key).runs (find_follows fuel _ hash key m t' hs o t' hrun)).mono ?_ fun _ _ he => he.2
  rintro o m' ⟨rfl, rfl, -⟩
  exact ⟨rfl, by rw [Same.view hs]; exact ho⟩

theorem keeps_get (hB : B < 2 ^ 31) (hm : m.Keeps D) (os : Os) {default : Bytes}
    (hfit : Container.bytesRequired key default ≤ B) (hcount : m.container.layout.bucketsCount ≤ 2 ^ 32) :
    Prog.Runs (get os fuel hash key default) m
      (fun v m' => m'.container.view v = (D.getOrInsert (hash, key) default).1 ∧
        m'.Keeps (D.getOrInsert (hash, key) default).2) (fun e _ => Lost e) := by
  obtain ⟨t, hs, S, h, hD⟩ := hm
  rw [show m.container.layout = t.container.layout from hs.2] at hcount
  obtain ⟨v, t', hrun, hv, hrep⟩ := (get_step hB Os.willing h hD
    (t.container.layout.bucketsCount + S.records.length + 2) hash key default).returns (by
      rintro e t' (he | ⟨hlt, -⟩)
      · cases he with
        | starved hs =>
          have := hs.2
          omega
        | refused _ hn => exact hn Os.willing_grants
        | overgrown _ hlt => omega
      · omega)
  refine (get_follows fuel _ hash key os Os.willing default m t hs v t' hrun).mono ?_ fun _ _ he => he
  rintro v m' ⟨rfl, hs'⟩
  exact ⟨by rw [Same.view hs']; exact hv, t', hs', hrep⟩

theorem keeps_remove (hB : B < 2 ^ 31) (hm : m.Keeps D) : Prog.Runs (remove fuel hash key) m
    (fun b m' => b = (D (hash, key)).isSome ∧ m'.Keeps (D.erase (hash, key))) (fun e _ => Lost e) := by
  obtain ⟨t, hs, S, h, hD⟩ := hm
  obtain ⟨b, t', hrun, hb, hrep⟩ := (remove_step hB h hD (t.container.layout.bucketsCount + 1) hash key).returns
    (fun e _ he => by
      have := he.2
      omega)
  refine (remove_follows fuel _ hash key m t hs b t' hrun).mono ?_ fun _ _ he => he
  rintro b m' ⟨rfl, hs'⟩
  exact ⟨hb, t', hs', hrep⟩

/-- A call answers as the dictionary does and leaves the files with its contents, or it is lost. -/
theorem keeps_call (hB : B < 2 ^ 31) (hm : m.Keeps D) {call : Call} (hfits : call.Fits m) (fuel : ℕ) :
    Prog.Runs (call.run fuel) m
      (fun answer m' => answer = (dictionary D call).1 ∧ m'.Keeps (dictionary D call).2) (fun e _ => Lost e) := by
  cases call with
  | get os hash key default =>
    refine (Prog.runs_bind _).mpr ((keeps_get hB hm os hfits.1 hfits.2).mono ?_ fun _ _ he => he)
    rintro v m' ⟨hv, hkeeps⟩
    exact ⟨congrArg Answer.value hv, hkeeps⟩
  | find hash key =>
    refine (Prog.runs_bind _).mpr ((keeps_find hB hm).mono ?_ fun _ _ he => he)
    rintro o m' ⟨rfl, ho⟩
    exact ⟨congrArg Answer.lookup ho, hm⟩
  | remove hash key =>
    refine (Prog.runs_bind _).mpr ((keeps_remove hB hm).mono ?_ fun _ _ he => he)
    rintro b m' ⟨hb, hkeeps⟩
    exact ⟨congrArg Answer.removed hb, hkeeps⟩

/-- What was closed could have been mapped whole. -/
theorem Keeps.closed (hm : m.Keeps D) : ∃ (u : HashMap B) (S : Shape), u.close = m.close ∧ u.Inv S ∧ Lists S D := by
  obtain ⟨t, hs, S, h, hD⟩ := hm
  -- the map that follows, with files of the same sizes
  let u : HashMap B := ⟨⟨{ t.catalogue.fileMap with size := m.catalogue.fileMap.size }, t.catalogue.layout⟩,
    ⟨{ t.container.fileMap with size := m.container.fileMap.size }, t.container.layout⟩⟩
  refine ⟨u, S, ?_, h.remapped ⟨rfl, rfl⟩ ⟨h.cat.covers, h.rep.owned.covers⟩, hD⟩
  show Files.mk ⟨_, t.catalogue.layout⟩ ⟨_, t.container.layout⟩ = ⟨⟨_, m.catalogue.layout⟩, ⟨_, m.container.layout⟩⟩
  rw [hs.1, hs.2]

/-- After a reopen the bytes are the same. -/
theorem keeps_reopen (hm : m.Keeps D) {os : Os} {readOnly : Bool} (hnew : new os readOnly m.close = .ok m') :
    m'.Keeps D := by
  obtain ⟨u, S, hclose, h, hD⟩ := hm.closed
  have hr := h.reopened (hclose.symm ▸ hnew)
  exact ⟨u, ⟨hr.catalogue, hr.container⟩, S, h, hD⟩

/-- The constructor returns, when the system grants its calls. -/
theorem Keeps.reopens (hm : m.Keeps D) {os : Os} (g : os.Grants) (readOnly : Bool) :
    ∃ m', new os readOnly m.close = .ok m' := by
  obtain ⟨u, S, hclose, h, -⟩ := hm.closed
  exact hclose ▸ h.reopen_returns g readOnly

/-- A loop over the map shows the entries of the dictionary, each once, or it is lost. -/
theorem keeps_loop (hB : B < 2 ^ 31) (hm : m.Keeps D) (fuel steps : ℕ) :
    Prog.Runs (ConstIterator.atBegin fuel >>= ConstIterator.collect fuel steps) m
      (fun shown m' => m' = m ∧ ∃ es : List Record,
        Dict.Lists (fun r : Record => (r.hash, r.key)) Record.value es D ∧ shown = es.map fun r => (r.key, r.value))
      (fun e _ => Lost e) := by
  obtain ⟨t, hs, S, h, hD⟩ := hm
  obtain ⟨es, hperm, hloop⟩ := ConstIterator.loop_runs hB h
  obtain ⟨l, t', hrun, rfl, -, rfl⟩ := (hloop t.container.layout.bucketsCount es.length).returns (fun e _ he => by
    have := he.2
    omega)
  have hfollows : Prog.Follows Same Eq Lost
      (ConstIterator.atBegin fuel >>= ConstIterator.collect fuel steps : Prog Fault (HashMap B) _)
      (ConstIterator.atBegin t'.container.layout.bucketsCount >>=
        ConstIterator.collect t'.container.layout.bucketsCount es.length) := by
    refine (ConstIterator.atBegin_follows _ _).bind ?_
    rintro it _ rfl
    exact ConstIterator.collect_follows _ _ it _ _
  have hreads : (ConstIterator.atBegin fuel >>= ConstIterator.collect fuel steps : Prog Fault (HashMap B) _).Reads :=
    (ConstIterator.atBegin_reads fuel).bind fun it => ConstIterator.collect_reads fuel steps it
  refine (hreads.runs (hfollows m t' hs _ t' hrun)).mono ?_ fun _ _ he => he.2
  rintro shown r ⟨rfl, rfl, -⟩
  exact ⟨rfl, es, Dict.Lists.perm hD hperm.symm, rfl⟩

end HashMap

theorem used_persistent {B : ℕ} (hB : B < 2 ^ 31) {o o' : Opened B} {event : FileEvent} {answer : Option Answer}
    {D : Contents} (ho : o.map.Keeps D) (hused : Used o event answer o') :
    answer = (persistent D event).1 ∧ o'.map.Keeps (persistent D event).2 := by
  cases hused with
  | call _ hfits hstep =>
    obtain ⟨fuel, hrun⟩ := hstep
    obtain ⟨rfl, hkeeps⟩ := (HashMap.keeps_call hB ho hfits fuel).of_ok hrun
    exact ⟨rfl, hkeeps⟩
  | reopen hnew => exact ⟨rfl, HashMap.keeps_reopen ho hnew⟩

/-- What is stored in a new map with a hash of the first entry is found after a reopen. -/
theorem stored_first {B : ℕ} (hB : B < 2 ^ 31) {os : Os} {m₀ : HashMap B} {r : Record}
    (hnew : HashMap.new os false (Files.empty B) = .ok m₀) (htop : topBits 1 r.hash = 0) (hfit : r.size ≤ B) :
    ∃ answer m S, Step m₀ (.get Os.willing r.hash r.key r.value) answer m ∧ m.Inv S ∧
      ∀ m', HashMap.Reopened m m' → HashMap.SameAnswer m m' r.hash r.key := by
  have hcount := HashMap.new_count hnew
  have h₀ := (HashMap.new_inv hnew).perm_chains (List.Perm.swap [0] [1] [])
  have hbits : m₀.catalogue.layout.prefixBits = 1 := by
    obtain ⟨b, p, q, hc⟩ := h₀.cells [0] (by simp)
    have hlt : 2 ^ m₀.catalogue.layout.prefixBits < 2 ^ 2 := by
      rw [← show 2 * m₀.container.layout.bucketsCount = 2 ^ 2 by rw [hcount]; rfl]
      exact h₀.growth
    have := (Nat.pow_lt_pow_iff_right (by decide)).mp hlt
    have := hc.pos.trans hc.le
    omega
  obtain ⟨p, q, hf⟩ := h₀.front_of_head r.hash rfl (by rw [h₀.lookup_first (hbits ▸ htop)]; rfl)
  obtain ⟨answer, v, m, hs, hw⟩ := HashMap.stored_uncrowded hB h₀ hf rfl
    (by simp [HashMap.newShape, Shape.records]) hfit (hcount.le.trans (by decide))
  have h := hw.inv
  rw [Shape.write_first (by simpa [HashMap.newShape, Packing.total] using hfit)] at h
  -- the record is in the first bucket
  have hin : HashMap.InFirst m r.hash r.key :=
    .inr ⟨_, h.rep.holds 0 (Nat.pos_of_ne_zero h.count_ne_zero), r, by simp, rfl, rfl⟩
  refine ⟨answer, m, _, hs, h, fun m' hr => (hr.sameAnswer_iff hB h).mpr ⟨?_, hin⟩⟩
  rw [hw.catalogue, hbits]
  exact htop

end DiskHash
