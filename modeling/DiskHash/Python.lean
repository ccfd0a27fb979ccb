import DiskHash.Bindings
import DiskHash.Reread
import DiskHash.Space
import DiskHash.Wrapped

/-!
# DiskHash.Python — Python programs mean what a dictionary does

Every call of a program returns or raises what it means for a dictionary that is open or closed.  An iterator
that has not expired stands before the records it has still to yield (`Stands`); a method with a key leaves the
map as it is, or changes its entries, and then the iterators expire that are not at their end.
-/

namespace DiskHash

/-! ## Methods of an open map -/

namespace PyDiskHash

open Python
open WrappedHashMap (contents contents_hash contents_insert contents_erase)

variable {m : HashMap defaultBucketSize} {D : Dict Bytes Bytes} {os : Os} {fuel : ℕ} {key : Bytes} {readOnly : Bool}

theorem runs_onMap {α : Type} (p : Prog Fault (HashMap defaultBucketSize) α) {Q : α → PyDiskHash → Prop}
    {E : PyError → PyDiskHash → Prop} : Prog.Runs (onMap p) ⟨some m, readOnly⟩ Q E ↔
      Prog.Runs p m (fun a m' => Q a ⟨some m', readOnly⟩) (fun e m' => E (.fault e) ⟨some m', readOnly⟩) := by
  unfold Prog.Runs onMap
  dsimp only
  cases p m <;> rfl

theorem onMap_reads {α : Type} {p : Prog Fault (HashMap defaultBucketSize) α} (hp : p.Reads) : (onMap p).Reads := by
  rintro ⟨map, readOnly⟩
  cases map with
  | none => rfl
  | some m =>
    have hm := hp m
    unfold onMap
    dsimp only
    cases hrun : p m with
    | ok a m' =>
      rw [hrun] at hm
      exact congrArg (fun m => PyDiskHash.mk (some m) readOnly) hm
    | error e m' =>
      rw [hrun] at hm
      exact congrArg (fun m => PyDiskHash.mk (some m) readOnly) hm

theorem ensureOpen_open : ensureOpen ⟨some m, readOnly⟩ = .ok () ⟨some m, readOnly⟩ := rfl

theorem ensureOpen_closed : ensureOpen ⟨none, readOnly⟩ = .error (.raised isClosed) ⟨none, readOnly⟩ := rfl

/-- A method has failed because a call of the map did. -/
def Faults (fails : Prop) (e : PyError) : Prop := ∃ f, e = .fault f ∧ fails

/-- The searches that `find` makes are cut short. -/
def Short (m : HashMap defaultBucketSize) (fuel : ℕ) : Prop := fuel ≤ m.container.layout.bucketsCount

theorem lookup_runs (hm : m.Represents (contents fnv1a D)) (fuel : ℕ) (key : Bytes) :
    Prog.Runs (lookup fuel key) ⟨some m, readOnly⟩ (fun o self => self = ⟨some m, readOnly⟩ ∧ o = D key)
      (fun e _ => Faults (Short m fuel) e) := by
  obtain ⟨S, h, hD⟩ := hm
  unfold lookup
  rw [runs_onMap, Prog.runs_bind]
  refine (HashMap.find_step defaultBucketSize_lt h hD fuel (fnv1a key) key).mono ?_ fun e _ he => ⟨e, rfl, he.2⟩
  rintro o m' ⟨rfl, ho⟩
  rw [contents_hash] at ho
  exact ⟨rfl, ho⟩

/-- A method that looks a key up and goes on with what it finds. -/
theorem lookup_then (hm : m.Represents (contents fnv1a D)) {α : Type} {f : Option Bytes → Prog PyError PyDiskHash α}
    {Q : α → PyDiskHash → Prop} {E : PyError → PyDiskHash → Prop} (hE : ∀ e self, Faults (Short m fuel) e → E e self)
    (hf : Prog.Runs (f (D key)) ⟨some m, readOnly⟩ Q E) :
    Prog.Runs (lookup fuel key >>= f) ⟨some m, readOnly⟩ Q E := by
  rw [Prog.runs_bind]
  refine (lookup_runs hm fuel key).mono ?_ hE
  rintro o self ⟨rfl, rfl⟩
  exact hf

/-- A `get` of a map for a new key. -/
theorem insert_runs (hm : m.Represents (contents fnv1a D)) (hkey : D key = none) (os : Os) (fuel : ℕ) (value : Bytes) :
    Prog.Runs (HashMap.get os fuel (fnv1a key) key value) m
      (fun _ m' => m'.Represents (contents fnv1a (D.insert key value)))
      (fun _ _ => ∃ e m', HashMap.get os fuel (fnv1a key) key value m = .error e m') := by
  obtain ⟨S, h, hD⟩ := hm
  have hget := HashMap.get_step defaultBucketSize_lt os h hD fuel (fnv1a key) key value
  have hnone : contents fnv1a D (fnv1a key, key) = none := contents_hash.trans hkey
  rw [Dict.getOrInsert_none hnone, contents_insert] at hget
  unfold Prog.Runs at hget ⊢
  cases hrun : HashMap.get os fuel (fnv1a key) key value m with
  | ok v m' =>
    rw [hrun] at hget
    exact hget.2
  | error e m' => exact ⟨e, m', rfl⟩

/-- A `remove` of a map, which leaves it as it is when there is no such key. -/
theorem erase_runs (hm : m.Represents (contents fnv1a D)) (fuel : ℕ) (key : Bytes) :
    Prog.Runs (HashMap.remove fuel (fnv1a key) key) m
      (fun b m' => b = (D key).isSome ∧ (b = true → m'.Represents (contents fnv1a (D.erase key))) ∧
        (b = false → m' = m))
      (fun _ _ => Short m fuel) := by
  obtain ⟨S, h, hD⟩ := hm
  have hstep := HashMap.remove_step defaultBucketSize_lt h hD fuel (fnv1a key) key
  have hremoves := HashMap.remove_runs defaultBucketSize_lt h fuel (fnv1a key) key
  rw [contents_hash, contents_erase] at hstep
  unfold Prog.Runs at hstep hremoves ⊢
  cases hrun : HashMap.remove fuel (fnv1a key) key m with
  | ok b m' =>
    rw [hrun] at hstep hremoves
    refine ⟨hstep.1, fun _ => hstep.2, ?_⟩
    rintro rfl
    exact hremoves.1
  | error e m' =>
    rw [hrun] at hstep
    exact hstep.2

/-- How a method with a key can be ended by a fault. -/
def Fails (os : Os) (fuel : ℕ) (m : HashMap defaultBucketSize) : KeyCall → Prop
  | .setitem key value => Short m fuel ∨ ∃ e m', HashMap.get os fuel (fnv1a key) key value m = .error e m'
  | _ => Short m fuel

/-- What a method with a key leaves. -/
structure Leaves (m : HashMap defaultBucketSize) (D : Dict Bytes Bytes) (readOnly : Bool) (c : KeyCall)
    (d : PyDiskHash) : Prop where
  same : ¬ c.Changes D readOnly → d = ⟨some m, readOnly⟩
  changed : c.Changes D readOnly →
    ∃ m', d = ⟨some m', readOnly⟩ ∧ m'.Represents (contents fnv1a (answer D readOnly c).2)

theorem Leaves.of_same {c : KeyCall} (hc : ¬ c.Changes D readOnly) : Leaves m D readOnly c ⟨some m, readOnly⟩ :=
  ⟨fun _ => rfl, fun h => absurd h hc⟩

/-- A method with a key, of an open map. -/
theorem keyed_runs (hm : m.Represents (contents fnv1a D)) (os : Os) (fuel : ℕ) (c : KeyCall) :
    Prog.Runs (c.run os fuel) ⟨some m, readOnly⟩
      (fun a self => (answer D readOnly c).1 = .ok a ∧ Leaves m D readOnly c self)
      (fun e self => (∃ x, e = .raised x ∧ (answer D readOnly c).1 = .error x ∧ Leaves m D readOnly c self) ∨
        Faults (Fails os fuel m c) e) := by
  cases c with
  | get key default =>
    unfold KeyCall.run getDefault
    rw [Prog.runs_bind, Prog.runs_bind_of_ok ensureOpen_open]
    refine lookup_then hm (fun e self he => .inr he) ?_
    cases hkey : D key with
    | none => exact ⟨by simp [answer, hkey], .of_same id⟩
    | some bs => exact ⟨by simp [answer, hkey], .of_same id⟩
  | getitem key =>
    unfold KeyCall.run get
    rw [Prog.runs_bind, Prog.runs_bind_of_ok ensureOpen_open]
    refine lookup_then hm (fun e self he => .inr he) ?_
    cases hkey : D key with
    | none => exact .inl ⟨_, rfl, by simp [answer, hkey], .of_same id⟩
    | some bs => exact ⟨by simp [answer, hkey], .of_same id⟩
  | contains key =>
    unfold KeyCall.run contains
    rw [Prog.runs_bind, Prog.runs_bind_of_ok ensureOpen_open]
    refine lookup_then hm (fun e self he => .inr he) ?_
    exact ⟨rfl, .of_same id⟩
  | setitem key value =>
    unfold KeyCall.run put
    rw [Prog.runs_bind, Prog.runs_bind_of_ok ensureOpen_open, Prog.runs_bind, Prog.runs_get]
    cases readOnly with
    | true => exact .inl ⟨_, rfl, rfl, .of_same fun h => Bool.noConfusion h.1⟩
    | false =>
      show Prog.Runs (lookup fuel key >>= _) _ _ _
      refine lookup_then hm (fun e self he => .inr (he.imp fun _ h => ⟨h.1, .inl h.2⟩)) ?_
      cases hkey : D key with
      | some bs =>
        refine .inl ⟨_, rfl, by simp [answer, hkey], .of_same fun h => ?_⟩
        rw [h.2] at hkey
        cases hkey
      | none =>
        dsimp only
        rw [Prog.runs_bind, runs_onMap]
        refine (insert_runs hm hkey os fuel value).mono (fun v m' hm' => ?_) fun e m' he => .inr ⟨e, rfl, .inr he⟩
        have hanswer : answer D false (.setitem key value) = (.ok (.object none), D.insert key value) := by
          simp [answer, hkey]
        rw [hanswer]
        exact ⟨rfl, fun h => absurd ⟨rfl, hkey⟩ h, fun _ => ⟨m', rfl, by rw [hanswer]; exact hm'⟩⟩
  | delitem key =>
    unfold KeyCall.run remove
    rw [Prog.runs_bind, Prog.runs_bind_of_ok ensureOpen_open, Prog.runs_bind, Prog.runs_get]
    cases readOnly with
    | true => exact .inl ⟨_, rfl, rfl, .of_same fun h => Bool.noConfusion h.1⟩
    | false =>
      show Prog.Runs (onMap (HashMap.remove fuel (fnv1a key) key) >>= _) _ _ _
      rw [Prog.runs_bind, runs_onMap]
      refine (erase_runs hm fuel key).mono ?_ fun e m' he => .inr ⟨e, rfl, he⟩
      rintro b m' ⟨hb, herase, hsame⟩
      cases b with
      | true =>
        have hanswer : answer D false (.delitem key) = (.ok (.object none), D.erase key) := by
          simp [answer, ← hb]
        rw [hanswer]
        exact ⟨rfl, fun h => absurd ⟨rfl, hb.symm⟩ h, fun _ => ⟨m', rfl, by rw [hanswer]; exact herase rfl⟩⟩
      | false =>
        obtain rfl := hsame rfl
        refine .inl ⟨_, rfl, by simp [answer, ← hb], .of_same fun h => ?_⟩
        have := h.2
        rw [← hb] at this
        cases this

/-- A closed map raises. -/
theorem keyed_closed (os : Os) (fuel : ℕ) (c : KeyCall) :
    c.run os fuel ⟨none, readOnly⟩ = .error (.raised isClosed) ⟨none, readOnly⟩ := by
  cases c <;> exact Prog.bind_error (Prog.bind_error ensureOpen_closed _) _

end PyDiskHash

/-! ## Iterators -/

namespace PyDiskHashIterator

open Python
open WrappedHashMap (contents)

variable {m : HashMap defaultBucketSize} {S : Shape} {D : Dict Bytes Bytes} {it : PyDiskHashIterator} {fuel : ℕ}
  {readOnly : Bool}

/-- The iterator is about to yield the entries, or has expired. -/
def Stands (map : Option (HashMap defaultBucketSize)) (it : PyDiskHashIterator) :
    Option (List (Bytes × Bytes)) → Prop
  | none => True
  | some [] => it.it.equal it.last = true
  | some (e :: es) => it.last = ConstIterator.atEnd ∧ ∃ m S n R, map = some m ∧ m.Inv S ∧
      ConstIterator.Visits m S n it.it R ∧ e :: es = R.map fun r => (r.key, r.value)

theorem Stands.of_visits {n : ℕ} {i : ConstIterator} {R : List Record} (h : m.Inv S)
    (hv : ConstIterator.Visits m S n i R) :
    Stands (some m) ⟨i, ConstIterator.atEnd⟩ (some (R.map fun r => (r.key, r.value))) := by
  cases R with
  | nil =>
    cases hv with
    | finished hm => simp [Stands, ConstIterator.equal, ConstIterator.atEnd, hm]
  | cons r R => exact ⟨rfl, m, S, n, r :: R, rfl, h, hv, rfl⟩

theorem Stands.expired {map map' : Option (HashMap defaultBucketSize)} {t : Option (List (Bytes × Bytes))}
    (h : Stands map it t) : Stands map' it (expire t) := by
  match t, h with
  | none, _ => trivial
  | some [], h => exact h
  | some (_ :: _), _ => trivial

/-- A new iterator is about to yield all entries, each once. -/
theorem new_runs (hm : m.Represents (contents fnv1a D)) (fuel : ℕ) :
    Prog.Runs (new fuel) ⟨some m, readOnly⟩
      (fun it self => self = ⟨some m, readOnly⟩ ∧
        ∃ es, Dict.Lists Prod.fst Prod.snd es D ∧ Stands (some m) it (some es))
      (fun e _ => PyDiskHash.Faults (PyDiskHash.Short m fuel) e) := by
  obtain ⟨S, h, hD⟩ := hm
  obtain ⟨T, hroute, hperm⟩ := h.route
  unfold new
  rw [Prog.runs_bind_of_ok PyDiskHash.ensureOpen_open, Prog.runs_bind, PyDiskHash.runs_onMap]
  refine (ConstIterator.atBegin_runs defaultBucketSize_lt h hroute hperm fuel).mono ?_ fun e _ he =>
    ⟨e, rfl, he.2.trans (h.route_length hperm).le⟩
  rintro i m' ⟨rfl, hv⟩
  exact ⟨rfl, _, .of_tagged (Dict.Lists.perm hD (hperm.flatMap_right S.recs).symm), .of_visits h hv⟩

/-- An iterator that is about to yield an entry yields it. -/
theorem next_runs {e : Bytes × Bytes} {es : List (Bytes × Bytes)} (readOnly : Bool)
    (h : Stands (some m) it (some (e :: es))) :
    ∃ n, ∀ fuel, Prog.Runs (it.next fuel) ⟨some m, readOnly⟩
      (fun r self => self = ⟨some m, readOnly⟩ ∧ r.1 = e ∧ Stands (some m) r.2 (some es))
      (fun x _ => PyDiskHash.Faults (fuel ≤ n) x) := by
  obtain ⟨hlast, m', S, n, R, hm, hinv, hv, hes⟩ := h
  obtain rfl := Option.some.inj hm
  cases R with
  | nil => cases hes
  | cons r R =>
    obtain ⟨rfl, rfl⟩ := List.cons.inj hes
    have hnot : ¬ it.it.equal it.last = true := by
      rw [hlast]
      simp [ConstIterator.equal, ConstIterator.atEnd, hv.stands.1]
    refine ⟨n, fun fuel => ?_⟩
    unfold next
    rw [if_neg hnot, PyDiskHash.runs_onMap, Prog.runs_bind]
    refine (ConstIterator.deref_runs defaultBucketSize_lt hinv hv (E := fun _ _ => False)).mono ?_ fun _ _ hf => hf.elim
    rintro ⟨key, value⟩ m₁ ⟨rfl, hkey, hvalue⟩
    rw [Prog.runs_bind]
    refine (ConstIterator.next_runs defaultBucketSize_lt hinv hv fuel).mono ?_ fun x _ hx => ⟨x, rfl, hx.2⟩
    rintro i m₂ ⟨rfl, hv'⟩
    refine ⟨rfl, Prod.ext hkey hvalue, ?_⟩
    rw [hlast]
    exact .of_visits hinv hv'

/-- An iterator at its end raises, whatever has become of the map. -/
theorem next_stops {map : Option (HashMap defaultBucketSize)} (h : Stands map it (some [])) (fuel : ℕ)
    (self : PyDiskHash) : it.next fuel self = .error (.raised .stopIteration) self := by
  have hend : it.it.equal it.last = true := h
  unfold next
  rw [if_pos hend]
  rfl

/-- The call of an iterator only reads. -/
theorem next_reads (it : PyDiskHashIterator) (fuel : ℕ) : (it.next fuel).Reads :=
  (Prog.reads_throw _).ite <| PyDiskHash.onMap_reads <| (ConstIterator.deref_reads _).bind fun _ =>
    (ConstIterator.next_reads _ _).bind fun _ => Prog.reads_get.bind fun _ => Prog.reads_pure _

end PyDiskHashIterator

/-! ## Sessions -/

namespace Python

open PyDiskHashIterator (Stands)
open WrappedHashMap (contents)

variable {o o' : Objects} {s s' : PyDict} {os : Os} {fuel : ℕ} {call : Call} {r : Except PyException Answer}

/-- What the objects mean. -/
structure Represents (o : Objects) (s : PyDict) : Prop where
  map : o.map.map = none ∧ s.entries = none ∨
    ∃ m D, o.map.map = some m ∧ s.entries = some D ∧ m.Represents (contents fnv1a D)
  readOnly : o.map.readOnly = s.readOnly
  iterators : List.Forall₂ (Stands o.map.map) o.iterators s.iterators

theorem onSelf_runs {α : Type} {p : Prog PyError PyDiskHash α} {d : PyDiskHash} {its : List PyDiskHashIterator}
    {Q : α → PyDiskHash → Prop} {E : PyError → PyDiskHash → Prop} (h : Prog.Runs p d Q E) :
    Prog.Runs (onSelf p) ⟨d, its⟩ (fun a o => ∃ d', o = ⟨d', its⟩ ∧ Q a d') (fun e o => ∃ d', o = ⟨d', its⟩ ∧ E e d') :=
  (Prog.runs_zoom _ _ _).mpr <| h.mono (fun _ d' hd => ⟨d', rfl, hd⟩) fun _ d' hd => ⟨d', rfl, hd⟩

theorem onSelf_error {α : Type} {p : Prog PyError PyDiskHash α} {d d' : PyDiskHash} {e : PyError}
    (h : p d = .error e d') (its : List PyDiskHashIterator) : onSelf p ⟨d, its⟩ = .error e ⟨d', its⟩ := by
  unfold onSelf Prog.zoom
  rw [h]

/-- What is seen of a call that runs as stated. -/
theorem seen_of_runs {p : Prog PyError Objects Answer} {Q : Answer → Objects → Prop} {E : PyError → Objects → Prop}
    (h : Prog.Runs p o Q E) (hs : seen (p o) = some (r, o')) :
    (∃ a, r = .ok a ∧ Q a o') ∨ ∃ e, r = .error e ∧ E (.raised e) o' := by
  cases hrun : p o with
  | ok a t =>
    rw [hrun] at hs
    cases hs
    exact .inl ⟨a, rfl, h.of_ok hrun⟩
  | error e t =>
    rw [hrun] at hs
    cases e with
    | fault f => cases hs
    | raised e =>
      cases hs
      exact .inr ⟨e, rfl, h.of_error hrun⟩

/-- A call that cannot be ended by a fault is seen. -/
theorem exists_seen {p : Prog PyError Objects Answer} {Q : Answer → Objects → Prop} {E : PyError → Objects → Prop}
    (h : Prog.Runs p o Q E) (hE : ∀ f t, ¬ E (.fault f) t) : ∃ r o', seen (p o) = some (r, o') := by
  cases hrun : p o with
  | ok a t => exact ⟨.ok a, t, rfl⟩
  | error e t =>
    cases e with
    | fault f => exact absurd (h.of_error hrun) (hE f t)
    | raised e => exact ⟨.error e, t, rfl⟩

/-! ### What the calls mean -/

/-- The entries change: the iterators expire that are not at their end. -/
theorem Represents.change {map map' : Option (HashMap defaultBucketSize)} {its : List PyDiskHashIterator}
    {todo : List (Option (List (Bytes × Bytes)))} (h : List.Forall₂ (Stands map) its todo) :
    List.Forall₂ (Stands map') its (todo.map expire) :=
  List.forall₂_map_right_iff.mpr (h.imp fun _ _ => Stands.expired)

theorem keyed_means {c : KeyCall} (h : Represents o s) (hs : seen ((Call.keyed c).run os fuel o) = some (r, o')) :
    ∃ s', Means s (.keyed c) r s' ∧ Represents o' s' := by
  obtain ⟨⟨map, readOnly⟩, its⟩ := o
  obtain ⟨entries, _, todo⟩ := s
  obtain ⟨hmap, rfl, hits⟩ := h
  dsimp only at hmap hits
  rcases hmap with ⟨rfl, rfl⟩ | ⟨m, D, rfl, rfl, hm⟩
  · have hclosed : (Call.keyed c).run os fuel ⟨⟨none, readOnly⟩, its⟩ =
        .error (.raised PyDiskHash.isClosed) ⟨⟨none, readOnly⟩, its⟩ :=
      onSelf_error (PyDiskHash.keyed_closed os fuel c) its
    rw [hclosed] at hs
    cases hs
    exact ⟨_, .closed rfl trivial, .inl ⟨rfl, rfl⟩, rfl, hits⟩
  · have hr : ∃ self, o' = ⟨self, its⟩ ∧ r = (answer D readOnly c).1 ∧ PyDiskHash.Leaves m D readOnly c self := by
      rcases seen_of_runs (onSelf_runs (PyDiskHash.keyed_runs hm os fuel c)) hs with
        ⟨a, rfl, self, rfl, hanswer, hself⟩ | ⟨e, rfl, self, rfl, ⟨x, hx, hanswer, hself⟩ | ⟨f, hf, -⟩⟩
      · exact ⟨self, rfl, hanswer.symm, hself⟩
      · cases hx
        exact ⟨self, rfl, hanswer.symm, hself⟩
      · cases hf
    obtain ⟨self, rfl, rfl, hself⟩ := hr
    by_cases hc : c.Changes D readOnly
    · obtain ⟨m', rfl, hm'⟩ := hself.changed hc
      exact ⟨_, .changes rfl hc, .inr ⟨m', _, rfl, rfl, hm'⟩, rfl, Represents.change hits⟩
    · obtain rfl := hself.same hc
      exact ⟨_, .reads rfl hc, .inr ⟨m, D, rfl, rfl, hm⟩, rfl, hits⟩

theorem bytesAllocated_means (h : Represents o s) (hs : seen (Call.bytesAllocated.run os fuel o) = some (r, o')) :
    ∃ s', Means s .bytesAllocated r s' ∧ Represents o' s' := by
  obtain ⟨⟨map, readOnly⟩, its⟩ := o
  obtain ⟨entries, _, todo⟩ := s
  obtain ⟨hmap, rfl, hits⟩ := h
  dsimp only at hmap hits
  rcases hmap with ⟨rfl, rfl⟩ | ⟨m, D, rfl, rfl, hm⟩
  · cases hs
    exact ⟨_, .closed rfl trivial, .inl ⟨rfl, rfl⟩, rfl, hits⟩
  · cases hs
    have hm' := hm
    obtain ⟨S, hinv, hD⟩ := hm
    refine ⟨_, .bytesAllocated rfl (.of_tagged hD) ?_, .inr ⟨m, D, rfl, rfl, hm'⟩, rfl, hits⟩
    have hle := hinv.total_le
    have hsum : ((S.records.map fun r => (r.key, r.value)).map fun e => Container.bytesRequired e.1 e.2).sum =
        Packing.total Record.size S.records := by
      rw [List.map_map]
      rfl
    rw [hsum]
    show _ ≤ m.container.bytesAllocated + m.catalogue.bytesAllocated
    omega

theorem iter_means (h : Represents o s) (hs : seen (Call.iter.run os fuel o) = some (r, o')) :
    ∃ s', Means s .iter r s' ∧ Represents o' s' := by
  obtain ⟨⟨map, readOnly⟩, its⟩ := o
  obtain ⟨entries, _, todo⟩ := s
  obtain ⟨hmap, rfl, hits⟩ := h
  dsimp only at hmap hits
  rcases hmap with ⟨rfl, rfl⟩ | ⟨m, D, rfl, rfl, hm⟩
  · cases hs
    exact ⟨_, .closed rfl trivial, .inl ⟨rfl, rfl⟩, rfl, hits⟩
  · have hrun : Prog.Runs (Call.iter.run os fuel) ⟨⟨some m, readOnly⟩, its⟩
        (fun a o => ∃ it es, a = .iterator its.length ∧ o = ⟨⟨some m, readOnly⟩, its ++ [it]⟩ ∧
          Dict.Lists Prod.fst Prod.snd es D ∧ Stands (some m) it (some es))
        (fun e _ => PyDiskHash.Faults (PyDiskHash.Short m fuel) e) := by
      unfold Call.run
      rw [Prog.runs_bind]
      refine (onSelf_runs (PyDiskHashIterator.new_runs hm fuel)).mono ?_ ?_
      · rintro it _ ⟨_, rfl, rfl, es, hes, hit⟩
        exact ⟨it, es, rfl, rfl, hes, hit⟩
      · rintro e _ ⟨_, rfl, he⟩
        exact he
    rcases seen_of_runs hrun hs with ⟨a, rfl, it, es, rfl, rfl, hes, hit⟩ | ⟨e, rfl, f, hf, -⟩
    · have hlen : its.length = todo.length := hits.length_eq
      rw [hlen]
      exact ⟨_, .iter rfl hes, .inr ⟨m, D, rfl, rfl, hm⟩, rfl, List.rel_append hits (.cons hit .nil)⟩
    · cases hf

section Lists

variable {α β : Type} {R : α → β → Prop} {l : List α} {l' : List β}

theorem forall₂_getElem? (h : List.Forall₂ R l l') {i : ℕ} {a : α} (ha : l[i]? = some a) :
    ∃ b, l'[i]? = some b ∧ R a b := by
  induction h generalizing i with
  | nil => cases ha
  | @cons x y l l' hxy _ ih =>
    cases i with
    | zero =>
      obtain rfl : x = a := Option.some.inj ha
      exact ⟨y, rfl, hxy⟩
    | succ i => exact ih ha

theorem forall₂_set (h : List.Forall₂ R l l') (i : ℕ) {a : α} {b : β} (hab : R a b) :
    List.Forall₂ R (l.set i a) (l'.set i b) := by
  induction h generalizing i with
  | nil => exact .nil
  | cons hxy h ih =>
    cases i with
    | zero => exact .cons hab h
    | succ i => exact .cons hxy (ih i)

end Lists

/-- `next(it)` for an iterator of the program. -/
theorem next_run {d : PyDiskHash} {its : List PyDiskHashIterator} {i : ℕ} {it : PyDiskHashIterator}
    (hit : its[i]? = some it) : (Call.next i).run os fuel ⟨d, its⟩ =
      (onSelf (it.next fuel) >>= fun x => Prog.modify (fun o => { o with iterators := o.iterators.set i x.2 }) >>=
        fun _ => pure (Answer.item x.1.1 x.1.2)) ⟨d, its⟩ := by
  rw [Call.run, Prog.get_bind, hit]

/-- `next` for an object that is no iterator of the program. -/
theorem next_run_none {d : PyDiskHash} {its : List PyDiskHashIterator} {i : ℕ} (hit : its[i]? = none) :
    (Call.next i).run os fuel ⟨d, its⟩ = .error (.fault .outOfBounds) ⟨d, its⟩ := by
  rw [Call.run, Prog.get_bind, hit]
  rfl

theorem next_run_runs {d : PyDiskHash} {its : List PyDiskHashIterator} {i : ℕ} {it : PyDiskHashIterator}
    (hit : its[i]? = some it) {Q : (Bytes × Bytes) × PyDiskHashIterator → PyDiskHash → Prop}
    {E : PyError → PyDiskHash → Prop} (h : Prog.Runs (it.next fuel) d Q E) :
    Prog.Runs ((Call.next i).run os fuel) ⟨d, its⟩
      (fun a o => ∃ x d', a = .item x.1.1 x.1.2 ∧ o = ⟨d', its.set i x.2⟩ ∧ Q x d')
      (fun e o => ∃ d', o = ⟨d', its⟩ ∧ E e d') := by
  unfold Prog.Runs
  rw [next_run hit]
  refine (Prog.runs_bind _).mpr ((onSelf_runs h).mono ?_ fun e o he => he)
  rintro x _ ⟨d', rfl, hx⟩
  exact ⟨x, d', rfl, rfl, hx⟩

theorem next_means {i : ℕ} (h : Represents o s) (hs : seen ((Call.next i).run os fuel o) = some (r, o')) :
    ∃ s', Means s (.next i) r s' ∧ Represents o' s' := by
  obtain ⟨d, its⟩ := o
  obtain ⟨hmap, hreadOnly, hits⟩ := h
  cases hit : its[i]? with
  | none =>
    rw [next_run_none hit] at hs
    cases hs
  | some it =>
    obtain ⟨t, ht, hst⟩ := forall₂_getElem? hits hit
    have hsame : s.iterators.set i t = s.iterators := by
      obtain ⟨hlt, rfl⟩ := List.getElem?_eq_some_iff.mp ht
      exact List.set_getElem_self hlt
    match t, hst with
    | none, _ =>
      have hreads : Prog.Runs (it.next fuel) d (fun _ d' => d' = d) (fun _ d' => d' = d) :=
        (Prog.runs_outcome (R := fun _ d' => d' = d)).mpr (PyDiskHashIterator.next_reads it fuel d)
      refine ⟨s, .expired r ht, ?_⟩
      rcases seen_of_runs (next_run_runs hit hreads) hs with ⟨a, -, x, d', -, rfl, rfl⟩ | ⟨e, -, d', rfl, rfl⟩
      · refine ⟨hmap, hreadOnly, ?_⟩
        rw [← hsame]
        exact forall₂_set hits i trivial
      · exact ⟨hmap, hreadOnly, hits⟩
    | some [], hst =>
      have hrun : (Call.next i).run os fuel ⟨d, its⟩ = .error (.raised .stopIteration) ⟨d, its⟩ := by
        rw [next_run hit]
        exact Prog.bind_error (onSelf_error (PyDiskHashIterator.next_stops hst fuel d) its) _
      rw [hrun] at hs
      cases hs
      exact ⟨s, .stop ht, hmap, hreadOnly, hits⟩
    | some (e :: es), hst =>
      obtain ⟨map, readOnly⟩ := d
      obtain ⟨-, m, -, -, -, rfl, -⟩ := id hst
      obtain ⟨n, hnext⟩ := PyDiskHashIterator.next_runs readOnly hst
      rcases seen_of_runs (next_run_runs hit (hnext fuel)) hs with ⟨a, rfl, x, d', rfl, rfl, rfl, rfl, hx⟩ |
        ⟨e, rfl, d', rfl, f, hf, -⟩
      · exact ⟨_, .item ht, hmap, hreadOnly, forall₂_set hits i hx⟩
      · cases hf

/-- Every call that returns or raises does what it means. -/
theorem step_means (h : Represents o s) (hs : Step o call r o') : ∃ s', Means s call r s' ∧ Represents o' s' := by
  obtain ⟨os, fuel, hs⟩ := hs
  have hends : ∀ {its : List PyDiskHashIterator} {readOnly : Bool}, o.iterators = its → o.map.readOnly = readOnly →
      Represents ⟨⟨none, readOnly⟩, its⟩ { s with entries := none, iterators := s.iterators.map expire } := by
    rintro its readOnly rfl rfl
    exact ⟨.inl ⟨rfl, rfl⟩, h.readOnly, Represents.change h.iterators⟩
  cases call with
  | keyed c => exact keyed_means h hs
  | bytesAllocated => exact bytesAllocated_means h hs
  | iter => exact iter_means h hs
  | next i => exact next_means h hs
  | enter =>
    cases hs
    exact ⟨s, .enter s, h⟩
  | exit =>
    cases hs
    exact ⟨_, .ends (.inl rfl), hends rfl rfl⟩
  | close =>
    cases hs
    exact ⟨_, .ends (.inr rfl), hends rfl rfl⟩

/-! ### Calls that come to an end -/

/-- The system grants what a new entry asks of it, the entry fits a bucket and there are not more buckets than hashes;
an iterator that is called has not expired. -/
def Call.Admissible (os : Os) (o : Objects) (s : PyDict) : Call → Prop
  | keyed (.setitem key value) => os.Grants ∧ Container.bytesRequired key value ≤ defaultBucketSize ∧
      ∀ m, o.map.map = some m → m.container.layout.bucketsCount ≤ 2 ^ 32
  | next i => ∃ es, s.iterators[i]? = some (some es)
  | _ => True

theorem not_fails {m : HashMap defaultBucketSize} {D : Dict Bytes Bytes} {c : KeyCall} {readOnly : Bool}
    {its : List PyDiskHashIterator} (hm : m.Represents (contents fnv1a D))
    (hc : (Call.keyed c).Admissible os ⟨⟨some m, readOnly⟩, its⟩ s) :
    ∃ n, ∀ fuel, n ≤ fuel → ¬ PyDiskHash.Fails os fuel m c := by
  have hshort : ∀ fuel, m.container.layout.bucketsCount + 1 ≤ fuel → ¬ PyDiskHash.Short m fuel :=
    fun fuel hle hs => absurd (hle.trans hs) (Nat.not_succ_le_self _)
  cases c with
  | setitem key value =>
    obtain ⟨hos, hfits, hcount⟩ := hc
    obtain ⟨n, hn⟩ := HashMap.call_returns defaultBucketSize_lt hm (.get os (fnv1a key) key value)
      ⟨hfits, hos, hcount m rfl⟩
    refine ⟨max n (m.container.layout.bucketsCount + 1), fun fuel hle hf => ?_⟩
    rcases hf with hs | ⟨e, m', herr⟩
    · exact hshort fuel (le_of_max_le_right hle) hs
    · obtain ⟨a, m₁, hrun⟩ := hn fuel (le_of_max_le_left hle)
      obtain ⟨v, m₂, hget, -⟩ := Prog.bind_eq_ok.mp hrun
      rw [herr] at hget
      cases hget
  | get key default => exact ⟨_, hshort⟩
  | getitem key => exact ⟨_, hshort⟩
  | contains key => exact ⟨_, hshort⟩
  | delitem key => exact ⟨_, hshort⟩

theorem keyed_seen {c : KeyCall} (h : Represents o s) (hc : (Call.keyed c).Admissible os o s) :
    ∃ n, ∀ fuel, n ≤ fuel → ∃ r o', seen ((Call.keyed c).run os fuel o) = some (r, o') := by
  obtain ⟨⟨map, readOnly⟩, its⟩ := o
  obtain ⟨hmap, -, -⟩ := h
  dsimp only at hmap
  rcases hmap with ⟨rfl, -⟩ | ⟨m, D, rfl, -, hm⟩
  · have hclosed : ∀ fuel, (Call.keyed c).run os fuel ⟨⟨none, readOnly⟩, its⟩ =
        .error (.raised PyDiskHash.isClosed) ⟨⟨none, readOnly⟩, its⟩ :=
      fun fuel => onSelf_error (PyDiskHash.keyed_closed os fuel c) its
    exact ⟨0, fun fuel _ => ⟨_, _, by rw [hclosed]; rfl⟩⟩
  · obtain ⟨n, hn⟩ := not_fails hm hc
    refine ⟨n, fun fuel hle => exists_seen (onSelf_runs (PyDiskHash.keyed_runs hm os fuel c)) ?_⟩
    rintro f _ ⟨d, -, ⟨x, hx, -⟩ | ⟨_, -, hf⟩⟩
    · cases hx
    · exact hn fuel hle hf

theorem iter_seen (h : Represents o s) :
    ∃ n, ∀ fuel, n ≤ fuel → ∃ r o', seen (Call.iter.run os fuel o) = some (r, o') := by
  obtain ⟨⟨map, readOnly⟩, its⟩ := o
  obtain ⟨hmap, -, -⟩ := h
  dsimp only at hmap
  rcases hmap with ⟨rfl, -⟩ | ⟨m, D, rfl, -, hm⟩
  · exact ⟨0, fun fuel _ => ⟨_, _, rfl⟩⟩
  · refine ⟨m.container.layout.bucketsCount + 1, fun fuel hle => ?_⟩
    have hrun : Prog.Runs (Call.iter.run os fuel) ⟨⟨some m, readOnly⟩, its⟩ (fun _ _ => True)
        (fun e _ => PyDiskHash.Faults (PyDiskHash.Short m fuel) e) := by
      unfold Call.run
      rw [Prog.runs_bind]
      refine (onSelf_runs (PyDiskHashIterator.new_runs hm fuel)).mono (fun _ _ _ => trivial) ?_
      rintro e _ ⟨_, rfl, he⟩
      exact he
    refine exists_seen hrun ?_
    rintro f _ ⟨-, -, hs⟩
    exact absurd (hle.trans hs) (Nat.not_succ_le_self _)

theorem next_seen {i : ℕ} (h : Represents o s) (hi : (Call.next i).Admissible os o s) :
    ∃ n, ∀ fuel, n ≤ fuel → ∃ r o', seen ((Call.next i).run os fuel o) = some (r, o') := by
  obtain ⟨d, its⟩ := o
  obtain ⟨es, hes⟩ := hi
  obtain ⟨it, hit, hst⟩ := forall₂_getElem? h.iterators.flip hes
  cases es with
  | nil =>
    have hst : Stands d.map it (some []) := hst
    have hrun : ∀ fuel, (Call.next i).run os fuel ⟨d, its⟩ = .error (.raised .stopIteration) ⟨d, its⟩ := by
      intro fuel
      rw [next_run hit]
      exact Prog.bind_error (onSelf_error (PyDiskHashIterator.next_stops hst fuel d) its) _
    exact ⟨0, fun fuel _ => ⟨_, _, by rw [hrun]; rfl⟩⟩
  | cons e es =>
    obtain ⟨map, readOnly⟩ := d
    have hst : Stands map it (some (e :: es)) := hst
    obtain ⟨-, m, -, -, -, rfl, -⟩ := id hst
    obtain ⟨n, hn⟩ := PyDiskHashIterator.next_runs readOnly hst
    refine ⟨n + 1, fun fuel hle => exists_seen (next_run_runs hit (hn fuel)) ?_⟩
    rintro f _ ⟨d', -, _, -, hf⟩
    exact absurd (hle.trans hf) (Nat.not_succ_le_self _)

theorem call_seen (h : Represents o s) (hcall : call.Admissible os o s) :
    ∃ n, ∀ fuel, n ≤ fuel → ∃ r o', seen (call.run os fuel o) = some (r, o') := by
  cases call with
  | keyed c => exact keyed_seen h hcall
  | bytesAllocated =>
    obtain ⟨⟨map, readOnly⟩, its⟩ := o
    cases map with
    | none => exact ⟨0, fun fuel _ => ⟨_, _, rfl⟩⟩
    | some m => exact ⟨0, fun fuel _ => ⟨_, _, rfl⟩⟩
  | iter => exact iter_seen h
  | next i => exact next_seen h hcall
  | enter => exact ⟨0, fun fuel _ => ⟨_, _, rfl⟩⟩
  | exit => exact ⟨0, fun fuel _ => ⟨_, _, rfl⟩⟩
  | close => exact ⟨0, fun fuel _ => ⟨_, _, rfl⟩⟩

/-- A new `DiskHash` with its iterators. -/
theorem new_represents {d : PyDiskHash} (hnew : PyDiskHash.new os false (Files.empty defaultBucketSize) = .ok d) :
    Represents ⟨d, []⟩ ⟨some Dict.empty, false, []⟩ := by
  obtain ⟨m, hm, hd⟩ := Prog.except_bind_ok.mp hnew
  obtain rfl := Except.ok.inj hd
  refine ⟨.inr ⟨m, Dict.empty, rfl, rfl, ?_⟩, rfl, .nil⟩
  have hrep := HashMap.new_represents hm
  rwa [contents, Dict.tagged_empty]

end Python

/-- A program that stores an entry in a new `DiskHash`. -/
theorem Python.exists_program : ∃ (d : PyDiskHash) (o : Python.Objects) (m : HashMap defaultBucketSize),
    PyDiskHash.new Os.willing false (Files.empty defaultBucketSize) = .ok d ∧
    Run Python.Step ⟨d, []⟩ [(.keyed (.setitem [1] [2]), .ok (.object none))] o ∧
      o.map.map = some m ∧ ∃ S, m.Inv S := by
  obtain ⟨m₀, hm₀⟩ := HashMap.new_returns (B := defaultBucketSize) Os.willing_grants false
  have hnew : PyDiskHash.new Os.willing false (Files.empty defaultBucketSize) = .ok ⟨some m₀, false⟩ :=
    Prog.except_bind_ok.mpr ⟨m₀, hm₀, rfl⟩
  have hrep := Python.new_represents hnew
  have hcall : (Python.Call.keyed (.setitem [1] [2])).Admissible Os.willing ⟨⟨some m₀, false⟩, []⟩
      ⟨some Dict.empty, false, []⟩ := by
    refine ⟨Os.willing_grants, by decide, ?_⟩
    rintro m ⟨⟩
    rw [HashMap.new_count hm₀]
    decide
  obtain ⟨n, hn⟩ := Python.call_seen hrep hcall
  obtain ⟨r, o, hseen⟩ := hn n le_rfl
  obtain ⟨s, hmeans, ho⟩ := Python.step_means hrep ⟨Os.willing, n, hseen⟩
  cases hmeans with
  | closed hnone => cases hnone
  | ends hends => rcases hends with h | h <;> cases h
  | reads hD hc =>
    cases hD
    exact absurd ⟨rfl, rfl⟩ hc
  | changes hD _ =>
    cases hD
    rcases ho.map with ⟨-, hnone⟩ | ⟨m, D, hm, -, S, h, -⟩
    · cases hnone
    · exact ⟨_, o, m, hnew, .single ⟨Os.willing, n, hseen⟩, hm, S, h⟩

end DiskHash
