import DiskHash.Base64
import DiskHash.Sharded
import DiskHash.Lib.Dictionary
import DiskHash.Lib.Machine

/-!
# DiskHash.Bindings — the Python module (`bindings.cpp`)

A Python program has a `DiskHash` and iterators over it.  An iterator keeps a pointer to the map of its `DiskHash`:
it is good for the entries it has not yielded while nothing is stored, removed or closed, and an iterator that came
to its end stays there.  What the objects mean is a dictionary that is open or closed, and for each iterator the
entries it has still to yield, or none when it has expired.
-/

namespace DiskHash

/-! ## The classes -/

/-- The exceptions the bindings throw. -/
inductive PyException
  | keyError (text : Bytes)
  | runtimeError (text : Bytes)
  | stopIteration
  deriving DecidableEq

/-- How a call of the bindings can fail: with an exception of theirs, or with a fault of the map. -/
inductive PyError
  | raised (e : PyException)
  | fault (f : Fault)

/-- The string that a `const char *` to the bytes shows. -/
def cStr (bs : Bytes) : Bytes := bs.takeWhile fun b => b ≠ 0

/-- `PyDiskHash`. -/
structure PyDiskHash where
  map : Option (HashMap defaultBucketSize)
  readOnly : Bool

namespace PyDiskHash

/-- `PyDiskHash::PyDiskHash`. -/
def new (os : Os) (readOnly : Bool) (files : Files defaultBucketSize) : Except Fault PyDiskHash := do
  let map ← HashMap.new os readOnly files
  return ⟨some map, readOnly⟩

/-- The exception of `ensure_open`. -/
def isClosed : PyException := .runtimeError (ascii "hash map is closed")

/-- The exception of the methods that change a map. -/
def isReadOnly : PyException := .runtimeError (ascii "hash map is read-only")

/-- `PyDiskHash::ensure_open`. -/
def ensureOpen : Prog PyError PyDiskHash Unit := do
  let self ← Prog.get
  Prog.check (self.map.isSome = true) (.raised isClosed)

/-- A call through `map_`. -/
def onMap {α : Type} (p : Prog Fault (HashMap defaultBucketSize) α) : Prog PyError PyDiskHash α := fun self =>
  match self.map with
  | none => .error (.fault .outOfBounds) self
  | some map =>
    match p map with
    | .ok a map => .ok a { self with map := some map }
    | .error e map => .error (.fault e) { self with map := some map }

/-- `map_->find(h, k)`, with the bytes the view shows. -/
def lookup (fuel : ℕ) (key : Bytes) : Prog PyError PyDiskHash (Option Bytes) :=
  onMap do
    let r ← HashMap.find fuel (fnv1a key) key
    let map ← Prog.get
    return r.map map.container.view

/-- `PyDiskHash::get`. -/
def get (fuel : ℕ) (key : Bytes) : Prog PyError PyDiskHash Bytes := do
  ensureOpen
  let r ← lookup fuel key
  match r with
  | none => Prog.throw (.raised (.keyError (cStr key)))
  | some bs => return bs

/-- `PyDiskHash::get_default`.  An object is `None` or a string of bytes. -/
def getDefault (fuel : ℕ) (key : Bytes) (defaultVal : Option Bytes) : Prog PyError PyDiskHash (Option Bytes) := do
  ensureOpen
  let r ← lookup fuel key
  match r with
  | none => return defaultVal
  | some bs => return some bs

/-- `PyDiskHash::put`. -/
def put (os : Os) (fuel : ℕ) (key value : Bytes) : Prog PyError PyDiskHash Unit := do
  ensureOpen
  let self ← Prog.get
  if self.readOnly then Prog.throw (.raised isReadOnly)
  else do
    let r ← lookup fuel key
    match r with
    | some _ => Prog.throw (.raised (.keyError (cStr key)))
    | none => do
      let _ ← onMap (HashMap.get os fuel (fnv1a key) key value)
      return ()

/-- `PyDiskHash::contains`. -/
def contains (fuel : ℕ) (key : Bytes) : Prog PyError PyDiskHash Bool := do
  ensureOpen
  let r ← lookup fuel key
  return r.isSome

/-- `PyDiskHash::remove`. -/
def remove (fuel : ℕ) (key : Bytes) : Prog PyError PyDiskHash Unit := do
  ensureOpen
  let self ← Prog.get
  if self.readOnly then Prog.throw (.raised isReadOnly)
  else do
    let removed ← onMap (HashMap.remove fuel (fnv1a key) key)
    if removed then return () else Prog.throw (.raised (.keyError (cStr key)))

/-- `PyDiskHash::bytes_allocated`. -/
def bytesAllocated : Prog PyError PyDiskHash ℕ := do
  ensureOpen
  onMap do
    let map ← Prog.get
    return map.bytesAllocated

/-- `PyDiskHash::close`: the files it leaves are those of `HashMap.close`. -/
def close : Prog PyError PyDiskHash Unit := Prog.modify fun self => { self with map := none }

/-- `PyDiskHash::exit`. -/
def exit : Prog PyError PyDiskHash Unit := close

end PyDiskHash

/-- `PyDiskHashIterator`. -/
structure PyDiskHashIterator where
  it : ConstIterator
  last : ConstIterator
  deriving DecidableEq

namespace PyDiskHashIterator

/-- `PyDiskHashIterator::PyDiskHashIterator` of `map_ptr()`, which is `__iter__`. -/
def new (fuel : ℕ) : Prog PyError PyDiskHash PyDiskHashIterator := do
  PyDiskHash.ensureOpen
  let it ← PyDiskHash.onMap (ConstIterator.atBegin fuel)
  return ⟨it, ConstIterator.atEnd⟩

/-- `PyDiskHashIterator::next`: key and value, and the iterator after the call. -/
def next (fuel : ℕ) (self : PyDiskHashIterator) :
    Prog PyError PyDiskHash ((Bytes × Bytes) × PyDiskHashIterator) :=
  if self.it.equal self.last then Prog.throw (.raised .stopIteration)
  else PyDiskHash.onMap do
    let (key, value) ← ConstIterator.deref self.it
    let it ← ConstIterator.next fuel self.it
    let map ← Prog.get
    return ((map.container.view key, map.container.view value), { self with it := it })

end PyDiskHashIterator

/-! ## Python programs -/

namespace Python

/-- The objects of a program: one `DiskHash`, and its iterators in the order they were made in. -/
structure Objects where
  map : PyDiskHash
  iterators : List PyDiskHashIterator

/-- The methods with a key. -/
inductive KeyCall
  | get (key : Bytes) (default : Option Bytes)
  | getitem (key : Bytes)
  | setitem (key value : Bytes)
  | contains (key : Bytes)
  | delitem (key : Bytes)
  deriving DecidableEq

/-- The methods; `next(it)` names the iterator by its number. -/
inductive Call
  | keyed (c : KeyCall)
  | bytesAllocated
  | iter
  | next (i : ℕ)
  | enter
  | exit
  | close
  deriving DecidableEq

/-- What the methods return. -/
inductive Answer
  | object (o : Option Bytes)
  | flag (b : Bool)
  | size (n : ℕ)
  | iterator (i : ℕ)
  | item (key value : Bytes)
  | self

def KeyCall.run (os : Os) (fuel : ℕ) : KeyCall → Prog PyError PyDiskHash Answer
  | get key default => do
    let o ← PyDiskHash.getDefault fuel key default
    return .object o
  | getitem key => do
    let bs ← PyDiskHash.get fuel key
    return .object (some bs)
  | setitem key value => do
    PyDiskHash.put os fuel key value
    return .object none
  | contains key => do
    let b ← PyDiskHash.contains fuel key
    return .flag b
  | delitem key => do
    PyDiskHash.remove fuel key
    return .object none

/-- A method of the `DiskHash`. -/
def onSelf {α : Type} (p : Prog PyError PyDiskHash α) : Prog PyError Objects α :=
  Prog.zoom Objects.map (fun d o => { o with map := d }) p

def Call.run (os : Os) (fuel : ℕ) : Call → Prog PyError Objects Answer
  | keyed c => onSelf (c.run os fuel)
  | bytesAllocated => do
    let n ← onSelf PyDiskHash.bytesAllocated
    return .size n
  | iter => do
    let it ← onSelf (PyDiskHashIterator.new fuel)
    let o ← Prog.get
    Prog.modify fun o => { o with iterators := o.iterators ++ [it] }
    return .iterator o.iterators.length
  | next i => do
    let o ← Prog.get
    match o.iterators[i]? with
    | none => Prog.throw (.fault .outOfBounds)
    | some it => do
      let r ← onSelf (it.next fuel)
      Prog.modify fun o => { o with iterators := o.iterators.set i r.2 }
      return .item r.1.1 r.1.2
  | enter => return .self
  | exit => do
    onSelf PyDiskHash.exit
    return .object none
  | close => do
    onSelf PyDiskHash.close
    return .object none

/-- What the program sees of a call that is not ended by a fault. -/
def seen : Prog.Outcome PyError Objects Answer → Option (Except PyException Answer × Objects)
  | .ok a o => some (.ok a, o)
  | .error (.raised e) o => some (.error e, o)
  | .error (.fault _) _ => none

/-- The call returned or raised. -/
def Step (o : Objects) (call : Call) (r : Except PyException Answer) (o' : Objects) : Prop :=
  ∃ os fuel, seen (call.run os fuel o) = some (r, o')

/-! ## What the objects mean -/

/-- A dictionary that is open or closed, and what each iterator has still to yield. -/
structure PyDict where
  entries : Option (Dict Bytes Bytes)
  readOnly : Bool
  iterators : List (Option (List (Bytes × Bytes)))

/-- The answer to a method with a key, and the entries after it. -/
def answer (D : Dict Bytes Bytes) (readOnly : Bool) : KeyCall → Except PyException Answer × Dict Bytes Bytes
  | .get key default => (.ok (.object ((D key).or default)), D)
  | .getitem key =>
    match D key with
    | some bs => (.ok (.object (some bs)), D)
    | none => (.error (.keyError (cStr key)), D)
  | .setitem key value =>
    if readOnly then (.error PyDiskHash.isReadOnly, D)
    else if (D key).isSome then (.error (.keyError (cStr key)), D)
    else (.ok (.object none), D.insert key value)
  | .contains key => (.ok (.flag (D key).isSome), D)
  | .delitem key =>
    if readOnly then (.error PyDiskHash.isReadOnly, D)
    else if (D key).isSome then (.ok (.object none), D.erase key)
    else (.error (.keyError (cStr key)), D)

/-- The method changes the entries. -/
def KeyCall.Changes (D : Dict Bytes Bytes) (readOnly : Bool) : KeyCall → Prop
  | setitem key _ => readOnly = false ∧ D key = none
  | delitem key => readOnly = false ∧ (D key).isSome
  | _ => False

/-- What is left of an iterator when the entries change: nothing, unless it was at its end. -/
def expire : Option (List (Bytes × Bytes)) → Option (List (Bytes × Bytes))
  | some [] => some []
  | _ => none

/-- The methods that begin with `ensure_open`. -/
def Call.NeedsOpen : Call → Prop
  | keyed _ | bytesAllocated | iter => True
  | next _ | enter | exit | close => False

/-- What a call means.  Of an iterator that has expired nothing is promised, but that it changes no entry. -/
inductive Means : PyDict → Call → Except PyException Answer → PyDict → Prop
  | closed {s : PyDict} {call : Call} : s.entries = none → call.NeedsOpen → Means s call (.error PyDiskHash.isClosed) s
  | reads {s : PyDict} {D : Dict Bytes Bytes} {c : KeyCall} : s.entries = some D → ¬ c.Changes D s.readOnly →
      Means s (.keyed c) (answer D s.readOnly c).1 s
  | changes {s : PyDict} {D : Dict Bytes Bytes} {c : KeyCall} : s.entries = some D → c.Changes D s.readOnly →
      Means s (.keyed c) (answer D s.readOnly c).1
        { s with entries := some (answer D s.readOnly c).2, iterators := s.iterators.map expire }
  | bytesAllocated {s : PyDict} {D : Dict Bytes Bytes} {es : List (Bytes × Bytes)} {n : ℕ} : s.entries = some D →
      Dict.Lists Prod.fst Prod.snd es D → (es.map fun e => Container.bytesRequired e.1 e.2).sum ≤ n →
      Means s .bytesAllocated (.ok (.size n)) s
  | iter {s : PyDict} {D : Dict Bytes Bytes} {es : List (Bytes × Bytes)} : s.entries = some D →
      Dict.Lists Prod.fst Prod.snd es D →
      Means s .iter (.ok (.iterator s.iterators.length)) { s with iterators := s.iterators ++ [some es] }
  | item {s : PyDict} {i : ℕ} {e : Bytes × Bytes} {es : List (Bytes × Bytes)} :
      s.iterators[i]? = some (some (e :: es)) →
      Means s (.next i) (.ok (.item e.1 e.2)) { s with iterators := s.iterators.set i (some es) }
  | stop {s : PyDict} {i : ℕ} : s.iterators[i]? = some (some []) → Means s (.next i) (.error .stopIteration) s
  | expired {s : PyDict} {i : ℕ} (r : Except PyException Answer) : s.iterators[i]? = some none → Means s (.next i) r s
  | enter (s : PyDict) : Means s .enter (.ok .self) s
  | ends {s : PyDict} {call : Call} : call = .exit ∨ call = .close →
      Means s call (.ok (.object none)) { s with entries := none, iterators := s.iterators.map expire }

end Python

end DiskHash
