import DiskHash.Server

/-!
# DiskHash.Reading — the operations that never write

The `const` methods of the source reach the mapped files through pointers that are not `const`, so the compiler
does not see that they only read.  They do, in every state: also on a corrupted file, and also when they throw.
-/

namespace DiskHash

section Reading

variable {B : ℕ} (fuel steps : ℕ) (hash : Hash) (key : Bytes)

/-! ### The files -/

namespace Catalogue

theorem entry_reads (i : ℕ) : (entry i).Reads :=
  Prog.reads_get.bind fun _ => (Prog.reads_check _ _).bind fun _ => Prog.reads_pure _

theorem find_reads : (find hash).Reads :=
  Prog.reads_get.bind fun _ => (Prog.reads_lift _).bind entry_reads

end Catalogue

namespace Container

theorem bucketPtr_reads (id : ℕ) : (bucketPtr id : Prog Fault (Container B) BucketPtr).Reads :=
  Prog.reads_get.bind fun _ => Prog.reads_pure _

theorem load_reads (p : BucketPtr) : (load p : Prog Fault (Container B) (Bucket B)).Reads :=
  Prog.reads_get.bind fun _ => (Prog.reads_check _ _).bind fun _ => Prog.reads_pure _

theorem bucketAt_reads (id : ℕ) : (bucketAt id : Prog Fault (Container B) (Bucket B)).Reads :=
  (bucketPtr_reads id).bind load_reads

theorem findRecord_reads (head : Option ℕ) :
    (findRecord hash key fuel head : Prog Fault (Container B) (Option View)).Reads := by
  induction fuel generalizing head with
  | zero =>
    cases head with
    | none => exact Prog.reads_pure _
    | some id => exact Prog.reads_throw _
  | succ fuel ih =>
    cases head with
    | none => exact Prog.reads_pure _
    | some id =>
      refine (bucketAt_reads id).bind fun bucket => (Prog.reads_lift _).bind fun found => ?_
      cases found with
      | none => exact ih _
      | some h => exact Prog.reads_pure _

theorem readRecord_reads (id byteOffset : ℕ) :
    (readRecord id byteOffset : Prog Fault (Container B) (Option (RecordView × ℕ))).Reads :=
  (bucketAt_reads id).bind fun _ => (Prog.reads_pure _).ite <|
    (Prog.reads_lift _).bind fun _ => Prog.reads_pure _

end Container

namespace HashMap

variable {α : Type}

theorem onCat_reads {m : Prog Fault Catalogue α} (hm : m.Reads) :
    (onCat m : Prog Fault (HashMap B) α).Reads := hm.zoom fun _ => rfl

theorem onDat_reads {m : Prog Fault (Container B) α} (hm : m.Reads) : (onDat m).Reads := hm.zoom fun _ => rfl

/-- `hash_map::find` writes nothing. -/
theorem find_reads : (find fuel hash key : Prog Fault (HashMap B) (Option View)).Reads :=
  (onCat_reads (Catalogue.find_reads hash)).bind fun _ => onDat_reads (Container.findRecord_reads _ _ _ _)

end HashMap

/-! ### Iterators -/

namespace ConstIterator

theorem skipEntries_reads (n catalogueIndex : ℕ) :
    (skipEntries n catalogueIndex : Prog Fault (HashMap B) ℕ).Reads := by
  induction n generalizing catalogueIndex with
  | zero => exact Prog.reads_pure _
  | succ n ih =>
    exact (HashMap.onCat_reads (Catalogue.entry_reads _)).bind fun _ =>
      (HashMap.onCat_reads (Catalogue.entry_reads _)).bind fun _ => (ih _).ite (Prog.reads_pure _)

theorem findNextRecord_reads (it : ConstIterator) :
    (findNextRecord fuel it : Prog Fault (HashMap B) ConstIterator).Reads := by
  induction fuel generalizing it with
  | zero => exact Prog.reads_throw _
  | succ fuel ih =>
    refine (HashMap.onDat_reads (Container.readRecord_reads _ _)).bind fun record => ?_
    cases record with
    | some r => exact Prog.reads_pure _
    | none =>
      refine (HashMap.onDat_reads (Container.bucketAt_reads _)).bind fun bucket => ?_
      cases bucket.nextBucketId with
      | some next => exact ih _
      | none =>
        exact Prog.reads_get.bind fun _ => (skipEntries_reads _ _).bind fun _ => (Prog.reads_pure _).ite <|
          (HashMap.onCat_reads (Catalogue.entry_reads _)).bind fun _ => ih _

theorem atBegin_reads : (atBegin fuel : Prog Fault (HashMap B) ConstIterator).Reads :=
  Prog.reads_get.bind fun _ =>
    ((HashMap.onCat_reads (Catalogue.entry_reads _)).bind fun _ => findNextRecord_reads _ _).ite (Prog.reads_pure _)

theorem deref_reads (it : ConstIterator) : (deref it : Prog Fault (HashMap B) (View × View)).Reads := by
  refine (HashMap.onDat_reads (Container.readRecord_reads _ _)).bind fun record => ?_
  cases record <;> exact Prog.reads_pure _

theorem next_reads (it : ConstIterator) : (next fuel it : Prog Fault (HashMap B) ConstIterator).Reads :=
  (HashMap.onDat_reads (Container.readRecord_reads _ _)).bind fun _ => findNextRecord_reads _ _

theorem collect_reads (it : ConstIterator) :
    (collect fuel steps it : Prog Fault (HashMap B) (List (Bytes × Bytes))).Reads := by
  induction steps generalizing it with
  | zero =>
    unfold collect
    exact (Prog.reads_pure _).ite (Prog.reads_throw _)
  | succ steps ih =>
    unfold collect
    exact (Prog.reads_pure _).ite <| (deref_reads it).bind fun _ => Prog.reads_get.bind fun _ =>
      (next_reads fuel it).bind fun _ => (ih _).bind fun _ => Prog.reads_pure _

end ConstIterator

/-! ### The sharded map and the server -/

namespace ShardedHashMap

variable {α : Type}

theorem onShard_reads (idx : ℕ) {sec : Prog Fault (HashMap defaultBucketSize) α} (hsec : sec.Reads) :
    (onShard idx sec).Reads := by
  intro s
  unfold onShard
  cases hm : s.shards[idx]? with
  | none => rfl
  | some m =>
    have hs := hsec m
    obtain ⟨hlt, rfl⟩ := List.getElem?_eq_some_iff.mp hm
    dsimp only
    cases hsm : sec s.shards[idx] with
    | ok a m' =>
      rw [hsm] at hs
      show ({ s with shards := s.shards.set idx m' } : ShardedHashMap) = s
      rw [show m' = s.shards[idx] from hs, List.set_getElem_self]
    | error e m' =>
      rw [hsm] at hs
      show ({ s with shards := s.shards.set idx m' } : ShardedHashMap) = s
      rw [show m' = s.shards[idx] from hs, List.set_getElem_self]

theorem get_reads : (get fuel key).Reads :=
  Prog.reads_get.bind fun _ => onShard_reads _ <| (HashMap.find_reads _ _ _).bind fun _ =>
    Prog.reads_get.bind fun _ => Prog.reads_pure _

theorem scanShard_reads (idx : ℕ) : (scanShard fuel steps idx).Reads :=
  onShard_reads idx <| (ConstIterator.atBegin_reads fuel).bind fun _ =>
    (ConstIterator.collect_reads _ _ _).bind fun _ => Prog.reads_pure _

theorem keysLoop_reads (n idx : ℕ) : (keysLoop fuel steps n idx).Reads := by
  induction n generalizing idx with
  | zero => exact Prog.reads_pure _
  | succ n ih => exact (scanShard_reads _ _ _).bind fun _ => (ih _).bind fun _ => Prog.reads_pure _

theorem keys_reads : (keys fuel steps).Reads := Prog.reads_get.bind fun _ => keysLoop_reads _ _ _ _

end ShardedHashMap

namespace HttpServer

theorem handleGet_reads : (handleGet fuel key).Reads := by
  refine (ShardedHashMap.get_reads _ _).bind fun result => ?_
  cases result <;> exact Prog.reads_pure _

theorem handleKeys_reads : (handleKeys fuel steps).Reads :=
  (ShardedHashMap.keys_reads _ _).bind fun _ => Prog.reads_pure _

/-- A request that is neither a `PUT` nor a `POST` nor a `DELETE` writes nothing, whatever it asks for and whatever
is stored. -/
theorem handleRequest_reads (os : Os) {req : Request} (hreq : req.method = .get ∨ req.method = .other) :
    (handleRequest os fuel steps req).Reads := by
  have hset : ¬ (req.method = .put ∨ req.method = .post) := by rcases hreq with h | h <;> simp [h]
  have hdelete : ¬ req.method = .delete := by rcases hreq with h | h <;> simp [h]
  unfold handleRequest
  dsimp only
  rw [if_neg (c := _ ∧ (req.method = .put ∨ req.method = .post)) fun h => hset h.2,
    if_neg (c := _ ∧ req.method = .delete) fun h => hdelete h.2]
  exact (Prog.reads_pure _).ite <| (handleKeys_reads _ _).ite <|
    ((Prog.reads_pure _).ite (handleGet_reads _ _)).ite (Prog.reads_pure _)

end HttpServer

end Reading

end DiskHash
