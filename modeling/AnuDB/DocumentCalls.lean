import AnuDB.Collection

/-!
# What a document call writes, and how much of it lands

`createDocument`, `updateDocument` and `deleteDocument` have one shape: they read, which
changes nothing, and then they carry out a list of writes. The list depends on the
engine and on the arguments only; it is `AnuDB.DocumentCall.steps`, with an exception
in the place of an entry whose key cannot be built, and nothing where the call ends
before it writes. How far a run gets is decided by the fates of its calls:
`AnuDB.DocumentCall.landed` is what took effect.

Two facts are all that the rest needs about these calls:

* a run leaves the engine with what landed applied to it, and nothing else
  (`AnuDB.DocumentCall.run_engine`);
* a run reports OK exactly when there was a list and all of it landed
  (`AnuDB.DocumentCall.run_ok_iff`).
-/

namespace AnuDB

open Effect

/-- A call that writes a document. -/
inductive DocumentCall where
  /-- `createDocument`. -/
  | create (entropy : Entropy) (doc : Document) : DocumentCall
  /-- `updateDocument`. -/
  | update (entropy : Entropy) (id : Bytes) (ops : Json) (upsert : Bool) : DocumentCall
  /-- `deleteDocument`. -/
  | delete (id : Bytes) : DocumentCall

/-- The document stored under an id, where there is one that decodes. -/
def StorageEngine.document (codec : Codec) (e : StorageEngine) (collection id : Bytes) :
    Option Document :=
  (e.lookup collection id).bind fun serialized =>
    (Document.from_msgpack codec serialized).toOption

/-- What `readDocument` returns or throws, with RocksDB refusing or not. -/
def StorageEngine.readDocument (codec : Codec) (e : StorageEngine) (fault : Option Bytes)
    (collection id : Bytes) : Except Exn (Except Status Document) :=
  match e.get fault collection id with
  | .error status => .ok (.error status)
  | .ok serialized =>
    match Document.from_msgpack codec serialized with
    | .ok doc => .ok (.ok doc)
    | .error e => (corruptionOf e).map .error

namespace DocumentCall

variable (codec : Codec) (c : Collection)

/-- The call, made. -/
def perform : DocumentCall → Engine Status
  | .create entropy doc => Prod.fst <$> c.createDocument codec entropy doc
  | .update entropy id ops upsert => c.updateDocument codec entropy id ops upsert
  | .delete id => c.deleteDocument codec id

/-! ### The writes of a call -/

/-- The entries of a document in the indexes it has a field for, written with a value or
removed. -/
def entrySteps (doc : Document) (value : Option Bytes) (indexes : List Bytes) :
    List (Except Exn Write) :=
  (indexes.filter fun index => hasIndexField doc.data_ index).map fun index =>
    (Collection.entryKey codec doc index).map fun key => ⟨c.getIndexCfName index, key, value⟩

/-- The writes of a document that is stored: its entries, and then itself. -/
def storeSteps (doc : Document) (indexes : List Bytes) : List (Except Exn Write) :=
  entrySteps codec c doc (some doc.id_) indexes ++
    [.ok ⟨c.name_, doc.id_, some (doc.to_msgpack codec)⟩]

/-- The removals of a document: its entries, and then the key it was read from. -/
def removeSteps (doc : Document) (id : Bytes) (indexes : List Bytes) : List (Except Exn Write) :=
  entrySteps codec c doc none indexes ++ [.ok ⟨c.name_, id, none⟩]

/-- **The document a call stores**, if it gets so far. -/
def stored (e : StorageEngine) : DocumentCall → Option Document
  | .create entropy doc => (Collection.assignId entropy doc).withId.toOption
  | .update entropy id ops upsert =>
    -- a missing document and a missing collection are not told apart
    (match e.lookup c.name_ id with
      | none => if upsert then some (Collection.upserted id) else none
      | some serialized => (Document.from_msgpack codec serialized).toOption).bind fun doc =>
        (doc.applyUpdate ops).toOption.bind fun doc =>
          (Collection.assignId entropy doc).withId.toOption
  | .delete _ => none

/-- **What a call has to write**, or nothing if it ends before it writes. -/
def steps (e : StorageEngine) (call : DocumentCall) : Option (List (Except Exn Write)) :=
  match call with
  | .delete id => (e.document codec c.name_ id).map fun doc =>
      removeSteps codec c doc id (e.getIndexNames c.name_)
  | call => (call.stored codec c e).map fun doc => storeSteps codec c doc (e.getIndexNames c.name_)

/-- The document is read, or found not to be there: RocksDB can refuse to read a key, but
it is not asked where the collection has no family. -/
def ReadPasses (w : World) : Prop :=
  w.fates.head = .ok ∨ w.fates.head ≠ .stop ∧ c.name_ ∉ w.engine.columnFamilies_

instance (w : World) : Decidable (ReadPasses c w) := by unfold ReadPasses; infer_instance

/-- The fates left for the writes of a call, if its reads go through: the list of indexes
is read by every call, and an update or a deletion reads the document before that. -/
def fatesOfWrites (w : World) : DocumentCall → Option (Stream' Fate)
  | .create .. => if w.fates.head = .stop then none else some w.fates.tail
  | _ => if ReadPasses c w ∧ w.fates.tail.head ≠ .stop then some w.fates.tail.tail else none

/-- **The writes of a call that take effect.** -/
def landed (w : World) (call : DocumentCall) : List Write :=
  match call.steps codec c w.engine, call.fatesOfWrites c w with
  | some steps, some fates => w.engine.landed fates steps
  | _, _ => []

end DocumentCall

/-! ### The loops -/

namespace Engine

variable {α : Type} {w : World}

/-- A write that is accepted is accepted with the status OK. -/
theorem tryWrite_eq_OK {e : StorageEngine} {fault : Option Bytes} {x : Write}
    (h : (e.tryWrite fault x).1.ok = true) : (e.tryWrite fault x).1 = .OK := by
  obtain ⟨rfl, hx⟩ := StorageEngine.tryWrite_ok_iff.mp h
  rw [StorageEngine.mem_iff_contents, StorageEngine.contents] at hx
  obtain ⟨cf, hcf⟩ := Option.isSome_iff_exists.mp hx
  cases hv : x.value <;>
    simp [StorageEngine.tryWrite, hv, StorageEngine.put, StorageEngine.remove, hcf]

/-- A loop of one write is that write. -/
theorem run_writes_singleton (x : Write) : (writes [.ok x]).run w = (write x).run w := by
  rw [run_writes_cons, ← bind_pure (write x), run_write_bind]
  cases w.fates.head.fault? with
  | none => rfl
  | some fault =>
    by_cases hok : (w.engine.tryWrite fault x).1.ok
    · simp [writes, tryWrite_eq_OK hok]
    · simp [hok]

theorem writes_append (steps steps' : List (Except Exn Write)) :
    writes (steps ++ steps') = (do
      let status ← writes steps
      if status.ok then writes steps' else pure status) := by
  induction steps with
  | nil => rfl
  | cons step steps ih =>
    simp only [List.cons_append, writes, ih, bind_assoc]
    congr 1
    funext x
    congr 1
    funext status
    by_cases hok : status.ok <;> simp [hok]

/-- The loop and then one more write is the loop with that write at its end. -/
theorem run_writes_then (steps : List (Except Exn Write)) (x : Write) :
    (do
      let status ← writes steps
      if status.ok then write x else pure status).run w =
    (writes (steps ++ [.ok x])).run w := by
  rw [writes_append]
  simp only [run, Prog.run_bind]
  rcases Prog.run World.handle (writes steps) w with ⟨status | _ | _, w'⟩
  · by_cases hok : status.ok
    · simpa [hok] using (run_writes_singleton x).symm
    · simp [hok]
  · rfl
  · rfl

end Engine

namespace Collection

variable {codec : Codec} {c : Collection} {α : Type} {w : World}

/-- A loop over indexes is the loop of writes of their entries, if its method writes
one. -/
theorem forIndexes_eq {method : Document → Bytes → Engine Status} {doc : Document}
    {value : Option Bytes}
    (hmethod : ∀ index, method doc index = do
      let key ← Prog.ofExcept (entryKey codec doc index)
      Engine.write ⟨c.getIndexCfName index, key, value⟩) (indexes : List Bytes) :
    forIndexes method doc indexes =
      Engine.writes (DocumentCall.entrySteps codec c doc value indexes) := by
  induction indexes with
  | nil => rfl
  | cons index indexes ih =>
    rw [DocumentCall.entrySteps] at ih
    by_cases hf : hasIndexField doc.data_ index
    · rw [forIndexes, if_pos hf, DocumentCall.entrySteps, List.filter_cons_of_pos hf,
        List.map_cons, Engine.writes, hmethod, ih]
      rcases entryKey codec doc index with e | key <;> rfl
    · rw [forIndexes, if_neg hf, DocumentCall.entrySteps, List.filter_cons_of_neg hf, ih]

/-- The run of `createDocument`: the list of indexes is read, and the writes are carried
out. -/
theorem run_createDocument {entropy : Entropy} {doc doc' : Document}
    (hdoc : (assignId entropy doc).withId = .ok doc') :
    (c.createDocument codec entropy doc).run w =
      if w.fates.head = .stop then (.stopped, w)
      else
        let r := (Engine.writes (DocumentCall.storeSteps codec c doc'
          (w.engine.getIndexNames c.name_))).run (w.next w.engine)
        (r.1.map fun status => (status, doc'), r.2) := by
  have hloop (indexes : List Bytes) : forIndexes (c.insertIfIndexFieldExists codec) doc' indexes =
      Engine.writes (DocumentCall.entrySteps codec c doc' (some doc'.id_) indexes) :=
    forIndexes_eq (fun _ => rfl) indexes
  have hprog (indexes : List Bytes) : (do
      let status ← forIndexes (c.insertIfIndexFieldExists codec) doc' indexes
      if status.ok then
        let status ← Engine.put c.name_ doc'.id_ (doc'.to_msgpack codec)
        return (status, doc')
      else return (status, doc')) = (fun status => (status, doc')) <$> (do
        let status ← Engine.writes (DocumentCall.entrySteps codec c doc' (some doc'.id_) indexes)
        if status.ok then
          Engine.write ⟨c.name_, doc'.id_, some (doc'.to_msgpack codec)⟩
        else pure status) := by
    rw [hloop, map_bind]
    congr 1
    funext status
    by_cases hok : status.ok <;> simp [hok, Engine.write]
  rw [createDocument, hdoc]
  change (Engine.getIndexNames c.name_ >>= _ : Engine _).run w = _
  rw [Engine.run_getIndexNames_bind]
  split_ifs with hstop
  · rfl
  · have hthen := Engine.run_writes_then (w := w.next w.engine)
      (DocumentCall.entrySteps codec c doc' (some doc'.id_) (w.engine.getIndexNames c.name_))
      ⟨c.name_, doc'.id_, some (doc'.to_msgpack codec)⟩
    rw [Engine.run] at hthen
    rw [hprog, Engine.run, Prog.run_map, hthen]
    rfl

/-- A document that cannot be given its `_id` is not stored. -/
theorem run_createDocument_of_error {entropy : Entropy} {doc : Document} {e : Exn}
    (hdoc : (assignId entropy doc).withId = .error e) :
    (c.createDocument codec entropy doc).run w = (.raise e, w) := by
  rw [createDocument, hdoc]
  rfl

/-- The run of `readDocument`. -/
theorem run_readDocument (id : Bytes) :
    (c.readDocument codec id).run w = match w.fates.head.fault? with
      | none => (.stopped, w)
      | some fault =>
        (.ofExcept (w.engine.readDocument codec fault c.name_ id), w.next w.engine) := by
  rw [readDocument, Engine.get, Engine.run_call_bind]
  rcases w.fates.head.fault? with _ | fault
  · rfl
  · simp only [StorageEngine.exec, StorageEngine.readDocument]
    rcases w.engine.get fault c.name_ id with status | serialized
    · rfl
    · rcases hd : Document.from_msgpack codec serialized with e | doc
      · cases e <;> simp only [hd] <;> rfl
      · simp only [hd]
        rfl

/-- The run of `readDocument` followed by the rest. -/
theorem run_readDocument_bind (id : Bytes) (k : Except Status Document → Engine α) :
    (c.readDocument codec id >>= k).run w = match w.fates.head.fault? with
      | none => (.stopped, w)
      | some fault =>
        match w.engine.readDocument codec fault c.name_ id with
        | .error e => (.raise e, w.next w.engine)
        | .ok r => (k r).run (w.next w.engine) := by
  have hread := @run_readDocument codec c w id
  simp only [Engine.run] at hread
  simp only [Engine.run, Prog.run_bind, hread]
  rcases w.fates.head.fault? with _ | fault
  · rfl
  · simp only
    rcases w.engine.readDocument codec fault c.name_ id with e | r <;> rfl

end Collection

namespace StorageEngine

variable {codec : Codec} {e : StorageEngine} {fault : Option Bytes} {collection id : Bytes}

/-- Reading a document gives the document that is stored, unless RocksDB refuses. -/
theorem readDocument_eq_ok_iff {doc : Document} :
    e.readDocument codec fault collection id = .ok (.ok doc) ↔
      fault = none ∧ e.document codec collection id = some doc := by
  rw [readDocument, document, lookup, contents, get]
  rcases e.columnFamilies_[collection]? with _ | cf
  · simp
  · rcases fault with _ | text
    · rcases hk : cf[id]? with _ | serialized
      · simp [hk]
      · rcases hd : Document.from_msgpack codec serialized with exn | doc'
        · cases exn <;> simp [hk, hd, corruptionOf, Except.map, Except.toOption]
        · simp [hk, hd, Except.toOption]
    · simp

/-- A status that reading a document returns is not OK, and it says NotFound exactly when
the key is not there and RocksDB has not refused. -/
theorem readDocument_eq_error {status : Status}
    (h : e.readDocument codec fault collection id = .ok (.error status)) :
    status.ok = false ∧ (status.isNotFound = true ↔
      e.lookup collection id = none ∧ (fault = none ∨ collection ∉ e.columnFamilies_)) := by
  simp only [readDocument, get] at h
  simp only [lookup, contents, mem_iff_contents]
  rcases hcf : e.columnFamilies_[collection]? with _ | cf
  · obtain rfl : _ = status := by simpa [hcf] using h
    simp
  · rcases fault with _ | text
    · rcases hk : cf[id]? with _ | serialized
      · obtain rfl : _ = status := by simpa [hcf, hk] using h
        simp [hk]
      · rcases hd : Document.from_msgpack codec serialized with exn | doc
        · rcases exn with what | u
          · obtain rfl : _ = status := by simpa [hcf, hk, hd, corruptionOf, Except.map] using h
            simp [hk]
          · simp [hcf, hk, hd, corruptionOf, Except.map] at h
        · simp [hcf, hk, hd] at h
    · obtain rfl : _ = status := by simpa [hcf] using h
      simp

/-- Where reading a document throws, the document is there and does not decode. -/
theorem document_of_readDocument_eq_throw {exn : Exn}
    (h : e.readDocument codec fault collection id = .error exn) :
    ∃ serialized, e.lookup collection id = some serialized ∧
      (Document.from_msgpack codec serialized).toOption = none := by
  simp only [readDocument, get] at h
  simp only [lookup, contents]
  rcases hcf : e.columnFamilies_[collection]? with _ | cf
  · simp [hcf] at h
  · rcases fault with _ | text
    · rcases hk : cf[id]? with _ | serialized
      · simp [hcf, hk] at h
      · rcases hd : Document.from_msgpack codec serialized with exn | doc
        · exact ⟨serialized, by simpa using hk, by rw [hd]; rfl⟩
        · simp [hcf, hk, hd] at h
    · simp [hcf] at h

theorem mem_of_lookup {serialized : Bytes} (h : e.lookup collection id = some serialized) :
    collection ∈ e.columnFamilies_ := by
  obtain ⟨cf, hcf, -⟩ := Option.bind_eq_some_iff.mp h
  rw [mem_iff_contents, hcf]
  rfl

theorem mem_of_document {doc : Document} (h : e.document codec collection id = some doc) :
    collection ∈ e.columnFamilies_ := by
  obtain ⟨serialized, hs, -⟩ := Option.bind_eq_some_iff.mp h
  exact mem_of_lookup hs

end StorageEngine

namespace DocumentCall

variable {codec : Codec} {c : Collection} {w : World}

/-- A call ends before it writes: it changes nothing and reports no success. -/
def Idle (codec : Codec) (c : Collection) (w : World) (call : DocumentCall) : Prop :=
  call.landed codec c w = [] ∧ ((call.perform codec c).run w).2.engine = w.engine ∧
    ∀ status, ((call.perform codec c).run w).1 = .ret status → status.ok = false

/-- A call comes to its writes. -/
def Writes (codec : Codec) (c : Collection) (w : World) (call : DocumentCall) : Prop :=
  ∃ steps fates, call.steps codec c w.engine = some steps ∧ call.fatesOfWrites c w = some fates ∧
    (call.perform codec c).run w = (Engine.writes steps).run ⟨w.engine, fates⟩

theorem landed_of_steps {call : DocumentCall} (h : call.steps codec c w.engine = none) :
    call.landed codec c w = [] := by
  rw [landed, h]

theorem landed_of_fates {call : DocumentCall} (h : call.fatesOfWrites c w = none) :
    call.landed codec c w = [] := by
  rw [landed, h]
  split <;> simp_all

theorem run_create_cases (entropy : Entropy) (doc : Document) :
    (DocumentCall.create entropy doc).Writes codec c w ∨
      (DocumentCall.create entropy doc).Idle codec c w := by
  have hrun : ((DocumentCall.create entropy doc).perform codec c).run w =
      (((c.createDocument codec entropy doc).run w).1.map Prod.fst,
        ((c.createDocument codec entropy doc).run w).2) := Prog.run_map ..
  rcases hdoc : (Collection.assignId entropy doc).withId with exn | doc'
  · rw [Collection.run_createDocument_of_error hdoc] at hrun
    refine Or.inr ⟨landed_of_steps ?_, by rw [hrun], fun status h => ?_⟩
    · simp [steps, stored, hdoc, Except.toOption]
    · simp [hrun, Outcome.map] at h
  · rw [Collection.run_createDocument hdoc] at hrun
    by_cases hstop : w.fates.head = .stop
    · rw [if_pos hstop] at hrun
      refine Or.inr ⟨landed_of_fates (if_pos hstop), by rw [hrun], fun status h => ?_⟩
      · simp [hrun, Outcome.map] at h
    · rw [if_neg hstop] at hrun
      refine Or.inl ⟨storeSteps codec c doc' (w.engine.getIndexNames c.name_), w.fates.tail,
        ?_, if_neg hstop, hrun.trans ?_⟩
      · simp only [steps, stored, hdoc, Except.toOption, Option.map_some]
      · simp only [World.next]
        generalize Engine.run _ _ = r
        rcases r with ⟨_ | _ | _, w'⟩ <;> rfl

/-- A call that only read is idle. -/
theorem idle_of_run {call : DocumentCall} {outcome : Outcome Exn Status} {w' : World}
    (hlanded : call.landed codec c w = []) (hrun : (call.perform codec c).run w = (outcome, w'))
    (hw : w'.engine = w.engine) (hout : ∀ status, outcome = .ret status → status.ok = false) :
    call.Idle codec c w :=
  ⟨hlanded, by rw [hrun, hw], fun status h => hout status (by rwa [hrun] at h)⟩

theorem readPasses_iff {fault : Option Bytes} (hf : w.fates.head.fault? = some fault) :
    ReadPasses c w ↔ fault = none ∨ c.name_ ∉ w.engine.columnFamilies_ := by
  rw [ReadPasses]
  rcases hhead : w.fates.head with _ | text | _ <;> simp [hhead, Fate.fault?] at hf <;>
    subst hf <;> simp

theorem landed_of_not_readPasses {call : DocumentCall} (hread : ¬ReadPasses c w)
    (hcall : ∀ entropy doc, call ≠ .create entropy doc) : call.landed codec c w = [] := by
  refine landed_of_fates ?_
  cases call with
  | create entropy doc => exact absurd rfl (hcall entropy doc)
  | _ => exact if_neg fun h => hread h.1

/-- A run that stops at its first call. -/
theorem not_readPasses_of_stop (hf : w.fates.head.fault? = none) : ¬ReadPasses c w := by
  rw [Fate.fault?_eq_none_iff] at hf
  rintro (h | h)
  · rw [hf] at h
    exact absurd h (by simp)
  · exact h.1 hf

theorem run_delete_cases (id : Bytes) :
    (DocumentCall.delete id).Writes codec c w ∨ (DocumentCall.delete id).Idle codec c w := by
  have hrun : ((DocumentCall.delete id).perform codec c).run w = _ :=
    Collection.run_readDocument_bind id _
  have hnil (h : ¬ReadPasses c w) : (DocumentCall.delete id).landed codec c w = [] :=
    landed_of_not_readPasses h (by simp)
  have hnone (h : w.engine.document codec c.name_ id = none) :
      (DocumentCall.delete id).landed codec c w = [] :=
    landed_of_steps (by rw [steps, h]; rfl)
  rcases hf : w.fates.head.fault? with _ | fault
  · rw [hf] at hrun
    exact Or.inr (idle_of_run (hnil (not_readPasses_of_stop hf)) hrun rfl (by simp))
  · rw [hf] at hrun
    -- where no document is read, no write lands
    have hunread (h : ∀ doc, w.engine.readDocument codec fault c.name_ id ≠ .ok (.ok doc)) :
        (DocumentCall.delete id).landed codec c w = [] := by
      rcases hdoc : w.engine.document codec c.name_ id with _ | doc
      · exact hnone hdoc
      · refine hnil fun hpass => ?_
        rcases (readPasses_iff hf).mp hpass with hfault | hmem
        · exact h doc (StorageEngine.readDocument_eq_ok_iff.mpr ⟨hfault, hdoc⟩)
        · exact hmem (StorageEngine.mem_of_document hdoc)
    rcases hr : w.engine.readDocument codec fault c.name_ id with exn | status | doc
    · simp only [hr] at hrun
      exact Or.inr (idle_of_run (hunread (by simp [hr])) hrun rfl (by simp))
    · simp only [hr] at hrun
      refine Or.inr (idle_of_run (hunread (by simp [hr])) hrun rfl ?_)
      rintro _ ⟨rfl⟩
      exact (StorageEngine.readDocument_eq_error hr).1
    · obtain ⟨rfl, hdoc⟩ := StorageEngine.readDocument_eq_ok_iff.mp hr
      simp only [hr] at hrun
      rw [Engine.run_getIndexNames_bind] at hrun
      by_cases hstop : w.fates.tail.head = .stop
      · have hfates : (DocumentCall.delete id).fatesOfWrites c w = none :=
          if_neg fun h => h.2 hstop
        rw [World.next_fates, if_pos hstop] at hrun
        exact Or.inr (idle_of_run (landed_of_fates hfates) hrun rfl (by simp))
      · have hpass : ReadPasses c w := (readPasses_iff hf).mpr (Or.inl rfl)
        have hloop (indexes : List Bytes) :
            Collection.forIndexes (c.deleteIfIndexFieldExists codec) doc indexes =
              Engine.writes (entrySteps codec c doc none indexes) :=
          Collection.forIndexes_eq (fun _ => rfl) indexes
        rw [World.next_fates, if_neg hstop, hloop] at hrun
        refine Or.inl ⟨removeSteps codec c doc id (w.engine.getIndexNames c.name_), w.fates.tail.tail,
          by rw [steps, hdoc]; rfl, if_pos ⟨hpass, hstop⟩, hrun.trans ?_⟩
        exact Engine.run_writes_then _ ⟨c.name_, id, none⟩

/-- With the document to update at hand, the call is a `createDocument`. -/
theorem run_update_of_found {entropy : Entropy} {id : Bytes} {ops : Json} {upsert : Bool}
    {doc : Document} (hpass : ReadPasses c w)
    (hstored : (DocumentCall.update entropy id ops upsert).stored codec c w.engine =
      (doc.applyUpdate ops).toOption.bind fun doc =>
        (Collection.assignId entropy doc).withId.toOption)
    (hrun : ((DocumentCall.update entropy id ops upsert).perform codec c).run w =
      (do
        let doc ← Prog.ofExcept (doc.applyUpdate ops)
        (DocumentCall.create entropy doc).perform codec c : Engine Status).run
          (w.next w.engine)) :
    (DocumentCall.update entropy id ops upsert).Writes codec c w ∨
      (DocumentCall.update entropy id ops upsert).Idle codec c w := by
  rcases happ : doc.applyUpdate ops with exn | doc'
  · rw [happ] at hrun hstored
    refine Or.inr (idle_of_run (landed_of_steps ?_) hrun rfl (by simp))
    simp [steps, hstored, Except.toOption]
  · have hcall : ((DocumentCall.update entropy id ops upsert).perform codec c).run w =
        ((DocumentCall.create entropy doc').perform codec c).run (w.next w.engine) := by
      rw [hrun, happ]
      rfl
    have hsteps : (DocumentCall.update entropy id ops upsert).steps codec c w.engine =
        (DocumentCall.create entropy doc').steps codec c w.engine := by
      rw [steps, steps, hstored, happ]
      · rfl
      · simp
      · simp
    have hfates : (DocumentCall.update entropy id ops upsert).fatesOfWrites c w =
        (DocumentCall.create entropy doc').fatesOfWrites c (w.next w.engine) := by
      by_cases hstop : w.fates.tail.head = .stop
      · exact (if_neg fun h => h.2 hstop).trans (if_pos hstop).symm
      · exact (if_pos ⟨hpass, hstop⟩).trans (if_neg hstop).symm
    rcases @run_create_cases codec c (w.next w.engine) entropy doc' with
      ⟨steps', fates, h, h', hwrites⟩ | ⟨hnone, hengine, hstatus⟩
    · exact Or.inl ⟨steps', fates, hsteps.trans h, hfates.trans h', hcall.trans hwrites⟩
    · refine Or.inr ⟨?_, by rw [hcall, hengine]; rfl, by rwa [hcall]⟩
      rw [landed, hsteps, hfates]
      exact hnone

theorem run_update_cases (entropy : Entropy) (id : Bytes) (ops : Json) (upsert : Bool) :
    (DocumentCall.update entropy id ops upsert).Writes codec c w ∨
      (DocumentCall.update entropy id ops upsert).Idle codec c w := by
  have hrun : ((DocumentCall.update entropy id ops upsert).perform codec c).run w = _ :=
    Collection.run_readDocument_bind id _
  have hnil (h : ¬ReadPasses c w) :
      (DocumentCall.update entropy id ops upsert).landed codec c w = [] :=
    landed_of_not_readPasses h (by simp)
  rcases hf : w.fates.head.fault? with _ | fault
  · rw [hf] at hrun
    exact Or.inr (idle_of_run (hnil (not_readPasses_of_stop hf)) hrun rfl (by simp))
  · rw [hf] at hrun
    rcases hr : w.engine.readDocument codec fault c.name_ id with exn | status | doc
    · simp only [hr] at hrun
      obtain ⟨serialized, hlookup, hdecode⟩ := StorageEngine.document_of_readDocument_eq_throw hr
      refine Or.inr (idle_of_run (landed_of_steps ?_) hrun rfl (by simp))
      simp [steps, stored, hlookup, hdecode]
    · simp only [hr] at hrun
      obtain ⟨hok, hnotFound⟩ := StorageEngine.readDocument_eq_error hr
      by_cases hup : (status.isNotFound && upsert) = true
      · -- nothing is stored, and the document that is updated is a new one
        rw [if_pos hup] at hrun
        obtain ⟨hmissing, rfl⟩ := Bool.and_eq_true_iff.mp hup
        obtain ⟨hlookup, hpass⟩ := hnotFound.mp hmissing
        refine run_update_of_found ((readPasses_iff hf).mpr hpass) ?_ hrun
        simp [stored, hlookup]
      · -- the status is returned, whatever is stored
        rw [if_neg hup] at hrun
        refine Or.inr (idle_of_run ?_ hrun rfl (by rintro _ ⟨rfl⟩; exact hok))
        rcases hlookup : w.engine.lookup c.name_ id with _ | serialized
        · cases upsert with
          | false => exact landed_of_steps (by simp [steps, stored, hlookup])
          | true =>
            refine hnil fun hpass => hup ?_
            rw [hnotFound.mpr ⟨hlookup, (readPasses_iff hf).mp hpass⟩]
            rfl
        · rcases hdecode : (Document.from_msgpack codec serialized).toOption with _ | doc
          · exact landed_of_steps (by simp [steps, stored, hlookup, hdecode])
          · have hdoc : w.engine.document codec c.name_ id = some doc := by
              rw [StorageEngine.document, hlookup, Option.bind_some, hdecode]
            refine hnil fun hpass => ?_
            rcases (readPasses_iff hf).mp hpass with hfault | hmem
            · rw [StorageEngine.readDocument_eq_ok_iff.mpr ⟨hfault, hdoc⟩] at hr
              exact absurd hr (by simp)
            · exact hmem (StorageEngine.mem_of_lookup hlookup)
    · obtain ⟨rfl, hdoc⟩ := StorageEngine.readDocument_eq_ok_iff.mp hr
      simp only [hr] at hrun
      obtain ⟨serialized, hlookup, hdecode⟩ := Option.bind_eq_some_iff.mp hdoc
      refine run_update_of_found ((readPasses_iff hf).mpr (Or.inl rfl)) ?_ hrun
      simp [stored, hlookup, hdecode]

/-- **A run of a document call** either ends before it writes, and changes nothing and
reports no success, or it is a run of the loop over its writes. -/
theorem run_cases (call : DocumentCall) : call.Writes codec c w ∨ call.Idle codec c w := by
  cases call with
  | create entropy doc => exact run_create_cases entropy doc
  | update entropy id ops upsert => exact run_update_cases entropy id ops upsert
  | delete id => exact run_delete_cases id

theorem steps_ne_nil {e : StorageEngine} {call : DocumentCall} :
    call.steps codec c e ≠ some [] := by
  cases call <;> simp [steps, storeSteps, removeSteps]

/-- **A run of a document call leaves what landed**, and nothing else. -/
theorem run_engine (call : DocumentCall) :
    ((call.perform codec c).run w).2.engine = w.engine.applyAll (call.landed codec c w) := by
  rcases @run_cases codec c w call with
    ⟨steps', fates, hsteps, hfates, hrun⟩ | ⟨hnil, hengine, -⟩
  · rw [hrun, Engine.run_writes_engine, landed, hsteps, hfates]
  · rw [hengine, hnil, StorageEngine.applyAll_nil]

/-- **A run of a document call reports OK** exactly when it had writes and all of them
landed. -/
theorem run_ok_iff (call : DocumentCall) :
    (∃ status, ((call.perform codec c).run w).1 = .ret status ∧ status.ok = true) ↔
      call.steps codec c w.engine = some ((call.landed codec c w).map .ok) := by
  rcases @run_cases codec c w call with
    ⟨steps', fates, hsteps, hfates, hrun⟩ | ⟨hnil, -, hstatus⟩
  · rw [hrun, Engine.run_writes_ok_iff, landed, hsteps, hfates, Option.some.injEq, eq_comm]
  · refine iff_of_false ?_ (by rw [hnil]; exact steps_ne_nil)
    rintro ⟨status, hret, hok⟩
    rw [hstatus status hret] at hok
    exact absurd hok (by simp)

/-! ### Where the writes of a call go -/

/-- The writes in a list of steps. -/
def writesOf (steps : List (Except Exn Write)) : List Write := steps.filterMap Except.toOption

theorem writesOf_map_ok (ws : List Write) : writesOf (ws.map .ok) = ws := by
  induction ws with
  | nil => rfl
  | cons x ws ih =>
    have hcons : writesOf (.ok x :: ws.map .ok) = x :: writesOf (ws.map .ok) := rfl
    rw [List.map_cons, hcons, ih]

theorem mem_writesOf {steps : List (Except Exn Write)} {x : Write} :
    x ∈ writesOf steps ↔ .ok x ∈ steps := by
  rw [writesOf, List.mem_filterMap]
  constructor
  · rintro ⟨_ | y, hy, hxy⟩
    · exact absurd hxy (by simp [Except.toOption])
    · obtain rfl : y = x := Option.some.inj hxy
      exact hy
  · exact fun h => ⟨_, h, rfl⟩

/-- What landed is the beginning of what there was to write. -/
theorem landed_beginning {steps' : List (Except Exn Write)} {call : DocumentCall}
    (h : call.steps codec c w.engine = some steps') :
    (call.landed codec c w).map .ok <+: steps' := by
  rw [landed, h]
  rcases call.fatesOfWrites c w with _ | fates
  · exact List.nil_prefix
  · exact StorageEngine.landed_beginning fates steps'

theorem landed_sublist {steps' : List (Except Exn Write)} {call : DocumentCall}
    (h : call.steps codec c w.engine = some steps') :
    (call.landed codec c w).Sublist (writesOf steps') := by
  have hsub := (landed_beginning h).sublist.filterMap Except.toOption
  rwa [← writesOf, writesOf_map_ok] at hsub

theorem entrySteps_families (doc : Document) (value : Option Bytes) (indexes : List Bytes) :
    ((writesOf (entrySteps codec c doc value indexes)).map Write.family).Sublist
      (indexes.map (indexFamily c.name_)) := by
  induction indexes with
  | nil => exact List.Sublist.refl _
  | cons index indexes ih =>
    rw [entrySteps] at ih ⊢
    by_cases hf : hasIndexField doc.data_ index
    · rw [List.filter_cons_of_pos hf, List.map_cons, List.map_cons]
      rcases Collection.entryKey codec doc index with exn | key
      · exact ih.cons _
      · exact ih.cons_cons _
    · rw [List.filter_cons_of_neg hf]
      exact ih.cons _

/-- The families a call may write to: those of the listed indexes, and the collection's. -/
def families (c : Collection) (e : StorageEngine) : List Bytes :=
  (e.getIndexNames c.name_).map (indexFamily c.name_) ++ [c.name_]

/-- **A call writes to each of its families at most once**, in their order. -/
theorem steps_families {e : StorageEngine} {steps' : List (Except Exn Write)}
    {call : DocumentCall} (h : call.steps codec c e = some steps') :
    ((writesOf steps').map Write.family).Sublist (families c e) := by
  have hentries (doc : Document) (value : Option Bytes) (x : Write) (hx : x.family = c.name_) :
      ((writesOf (entrySteps codec c doc value (e.getIndexNames c.name_) ++ [.ok x])).map
        Write.family).Sublist (families c e) := by
    have hlast : writesOf [.ok x] = [x] := rfl
    rw [writesOf, List.filterMap_append, ← writesOf, ← writesOf, hlast, List.map_append,
      List.map_singleton, hx]
    exact (entrySteps_families doc value _).append (List.Sublist.refl _)
  cases call with
  | delete id =>
    obtain ⟨doc, -, rfl⟩ := Option.map_eq_some_iff.mp h
    exact hentries doc _ _ rfl
  | _ =>
    obtain ⟨doc, -, rfl⟩ := Option.map_eq_some_iff.mp h
    exact hentries doc _ _ rfl

theorem nodup_families (c : Collection) (e : StorageEngine) : (families c e).Nodup := by
  rw [families, List.nodup_append]
  refine ⟨(e.nodup_getIndexNames c.name_).map fun _ _ => indexFamily_injective,
    List.nodup_singleton _, ?_⟩
  intro a ha b hb hab
  obtain ⟨f, -, rfl⟩ := List.mem_map.mp ha
  rw [List.mem_singleton] at hb
  exact indexFamily_ne c.name_ f (hab.trans hb)

theorem landed_families (call : DocumentCall) :
    ((call.landed codec c w).map Write.family).Sublist (families c w.engine) := by
  rcases h : call.steps codec c w.engine with _ | steps'
  · rw [landed_of_steps h]
    exact List.nil_sublist _
  · exact ((landed_sublist h).map _).trans (steps_families h)

theorem mem_of_mem_landed {call : DocumentCall} {x : Write} (h : x ∈ call.landed codec c w) :
    x.family ∈ w.engine.columnFamilies_ := by
  rw [landed] at h
  split at h
  · exact StorageEngine.mem_of_mem_landed h
  · exact absurd h List.not_mem_nil

/-- Where every call goes through, all the writes of a call land if they have their
families. -/
theorem landed_calm {e : StorageEngine} {call : DocumentCall} {ws : List Write}
    (hsteps : call.steps codec c e = some (ws.map .ok))
    (hws : ∀ x ∈ ws, x.family ∈ e.columnFamilies_) : call.landed codec c (.calm e) = ws := by
  have hread : ReadPasses c (.calm e) ∧ (World.calm e).fates.tail.head ≠ .stop :=
    ⟨Or.inl rfl, show Fate.ok ≠ Fate.stop by simp⟩
  have hfates : call.fatesOfWrites c (.calm e) = some (Stream'.const .ok) := by
    cases call with
    | create entropy doc => rfl
    | _ =>
      rw [fatesOfWrites, if_pos hread]
      · rfl
      · simp
  rw [landed, show (World.calm e).engine = e from rfl, hsteps, hfates]
  exact StorageEngine.landed_const_ok hws

/-! ### Complete calls -/

/-- The call can be completed: it has writes, and all of them have their families. -/
def Completes (codec : Codec) (c : Collection) (e : StorageEngine) (call : DocumentCall)
    (ws : List Write) : Prop :=
  call.steps codec c e = some (ws.map .ok) ∧ ∀ x ∈ ws, x.family ∈ e.columnFamilies_

/-- A complete successful call is one of all the writes there are. -/
theorem exists_complete_iff {call : DocumentCall} {P : StorageEngine → Prop} :
    (∃ fates status complete, (call.perform codec c).run ⟨w.engine, fates⟩ = (.ret status, complete) ∧
      status.ok = true ∧ P complete.engine) ↔
    ∃ ws, Completes codec c w.engine call ws ∧ P (w.engine.applyAll ws) := by
  constructor
  · rintro ⟨fates, status, complete, hrun, hok, hP⟩
    have hsteps := (@run_ok_iff codec c ⟨w.engine, fates⟩ call).mp
      ⟨status, by rw [hrun], hok⟩
    refine ⟨_, ⟨hsteps, fun x hx => mem_of_mem_landed (w := ⟨_, fates⟩) hx⟩, ?_⟩
    have hengine := @run_engine codec c ⟨w.engine, fates⟩ call
    rw [hrun] at hengine
    rwa [← hengine]
  · rintro ⟨ws, ⟨hsteps, hws⟩, hP⟩
    have hlanded := landed_calm hsteps hws
    have hcomplete := @run_ok_iff codec c (.calm w.engine) call
    rw [hlanded] at hcomplete
    obtain ⟨status, hret, hok⟩ := hcomplete.mpr hsteps
    refine ⟨_, status, _, Prod.ext hret rfl, hok, ?_⟩
    have hengine := @run_engine codec c (.calm w.engine) call
    rw [hlanded] at hengine
    exact hengine ▸ hP

end DocumentCall

end AnuDB
