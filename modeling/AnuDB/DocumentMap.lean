import AnuDB.Index
import AnuDB.Lib.History

/-!
# The documents of a collection are a finite map

What a collection is for, apart from its indexes: a map from ids to data
(`AnuDB.DocumentMap`). A call that reports OK binds one id or removes one, and a call of
any other outcome, like every call on an index, leaves the map as it was
(`AnuDB.DocumentMap.next`). Nothing in that is said of families, bytes or writes.

The collection behaves like its map. Whatever calls are made on it, and however each of
them ends, what `readDocument` shows is what the map says after the same history
(`AnuDB.documents_eq_map`). The simulation goes through because the write of the document
is the last one of a call: up to it the call has not reported OK, and only entries have
been written, and from it on the call has reported OK. It rests on the id in a stored
envelope being the key it is stored under (`AnuDB.WellStored`), since `updateDocument`
stores under the one what it has read under the other.
-/

namespace AnuDB

open Effect

variable {codec : Codec} {c : Collection} {e e₀ e' : StorageEngine}

/-! ### The map -/

/-- **The documents of a collection, as a map** from ids to data. -/
abbrev DocumentMap : Type := Bytes → Option Json

/-- A call on one collection. -/
inductive CollectionCall where
  /-- A document call. -/
  | document (call : DocumentCall) : CollectionCall
  /-- `createIndex`. -/
  | createIndex (index : Bytes) : CollectionCall
  /-- `deleteIndex`. -/
  | deleteIndex (index : Bytes) : CollectionCall

/-- Data with `_id` added if it is absent; null counts as the empty object. -/
def identified (id : Bytes) : Json → Json
  | .null => .object [(idField, .string id)]
  | .object members =>
    if (members.lookup idField).isSome then .object members
    else .object (Assoc.set idField (.string id) members)
  | data => data

namespace DocumentMap

/-- The id that is bound: one is generated for the empty one. -/
def target (entropy : Entropy) (id : Bytes) : Bytes := if id = [] then generateId entropy else id

/-- An id is bound to data. -/
def assign (m : DocumentMap) (id : Bytes) (data : Json) : DocumentMap :=
  Function.update m id (some (identified id data))

/-- The data an update starts from: that of the id, or `_id` alone where it is missing and
the update is an upsert. -/
def before (m : DocumentMap) (id : Bytes) (upsert : Bool) : Option Json :=
  match m id with
  | some data => some data
  | none => if upsert then some (.object [(idField, .string id)]) else none

/-- **What a call that reports OK does to the map.** -/
def apply (m : DocumentMap) : CollectionCall → DocumentMap
  | .document (.create entropy doc) => m.assign (target entropy doc.id_) doc.data_
  | .document (.update entropy id ops upsert) =>
    match (m.before id upsert).bind fun data =>
      ((⟨id, data⟩ : Document).applyUpdate ops).toOption with
    | some doc => m.assign (target entropy id) doc.data_
    | none => m
  | .document (.delete id) => Function.update m id none
  | .createIndex _ => m
  | .deleteIndex _ => m

/-- **What a call does to the map**, by what came of it. -/
def next (m : DocumentMap) (label : CollectionCall × Outcome Exn Status) : DocumentMap :=
  match label.2 with
  | .ret status => if status.ok then m.apply label.1 else m
  | _ => m

end DocumentMap

/-! ### The calls -/

/-- The call, as an operation. -/
def CollectionCall.operation (c : Collection) : CollectionCall → Operation
  | .document call => .document c call
  | .createIndex index => .createIndex c index
  | .deleteIndex index => .deleteIndex c index

/-- **A step of a collection**: a call, with any outcome. -/
def CollectionStep (codec : Codec) (c : Collection) (e : StorageEngine)
    (label : CollectionCall × Outcome Exn Status) (e' : StorageEngine) : Prop :=
  ∃ fates, ((((label.1.operation c).perform codec).run ⟨e, fates⟩).1 = label.2) ∧
    (((label.1.operation c).perform codec).run ⟨e, fates⟩).2.engine = e'

/-- The document `readDocument` shows under an id, where RocksDB does not refuse. -/
def seen (codec : Codec) (c : Collection) (e : StorageEngine) (id : Bytes) : Option Document :=
  match ((c.readDocument codec id).run (World.calm e)).1 with
  | .ret (.ok doc) => some doc
  | _ => none

/-- What is read is what is stored. -/
theorem readDocument_eq_ret {fates : Stream' Fate} {id : Bytes} {doc : Document} {w' : World}
    (h : (c.readDocument codec id).run ⟨e, fates⟩ = (.ret (.ok doc), w')) :
    e.document codec c.name_ id = some doc := by
  rw [Collection.run_readDocument] at h
  rcases hf : (World.mk e fates).fates.head.fault? with _ | fault
  · simp [hf] at h
  · simp only [hf, Prod.mk.injEq] at h
    rcases hr : e.readDocument codec fault c.name_ id with exn | r
    · simp [hr, Outcome.ofExcept] at h
    · rw [hr] at h
      obtain rfl : r = .ok doc := by simpa [Outcome.ofExcept] using h.1
      exact (StorageEngine.readDocument_eq_ok_iff.mp hr).2

theorem seen_eq (id : Bytes) : seen codec c e id = e.document codec c.name_ id := by
  rcases hdoc : e.document codec c.name_ id with _ | doc
  · rw [seen]
    split
    · next doc hrun =>
      have hread : e.document codec c.name_ id = some doc :=
        readDocument_eq_ret (Prod.ext hrun rfl)
      exact absurd (hdoc.symm.trans hread) (by simp)
    · rfl
  · have hread := StorageEngine.readDocument_eq_ok_iff.mpr ⟨rfl, hdoc⟩
    have hrun := @Collection.run_readDocument codec c (.calm e) id
    have hfault : (World.calm e).fates.head.fault? = some none := rfl
    rw [hfault] at hrun
    simp only [show (World.calm e).engine = e from rfl, hread] at hrun
    rw [seen, hrun]
    rfl

/-! ### What a step does to the documents -/

/-- **What is stored decodes** to an object, under the id it has. -/
def WellStored (codec : Codec) (c : Collection) (e : StorageEngine) : Prop :=
  ∀ id serialized, e.lookup c.name_ id = some serialized → ∃ doc,
    Document.from_msgpack codec serialized = .ok doc ∧ doc.id_ = id ∧ doc.data_.isObject = true

/-- **The collection stands for the map.** -/
def Represents (codec : Codec) (c : Collection) (m : DocumentMap) (e : StorageEngine) : Prop :=
  WellStored codec c e ∧ ∀ id, m id = (e.document codec c.name_ id).map Document.data_

theorem WellStored.document (h : WellStored codec c e) {id : Bytes} {doc : Document}
    (hdoc : e.document codec c.name_ id = some doc) : doc.id_ = id ∧ doc.data_.isObject = true := by
  obtain ⟨serialized, hlookup, hdecode⟩ := Option.bind_eq_some_iff.mp hdoc
  obtain ⟨doc', hok, hdoc'⟩ := h id serialized hlookup
  rw [hok] at hdecode
  obtain rfl : doc' = doc := Option.some.inj hdecode
  exact hdoc'

/-- What a collection stands for is in its own family. -/
theorem Represents.congr {m : DocumentMap} (h : Represents codec c m e)
    (hlookup : ∀ id, e'.lookup c.name_ id = e.lookup c.name_ id) : Represents codec c m e' := by
  refine ⟨fun id serialized hs => h.1 id serialized (hlookup id ▸ hs), fun id => ?_⟩
  rw [h.2 id, StorageEngine.document, StorageEngine.document, hlookup]

/-- The document that is stored has its data from the one given, with `_id`. -/
theorem withId_assignId {entropy : Entropy} {doc doc' : Document}
    (h : (Collection.assignId entropy doc).withId = .ok doc') :
    doc'.id_ = DocumentMap.target entropy doc.id_ ∧ doc'.data_ = identified doc'.id_ doc.data_ := by
  have hid : doc'.id_ = DocumentMap.target entropy doc.id_ := by
    rw [Document.id_of_withId h, Collection.assignId, DocumentMap.target]
    split_ifs <;> rfl
  have hdata : (Collection.assignId entropy doc).data_ = doc.data_ := by
    rw [Collection.assignId]
    split_ifs <;> rfl
  refine ⟨hid, ?_⟩
  rw [Document.id_of_withId h]
  rw [Document.withId, Document.hasField, Document.setValue, hdata] at h
  generalize Collection.assignId entropy doc = doc₁ at h hdata ⊢
  split_ifs at h with hfield
  · obtain rfl := Except.ok.inj h
    rcases hd : doc.data_ <;> simp_all [identified, Json.contains, Json.find?]
  · obtain ⟨data, hset, hdata'⟩ := bind_eq_ok_iff.mp h
    rw [← Except.ok.inj hdata']
    rcases hd : doc.data_ <;> simp_all [identified, Json.contains, Json.find?, Json.setMember]

/-- What an update stores, in terms of the map. -/
theorem Represents.stored_update {m : DocumentMap} (h : Represents codec c m e)
    (entropy : Entropy) (id : Bytes) (ops : Json) (upsert : Bool) :
    (DocumentCall.update entropy id ops upsert).stored codec c e =
      (m.before id upsert).bind fun data => ((⟨id, data⟩ : Document).applyUpdate ops).toOption.bind
        fun doc => (Collection.assignId entropy doc).withId.toOption := by
  rw [DocumentCall.stored, DocumentMap.before, h.2 id, StorageEngine.document]
  rcases hlookup : e.lookup c.name_ id with _ | serialized
  · cases upsert <;> rfl
  · obtain ⟨doc, hok, rfl, -⟩ := h.1 id serialized hlookup
    simp [hok, Except.toOption]

/-- **The document a call stores**, in terms of the map. -/
theorem Represents.apply_eq {m : DocumentMap} (h : Represents codec c m e) {call : DocumentCall}
    {doc : Document} (hstored : call.stored codec c e = some doc) :
    m.apply (.document call) = Function.update m doc.id_ (some doc.data_) ∧
      doc.data_.isObject = true := by
  have hassign {entropy : Entropy} {doc₁ : Document}
      (h₁ : (Collection.assignId entropy doc₁).withId.toOption = some doc) :
      m.assign (DocumentMap.target entropy doc₁.id_) doc₁.data_ =
        Function.update m doc.id_ (some doc.data_) ∧ doc.data_.isObject = true := by
    rcases hwith : (Collection.assignId entropy doc₁).withId with exn | doc'
    · simp [hwith, Except.toOption] at h₁
    · obtain rfl : doc' = doc := by simpa [hwith, Except.toOption] using h₁
      obtain ⟨hid, hdata⟩ := withId_assignId hwith
      exact ⟨by rw [DocumentMap.assign, ← hid, ← hdata], Document.isObject_of_withId hwith⟩
  cases call with
  | create entropy doc₁ => exact hassign hstored
  | update entropy id ops upsert =>
    rw [h.stored_update] at hstored
    simp only [DocumentMap.apply]
    generalize m.before id upsert = before at hstored ⊢
    rcases before with _ | data
    · simp at hstored
    · simp only [Option.bind_some] at hstored ⊢
      rcases happ : (⟨id, data⟩ : Document).applyUpdate ops with exn | doc₁
      · simp [happ, Except.toOption] at hstored
      · have hid : doc₁.id_ = id := Document.id_of_applyUpdate happ
        rw [happ] at hstored
        simp only [Except.toOption]
        rw [← hid]
        exact hassign hstored
  | delete id => exact absurd hstored (by simp [DocumentCall.stored])

/-- A document call that does not report OK has not come to the document. -/
theorem DocumentCall.landed_of_not_ok {w : World} {call : DocumentCall}
    (hok : ¬∃ status, ((call.perform codec c).run w).1 = .ret status ∧ status.ok = true) {x : Write}
    (hx : x ∈ call.landed codec c w) : x.family ≠ c.name_ := by
  rw [run_ok_iff] at hok
  rcases hsteps : call.steps codec c w.engine with _ | steps'
  · rw [landed_of_steps hsteps] at hx
    exact absurd hx List.not_mem_nil
  · -- the document is the last step, and the steps have not all landed
    obtain ⟨doc, value, last, rfl⟩ : ∃ doc value last, steps' = entrySteps codec c doc value
        (w.engine.getIndexNames c.name_) ++ [last] := by
      cases call with
      | delete id =>
        obtain ⟨doc, -, rfl⟩ := Option.map_eq_some_iff.mp hsteps
        exact ⟨doc, _, _, rfl⟩
      | _ =>
        obtain ⟨doc, -, rfl⟩ := Option.map_eq_some_iff.mp hsteps
        exact ⟨doc, _, _, rfl⟩
    have hprefix := landed_beginning hsteps
    rcases List.prefix_concat_iff.mp hprefix with hall | hentries
    · exact absurd (hsteps.trans (congrArg some hall.symm)) hok
    · have hmem := hentries.subset (List.mem_map.mpr ⟨x, hx, rfl⟩)
      obtain ⟨f, -, key, -, rfl⟩ := mem_entrySteps.mp hmem
      exact indexFamily_ne c.name_ f

/-- A document call that reports OK does to the documents what it does to the map. -/
theorem Represents.complete {m : DocumentMap} (h : Represents codec c m e) {call : DocumentCall}
    {ws : List Write} (hcomplete : call.Completes codec c e ws) :
    Represents codec c (m.apply (.document call)) (e.applyAll ws) := by
  rcases DocumentCall.completes_cases hcomplete with
    ⟨doc, hstored, hsteps⟩ | ⟨doc, id, rfl, hdoc, hsteps⟩
  · have hws := DocumentCall.batch_of_steps hsteps
    have hmem := hcomplete.2 _ ((hws _).mpr (Or.inr rfl))
    obtain ⟨hmap, hobject⟩ := h.apply_eq hstored
    rw [hmap]
    refine ⟨fun id serialized hs => ?_, fun id => ?_⟩
    · by_cases hid : id = doc.id_
      · subst hid
        rw [hws.lookup_document hmem] at hs
        obtain rfl := Option.some.inj hs
        exact ⟨doc, Document.from_msgpack_to_msgpack codec doc, rfl, hobject⟩
      · rw [hws.lookup_document_of_ne hid] at hs
        exact h.1 id serialized hs
    · by_cases hid : id = doc.id_
      · subst hid
        rw [Function.update_self, hws.document_eq hmem]
        rfl
      · rw [Function.update_of_ne hid, h.2 id, StorageEngine.document, StorageEngine.document,
          hws.lookup_document_of_ne hid]
  · have hws := DocumentCall.batch_of_steps hsteps
    have hmem := hcomplete.2 _ ((hws _).mpr (Or.inr rfl))
    refine ⟨fun i serialized hs => ?_, fun i => ?_⟩
    · by_cases hid : i = id
      · rw [hid, hws.lookup_document hmem] at hs
        exact absurd hs (by simp)
      · rw [hws.lookup_document_of_ne hid] at hs
        exact h.1 i serialized hs
    · rw [DocumentMap.apply]
      by_cases hid : i = id
      · rw [hid, Function.update_self, StorageEngine.document, hws.lookup_document hmem]
        rfl
      · rw [Function.update_of_ne hid, h.2 i, StorageEngine.document, StorageEngine.document,
          hws.lookup_document_of_ne hid]

/-- Calls on indexes leave the documents alone, whatever comes of them. -/
theorem contents_of_onIndexes {α : Type} {p : Engine α} {w : World}
    (h : p.Uses (Call.OnIndexes c.name_)) :
    (p.run w).2.engine.contents c.name_ = w.engine.contents c.name_ := by
  refine Engine.contents_run (h.mono fun x hx htouches => ?_)
  obtain ⟨f, hf⟩ := hx c.name_ htouches
  exact indexFamily_ne c.name_ f hf.symm

/-- **A step of the collection is a step of the map.** -/
theorem Represents.next {m : DocumentMap} (h : Represents codec c m e)
    {label : CollectionCall × Outcome Exn Status} (hstep : CollectionStep codec c e label e') :
    Represents codec c (m.next label) e' := by
  obtain ⟨call, outcome⟩ := label
  obtain ⟨fates, hout, rfl⟩ := hstep
  change (((call.operation c).perform codec).run ⟨e, fates⟩).1 = outcome at hout
  subst hout
  have hindex (p : Engine Status) (hp : p.Uses (Call.OnIndexes c.name_)) :
      Represents codec c m (p.run ⟨e, fates⟩).2.engine := by
    refine h.congr fun id => ?_
    rw [StorageEngine.lookup, StorageEngine.lookup, contents_of_onIndexes hp]
  cases call with
  | createIndex index =>
    have hsame (outcome : Outcome Exn Status) : m.next (.createIndex index, outcome) = m := by
      rcases outcome with status | _ | _ <;> simp [DocumentMap.next, DocumentMap.apply]
    rw [hsame]
    exact hindex _ (Collection.uses_createIndex none index)
  | deleteIndex index =>
    have hsame (outcome : Outcome Exn Status) : m.next (.deleteIndex index, outcome) = m := by
      rcases outcome with status | _ | _ <;> simp [DocumentMap.next, DocumentMap.apply]
    rw [hsame]
    exact hindex _ (Collection.uses_deleteIndex index)
  | document call =>
    change Represents codec c (m.next (.document call, ((call.perform codec c).run ⟨e, fates⟩).1))
      ((call.perform codec c).run ⟨e, fates⟩).2.engine
    rw [DocumentCall.run_engine]
    by_cases hok : ∃ status, ((call.perform codec c).run ⟨e, fates⟩).1 = .ret status ∧
      status.ok = true
    · have hsteps := (DocumentCall.run_ok_iff call).mp hok
      obtain ⟨status, hret, hstatus⟩ := hok
      have hnext : m.next (.document call, .ret status) = m.apply (.document call) := if_pos hstatus
      rw [hret, hnext]
      exact h.complete ⟨hsteps, fun x hx => DocumentCall.mem_of_mem_landed hx⟩
    · have hsame : m.next (.document call, ((call.perform codec c).run ⟨e, fates⟩).1) = m := by
        rcases hout : ((call.perform codec c).run ⟨e, fates⟩).1 with status | _ | _
        · exact if_neg fun hstatus => hok ⟨status, hout, hstatus⟩
        · rfl
        · rfl
      rw [hsame]
      exact h.congr fun id => StorageEngine.lookup_applyAll_of_forall fun x hx hfamily =>
        absurd hfamily (DocumentCall.landed_of_not_ok hok hx)

/-- **The documents of a collection are its map**, after any calls with any outcomes, and
what is read has the id it was asked for and is an object. -/
theorem documents_eq_map (hempty : e₀.contents c.name_ = some ∅)
    {history : List (CollectionCall × Outcome Exn Status)}
    (h : History.Run (CollectionStep codec c) e₀ history e) :
    (∀ id, (seen codec c e id).map Document.data_ =
      history.foldl DocumentMap.next (fun _ => none) id) ∧
    ∀ fates id doc w', (c.readDocument codec id).run ⟨e, fates⟩ = (.ret (.ok doc), w') →
      doc.id_ = id ∧ doc.data_.isObject = true := by
  have hstart : Represents codec c (fun _ => none) e₀ := by
    refine ⟨fun id serialized hs => ?_, fun id => ?_⟩
    · rw [StorageEngine.lookup_of_empty hempty] at hs
      exact absurd hs (by simp)
    · rw [StorageEngine.document, StorageEngine.lookup_of_empty hempty]
      rfl
  have hrun : Represents codec c (history.foldl DocumentMap.next fun _ => none) e := by
    refine h.simulates (R := Represents codec c) hstart ?_
    intro m e₁ label e₂ hm hs
    exact hm.next hs
  refine ⟨fun id => ?_, fun fates id doc w' hread => hrun.1.document (readDocument_eq_ret hread)⟩
  rw [seen_eq, ← hrun.2 id]

/-- A document without `_id` is created. -/
def createPlain : DocumentCall :=
  .create ⟨0, fun _ => 0⟩ ⟨Bytes.ofText "a", .object [(Bytes.ofText "f", .integer 1)]⟩

/-- A field of it is set. -/
def setField : DocumentCall :=
  .update ⟨0, fun _ => 0⟩ (Bytes.ofText "a")
    (.object [(Bytes.ofText "$set", .object [(Bytes.ofText "f", .integer 2)])]) false

/-- The collection after document calls that all go through. -/
def plainAfter (calls : List DocumentCall) : StorageEngine :=
  Operation.afterAll .standard .fresh
    (.createCollection letterC.name_ :: calls.map (.document letterC))

theorem documents_eq_map_of_update :
    (seen .standard letterC (plainAfter [createPlain, setField]) (Bytes.ofText "a")).map
        Document.data_ =
      some (.object [(idField, .string (Bytes.ofText "a")), (Bytes.ofText "f", .integer 2)]) := by
  have hempty : (plainAfter []).contents letterC.name_ = some ∅ := by decide +kernel
  have h₁ : CollectionStep .standard letterC (plainAfter [])
      (.document createPlain, .ret .OK) (plainAfter [createPlain]) :=
    ⟨Stream'.const .ok, by rfl, by rfl⟩
  have h₂ : CollectionStep .standard letterC (plainAfter [createPlain])
      (.document setField, .ret .OK) (plainAfter [createPlain, setField]) :=
    ⟨Stream'.const .ok, by rfl, by rfl⟩
  have hmap := (documents_eq_map hempty ((History.Run.nil.snoc h₁).snoc h₂)).1 (Bytes.ofText "a")
  exact hmap.trans (by rfl)

end AnuDB
